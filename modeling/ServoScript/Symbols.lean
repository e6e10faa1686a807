/-!
# Symbol tables

Names with one value each, in the order in which the names were first entered. Entering a name again
replaces its value and keeps its place: `get?_insert` says what is found afterwards, `names_insert`
where the names stand.
-/

namespace ServoScript

structure Symbols (α : Type) where
  entries : List (String × α) := []

namespace Symbols

variable {α : Type}

def names (t : Symbols α) : List String := t.entries.map (·.1)

def get? (t : Symbols α) (name : String) : Option α := t.entries.lookup name

def contains (t : Symbols α) (name : String) : Bool := (t.get? name).isSome

/-- Replaces the value of a name, or adds the name at the end. -/
def enter (name : String) (value : α) : List (String × α) → List (String × α)
  | [] => [(name, value)]
  | e :: rest => if e.1 = name then (name, value) :: rest else e :: enter name value rest

def insert (t : Symbols α) (name : String) (value : α) : Symbols α := ⟨enter name value t.entries⟩

def size (t : Symbols α) : Nat := t.entries.length

/-! ## Views -/

theorem contains_iff_mem_names {t : Symbols α} {name : String} :
    t.contains name = true ↔ name ∈ t.names := by
  rw [contains, get?, names]
  induction t.entries with
  | nil => simp
  | cons e rest ih =>
    obtain ⟨k, v⟩ := e
    rw [List.lookup_cons, List.map_cons, List.mem_cons, ← ih]
    by_cases h : name = k
    · simp [h]
    · simp [h, beq_eq_false_iff_ne.2 h]

theorem get?_insert (t : Symbols α) (name other : String) (value : α) :
    (t.insert name value).get? other = if other = name then some value else t.get? other := by
  show (enter name value t.entries).lookup other = _
  rw [get?]
  induction t.entries with
  | nil =>
    rw [enter, List.lookup_cons]
    by_cases h : other = name
    · simp [h]
    · simp [h, beq_eq_false_iff_ne.2 h]
  | cons e rest ih =>
    obtain ⟨k, v⟩ := e
    rw [enter]
    by_cases hk : k = name
    · subst hk
      by_cases h : other = k
      · simp [h]
      · simp [List.lookup_cons, h, beq_eq_false_iff_ne.2 h]
    · rw [if_neg hk, List.lookup_cons, List.lookup_cons, ih]
      by_cases h : other = k
      · simp [h, hk]
      · simp [beq_eq_false_iff_ne.2 h]

theorem names_insert (t : Symbols α) (name : String) (value : α) :
    (t.insert name value).names = if name ∈ t.names then t.names else t.names ++ [name] := by
  show (enter name value t.entries).map (·.1) = _
  rw [names]
  induction t.entries with
  | nil => simp [enter]
  | cons e rest ih =>
    rw [enter]
    by_cases he : e.1 = name
    · simp [he]
    · have hne : name ≠ e.1 := fun h => he h.symm
      simp only [he, if_false, List.map_cons, ih, List.mem_cons, hne, false_or]
      split <;> rfl

end Symbols

end ServoScript
