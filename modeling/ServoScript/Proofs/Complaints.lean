import Mathlib.Data.List.Dedup
import ServoScript.Proofs.Placement

/-!
# Complaints about a program

What there is to complain about a program as it is read, in terms of its own items alone. A complaint
is about one item, judged with the items before it (`Complaint.declaration?` and so on), and
`Program.firstComplaint?` is the first complaint of the first kind that there is any of. What a
complaint says is true of the item that it points to (`Program.exists_grounds`).
-/

namespace ServoScript

/-! ## Complaints of actions -/

/-- The complaint with which an action ends, if it fails. -/
def complaint? {ε σ α : Type} : EStateM.Result ε σ α → Option ε
  | .ok _ _ => none
  | .error e _ => some e

def rejection? {ε α : Type} : Except ε α → Option ε
  | .ok _ => none
  | .error e => some e

theorem eq_error_of_rejection? {ε α : Type} {x : Except ε α} {e : ε}
    (h : rejection? x = some e) : x = .error e := by
  cases x with
  | ok a => cases h
  | error e' => exact congrArg Except.error (Option.some.inj h)

theorem exists_error_of_complaint? {ε σ α : Type} {x : EStateM.Result ε σ α} {e : ε}
    (h : complaint? x = some e) : ∃ s, x = .error e s := by
  cases x with
  | ok a s => cases h
  | error e' s =>
    cases h
    exact ⟨s, rfl⟩

theorem complaint?_bind {ε σ α β : Type} {x : EStateM ε σ α} {f : α → EStateM ε σ β} {s : σ}
    {o o' : Option ε} (hx : complaint? (x.run s) = o)
    (hf : ∀ a s₁, x.run s = .ok a s₁ → complaint? ((f a).run s₁) = o') :
    complaint? ((x >>= f).run s) = o.or o' := by
  subst hx
  change complaint? (EStateM.bind x f s) = _
  rw [EStateM.bind]
  cases h : x s with
  | ok a s₁ =>
    rw [show x.run s = .ok a s₁ from h]
    exact hf a s₁ h
  | error e s₁ =>
    rw [show x.run s = .error e s₁ from h]
    rfl

/-- The first complaint about items, each of them judged with all items before it. -/
def firstComplaint (judge : List Item → Item → Option Diag) (before : List Item) :
    List Item → Option Diag
  | [] => none
  | i :: rest => (judge before i).or (firstComplaint judge (before ++ [i]) rest)

section firstComplaint

variable {judge judge' : List Item → Item → Option Diag}

theorem firstComplaint_eq_some {before items : List Item} {d : Diag}
    (h : firstComplaint judge before items = some d) :
    ∃ front i back, items = front ++ i :: back ∧ judge (before ++ front) i = some d ∧
      firstComplaint judge before front = none := by
  induction items generalizing before with
  | nil => cases h
  | cons i rest ih =>
    rw [firstComplaint] at h
    cases hi : judge before i with
    | some e =>
      rw [hi, Option.some_or] at h
      cases h
      exact ⟨[], i, rest, rfl, by rw [List.append_nil, hi], rfl⟩
    | none =>
      rw [hi, Option.none_or] at h
      obtain ⟨front, j, back, rfl, hj, hfront⟩ := ih h
      refine ⟨i :: front, j, back, rfl, ?_, ?_⟩
      · rw [List.append_cons]
        exact hj
      · rw [firstComplaint, hi, Option.none_or, hfront]

theorem firstComplaint_congr {R : Item → Item → Prop} {xs ys before before' : List Item}
    (h : List.Forall₂ R xs ys) (hbefore : List.Forall₂ R before before')
    (hjudge : ∀ {bx bY i j}, List.Forall₂ R bx bY → R i j → judge bx i = judge' bY j) :
    firstComplaint judge before xs = firstComplaint judge' before' ys := by
  induction h generalizing before before' with
  | nil => rfl
  | cons hij _ ih =>
    rw [firstComplaint, firstComplaint, hjudge hbefore hij]
    rw [ih (List.rel_append hbefore (.cons hij .nil))]

end firstComplaint

/-! ## Complaints about a program -/

/-- The size of an item once all calls are resolved; `subs` are the names of the subroutines in
order of declaration. -/
def Item.finalSize (subs : List String) (i : Item) : Nat :=
  match i.role with
  | .call name => if subs.idxOf name < 128 then 1 else 3
  | _ => i.size

/-- The sum of the sizes of some items, where `size` is what an item counts for. -/
def Item.span (size : Item → Nat) : List Item → Nat
  | [] => 0
  | i :: rest => size i + span size rest

theorem Item.span_append (size : Item → Nat) (xs ys : List Item) :
    span size (xs ++ ys) = span size xs + span size ys := by
  induction xs with
  | nil => rw [List.nil_append, span, Nat.zero_add]
  | cons i rest ih => rw [List.cons_append, span, ih, span, Nat.add_assoc]

theorem Item.span_congr {size size' : Item → Nat} {xs ys : List Item}
    (h : List.Forall₂ (fun i j => size' j = size i) xs ys) : span size xs = span size' ys := by
  induction h with
  | nil => rfl
  | cons hij _ ih => rw [span, span, ih, hij]

namespace Complaint

/-- A subroutine that was declared before, or one more than the smaller model has room for. -/
def declaration? (profile : Profile) (before : List Item) (i : Item) : Option Diag :=
  match i.role with
  | .subroutine name =>
    if name ∈ markNames Role.subroutine? before then some ⟨i.pos, .subroutineRedefined name⟩
    else if profile = .micro ∧ (markNames Role.subroutine? before).dedup.length = 128 then
      some ⟨i.pos, .tooManySubroutines 128 .micro⟩
    else none
  | _ => none

/-- A call of something that is no subroutine. -/
def call? (subs : List String) (i : Item) : Option Diag :=
  match i.role with
  | .call name => if name ∈ subs then none else some ⟨i.pos, .notUnderstood name⟩
  | _ => none

/-- An item whose address has more than 16 bits, when items have the sizes that `size` says. -/
def address? (size : Item → Nat) (before : List Item) (i : Item) : Option Diag :=
  if 65535 < Item.span size before then
    some ⟨i.pos, .programTooLarge (Item.span size before)⟩
  else none

/-- A label with the name of an earlier one. -/
def label? (before : List Item) (i : Item) : Option Diag :=
  match i.role with
  | .label name =>
    (before.find? (·.role = .label name)).map fun first =>
      ⟨i.pos, .labelAlreadyUsed name first.pos⟩
  | _ => none

/-- A jump to a label that there is not. -/
def jump? (labels : List String) (i : Item) : Option Diag :=
  match i.role with
  | .jump name => if name ∈ labels then none else some ⟨i.pos, .labelNotFound name⟩
  | _ => none

end Complaint

namespace Program

/-- What there is to complain about the calls of a program: declarations first, then calls of
undeclared names, then addresses. -/
def callComplaint? (p : Program) : Option Diag :=
  let items := p.items.toList
  let subs := markNames Role.subroutine? items
  (firstComplaint (Complaint.declaration? p.profile) [] items).or <|
    (firstComplaint (fun _ => Complaint.call? subs) [] items).or <|
    firstComplaint (Complaint.address? (Item.finalSize subs)) [] items

/-- What there is to complain about the jumps of a program: labels first, then jumps without a
label. -/
def jumpComplaint? (p : Program) : Option Diag :=
  let items := p.items.toList
  let labels := markNames Role.label? items
  (firstComplaint Complaint.label? [] items).or <|
    firstComplaint (fun _ => Complaint.jump? labels) [] items

/-- What resolution has to complain about first. -/
def firstComplaint? (p : Program) : Option Diag := p.callComplaint?.or p.jumpComplaint?

end Program

/-! ## Grounds of complaints -/

/-- What must be the case for a fault of a program to be complained about at the item `i`, which
stands after the items `before`. -/
inductive Complaint.Grounds (p : Program) (before : List Item) (i : Item) : Fault → Prop
  | redefined {name : String} : i.role = .subroutine name →
      name ∈ markNames Role.subroutine? before → Grounds p before i (.subroutineRedefined name)
  | tooMany {name : String} : i.role = .subroutine name → p.profile = .micro →
      (markNames Role.subroutine? before).dedup.length = 128 →
      Grounds p before i (.tooManySubroutines 128 .micro)
  | notUnderstood {name : String} : i.role = .call name →
      name ∉ markNames Role.subroutine? p.items.toList → Grounds p before i (.notUnderstood name)
  | tooLarge {addr : Nat} : 65535 < addr →
      addr = Item.span (Item.finalSize (markNames Role.subroutine? p.items.toList)) before →
      Grounds p before i (.programTooLarge addr)
  | labelUsed {name : String} {first : Item} : i.role = .label name → first ∈ before →
      first.role = .label name → Grounds p before i (.labelAlreadyUsed name first.pos)
  | labelNotFound {name : String} : i.role = .jump name →
      name ∉ markNames Role.label? p.items.toList → Grounds p before i (.labelNotFound name)

namespace Complaint

variable {p : Program} {before : List Item} {i : Item} {d : Diag}

theorem grounds_of_declaration? (h : declaration? p.profile before i = some d) :
    d.pos = i.pos ∧ Grounds p before i d.fault := by
  unfold declaration? at h
  split at h
  · rename_i name hrole
    split_ifs at h with hmem hmany
    · cases h
      exact ⟨rfl, .redefined hrole hmem⟩
    · cases h
      exact ⟨rfl, .tooMany hrole hmany.1 hmany.2⟩
  · cases h

theorem grounds_of_call? (h : call? (markNames Role.subroutine? p.items.toList) i = some d) :
    d.pos = i.pos ∧ Grounds p before i d.fault := by
  unfold call? at h
  split at h
  · rename_i name hrole
    split_ifs at h with hmem
    cases h
    exact ⟨rfl, .notUnderstood hrole hmem⟩
  · cases h

theorem grounds_of_address?
    (h : address? (Item.finalSize (markNames Role.subroutine? p.items.toList)) before i = some d) :
    d.pos = i.pos ∧ Grounds p before i d.fault := by
  unfold address? at h
  split_ifs at h with hlarge
  cases h
  exact ⟨rfl, .tooLarge hlarge rfl⟩

theorem grounds_of_label? (h : label? before i = some d) :
    d.pos = i.pos ∧ Grounds p before i d.fault := by
  unfold label? at h
  split at h
  · rename_i name hrole
    obtain ⟨first, hfirst, rfl⟩ := Option.map_eq_some_iff.mp h
    have hlabel : first.role = .label name := by simpa using List.find?_some hfirst
    exact ⟨rfl, .labelUsed hrole (List.mem_of_find?_eq_some hfirst) hlabel⟩
  · cases h

theorem grounds_of_jump? (h : jump? (markNames Role.label? p.items.toList) i = some d) :
    d.pos = i.pos ∧ Grounds p before i d.fault := by
  unfold jump? at h
  split at h
  · rename_i name hrole
    split_ifs at h with hmem
    cases h
    exact ⟨rfl, .labelNotFound hrole hmem⟩
  · cases h

end Complaint

/-- **A complaint about a program is about one of its items, and it is well founded.** -/
theorem Program.exists_grounds {p : Program} {d : Diag} (h : p.firstComplaint? = some d) :
    ∃ front i back, p.items.toList = front ++ i :: back ∧ d.pos = i.pos ∧
      Complaint.Grounds p front i d.fault := by
  rw [firstComplaint?, callComplaint?, jumpComplaint?] at h
  simp only [Option.or_eq_some_iff] at h
  rcases h with (h | ⟨-, h | ⟨-, h⟩⟩) | ⟨-, h | ⟨-, h⟩⟩
  · obtain ⟨front, i, back, hitems, hi, -⟩ := firstComplaint_eq_some h
    exact ⟨front, i, back, hitems, Complaint.grounds_of_declaration? hi⟩
  · obtain ⟨front, i, back, hitems, hi, -⟩ := firstComplaint_eq_some h
    exact ⟨front, i, back, hitems, Complaint.grounds_of_call? hi⟩
  · obtain ⟨front, i, back, hitems, hi, -⟩ := firstComplaint_eq_some h
    exact ⟨front, i, back, hitems, Complaint.grounds_of_address? hi⟩
  · obtain ⟨front, i, back, hitems, hi, -⟩ := firstComplaint_eq_some h
    exact ⟨front, i, back, hitems, Complaint.grounds_of_label? hi⟩
  · obtain ⟨front, i, back, hitems, hi, -⟩ := firstComplaint_eq_some h
    exact ⟨front, i, back, hitems, Complaint.grounds_of_jump? hi⟩

/-! ## Items that are judged alike -/

def Item.SameRole (i j : Item) : Prop := i.role = j.role ∧ i.pos = j.pos

theorem markNames_sameRole (name? : Role → Option String) {xs ys : List Item}
    (h : List.Forall₂ Item.SameRole xs ys) : markNames name? xs = markNames name? ys :=
  markNames_congr name? (h.imp fun _ _ hij => hij.1)

namespace Complaint

variable {before before' : List Item} {i j : Item}

theorem declaration?_congr (profile : Profile) (hb : List.Forall₂ Item.SameRole before before')
    (h : i.SameRole j) : declaration? profile before i = declaration? profile before' j := by
  rw [declaration?, declaration?, markNames_sameRole _ hb, h.1, h.2]

theorem jump?_congr (labels : List String) (h : i.SameRole j) :
    jump? labels i = jump? labels j := by
  rw [jump?, jump?, h.1, h.2]

theorem label?_congr (hb : List.Forall₂ Item.SameRole before before') (h : i.SameRole j) :
    label? before i = label? before' j := by
  have hfind : ∀ name, (before.find? (·.role = .label name)).map (·.pos) =
      (before'.find? (·.role = .label name)).map (·.pos) := by
    intro name
    induction hb with
    | nil => rfl
    | @cons k l _ _ hkl _ ih =>
      rw [List.find?_cons, List.find?_cons, hkl.1]
      by_cases hl : l.role = .label name
      · simp [hl, hkl.2]
      · simp [hl, ih]
  rw [label?, label?, h.1, h.2]
  cases j.role with
  | label name =>
    have hname := congrArg (Option.map fun first => (⟨j.pos, .labelAlreadyUsed name first⟩ : Diag))
      (hfind name)
    rw [Option.map_map, Option.map_map] at hname
    exact hname
  | code | jump | subroutine | call => rfl

theorem address?_congr {size size' : Item → Nat}
    (hb : List.Forall₂ (fun i j => i.SameRole j ∧ size' j = size i) before before')
    (h : i.SameRole j) : address? size before i = address? size' before' j := by
  rw [address?, address?, Item.span_congr (hb.imp fun _ _ hij => hij.2), h.2]

end Complaint

end ServoScript
