import Mathlib.Data.List.Forall2
import ServoScript.Layout
import ServoScript.Proofs.Codec

/-!
# Items in the image

What an item puts into the image as a machine instruction, addresses as numbers of bytes before an
item, and the places of the markers of a program. The places depend only on the roles, positions and
sizes of the items (`places_congr`), so they stay where they are while arguments are filled in.
-/

namespace ServoScript

/-! ## The instruction of an item -/

/-- The machine instruction that an item puts into the image. Markers and unresolved calls put none
there. -/
def Item.instruction? (i : Item) : Option Instruction :=
  match i.role with
  | .label _ | .subroutine _ => none
  | _ => i.command?.map (⟨·, i.args⟩)

theorem Item.bytes_of_none {i : Item} (h : i.instruction? = none) : i.bytes = [] := by
  unfold instruction? at h
  unfold bytes
  split at h
  · simp_all
  · simp_all
  · rw [Option.map_eq_none_iff] at h
    simp [h]

theorem Item.bytes_of_some {i : Item} {c : Instruction} (h : i.instruction? = some c) :
    i.bytes = c.encode := by
  unfold instruction? at h
  unfold bytes
  split at h
  · cases h
  · cases h
  · obtain ⟨command, hcommand, rfl⟩ := Option.map_eq_some_iff.mp h
    simp [hcommand]

theorem Item.command?_of_instruction? {i : Item} {c : Instruction} (h : i.instruction? = some c) :
    i.command? = some c.command ∧ i.args = c.args := by
  unfold instruction? at h
  split at h
  · cases h
  · cases h
  · obtain ⟨command, hcommand, rfl⟩ := Option.map_eq_some_iff.mp h
    exact ⟨hcommand, rfl⟩

theorem Item.size_of_none {i : Item} (h : i.instruction? = none) : i.size = 0 := by
  rw [size, bytes_of_none h, List.length_nil]

theorem Item.size_of_some {i : Item} {c : Instruction} (h : i.instruction? = some c) :
    i.size = c.size := by
  rw [size, bytes_of_some h, Instruction.size]

theorem Item.bytes_eq_nil_iff {i : Item} : i.bytes = [] ↔ i.instruction? = none := by
  refine ⟨fun h => ?_, bytes_of_none⟩
  cases hi : i.instruction? with
  | none => rfl
  | some c =>
    rw [bytes_of_some hi] at h
    cases h

/-- A single operand has its room before it is known. -/
theorem Item.size_push {i : Item} {c : Command} (h : i.head = .set c) (hc : c.operand = .word)
    (w : Word) : (i.push w).size = i.size := by
  have hcommand : i.command? = some c := by rw [command?, h]
  have hpush : (i.push w).command? = some c := by rw [push, command?, h]
  unfold size bytes
  rw [hcommand, hpush]
  cases hrole : i.role <;>
    simp [push, hrole, Instruction.encode, Instruction.operandBytes, hc, Word.bytes]

theorem Program.image_eq_flatMap_encode (p : Program) :
    p.image = (p.items.toList.filterMap Item.instruction?).flatMap Instruction.encode := by
  rw [image]
  induction p.items.toList with
  | nil => rfl
  | cons i rest ih =>
    rw [List.flatMap_cons, ih]
    cases hi : i.instruction? with
    | none => rw [Item.bytes_of_none hi, List.filterMap_cons_none hi, List.nil_append]
    | some c => rw [Item.bytes_of_some hi, List.filterMap_cons_some hi, List.flatMap_cons]

/-! ## Addresses -/

theorem Item.totalSize_eq_length (items : List Item) :
    totalSize items = (items.flatMap Item.bytes).length := by
  induction items with
  | nil => rfl
  | cons i rest ih =>
    rw [totalSize, ih, List.flatMap_cons, List.length_append]
    rfl

/-- The number of bytes that the first `n` items of a program put into its image. -/
def Program.bytesBefore (p : Program) (n : Nat) : Nat :=
  ((p.items.toList.take n).flatMap Item.bytes).length

theorem Program.bytesBefore_succ {p : Program} {n : Nat} {i : Item}
    (hi : p.items.toList[n]? = some i) :
    p.bytesBefore (n + 1) = p.bytesBefore n + i.bytes.length := by
  rw [bytesBefore, List.take_add_one, hi, List.flatMap_append, List.length_append]
  simp [bytesBefore]

theorem Program.bytesBefore_add_length_le {p : Program} {m n : Nat} {i : Item}
    (hi : p.items.toList[m]? = some i) (hlt : m < n) :
    p.bytesBefore m + i.bytes.length ≤ p.bytesBefore n := by
  obtain ⟨k, rfl⟩ := Nat.exists_eq_add_of_le hlt
  have hsplit : p.bytesBefore (m + 1 + k) = p.bytesBefore (m + 1) +
      (((p.items.toList.drop (m + 1)).take k).flatMap Item.bytes).length := by
    rw [bytesBefore, List.take_add, List.flatMap_append, List.length_append, bytesBefore]
  rw [hsplit, bytesBefore_succ hi]
  exact Nat.le_add_right _ _

namespace Placed

theorem getElem?_ofItems (addr : Nat) (items : List Item) (n : Nat) :
    (ofItems addr items)[n]? =
      items[n]?.map fun i => ⟨addr + ((items.take n).flatMap Item.bytes).length, i⟩ := by
  rw [ofItems, List.getElem?_mapIdx]
  simp only [Item.totalSize_eq_length]

theorem ofItems_append (addr : Nat) (front back : List Item) :
    ofItems addr (front ++ back) =
      ofItems addr front ++ ofItems (addr + (front.flatMap Item.bytes).length) back := by
  induction front generalizing addr with
  | nil => simp [ofItems]
  | cons i rest ih =>
    rw [List.cons_append, ofItems_cons, ofItems_cons, ih, List.cons_append, List.flatMap_cons,
      List.length_append, Nat.add_assoc]
    rfl

end Placed

theorem Program.getElem?_layout (p : Program) (n : Nat) :
    p.layout.toList[n]? = p.items.toList[n]?.map fun i => ⟨p.bytesBefore n, i⟩ := by
  rw [toList_layout, Placed.getElem?_ofItems]
  simp only [Nat.zero_add, bytesBefore]

theorem Program.mem_layout {p : Program} {x : Placed} :
    x ∈ p.layout ↔ ∃ n, p.items.toList[n]? = some x.item ∧ x.addr = p.bytesBefore n := by
  rw [← Array.mem_toList_iff, List.mem_iff_getElem?]
  constructor
  · rintro ⟨n, hn⟩
    rw [getElem?_layout] at hn
    obtain ⟨i, hi, rfl⟩ := Option.map_eq_some_iff.mp hn
    exact ⟨n, hi, rfl⟩
  · rintro ⟨n, hi, ha⟩
    refine ⟨n, ?_⟩
    rw [getElem?_layout, hi, Option.map_some, ← ha]

/-- Every item starts at an address of 16 bits. -/
def Addressable (items : List Item) : Prop :=
  ∀ n < items.length, ((items.take n).flatMap Item.bytes).length ≤ 65535

theorem Program.checkedLayout_eq_ok_iff {p : Program} {layout : Array Placed} :
    p.checkedLayout = .ok layout ↔ Addressable p.items.toList ∧ layout = p.layout := by
  have hsmall : p.layout.find? (65535 < ·.addr) = none ↔ Addressable p.items.toList := by
    rw [Array.find?_eq_none]
    constructor
    · intro h n hn
      have hx := h ⟨p.bytesBefore n, p.items.toList[n]⟩ (mem_layout.mpr ⟨n, by simp, rfl⟩)
      rw [decide_eq_true_eq, Nat.not_lt] at hx
      exact hx
    · intro h x hx
      obtain ⟨n, hi, ha⟩ := mem_layout.mp hx
      have hle := h n (List.getElem?_eq_some_iff.mp hi).1
      rw [← bytesBefore, ← ha] at hle
      simp only [decide_eq_true_eq]
      omega
  rw [← hsmall]
  unfold checkedLayout
  dsimp only
  split
  · rename_i x hx
    simp [hx]
  · rename_i hnone
    simp [hnone, eq_comm]

/-! ## Rows of the image -/

/-- The row of a placed item in the disassembled image, if it has bytes. -/
def Placed.row? (x : Placed) : Option Image.Row :=
  x.item.instruction?.map fun c => ⟨UInt16.ofNat x.addr, c⟩

theorem Image.rowsFrom_filterMap (addr : Nat) (items : List Item) :
    rowsFrom addr (items.filterMap Item.instruction?) =
      (Placed.ofItems addr items).filterMap Placed.row? := by
  induction items generalizing addr with
  | nil => rfl
  | cons i rest ih =>
    rw [Placed.ofItems_cons]
    cases hi : i.instruction? with
    | none =>
      have hrow : Placed.row? ⟨addr, i⟩ = none := by simp [Placed.row?, hi]
      rw [List.filterMap_cons_none hi, List.filterMap_cons_none hrow, Item.size_of_none hi,
        Nat.add_zero, ih]
    | some c =>
      have hrow : Placed.row? ⟨addr, i⟩ = some ⟨UInt16.ofNat addr, c⟩ := by simp [Placed.row?, hi]
      rw [List.filterMap_cons_some hi, List.filterMap_cons_some hrow, rowsFrom,
        Item.size_of_some hi, ih]

/-- A row starts where items start, unless nothing of the image is left there. -/
theorem Placed.exists_row_or_end (addr : Nat) (items : List Item) :
    (∃ row ∈ (ofItems addr items).filterMap row?, row.pc = UInt16.ofNat addr) ∨
      items.flatMap Item.bytes = [] := by
  induction items with
  | nil => exact .inr rfl
  | cons i rest ih =>
    rw [ofItems_cons]
    cases hi : i.instruction? with
    | none =>
      have hrow : row? ⟨addr, i⟩ = none := by simp [row?, hi]
      rw [List.filterMap_cons_none hrow, Item.size_of_none hi, List.flatMap_cons,
        Item.bytes_of_none hi]
      exact ih
    | some c =>
      have hrow : row? ⟨addr, i⟩ = some ⟨UInt16.ofNat addr, c⟩ := by simp [row?, hi]
      rw [List.filterMap_cons_some hrow]
      exact .inl ⟨_, List.mem_cons_self, rfl⟩

/-! ## Places of markers -/

def Role.label? : Role → Option String
  | .label name => some name
  | _ => none

def Role.subroutine? : Role → Option String
  | .subroutine name => some name
  | _ => none

@[simp]
theorem Role.label?_eq_some {r : Role} {name : String} :
    r.label? = some name ↔ r = .label name := by
  cases r <;> simp [label?]

/-- A marker of a program: its name, where it is written and the number of bytes before it. -/
structure Place where
  name : String
  pos : Pos
  addr : Nat
  deriving DecidableEq

/-- The markers among items, in order; `name?` tells which roles are meant. -/
def places (name? : Role → Option String) (addr : Nat) (items : List Item) : List Place :=
  (Placed.ofItems addr items).filterMap fun x =>
    (name? x.item.role).map (⟨·, x.item.pos, x.addr⟩)

def markNames (name? : Role → Option String) (items : List Item) : List String :=
  items.filterMap (name? ·.role)

section places

variable (name? : Role → Option String)

theorem markNames_cons (i : Item) (rest : List Item) :
    markNames name? (i :: rest) = (name? i.role).toList ++ markNames name? rest := by
  cases h : name? i.role <;> simp [markNames, h]

theorem markNames_append (xs ys : List Item) :
    markNames name? (xs ++ ys) = markNames name? xs ++ markNames name? ys :=
  List.filterMap_append

theorem places_cons (addr : Nat) (i : Item) (rest : List Item) :
    places name? addr (i :: rest) =
      ((name? i.role).map (⟨·, i.pos, addr⟩ : String → Place)).toList ++
        places name? (addr + i.size) rest := by
  rw [places, Placed.ofItems_cons]
  cases h : name? i.role <;> simp [places, h]

theorem map_name_places (addr : Nat) (items : List Item) :
    (places name? addr items).map (·.name) = markNames name? items := by
  induction items generalizing addr with
  | nil => rfl
  | cons i rest ih =>
    rw [places_cons, List.map_append, ih, markNames_cons]
    cases name? i.role <;> rfl

theorem mem_places {addr : Nat} {items : List Item} {x : Place} :
    x ∈ places name? addr items ↔
      ∃ (n : Nat) (i : Item), items[n]? = some i ∧ name? i.role = some x.name ∧ x.pos = i.pos ∧
        x.addr = addr + ((items.take n).flatMap Item.bytes).length := by
  rw [places, List.mem_filterMap]
  constructor
  · rintro ⟨y, hy, hx⟩
    obtain ⟨n, hn⟩ := List.mem_iff_getElem?.mp hy
    rw [Placed.getElem?_ofItems] at hn
    obtain ⟨i, hi, rfl⟩ := Option.map_eq_some_iff.mp hn
    obtain ⟨name, hname, rfl⟩ := Option.map_eq_some_iff.mp hx
    exact ⟨n, i, hi, hname, rfl, rfl⟩
  · rintro ⟨n, i, hi, hname, hpos, haddr⟩
    refine ⟨⟨x.addr, i⟩, List.mem_iff_getElem?.mpr ⟨n, ?_⟩, ?_⟩
    · rw [Placed.getElem?_ofItems, hi, haddr, Option.map_some]
    · rw [hname, Option.map_some, ← hpos]

/-- Two items that stand for the same thing and take the same room. -/
def Item.SameMark (i j : Item) : Prop := i.role = j.role ∧ i.pos = j.pos ∧ i.size = j.size

theorem places_congr {xs ys : List Item} (h : List.Forall₂ Item.SameMark xs ys) (addr : Nat) :
    places name? addr xs = places name? addr ys := by
  induction h generalizing addr with
  | nil => rfl
  | cons hxy _ ih =>
    obtain ⟨hrole, hpos, hsize⟩ := hxy
    rw [places_cons, places_cons, hrole, hpos, hsize, ih]

end places

theorem markNames_congr (name? : Role → Option String) {xs ys : List Item}
    (h : List.Forall₂ (fun i j => i.role = j.role) xs ys) :
    markNames name? xs = markNames name? ys := by
  induction h with
  | nil => rfl
  | cons hrole _ ih => rw [markNames_cons, markNames_cons, hrole, ih]

theorem length_flatMap_bytes_congr {xs ys : List Item} (h : List.Forall₂ Item.SameMark xs ys)
    (n : Nat) :
    ((xs.take n).flatMap Item.bytes).length = ((ys.take n).flatMap Item.bytes).length := by
  rw [← Item.totalSize_eq_length, ← Item.totalSize_eq_length]
  induction h generalizing n with
  | nil => rfl
  | cons hxy _ ih =>
    cases n with
    | zero => rfl
    | succ n =>
      rw [List.take_succ_cons, List.take_succ_cons, Item.totalSize, Item.totalSize, hxy.2.2, ih]

theorem Addressable.congr {xs ys : List Item} (hx : Addressable xs)
    (h : List.Forall₂ Item.SameMark xs ys) : Addressable ys := by
  intro n hn
  rw [← length_flatMap_bytes_congr h]
  exact hx n (h.length_eq ▸ hn)

namespace Program

def labelPlaces (p : Program) : List Place := places Role.label? 0 p.items.toList

def subroutinePlaces (p : Program) : List Place := places Role.subroutine? 0 p.items.toList

end Program

end ServoScript
