import ServoScript.Proofs.Disassembly

/-!
# Labels and jumps

Where the jumps of an assembled program lead. A label has a name of its own and the address at which
the next instruction of the image starts, and a jump carries the address of the label that it names:
`labels_and_jumps`.
-/

namespace ServoScript

open Program

/-! ## Names that are told apart -/

theorem index_unique_of_markNames_nodup {name? : Role → Option String} {items : List Item}
    (h : (markNames name? items).Nodup) {m n : Nat} {i j : Item} {name : String}
    (hm : items[m]? = some i) (hi : name? i.role = some name)
    (hn : items[n]? = some j) (hj : name? j.role = some name) : m = n := by
  have hpairs := List.pairwise_iff_getElem.mp (List.pairwise_filterMap.mp h)
  obtain ⟨hmlt, rfl⟩ := List.getElem?_eq_some_iff.mp hm
  obtain ⟨hnlt, rfl⟩ := List.getElem?_eq_some_iff.mp hn
  rcases Nat.lt_trichotomy m n with hlt | heq | hlt
  · exact absurd rfl (hpairs m n hmlt hnlt hlt name hi name hj)
  · exact heq
  · exact absurd rfl (hpairs n m hnlt hmlt hlt name hj name hi)

namespace Resolved

variable {d p : Program} (h : Resolved d p)
include h

theorem label_index_unique {m n : Nat} {i j : Item} {name : String}
    (hm : p.items.toList[m]? = some i) (hi : i.role = .label name)
    (hn : p.items.toList[n]? = some j) (hj : j.role = .label name) : m = n :=
  index_unique_of_markNames_nodup h.labels_nodup hm (Role.label?_eq_some.mpr hi) hn
    (Role.label?_eq_some.mpr hj)

theorem findLabel?_eq {n : Nat} {i : Item} {name : String} (hi : p.items.toList[n]? = some i)
    (hrole : i.role = .label name) : p.findLabel? name = some i := by
  obtain ⟨hlt, hget⟩ := List.getElem?_eq_some_iff.mp hi
  rw [Array.getElem_toList] at hget
  refine Array.find?_eq_some_iff_getElem.mpr ⟨by simpa using hrole, n, hlt, hget, fun m hm => ?_⟩
  have hmlt : m < p.items.size := Nat.lt_trans hm hlt
  simp only [Bool.not_eq_true', decide_eq_false_iff_not]
  intro hother
  have hmget : p.items.toList[m]? = some p.items[m] := by simp [hmlt]
  exact absurd (h.label_index_unique hmget hother hi hrole) (Nat.ne_of_lt hm)

theorem exists_label {name : String} {addr : Word} (haddr : p.labelAddress? name = some addr) :
    ∃ (n : Nat) (i : Item), p.items.toList[n]? = some i ∧ i.role = .label name := by
  obtain ⟨⟨pos, w⟩, hget, -⟩ := Option.map_eq_some_iff.mp haddr
  have hname : name ∈ p.labels.names := by
    by_contra hnot
    rw [Symbols.get?_eq_none_iff.mpr hnot] at hget
    cases hget
  rw [Symbols.names, h.labels, List.map_map] at hname
  obtain ⟨x, hx, rfl⟩ := List.mem_map.mp hname
  obtain ⟨n, i, hi, hrole, -⟩ := (mem_places _).mp hx
  exact ⟨n, i, hi, Role.label?_eq_some.mp hrole⟩

/-! ## Jumps -/

theorem jump_args {i : Item} {name : String} (hi : i ∈ p.items.toList)
    (hrole : i.role = .jump name) :
    ∃ addr, i.args = [addr] ∧ p.labelAddress? name = some addr := by
  obtain ⟨j, hj⟩ := h.exists_settles hi
  cases hj with
  | jump _ haddr =>
    cases hrole
    exact ⟨_, rfl, haddr⟩
  | opcode | run | label | subroutine | direct | general => cases hrole

end Resolved

/-- The address of an item is never inside an instruction. -/
theorem Program.exists_row_or_end (p : Program) (n : Nat) :
    (∃ row ∈ (Placed.ofItems 0 p.items.toList).filterMap Placed.row?,
      row.pc = UInt16.ofNat (p.bytesBefore n)) ∨ p.bytesBefore n = p.image.length := by
  have hsplit := Placed.ofItems_append 0 (p.items.toList.take n) (p.items.toList.drop n)
  rw [List.take_append_drop, Nat.zero_add, ← bytesBefore] at hsplit
  rcases Placed.exists_row_or_end (p.bytesBefore n) (p.items.toList.drop n) with
    ⟨row, hrow, hpc⟩ | hend
  · refine .inl ⟨row, ?_, hpc⟩
    rw [hsplit, List.filterMap_append]
    exact List.mem_append_right _ hrow
  · right
    have himage : p.image = (p.items.toList.take n).flatMap Item.bytes ++
        (p.items.toList.drop n).flatMap Item.bytes := by
      rw [← List.flatMap_append, List.take_append_drop, image]
    rw [himage, hend, List.append_nil, bytesBefore]

/-- **Labels and jumps.** Label names are distinct; a label's address is the number of bytes before
it, and it is the one that is found under its name. Every jump carries one word, the address of the
one label of its name, and there an instruction of the disassembled image starts or the image
ends. -/
theorem labels_and_jumps {file source : String} {profile : Profile} {p : Program}
    (h : assemble file source profile = .ok p) :
    (markNames Role.label? p.items.toList).Nodup ∧
    (∀ (n : Nat) (i : Item) (name : String), p.items.toList[n]? = some i → i.role = .label name →
      (p.labelAddress? name).map UInt16.toNat = some (p.bytesBefore n) ∧
        p.findLabel? name = some i) ∧
    ∀ i ∈ p.items.toList, ∀ name, i.role = .jump name →
      ∃ addr n l, i.args = [addr] ∧ addr.toNat = p.bytesBefore n ∧
        p.labelAddress? name = some addr ∧
        p.items.toList[n]? = some l ∧ l.role = .label name ∧
        (∀ (m : Nat) (l' : Item), p.items.toList[m]? = some l' → l'.role = .label name → m = n) ∧
        ∃ rows, Image.disassemble p.image = .ok rows ∧
          ((∃ row ∈ rows, row.pc = addr) ∨ addr.toNat = p.image.length) := by
  obtain ⟨d, -, -, -, hres⟩ := resolved_of_assemble h
  refine ⟨hres.labels_nodup, ?_, ?_⟩
  · intro n i name hi hrole
    refine ⟨?_, hres.findLabel?_eq hi hrole⟩
    rw [hres.labelAddress?_eq hi hrole, Option.map_some,
      hres.toNat_ofNat_bytesBefore (List.getElem?_eq_some_iff.mp hi).1]
  · intro i hi name hrole
    obtain ⟨addr, hargs, haddr⟩ := hres.jump_args hi hrole
    obtain ⟨n, l, hl, hlabel⟩ := hres.exists_label haddr
    have heq : addr = UInt16.ofNat (p.bytesBefore n) := by
      rw [hres.labelAddress?_eq hl hlabel] at haddr
      exact (Option.some.inj haddr).symm
    have hnat : addr.toNat = p.bytesBefore n := by
      rw [heq, hres.toNat_ofNat_bytesBefore (List.getElem?_eq_some_iff.mp hl).1]
    refine ⟨addr, n, l, hargs, hnat, haddr, hl, hlabel, ?_, _, hres.disassemble_eq, ?_⟩
    · intro m l' hl' hlabel'
      exact hres.label_index_unique hl' hlabel' hl hlabel
    · rw [hnat, heq]
      exact p.exists_row_or_end n

/-- A jump out of a loop, to a label after it. -/
theorem labels_and_jumps_forward :
    ∃ p i addr, assemble "script" "begin 1 if goto out endif repeat out: 300" .mini = .ok p ∧
      i ∈ p.items.toList ∧ i.role = .jump "USER_OUT" ∧ i.args = [addr] ∧
        p.labelAddress? "USER_OUT" = some addr := by
  obtain ⟨p, hp, hq⟩ := exists_ok_of_any
    (x := assemble "script" "begin 1 if goto out endif repeat out: 300" .mini)
    (q := fun p => p.items.toList.any (·.role = .jump "USER_OUT")) (by decide +kernel)
  obtain ⟨i, hi, hrole⟩ := List.any_eq_true.mp hq
  have hrole := of_decide_eq_true hrole
  obtain ⟨addr, n, l, hargs, -, haddr, -⟩ := (labels_and_jumps hp).2.2 i hi _ hrole
  exact ⟨p, i, addr, hp, hi, hrole, hargs, haddr⟩

end ServoScript
