import ServoScript.Proofs.Resolved

/-!
# The image of a program, disassembled

An assembled program is read back from its image item by item: `disassemble_image`. Reading keeps in
step with the items because each of them is settled to an instruction whose arguments its operand
can hold (`Settles.canonical`), and the offsets do not wrap because every item starts at an address
of 16 bits.
-/

namespace ServoScript

open Program

/-! ## Settled items are canonical -/

theorem Opcode.Writable.operand_eq {op : Opcode} {profile : Profile} (h : op.Writable profile) :
    op.operand = .none := by
  obtain ⟨hliteral, hjump, hcall, -⟩ := h
  unfold operand
  split
  · cases hliteral
  · cases hjump
  · cases hjump
  · exact absurd rfl hcall
  · cases hliteral
  · cases hliteral
  · cases hliteral
  · rfl

theorem Item.length_le_of_exceededLimit? {profile : Profile} {n : Nat}
    (h : exceededLimit? profile n = none) : n ≤ 126 := by
  have hle := exceededLimit?_eq_none_iff.mp h
  cases profile <;> simp only [Profile.longestRun] at hle <;> omega

theorem Item.literalOpcode_holds {words : List Word} (hne : words ≠ [])
    (hlen : words.length ≤ 126) : (literalOpcode words).operand.Holds words := by
  have hpos : 0 < words.length := List.length_pos_of_ne_nil hne
  have hnarrow : words.any (255 < ·) = false → ∀ w ∈ words, w.toNat ≤ 255 := by
    intro h w hw
    have hw' := List.any_eq_false.mp h w hw
    simpa [UInt16.lt_iff_toNat_lt] using hw'
  unfold literalOpcode
  dsimp only
  split
  · rename_i hone hwide
    have : words.length = 1 := by
      have := of_decide_eq_false hone
      omega
    exact ⟨this, hnarrow hwide⟩
  · rename_i hone hwide
    have : words.length = 1 := by
      have := of_decide_eq_false hone
      omega
    exact this
  · rename_i hmany hwide
    exact ⟨by omega, hnarrow hwide⟩
  · show words.length ≤ 127
    omega

theorem Settles.canonical {p : Program} {i j : Item} (h : Settles p i j) {c : Instruction}
    (hc : j.instruction? = some c) : c.Canonical := by
  obtain ⟨hcommand, hargs⟩ := Item.command?_of_instruction? hc
  obtain ⟨command, args⟩ := c
  subst hargs
  cases h with
  | opcode hop =>
    cases hcommand
    exact (congrArg (Operand.Holds · []) hop.operand_eq).mpr rfl
  | run hne hlimit =>
    cases hcommand
    exact Item.literalOpcode_holds hne (Item.length_le_of_exceededLimit? hlimit)
  | label => cases hc
  | subroutine => cases hc
  | @jump _ _ _ addr hop _ =>
    cases hcommand
    exact (congrArg (Operand.Holds · [addr]) (Opcode.operand_of_isJump hop)).mpr rfl
  | direct _ =>
    cases hcommand
    rfl
  | general _ _ =>
    cases hcommand
    rfl

/-! ## Rows and items -/

/-- The rows of a resolved program are its items with bytes. -/
theorem Resolved.disassemble_eq {d p : Program} (h : Resolved d p) :
    Image.disassemble p.image = .ok ((Placed.ofItems 0 p.items.toList).filterMap Placed.row?) := by
  rw [image_eq_flatMap_encode, ← Image.rowsFrom_filterMap]
  refine Image.disassemble_encode _ fun c hc => ?_
  obtain ⟨i, hi, hic⟩ := List.mem_filterMap.mp hc
  obtain ⟨j, hj⟩ := h.exists_settles hi
  exact hj.canonical hic

theorem Resolved.toNat_ofNat_addr {d p : Program} (h : Resolved d p) {x : Placed}
    (hx : x ∈ Placed.ofItems 0 p.items.toList) : (UInt16.ofNat x.addr).toNat = x.addr := by
  obtain ⟨n, hn⟩ := List.mem_iff_getElem?.mp hx
  rw [Placed.getElem?_ofItems] at hn
  obtain ⟨i, hi, rfl⟩ := Option.map_eq_some_iff.mp hn
  rw [Nat.zero_add]
  exact h.toNat_ofNat_bytesBefore (List.getElem?_eq_some_iff.mp hi).1

theorem map_filterMap_eq_map_filter {α β γ : Type} {f : α → Option β} {g : β → γ} {q : α → Bool}
    {k : α → γ} (xs : List α) (hnone : ∀ x ∈ xs, f x = none → q x = false)
    (hsome : ∀ x ∈ xs, ∀ y, f x = some y → q x = true ∧ g y = k x) :
    (xs.filterMap f).map g = (xs.filter q).map k := by
  induction xs with
  | nil => rfl
  | cons x xs ih =>
    have ih := ih (fun y hy => hnone y (by simp [hy])) (fun y hy => hsome y (by simp [hy]))
    cases hf : f x with
    | none =>
      have hq := hnone x (by simp) hf
      rw [List.filterMap_cons_none hf, List.filter_cons_of_neg (by simp [hq]), ih]
    | some y =>
      obtain ⟨hq, hg⟩ := hsome x (by simp) y hf
      rw [List.filterMap_cons_some hf, List.filter_cons_of_pos hq, List.map_cons, List.map_cons, ih,
        hg]

/-- **The image is read back as the program.** Disassembling it gives, in order, exactly the items
that have bytes, each with its own command and arguments and at the sum of the sizes of the items
before it. -/
theorem disassemble_image {file source : String} {profile : Profile} {p : Program}
    (h : assemble file source profile = .ok p) :
    ∃ rows, Image.disassemble p.image = .ok rows ∧
      rows.map (fun r => (r.pc.toNat, some r.instruction.command, r.instruction.args)) =
        ((Placed.ofItems 0 p.items.toList).filter (·.item.bytes ≠ [])).map
          fun x => (x.addr, x.item.command?, x.item.args) := by
  obtain ⟨d, -, -, -, hres⟩ := resolved_of_assemble h
  refine ⟨_, hres.disassemble_eq, map_filterMap_eq_map_filter _ ?_ ?_⟩
  · intro x _ hx
    have hi : x.item.instruction? = none := Option.map_eq_none_iff.mp hx
    simp [Item.bytes_of_none hi]
  · intro x hx row hrow
    obtain ⟨c, hc, rfl⟩ := Option.map_eq_some_iff.mp hrow
    obtain ⟨hcommand, hargs⟩ := Item.command?_of_instruction? hc
    refine ⟨by simp [Item.bytes_eq_nil_iff, hc], ?_⟩
    rw [hres.toNat_ofNat_addr hx, hcommand, hargs]

/-- A loop, a branch with an alternative, literals of both widths and a call. -/
theorem disassemble_image_mixed :
    ∃ p, assemble "script" "begin 1 300 while sub a 7 if a else servo endif repeat" .mini = .ok p ∧
      ∃ rows, Image.disassemble p.image = .ok rows ∧
        rows = [⟨0, .op .literalN, [1, 300]⟩, ⟨6, .op .jumpZ, [22]⟩, ⟨9, .op .literal8, [7]⟩,
          ⟨11, .op .jumpZ, [18]⟩, ⟨14, .sub 0, []⟩, ⟨15, .op .jump, [19]⟩, ⟨18, .op .servo, []⟩,
          ⟨19, .op .jump, [0]⟩] ∧
        rows.map (fun r => (r.pc.toNat, some r.instruction.command, r.instruction.args)) =
          ((Placed.ofItems 0 p.items.toList).filter (·.item.bytes ≠ [])).map
            fun x => (x.addr, x.item.command?, x.item.args) := by
  obtain ⟨p, hp, hq⟩ := exists_ok_of_any
    (x := assemble "script" "begin 1 300 while sub a 7 if a else servo endif repeat" .mini)
    (q := fun p => (Image.disassemble p.image).toOption.any fun rows =>
      rows = [⟨0, .op .literalN, [1, 300]⟩, ⟨6, .op .jumpZ, [22]⟩, ⟨9, .op .literal8, [7]⟩,
        ⟨11, .op .jumpZ, [18]⟩, ⟨14, .sub 0, []⟩, ⟨15, .op .jump, [19]⟩, ⟨18, .op .servo, []⟩,
        ⟨19, .op .jump, [0]⟩]) (by decide +kernel)
  obtain ⟨rows, hrows, heq⟩ := exists_ok_of_any hq
  obtain ⟨rows', hrows', hitems⟩ := disassemble_image hp
  cases hrows.symm.trans hrows'
  exact ⟨p, hp, rows, hrows, of_decide_eq_true heq, hitems⟩

end ServoScript
