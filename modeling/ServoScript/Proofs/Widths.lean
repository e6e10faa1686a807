import ServoScript.Proofs.Decoding
import ServoScript.Proofs.Disassembly
import ServoScript.Proofs.Frames

/-!
# The width of a run of literals

A run of literals gets the command that its words ask for, and no other command that could hold them
would take fewer bytes (`literal_width_minimal`). Writing is total, so a command that is too narrow
has shorter bytes, but these stand for other words: what counts are the commands whose operands
hold the words (`Opcode.holds_of_decode`).
-/

namespace ServoScript

/-! ## Runs -/

/-- A run to which words have been added one by one, too many for the model or not. -/
def Item.runOf (profile : Profile) (pos : Pos) (words : List Word) : Item :=
  words.foldl (fun i w => stateAfter (pushLiteral profile w) i) (.emptyRun pos)

theorem Item.foldl_pushLiteral (profile : Profile) (words : List Word) (i : Item) :
    words.foldl (fun i w => stateAfter (pushLiteral profile w) i) i =
      { i with args := i.args ++ words } := by
  induction words generalizing i with
  | nil => rw [List.foldl_nil, List.append_nil]
  | cons w words ih =>
    rw [List.foldl_cons, stateAfter_pushLiteral, ih, push, List.append_assoc]
    rfl

theorem Item.runOf_eq (profile : Profile) (pos : Pos) (words : List Word) :
    runOf profile pos words = ⟨.code, .run, words, pos⟩ := foldl_pushLiteral profile words _

/-! ## Commands that hold the words -/

def Opcode.literals : List Opcode := [.literal, .literal8, .literalN, .literal8N]

theorem Item.literalOpcode_mem (words : List Word) : literalOpcode words ∈ Opcode.literals := by
  unfold literalOpcode
  dsimp only
  split <;> simp [Opcode.literals]

theorem Opcode.holds_of_decode {op : Opcode} {words : List Word} {c : Command} {n : Nat}
    (h : Instruction.decode (Instruction.encode ⟨.op op, words⟩) = .ok (⟨c, words⟩, n)) :
    op.operand.Holds words := by
  obtain ⟨hcanonical, -, hbytes⟩ := Instruction.decode_eq_ok h
  -- the first byte tells the command
  have hbyte : c.byte = Command.byte (.op op) := (List.cons_prefix_cons.mp hbytes).1
  have hc : some c = some (Command.op op) := by
    rw [← Command.ofByte?_byte, hbyte, Command.ofByte?_byte]
  cases hc
  exact hcanonical

theorem Item.any_wide_eq_false {words : List Word} (h : ∀ w ∈ words, w.toNat ≤ 255) :
    words.any (255 < ·) = false := by
  rw [List.any_eq_false]
  intro w hw
  simpa [UInt16.lt_iff_toNat_lt] using h w hw

/-- The operand bytes of so many words. -/
def Operand.room : Operand → Nat → Nat
  | .none, _ => 0
  | .byte, _ => 1
  | .word, _ => 2
  | .byteRun, n => 1 + n
  | .wordRun, n => 1 + 2 * n

theorem Instruction.length_encode (c : Command) (words : List Word) :
    (encode ⟨c, words⟩).length = 1 + c.operand.room words.length := by
  rw [encode, List.length_cons, Nat.add_comm]
  cases c.operand with
  | none | byte | word => rfl
  | byteRun => simp [operandBytes, Operand.room, Nat.add_comm]
  | wordRun =>
    simp only [operandBytes, Operand.room, List.length_cons, Word.length_flatMap_bytes]
    omega

theorem Item.room_literalOpcode (words : List Word) :
    (literalOpcode words).operand.room words.length =
      if words.length ≤ 1 then if words.any (255 < ·) then 2 else 1
      else if words.any (255 < ·) then 1 + 2 * words.length else 1 + words.length := by
  by_cases hmany : 1 < words.length
  · rw [if_neg (Nat.not_le.mpr hmany)]
    cases hwide : words.any (255 < ·) <;> simp [literalOpcode, hmany, hwide] <;> rfl
  · rw [if_pos (Nat.not_lt.mp hmany)]
    cases hwide : words.any (255 < ·) <;> simp [literalOpcode, hmany, hwide] <;> rfl

/-- **No command that holds the words is narrower.** -/
theorem Item.room_literalOpcode_le {op : Opcode} {words : List Word} (hop : op ∈ Opcode.literals)
    (hne : words ≠ []) (h : op.operand.Holds words) :
    (literalOpcode words).operand.room words.length ≤ op.operand.room words.length := by
  have hpos : 0 < words.length := List.length_pos_of_ne_nil hne
  rw [room_literalOpcode]
  simp only [Opcode.literals, List.mem_cons, List.not_mem_nil, or_false] at hop
  rcases hop with rfl | rfl | rfl | rfl
  · have hone : words.length = 1 := h
    show _ ≤ 2
    split_ifs <;> omega
  · have hone : words.length = 1 := h.1
    simp only [any_wide_eq_false h.2, Bool.false_eq_true, if_false]
    show _ ≤ 1
    split_ifs <;> omega
  · show _ ≤ 1 + 2 * words.length
    split_ifs <;> omega
  · simp only [any_wide_eq_false h.2, Bool.false_eq_true, if_false]
    show _ ≤ 1 + words.length
    split_ifs <;> omega

/-- **Literals take the least room that keeps them.** A run has its final bytes before it is
completed. They are read back as a command that pushes its words, whatever follows them, and no
command that pushes constants has fewer bytes from which the words come back. -/
theorem literal_width_minimal (profile : Profile) (pos : Pos) {words : List Word}
    (hne : words ≠ []) (hlen : words.length ≤ 126) :
    let run := Item.runOf profile pos words
    run.settle.bytes = run.bytes ∧
    (∃ op ∈ Opcode.literals, run.settle.head = .set (.op op) ∧
      ∀ rest, Instruction.decode (run.bytes ++ rest) = .ok (⟨.op op, words⟩, run.bytes.length)) ∧
    ∀ op ∈ Opcode.literals,
      (∃ c n, Instruction.decode (Instruction.encode ⟨.op op, words⟩) = .ok (⟨c, words⟩, n)) →
      run.bytes.length ≤ (Instruction.encode ⟨.op op, words⟩).length := by
  intro run
  have hrun : run = ⟨.code, .run, words, pos⟩ := Item.runOf_eq profile pos words
  have hbytes : run.bytes = Instruction.encode ⟨.op (Item.literalOpcode words), words⟩ := by
    rw [hrun]
    rfl
  refine ⟨Item.bytes_settle run, ⟨_, Item.literalOpcode_mem words, ?_, fun rest => ?_⟩, ?_⟩
  · rw [hrun]
    rfl
  · have hcanonical : Instruction.Canonical ⟨.op (Item.literalOpcode words), words⟩ :=
      Item.literalOpcode_holds hne hlen
    rw [hbytes]
    exact Instruction.decode_encode hcanonical rest
  · rintro op hop ⟨c, n, hdecode⟩
    have hle := Item.room_literalOpcode_le hop hne (Opcode.holds_of_decode hdecode)
    rw [hbytes, Instruction.length_encode, Instruction.length_encode]
    exact Nat.add_le_add_left hle 1

/-- A byte and a word that is just too wide for one. -/
theorem literal_width_minimal_mixed :
    let run := Item.runOf .micro ⟨"script", 1, 1⟩ [255, 256]
    run.bytes = [3, 4, 255, 0, 0, 1] ∧ run.settle.bytes = run.bytes ∧
    (∃ op ∈ Opcode.literals, run.settle.head = .set (.op op) ∧
      ∀ rest, Instruction.decode (run.bytes ++ rest) =
        .ok (⟨.op op, [255, 256]⟩, run.bytes.length)) ∧
    ∀ op ∈ Opcode.literals,
      (∃ c n, Instruction.decode (Instruction.encode ⟨.op op, [255, 256]⟩) =
        .ok (⟨c, [255, 256]⟩, n)) →
      run.bytes.length ≤ (Instruction.encode ⟨.op op, [255, 256]⟩).length :=
  ⟨by decide, literal_width_minimal .micro ⟨"script", 1, 1⟩ (by decide) (by decide)⟩

end ServoScript
