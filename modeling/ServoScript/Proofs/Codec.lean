import ServoScript.Image

/-!
# Reading back what was written

Words and their two bytes as arithmetic of natural numbers, the argument lists that an operand can
hold, and the round trip. An instruction whose arguments its operand can hold is read back from its
bytes, whatever follows them (`Instruction.decode_encode`), and so is a whole sequence of them, each
at the sum of the sizes of those before it (`Image.disassemble_encode`).
-/

namespace ServoScript

/-! ## Words and bytes -/

namespace Word

theorem toNat_low (w : Word) : (low w).toNat = w.toNat % 256 := by
  simp [low]

theorem toNat_high (w : Word) : (high w).toNat = w.toNat / 256 := by
  have hw := w.toNat_lt
  have h8 : UInt16.toNat 8 % 16 = 8 := rfl
  simp only [high, UInt16.toNat_toUInt8, UInt16.toNat_shiftRight, Nat.shiftRight_eq_div_pow, h8]
  omega

theorem toNat_ofBytes (lo hi : Byte) : (ofBytes lo hi).toNat = lo.toNat + 256 * hi.toNat := by
  have hlo : lo.toNat < 2 ^ 8 := lo.toNat_lt
  have hhi := hi.toNat_lt
  have hshift : (hi.toUInt16 <<< 8).toNat = hi.toNat <<< 8 := by
    have h8 : UInt16.toNat 8 % 16 = 8 := rfl
    simp only [UInt16.toNat_shiftLeft, UInt8.toNat_toUInt16, Nat.shiftLeft_eq, h8]
    omega
  rw [ofBytes, UInt16.toNat_or, hshift, UInt8.toNat_toUInt16, Nat.or_comm,
    ← Nat.shiftLeft_add_eq_or_of_lt hlo, Nat.shiftLeft_eq]
  omega

@[simp]
theorem ofBytes_low_high (w : Word) : ofBytes (low w) (high w) = w := by
  apply UInt16.toNat_inj.mp
  rw [toNat_ofBytes, toNat_low, toNat_high]
  omega

theorem bytes_ofNat {n : Nat} (hn : n ≤ 65535) :
    bytes (UInt16.ofNat n) = [UInt8.ofNat (n % 256), UInt8.ofNat (n / 256)] := by
  have hword : (UInt16.ofNat n).toNat = n := UInt16.toNat_ofNat_of_lt' (Nat.lt_succ_of_le hn)
  have hlow : low (UInt16.ofNat n) = UInt8.ofNat (n % 256) := by
    apply UInt8.toNat_inj.mp
    rw [toNat_low, hword, UInt8.toNat_ofNat']
    omega
  have hhigh : high (UInt16.ofNat n) = UInt8.ofNat (n / 256) := by
    apply UInt8.toNat_inj.mp
    rw [toNat_high, hword, UInt8.toNat_ofNat']
    omega
  rw [bytes, hlow, hhigh]

@[simp]
theorem listOfBytes_flatMap_bytes (ws : List Word) : listOfBytes (ws.flatMap bytes) = ws := by
  induction ws with
  | nil => rfl
  | cons w ws ih => simp [bytes, listOfBytes, ih]

theorem length_flatMap_bytes (ws : List Word) : (ws.flatMap bytes).length = ws.length * 2 := by
  induction ws with
  | nil => rfl
  | cons w ws ih =>
    simp only [List.flatMap_cons, List.length_append, ih, bytes, List.length_cons, List.length_nil]
    omega

theorem toUInt16_low {w : Word} (h : w.toNat ≤ 255) : (low w).toUInt16 = w := by
  apply UInt16.toNat_inj.mp
  rw [UInt8.toNat_toUInt16, toNat_low]
  omega

theorem map_toUInt16_map_low {ws : List Word} (h : ∀ w ∈ ws, w.toNat ≤ 255) :
    (ws.map low).map UInt8.toUInt16 = ws := by
  rw [List.map_map]
  refine (List.map_congr_left fun w hw => ?_).trans (List.map_id ws)
  exact toUInt16_low (h w hw)

end Word

/-! ## Operands -/

theorem Opcode.operand_of_isJump {op : Opcode} (h : op.isJump = true) : op.operand = .word := by
  unfold isJump at h
  split at h
  · rfl
  · rfl
  · cases h

/-- The argument lists that come back from an operand's bytes. -/
def Operand.Holds : Operand → List Word → Prop
  | .none, args => args = []
  | .byte, args => args.length = 1 ∧ ∀ w ∈ args, w.toNat ≤ 255
  | .word, args => args.length = 1
  | .byteRun, args => args.length ≤ 255 ∧ ∀ w ∈ args, w.toNat ≤ 255
  | .wordRun, args => args.length ≤ 127

instance (o : Operand) (args : List Word) : Decidable (o.Holds args) :=
  match o with
  | .none => inferInstanceAs (Decidable (args = []))
  | .byte => inferInstanceAs (Decidable (args.length = 1 ∧ ∀ w ∈ args, w.toNat ≤ 255))
  | .word => inferInstanceAs (Decidable (args.length = 1))
  | .byteRun => inferInstanceAs (Decidable (args.length ≤ 255 ∧ ∀ w ∈ args, w.toNat ≤ 255))
  | .wordRun => inferInstanceAs (Decidable (args.length ≤ 127))

namespace Instruction

/-- The arguments are such as the command's operand can hold. -/
def Canonical (i : Instruction) : Prop := i.command.operand.Holds i.args

instance (i : Instruction) : Decidable i.Canonical :=
  inferInstanceAs (Decidable (i.command.operand.Holds i.args))

theorem front?_append (front rest : List Byte) :
    front? front.length (front ++ rest) = some front := by
  simp [front?]

theorem readOperand_operandBytes {c : Command} {args : List Word} (h : c.operand.Holds args)
    (rest : List Byte) : readOperand c (operandBytes c.operand args ++ rest) =
      .ok (args, (operandBytes c.operand args).length) := by
  unfold readOperand
  cases ho : c.operand with
  | none =>
    rw [ho] at h
    subst h
    rfl
  | byte =>
    rw [ho] at h
    obtain ⟨w, rfl⟩ := List.length_eq_one_iff.mp h.1
    have hw := h.2 w (by simp)
    simp [operandBytes, Word.toUInt16_low hw]
  | word =>
    rw [ho] at h
    obtain ⟨w, rfl⟩ := List.length_eq_one_iff.mp h
    simp [operandBytes, Word.bytes]
  | byteRun =>
    rw [ho] at h
    have hlen : args.length ≤ 255 := h.1
    have hn : (UInt8.ofNat args.length).toNat = (args.map Word.low).length := by
      rw [UInt8.toNat_ofNat', List.length_map]
      exact Nat.mod_eq_of_lt (by omega)
    simp only [operandBytes, List.cons_append, hn, front?_append, Word.map_toUInt16_map_low h.2,
      List.length_cons, Nat.add_comm 1]
  | wordRun =>
    rw [ho] at h
    have hlen : args.length ≤ 127 := h
    have hn : (UInt8.ofNat (args.length * 2)).toNat = (args.flatMap Word.bytes).length := by
      rw [UInt8.toNat_ofNat', Word.length_flatMap_bytes]
      exact Nat.mod_eq_of_lt (by omega)
    have heven : ¬ (args.flatMap Word.bytes).length % 2 ≠ 0 := by
      rw [Word.length_flatMap_bytes]
      omega
    simp only [operandBytes, List.cons_append, hn, if_neg heven, front?_append,
      Word.listOfBytes_flatMap_bytes, List.length_cons, Nat.add_comm 1]

/-- **Writing and reading back.** Reading takes exactly the bytes that were written. -/
theorem decode_encode {i : Instruction} (h : i.Canonical) (rest : List Byte) :
    decode (i.encode ++ rest) = .ok (i, i.size) := by
  have hc : Command.ofByte i.command.byte = .ok i.command := by
    rw [Command.ofByte, Command.ofByte?_byte]
  simp only [size, encode, List.cons_append, decode, hc, bind, Except.bind,
    readOperand_operandBytes h rest, List.length_cons, Nat.add_comm 1]

end Instruction

/-! ## Sequences of instructions -/

namespace Image

/-- The rows of instructions that stand one after the other from offset `pc` on. -/
def rowsFrom (pc : Nat) : List Instruction → List Row
  | [] => []
  | i :: rest => ⟨UInt16.ofNat pc, i⟩ :: rowsFrom (pc + i.size) rest

theorem walk_encode (code : List Instruction) (h : ∀ i ∈ code, i.Canonical) (pc : Nat)
    (rows : Array Row) :
    walk pc rows (code.flatMap Instruction.encode) = .ok (rows ++ (rowsFrom pc code).toArray) := by
  induction code generalizing pc rows with
  | nil => simp [walk, rowsFrom]
  | cons i rest ih =>
    have hi := Instruction.decode_encode (h i (by simp)) (rest.flatMap Instruction.encode)
    -- the walk looks at the first byte before it decodes, and there is one
    obtain ⟨b, bs, hbytes⟩ : ∃ b bs, i.encode ++ rest.flatMap Instruction.encode = b :: bs :=
      ⟨_, _, rfl⟩
    have hrest : (b :: bs).drop i.size = rest.flatMap Instruction.encode := by
      rw [← hbytes]
      exact List.drop_left
    rw [hbytes] at hi
    rw [List.flatMap_cons, hbytes, walk]
    split
    · rename_i e he
      rw [hi] at he
      cases he
    · rename_i j n hj
      rw [hi] at hj
      cases hj
      rw [hrest, ih (fun j hj => h j (by simp [hj]))]
      simp [rowsFrom]

/-- **A sequence of canonical instructions is read back whole.** -/
theorem disassemble_encode (code : List Instruction) (h : ∀ i ∈ code, i.Canonical) :
    disassemble (code.flatMap Instruction.encode) = .ok (rowsFrom 0 code) := by
  rw [disassemble, walk_encode code h]
  simp [Except.map]

end Image

end ServoScript
