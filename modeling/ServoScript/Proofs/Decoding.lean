import Mathlib.Tactic.SplitIfs
import ServoScript.Proofs.Codec

/-!
# Reading is the inverse of writing

What is read from an image is what was written there: the bytes that an instruction is read from are
its own (`Instruction.decode_eq_ok_iff`). Instructions are therefore told apart by their bytes,
whatever follows, and the walk over an image either reaches its end, and has then found the only
canonical code that spells it, or stops behind the longest front that is code
(`disassemble_inverts_encoding`).
-/

namespace ServoScript

/-! ## Words and commands -/

namespace Word

@[simp]
theorem low_toUInt16 (b : Byte) : low b.toUInt16 = b := by
  apply UInt8.toNat_inj.mp
  have hb := b.toNat_lt
  rw [toNat_low, UInt8.toNat_toUInt16]
  omega

theorem map_low_map_toUInt16 (bs : List Byte) : (bs.map UInt8.toUInt16).map low = bs := by
  rw [List.map_map]
  exact (List.map_congr_left fun b _ => low_toUInt16 b).trans (List.map_id bs)

theorem toNat_toUInt16_le (b : Byte) : b.toUInt16.toNat ≤ 255 := by
  rw [UInt8.toNat_toUInt16]
  exact Nat.le_of_lt_succ b.toNat_lt

@[simp]
theorem bytes_ofBytes (lo hi : Byte) : bytes (ofBytes lo hi) = [lo, hi] := by
  have hlo := lo.toNat_lt
  have hlow : low (ofBytes lo hi) = lo := by
    apply UInt8.toNat_inj.mp
    rw [toNat_low, toNat_ofBytes]
    omega
  have hhigh : high (ofBytes lo hi) = hi := by
    apply UInt8.toNat_inj.mp
    rw [toNat_high, toNat_ofBytes]
    omega
  rw [bytes, hlow, hhigh]

theorem flatMap_bytes_listOfBytes {bs : List Byte} (h : bs.length % 2 = 0) :
    (listOfBytes bs).flatMap bytes = bs := by
  fun_induction listOfBytes bs with
  | case1 lo hi rest ih =>
    have hrest : rest.length % 2 = 0 := by
      simp only [List.length_cons] at h
      omega
    rw [List.flatMap_cons, bytes_ofBytes, ih hrest]
    rfl
  | case2 bs hshort =>
    match bs with
    | [] => rfl
    | [b] => simp at h
    | lo :: hi :: rest => exact absurd rfl (hshort lo hi rest)

end Word

theorem Command.byte_of_ofByte? {b : Byte} {c : Command} (h : ofByte? b = some c) : c.byte = b := by
  unfold ofByte? at h
  split at h
  · rename_i hb
    cases h
    apply UInt8.toNat_inj.mp
    rw [toNat_byte_sub]
    exact Nat.add_sub_cancel' hb
  · obtain ⟨op, hop, rfl⟩ := Option.map_eq_some_iff.mp h
    exact Opcode.code_of_ofCode? hop

/-! ## Instructions -/

namespace Instruction

variable {bytes : List Byte} {n : Nat}

theorem front?_eq_some {front : List Byte} (h : front? n bytes = some front) :
    front.length = n ∧ front <+: bytes := by
  simp only [front?] at h
  split at h
  · rename_i hlength
    cases h
    exact ⟨hlength, List.take_prefix n bytes⟩
  · cases h

/-- A run takes the byte with its length, and then that many. -/
theorem counted_of_front? {count : Byte} {run : List Byte}
    (h : front? count.toNat bytes = some run) :
    1 + count.toNat = (count :: run).length ∧ count :: run <+: count :: bytes := by
  obtain ⟨hlength, hrun⟩ := front?_eq_some h
  refine ⟨?_, List.cons_prefix_cons.mpr ⟨rfl, hrun⟩⟩
  rw [List.length_cons, hlength, Nat.add_comm]

theorem readOperand_eq_ok {c : Command} {args : List Word}
    (h : readOperand c bytes = .ok (args, n)) :
    c.operand.Holds args ∧ n = (operandBytes c.operand args).length ∧
      operandBytes c.operand args <+: bytes := by
  unfold readOperand at h
  cases ho : c.operand with
  | none =>
    simp only [ho] at h
    cases h
    exact ⟨rfl, rfl, by simp [operandBytes]⟩
  | byte =>
    simp only [ho] at h
    split at h
    · rename_i b tail
      cases h
      refine ⟨⟨rfl, ?_⟩, rfl, by simp [operandBytes]⟩
      simpa using Word.toNat_toUInt16_le b
    · cases h
  | word =>
    simp only [ho] at h
    split at h
    · cases h
      exact ⟨rfl, rfl, by simp [operandBytes]⟩
    · cases h
  | byteRun =>
    simp only [ho] at h
    split at h
    · cases h
    · rename_i count tail
      split at h
      · cases h
      · rename_i run hrun
        cases h
        obtain ⟨hlength, -⟩ := front?_eq_some hrun
        have hbytes : operandBytes .byteRun (run.map UInt8.toUInt16) = count :: run := by
          rw [operandBytes, Word.map_low_map_toUInt16, List.length_map, hlength, UInt8.ofNat_toNat]
        refine ⟨⟨?_, ?_⟩, ?_⟩
        · rw [List.length_map, hlength]
          exact Nat.le_of_lt_succ count.toNat_lt
        · intro w hw
          obtain ⟨b, -, rfl⟩ := List.mem_map.mp hw
          exact Word.toNat_toUInt16_le b
        · rw [hbytes]
          exact counted_of_front? hrun
  | wordRun =>
    simp only [ho] at h
    split at h
    · cases h
    · rename_i count tail
      split_ifs at h with hodd
      split at h
      · cases h
      · rename_i run hrun
        cases h
        obtain ⟨hlength, -⟩ := front?_eq_some hrun
        have hcount := count.toNat_lt
        have heven : run.length % 2 = 0 := by omega
        have hwords := Word.flatMap_bytes_listOfBytes heven
        have hdouble : (Word.listOfBytes run).length * 2 = count.toNat := by
          rw [← Word.length_flatMap_bytes, hwords, hlength]
        have hbytes : operandBytes .wordRun (Word.listOfBytes run) = count :: run := by
          rw [operandBytes, hwords, hdouble, UInt8.ofNat_toNat]
        refine ⟨?_, ?_⟩
        · change (Word.listOfBytes run).length ≤ 127
          omega
        · rw [hbytes]
          exact counted_of_front? hrun

/-- Reading takes as many bytes as the instruction is written as, and takes those bytes. -/
theorem decode_eq_ok {i : Instruction} (h : decode bytes = .ok (i, n)) :
    i.Canonical ∧ n = i.size ∧ i.encode <+: bytes := by
  cases bytes with
  | nil => cases h
  | cons b bs =>
    simp only [decode, bind, Except.bind, Command.ofByte] at h
    cases hc : Command.ofByte? b with
    | none =>
      simp only [hc] at h
      cases h
    | some c =>
      simp only [hc] at h
      split at h
      · cases h
      · rename_i out hread
        cases h
        obtain ⟨hholds, hlength, hoperand⟩ := readOperand_eq_ok hread
        refine ⟨hholds, ?_, ?_⟩
        · rw [size, encode, List.length_cons, hlength, Nat.add_comm]
        · exact List.cons_prefix_cons.mpr ⟨Command.byte_of_ofByte? hc, hoperand⟩

/-- **An instruction is read exactly from its own bytes.** -/
theorem decode_eq_ok_iff {i : Instruction} :
    decode bytes = .ok (i, n) ↔ i.Canonical ∧ n = i.size ∧ i.encode <+: bytes := by
  refine ⟨decode_eq_ok, ?_⟩
  rintro ⟨hi, rfl, rest, rfl⟩
  exact decode_encode hi rest

theorem eq_append_drop_of_decode {i : Instruction} (h : decode bytes = .ok (i, n)) :
    bytes = i.encode ++ bytes.drop n := by
  obtain ⟨-, rfl, rest, rfl⟩ := decode_eq_ok h
  rw [size, List.drop_left]

/-- **Reading inverts writing on the canonical instructions, and on no others.** These come back
from their bytes, whatever follows, with the number of their bytes; others never do, although
writing is total. In the other direction, what is read from any bytes is canonical, and is written
as the bytes that reading took, of which there is at least one. -/
theorem decode_inverts_encode :
    (∀ (i : Instruction) (rest : List Byte), i.Canonical →
      decode (i.encode ++ rest) = .ok (i, i.encode.length)) ∧
    (∀ (i : Instruction) (rest : List Byte) (n : Nat), ¬ i.Canonical →
      decode (i.encode ++ rest) ≠ .ok (i, n)) ∧
    ∀ (bytes : List Byte) (i : Instruction) (n : Nat), decode bytes = .ok (i, n) →
      i.Canonical ∧ i.encode = bytes.take n ∧ n = i.encode.length ∧ 1 ≤ n ∧ n ≤ bytes.length := by
  refine ⟨fun i rest hi => decode_encode hi rest, fun i rest n hi hdecode => ?_,
    fun bytes i n hdecode => ?_⟩
  · exact hi (decode_eq_ok hdecode).1
  · obtain ⟨hi, hsize, hbytes⟩ := decode_eq_ok hdecode
    refine ⟨hi, ?_, hsize, pos_of_decode hdecode, ?_⟩
    · rw [hsize]
      exact List.prefix_iff_eq_take.mp hbytes
    · rw [hsize]
      exact hbytes.length_le

end Instruction

/-! ## Images -/

namespace Image

/-- The bytes are those of canonical instructions, one after the other. -/
def Spells (code : List Instruction) (bytes : List Byte) : Prop :=
  (∀ i ∈ code, i.Canonical) ∧ bytes = code.flatMap Instruction.encode

theorem spells_nil : Spells [] [] := ⟨by simp, rfl⟩

theorem Spells.cons {i : Instruction} {code : List Instruction} {bytes : List Byte}
    (hi : i.Canonical) (h : Spells code bytes) : Spells (i :: code) (i.encode ++ bytes) := by
  obtain ⟨hcode, rfl⟩ := h
  refine ⟨?_, rfl⟩
  rw [List.forall_mem_cons]
  exact ⟨hi, hcode⟩

/-- What is read of an image when the walk ends well, and where it stops when it does not. -/
theorem walk_cases (pc : Nat) (rows : Array Row) (bytes : List Byte) :
    (∃ code, Spells code bytes ∧ walk pc rows bytes = .ok (rows ++ (rowsFrom pc code).toArray)) ∨
      ∃ code front rest cause, Spells code front ∧ bytes = front ++ rest ∧
        Instruction.decode rest = .error cause ∧
        walk pc rows bytes = .error ⟨pc + front.length, cause⟩ := by
  fun_induction walk pc rows bytes with
  | case1 => exact .inl ⟨[], spells_nil, by simp [rowsFrom]⟩
  | case2 pc rows b bs cause hdecode =>
    exact .inr ⟨[], [], b :: bs, cause, spells_nil, rfl, hdecode, rfl⟩
  | case3 pc rows b bs i n hdecode _ ih =>
    obtain ⟨hi, hsize, -⟩ := Instruction.decode_eq_ok_iff.mp hdecode
    have hbytes := Instruction.eq_append_drop_of_decode hdecode
    rcases ih with ⟨code, hcode, hwalk⟩ | ⟨code, front, rest, cause, hcode, hdrop, hrest, hwalk⟩
    · refine .inl ⟨i :: code, ?_, ?_⟩
      · rw [hbytes]
        exact hcode.cons hi
      · rw [hwalk, hsize]
        simp [rowsFrom]
    · refine .inr ⟨i :: code, i.encode ++ front, rest, cause, hcode.cons hi, ?_, hrest, ?_⟩
      · rw [hbytes, hdrop, List.append_assoc]
      · rw [hwalk, hsize, List.length_append, Instruction.size, Nat.add_assoc]

theorem map_instruction_rowsFrom (pc : Nat) (code : List Instruction) :
    (rowsFrom pc code).map (·.instruction) = code := by
  induction code generalizing pc with
  | nil => rfl
  | cons i rest ih => rw [rowsFrom, List.map_cons, ih]

theorem rowsFrom_eq_mapIdx (pc : Nat) (code : List Instruction) :
    (rowsFrom pc code).map (fun r => (r.pc.toNat, r.instruction)) = code.mapIdx fun n i =>
      ((pc + ((code.take n).flatMap Instruction.encode).length) % 65536, i) := by
  induction code generalizing pc with
  | nil => rfl
  | cons i rest ih =>
    rw [rowsFrom, List.map_cons, ih, List.mapIdx_cons]
    simp only [List.take_zero, List.flatMap_nil, List.length_nil, Nat.add_zero,
      List.take_succ_cons, List.flatMap_cons, List.length_append, Nat.add_assoc, Instruction.size,
      UInt16.toNat_ofNat']

theorem Spells.disassemble {code : List Instruction} {image : List Byte} (h : Spells code image) :
    disassemble image = .ok (rowsFrom 0 code) := by
  obtain ⟨hcode, rfl⟩ := h
  exact disassemble_encode code hcode

theorem Spells.unique {code code' : List Instruction} {image : List Byte} (h : Spells code image)
    (h' : Spells code' image) : code = code' := by
  have hrows : rowsFrom 0 code = rowsFrom 0 code' :=
    Except.ok.inj (h.disassemble.symm.trans h'.disassemble)
  calc code = (rowsFrom 0 code).map (·.instruction) := (map_instruction_rowsFrom 0 code).symm
    _ = (rowsFrom 0 code').map (·.instruction) := by rw [hrows]
    _ = code' := map_instruction_rowsFrom 0 code'

theorem exists_spells_of_ok {image : List Byte} {rows : List Row}
    (h : disassemble image = .ok rows) : ∃ code, Spells code image := by
  rcases walk_cases 0 #[] image with ⟨code, hcode, -⟩ | ⟨_, _, _, _, -, -, -, hwalk⟩
  · exact ⟨code, hcode⟩
  · rw [Image.disassemble, hwalk] at h
    cases h

theorem exists_spells_of_error {image : List Byte} {f : Fault}
    (h : disassemble image = .error f) :
    ∃ code front rest, Spells code front ∧ image = front ++ rest ∧ f.offset = front.length ∧
      Instruction.decode rest = .error f.cause := by
  rcases walk_cases 0 #[] image with
    ⟨_, -, hwalk⟩ | ⟨code, front, rest, cause, hcode, himage, hrest, hwalk⟩
  · rw [Image.disassemble, hwalk] at h
    cases h
  · rw [Image.disassemble, hwalk] at h
    cases h
    exact ⟨code, front, rest, hcode, himage, Nat.zero_add _, hrest⟩

/-- An image is disassembled exactly if canonical instructions spell it. Only one list of
instructions does, and its rows are those instructions, each with the 16 bits of its offset.
Otherwise the complaint names an offset up to which there are canonical instructions and from which
no instruction can be read. -/
theorem disassemble_inverts_encoding (image : List Byte) :
    ((∃ rows, disassemble image = .ok rows) ↔ ∃ code, Spells code image) ∧
      (∀ rows code, disassemble image = .ok rows → Spells code image →
        rows.map (fun r => (r.pc.toNat, r.instruction)) = code.mapIdx fun n i =>
          (((code.take n).flatMap Instruction.encode).length % 65536, i)) ∧
      (∀ code code', Spells code image → Spells code' image → code = code') ∧
      ∀ f, disassemble image = .error f →
        f.message = "0x" ++ Text.hex 4 f.offset ++ ": " ++ f.cause.message ∧
        f.offset ≤ image.length ∧ (∃ code, Spells code (image.take f.offset)) ∧
        Instruction.decode (image.drop f.offset) = .error f.cause := by
  refine ⟨⟨?_, ?_⟩, ?_, ?_, ?_⟩
  · rintro ⟨rows, hrows⟩
    exact exists_spells_of_ok hrows
  · rintro ⟨code, hcode⟩
    exact ⟨_, hcode.disassemble⟩
  · intro rows code hrows hcode
    rw [hcode.disassemble] at hrows
    cases hrows
    simpa using rowsFrom_eq_mapIdx 0 code
  · exact fun code code' => Spells.unique
  · intro f hf
    obtain ⟨code, front, rest, hcode, rfl, hoffset, hrest⟩ := exists_spells_of_error hf
    refine ⟨rfl, ?_⟩
    rw [hoffset, List.take_left, List.drop_left]
    exact ⟨by simp, ⟨code, hcode⟩, hrest⟩

end Image

end ServoScript
