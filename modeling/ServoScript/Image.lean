import ServoScript.Instruction

/-!
# Images

An image is the byte sequence that the controller runs. `Image.disassemble` walks it instruction by
instruction from offset 0 to its end.
-/

namespace ServoScript

/-- Reading an instruction takes at least its command byte. -/
theorem Instruction.pos_of_decode {bytes : List Byte} {i : Instruction} {n : Nat}
    (h : decode bytes = .ok (i, n)) : 0 < n := by
  cases bytes with
  | nil => cases h
  | cons b bs =>
    simp only [decode, bind, Except.bind] at h
    split at h
    · cases h
    · split at h
      · cases h
      · cases h
        omega

namespace Image

/-- An instruction with its offset in the image, kept in 16 bits. -/
structure Row where
  pc : Word
  instruction : Instruction
  deriving DecidableEq

/-- The offset, of any size, at which an image cannot be read on. -/
structure Fault where
  offset : Nat
  cause : DecodeFault
  deriving DecidableEq

def Fault.message (f : Fault) : String := s!"0x{Text.hex 4 f.offset}: {f.cause.message}"

/-- Adds to `rows` the instructions of `bytes`, the first of them at offset `pc`. -/
def walk (pc : Nat) (rows : Array Row) (bytes : List Byte) : Except Fault (Array Row) :=
  match bytes with
  | [] => .ok rows
  | b :: bs =>
    match h : Instruction.decode (b :: bs) with
    | .error e => .error ⟨pc, e⟩
    | .ok (i, n) =>
      have : 0 < n := Instruction.pos_of_decode h
      walk (pc + n) (rows.push ⟨UInt16.ofNat pc, i⟩) ((b :: bs).drop n)
termination_by bytes.length
decreasing_by
  rw [List.length_drop, List.length_cons]
  omega

def disassemble (image : List Byte) : Except Fault (List Row) :=
  (walk 0 #[] image).map Array.toList

end Image

end ServoScript
