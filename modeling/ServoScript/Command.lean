import ServoScript.Opcode
import ServoScript.Text.Field

/-!
# Commands

The leading byte of an instruction is an opcode, or, from 128 on, one of the 128 slots of the
subroutine table.
-/

namespace ServoScript

inductive Command where
  | op (opcode : Opcode)
  | sub (slot : Fin 128)
  deriving DecidableEq

namespace Command

/-- The first byte that names a subroutine. -/
def subBase : Nat := 128

def byte : Command → Byte
  | .op o => o.code
  | .sub slot => UInt8.ofNat (subBase + slot)

/-- The command that a byte stands for; some bytes below `subBase` stand for none. -/
def ofByte? (b : Byte) : Option Command :=
  if h : subBase ≤ b.toNat then
    some (.sub ⟨b.toNat - subBase, by have := b.toNat_lt; simp only [subBase] at h ⊢; omega⟩)
  else
    (Opcode.ofCode? b).map .op

theorem toNat_code_lt (o : Opcode) : o.code.toNat < subBase := by
  cases o <;> decide

theorem toNat_byte_sub (slot : Fin 128) : (byte (.sub slot)).toNat = subBase + slot := by
  rw [byte, UInt8.toNat_ofNat']
  simp only [subBase]
  omega

/-- Every command is found again by its byte. -/
theorem ofByte?_byte (c : Command) : ofByte? c.byte = some c := by
  cases c with
  | op o =>
    have h : ¬ subBase ≤ o.code.toNat := Nat.not_le.2 (toNat_code_lt o)
    rw [byte, ofByte?, dif_neg h, Opcode.ofCode?_code]
    rfl
  | sub slot =>
    have h := toNat_byte_sub slot
    rw [ofByte?, dif_pos (by omega)]
    simp [h]

def operand : Command → Operand
  | .op o => o.operand
  | .sub _ => .none

def name : Command → String
  | .op o => o.name
  | .sub slot => "SUB#" ++ Text.hex 2 slot

end Command

end ServoScript
