import ServoScript.Opcode

/-!
# Checksum

The 16-bit cyclic redundancy check that the controller computes over its program: register 0 at the
start, bits taken least significant first, polynomial `0xA001` (the reflected form of
`x^16 + x^15 + x^2 + 1`).
-/

namespace ServoScript.Checksum

def polynomial : Word := 0xA001

/-- One bit leaves the register. -/
def shift (r : Word) : Word :=
  if r &&& 1 = 1 then (r >>> 1) ^^^ polynomial else r >>> 1

/-- The contribution of one byte: eight shifts of a register that holds it. -/
def byteTerm (b : Byte) : Word :=
  shift (shift (shift (shift (shift (shift (shift (shift b.toUInt16)))))))

/-- The register after one more byte. -/
def step (r : Word) (b : Byte) : Word :=
  (r >>> 8) ^^^ byteTerm (r.toUInt8 ^^^ b)

def checksum (message : List Byte) : Word := message.foldl step 0

end ServoScript.Checksum
