import ServoScript.Command

/-!
# Machine instructions

A command with its operand words, its bytes, and the way back. Words are little-endian. Writing is
total: a single operand that is not known yet is written as zero, so that an instruction has its
final size from the start.
-/

namespace ServoScript

namespace Word

def low (w : Word) : Byte := w.toUInt8

def high (w : Word) : Byte := (w >>> 8).toUInt8

/-- The two bytes of a word, low byte first. -/
def bytes (w : Word) : List Byte := [low w, high w]

def ofBytes (lo hi : Byte) : Word := lo.toUInt16 ||| (hi.toUInt16 <<< 8)

/-- Reads words off a list of bytes; an odd byte at the end is dropped. -/
def listOfBytes : List Byte → List Word
  | lo :: hi :: rest => ofBytes lo hi :: listOfBytes rest
  | _ => []

end Word

structure Instruction where
  command : Command
  args : List Word
  deriving DecidableEq

/-- Why no instruction can be read from the head of an image. -/
inductive DecodeFault where
  | endOfImage
  | undefined (byte : Byte)
  /-- `needed` operand bytes have to follow the command. -/
  | truncated (command : Command) (needed : Nat)
  /-- A run of words has an odd number of bytes. -/
  | oddLength (command : Command) (length : Nat)
  deriving DecidableEq

def DecodeFault.message : DecodeFault → String
  | .endOfImage => "Unexpected end of image"
  | .undefined b => "Undefined opcode: 0x" ++ Text.hex 2 b.toNat
  | .truncated c n => s!"Truncated {c.name}: needs {n} more bytes"
  | .oddLength c n => s!"Odd length {n} in {c.name}"

/-- The command of a byte, with the complaint about a byte that stands for none. -/
def Command.ofByte (b : Byte) : Except DecodeFault Command :=
  match Command.ofByte? b with
  | some c => .ok c
  | none => .error (.undefined b)

namespace Instruction

/-- The operand bytes of a command. Lengths of runs are kept modulo 256. -/
def operandBytes (operand : Operand) (args : List Word) : List Byte :=
  match operand with
  | .none => []
  | .byte => [Word.low (args.headD 0)]
  | .word => Word.bytes (args.headD 0)
  | .byteRun => UInt8.ofNat args.length :: args.map Word.low
  | .wordRun => UInt8.ofNat (args.length * 2) :: args.flatMap Word.bytes

def encode (i : Instruction) : List Byte :=
  i.command.byte :: operandBytes i.command.operand i.args

/-- The number of bytes that an instruction is written as. -/
def size (i : Instruction) : Nat := i.encode.length

/-- The first `n` bytes, if there are that many. -/
def front? (n : Nat) (bytes : List Byte) : Option (List Byte) :=
  let front := bytes.take n
  if front.length = n then some front else none

/-- The words that an operand's bytes hold, and how many bytes these are. -/
def readOperand (c : Command) (bytes : List Byte) : Except DecodeFault (List Word × Nat) :=
  match c.operand with
  | .none => .ok ([], 0)
  | .byte =>
    match bytes with
    | b :: _ => .ok ([b.toUInt16], 1)
    | [] => .error (.truncated c 1)
  | .word =>
    match bytes with
    | lo :: hi :: _ => .ok ([Word.ofBytes lo hi], 2)
    | _ => .error (.truncated c 2)
  | .byteRun =>
    match bytes with
    | [] => .error (.truncated c 1)
    | n :: rest =>
      match front? n.toNat rest with
      | none => .error (.truncated c (1 + n.toNat))
      | some run => .ok (run.map UInt8.toUInt16, 1 + n.toNat)
  | .wordRun =>
    match bytes with
    | [] => .error (.truncated c 1)
    | n :: rest =>
      if n.toNat % 2 ≠ 0 then .error (.oddLength c n.toNat)
      else
        match front? n.toNat rest with
        | none => .error (.truncated c (1 + n.toNat))
        | some run => .ok (Word.listOfBytes run, 1 + n.toNat)

/-- Reads the instruction at the head of an image, and returns with it the number of bytes that it
takes there. -/
def decode (bytes : List Byte) : Except DecodeFault (Instruction × Nat) :=
  match bytes with
  | [] => .error .endOfImage
  | b :: rest => do
    let c ← Command.ofByte b
    let (args, n) ← readOperand c rest
    .ok (⟨c, args⟩, 1 + n)

end Instruction

end ServoScript
