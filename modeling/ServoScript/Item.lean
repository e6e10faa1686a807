import ServoScript.Fault
import ServoScript.Instruction

/-!
# Program items

What a program is made of before it is an image: machine code, and the labels, jumps, subroutine
markers and calls that are settled when all sizes are known. Markers take no bytes. A jump has its
command from the start and so its size; a call gets its command, and with it its size, when the
subroutines have been counted.
-/

namespace ServoScript

inductive Role where
  | code
  | label (name : String)
  | jump (name : String)
  | subroutine (name : String)
  | call (name : String)
  deriving DecidableEq

/-- The symbol that a role carries. -/
def Role.name? : Role → Option String
  | .code => none
  | .label name | .jump name | .subroutine name | .call name => some name

/-- What is known of an item's command. -/
inductive Head where
  | unset
  /-- A run of literals that may still grow; its values decide its command. -/
  | run
  | set (command : Command)
  deriving DecidableEq

structure Item where
  role : Role
  head : Head
  args : List Word := []
  pos : Pos
  deriving DecidableEq

namespace Item

/-! ## Making items -/

def ofOpcode (op : Opcode) (pos : Pos) : Item := { role := .code, head := .set (.op op), pos }

/-- A run without literals. -/
def emptyRun (pos : Pos) : Item := { role := .code, head := .run, pos }

def label (name : String) (pos : Pos) : Item := { role := .label name, head := .unset, pos }

def jump (name : String) (pos : Pos) : Item :=
  { role := .jump name, head := .set (.op .jump), pos }

def jumpIfZero (name : String) (pos : Pos) : Item :=
  { role := .jump name, head := .set (.op .jumpZ), pos }

def subroutine (name : String) (pos : Pos) : Item :=
  { role := .subroutine name, head := .unset, pos }

def call (name : String) (pos : Pos) : Item := { role := .call name, head := .unset, pos }

/-! ## Commands and bytes -/

def isLabel (i : Item) : Bool :=
  match i.role with
  | .label _ => true
  | _ => false

def isRun (i : Item) : Bool := i.head = .run

/-- The narrowest command that pushes the words. -/
def literalOpcode (words : List Word) : Opcode :=
  let wide := words.any (255 < ·)
  match decide (1 < words.length), wide with
  | false, false => .literal8
  | false, true => .literal
  | true, false => .literal8N
  | true, true => .literalN

/-- The command as far as it is known. An open run has the command that it would have if it ended
here. -/
def command? (i : Item) : Option Command :=
  match i.head with
  | .unset => none
  | .run => some (.op (literalOpcode i.args))
  | .set c => some c

/-- The bytes of an item. Labels, subroutine markers and unresolved calls have none. -/
def bytes (i : Item) : List Byte :=
  match i.role with
  | .label _ | .subroutine _ => []
  | _ =>
    match i.command? with
    | some c => Instruction.encode ⟨c, i.args⟩
    | none => []

def size (i : Item) : Nat := i.bytes.length

/-! ## Changing items -/

/-- Appends an argument. -/
def push (i : Item) (w : Word) : Item := { i with args := i.args ++ [w] }

/-- The limit that a run of this length exceeds; the model's own limit is named first. -/
def exceededLimit? (profile : Profile) (length : Nat) : Option Nat :=
  match profile.literalLimit?.filter (· < length) with
  | some limit => some limit
  | none => if Profile.literalCeiling < length then some Profile.literalCeiling else none

/-- Appends a literal, and complains if the run is now too long for the stack. -/
def pushLiteral (profile : Profile) (w : Word) : EStateM Fault Item Unit := fun i =>
  match exceededLimit? profile (i.args.length + 1) with
  | some limit => .error (.tooManyLiterals limit) (i.push w)
  | none => .ok () (i.push w)

/-- Gives an item its command; that can be done once. -/
def setCommand (c : Command) (i : Item) : Except Fault Item :=
  match i.head with
  | .unset => .ok { i with head := .set c }
  | _ => .error .opcodeAlreadySet

/-- Ends a run and fixes its command. -/
def settle (i : Item) : Item :=
  match i.head with
  | .run => { i with head := .set (.op (literalOpcode i.args)) }
  | _ => i

end Item

end ServoScript
