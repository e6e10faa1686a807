import ServoScript.Block
import ServoScript.Profile

/-!
# Faults

What can be wrong with a script, and the sentence that says so. A diagnostic is a fault together
with the position of the word that it is about.
-/

namespace ServoScript

inductive Fault where
  | invalidNumber (text : String)
  | notAnInteger (text : String)
  | outOfRange (text : String) (least greatest : Int)
  | whileOutsideBegin
  | repeatWithoutBegin
  | endifWithoutIf
  | elseWithoutIf
  | blockNeverClosed (kind : BlockKind)
  | missingName (keyword : Keyword)
  | labelAlreadyUsed (name : String) (first : Pos)
  | labelNotFound (name : String)
  | notUnderstood (name : String)
  | subroutineRedefined (name : String)
  | subroutineLooksNumeric (name : String)
  | subroutineIsCommand (name : String)
  | subroutineIsKeyword (name : String)
  | tooManyLiterals (limit : Nat)
  | tooManySubroutines (limit : Nat) (profile : Profile)
  | programTooLarge (offset : Nat)
  | literalCommand
  | jumpCommand
  | callCommand
  | miniOnly (op : Opcode)
  | opcodeAlreadySet
  deriving DecidableEq

/-- The complaint about a name that a subroutine cannot have. -/
def Fault.badSubroutineName (name reason : String) : String :=
  s!"The name {name} is not valid as a subroutine name ({reason})"

def Fault.message : Fault → String
  | .invalidNumber text => s!"`{text}` is not a valid number"
  | .notAnInteger text => s!"Value {text} must be an integer"
  | .outOfRange text least greatest =>
    s!"Value {text} is not in the allowed range of {least} to {greatest}"
  | .whileOutsideBegin => "WHILE must be inside a BEGIN...REPEAT block"
  | .repeatWithoutBegin => "Found REPEAT without a corresponding BEGIN"
  | .endifWithoutIf => "Found ENDIF without a corresponding IF"
  | .elseWithoutIf => "Found ELSE without a corresponding IF"
  | .blockNeverClosed kind => s!"{kind.keyword.spelling} block was never closed"
  | .missingName keyword => s!"{keyword.spelling} expects a name"
  | .labelAlreadyUsed name first => s!"The label {name} has already been used at {first.render}"
  | .labelNotFound name => s!"The label {name} was not found"
  | .notUnderstood name => s!"Did not understand `{name}`"
  | .subroutineRedefined name => s!"The subroutine {name} has already been defined"
  | .subroutineLooksNumeric name => badSubroutineName name "it looks like a number"
  | .subroutineIsCommand name => badSubroutineName name "it is a built-in command"
  | .subroutineIsKeyword name => badSubroutineName name "it is a keyword"
  | .tooManyLiterals limit =>
    s!"Too many literals (> {limit}) in a row: this will overflow the stack"
  | .tooManySubroutines limit profile =>
    s!"Too many subroutines: the limit for the {profile.name} Maestro is {limit}"
  | .programTooLarge offset => s!"Program too large: offset {offset} does not fit in 16 bits"
  | .literalCommand =>
    "Literal commands may not be used directly in a program; integers should be entered directly"
  | .jumpCommand => "Jumps may not be used directly in a program"
  | .callCommand =>
    "Calls may not be used directly in a program; call a subroutine by its name"
  | .miniOnly op => s!"{op.name} is only available on the Mini Maestro 12, 18, and 24"
  | .opcodeAlreadySet => "The opcode has already been set"

/-- A fault and the place that it is about. -/
structure Diag where
  pos : Pos
  fault : Fault
  deriving DecidableEq

def Diag.message (d : Diag) : String := s!"{d.pos.render}: {d.fault.message}"

end ServoScript
