import ServoScript.Opcode

/-!
# Controller models

A script is assembled for one of two families of controllers. The smaller one has a shallow stack,
a table of 128 subroutines and no calls beyond it, and lacks the last few opcodes.
-/

namespace ServoScript

inductive Profile where
  | micro
  | mini
  deriving DecidableEq, Inhabited

namespace Profile

def ofMini (isMini : Bool) : Profile := if isMini then .mini else .micro

def name : Profile → String
  | .micro => "Micro"
  | .mini => "Mini"

/-- A run of more literals than this overflows the stack of every model. -/
def literalCeiling : Nat := 126

/-- The model's own bound on a run of literals, if it is tighter than `literalCeiling`. -/
def literalLimit? : Profile → Option Nat
  | .micro => some 32
  | .mini => none

/-- The number of subroutines that a script may declare, if there is a bound. -/
def subroutineLimit? : Profile → Option Nat
  | .micro => some 128
  | .mini => none

/-- The first opcode that only the larger model implements. -/
def firstMiniOnly : Byte := 50

def supports (p : Profile) (op : Opcode) : Bool :=
  match p with
  | .micro => op.code < firstMiniOnly
  | .mini => true

end Profile

end ServoScript
