/-!
# Positions

Where a word stands in a script: file name, line and column, both counted from 1.
-/

namespace ServoScript

structure Pos where
  file : String
  line : Nat
  col : Nat
  deriving DecidableEq

def Pos.render (p : Pos) : String := s!"{p.file}:{p.line}:{p.col}"

end ServoScript
