/-!
# Terminal marks

Colours and weights that a terminal shows, as escape sequences around a text. They are always
written, whatever reads them.
-/

namespace ServoScript.Text

inductive Mark where
  | red
  | green
  | yellow
  | blue
  | bold
  | underline

namespace Mark

/-- The code that turns a mark on. -/
def setCode : Mark → Nat
  | .red => 31
  | .green => 32
  | .yellow => 33
  | .blue => 34
  | .bold => 1
  | .underline => 4

/-- The code that turns a mark off; the colours share one. -/
def resetCode : Mark → Nat
  | .red | .green | .yellow | .blue => 39
  | .bold => 22
  | .underline => 24

/-- The escape sequence of a code. -/
def select (n : Nat) : String := s!"\x1b[{n}m"

end Mark

/-- A text with marks; they are turned on, and off again, in the order in which they are listed. -/
def marked (marks : List Mark) (s : String) : String :=
  String.join (marks.map fun m => Mark.select m.setCode) ++ s ++
    String.join (marks.map fun m => Mark.select m.resetCode)

end ServoScript.Text
