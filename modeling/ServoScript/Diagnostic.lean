import ServoScript.Fault
import ServoScript.Text.Field
import ServoScript.Text.Mark

/-!
# Reports of diagnostics

A diagnostic as it is shown to the author of a script: the sentence, the place, and the line with a
mark under the word.
-/

namespace ServoScript.Diag

open Text (marked alignRight blanks)

/-- The line that a diagnostic points into; empty if there is none. -/
def sourceLine (d : Diag) (lines : Array String) : String :=
  match d.pos.line with
  | 0 => ""
  | n + 1 => lines[n]?.getD ""

def report (d : Diag) (lines : Array String) : String :=
  let bar := marked [.blue] "|"
  let number := marked [.blue] (alignRight 4 (toString d.pos.line) ++ " |")
  String.join
    [marked [.red, .bold] "error", ": ", d.fault.message, "\n",
     "     ", marked [.blue] "-->", " ", marked [.underline] d.pos.render, "\n",
     "      ", bar, "\n",
     " ", number, " ", d.sourceLine lines, "\n",
     "      ", bar, " ", blanks (d.pos.col - 1), marked [.red, .bold] "^", "\n"]

end ServoScript.Diag
