import ServoScript.Text.Pieces
import ServoScript.Token

/-!
# Source text

A script is a sequence of lines, a line is code up to the first `#`, and the code is words between
single blanks and tabs. No other white space separates words. Columns count characters of the line
as it is written.
-/

namespace ServoScript

namespace Source

/-- A line feed ends a line, and one carriage return before it belongs to the line's end. -/
def dropReturn (cs : List Char) : List Char :=
  if cs.getLast? = some '\r' then cs.dropLast else cs

def lines (source : String) : List String :=
  (Text.pieces (· == '\n') source.toList).map fun cs => String.ofList (dropReturn cs)

/-- The part of a line before its comment. -/
def code (line : List Char) : List Char := line.takeWhile (· ≠ '#')

def isSeparator (c : Char) : Bool := c == ' ' || c == '\t'

/-- A word as written and the column of its first character. -/
structure Lexeme where
  chars : List Char
  col : Nat

/-- The column after a piece and its separator, and the words so far; an empty piece is no word. -/
def placePiece (s : Nat × Array Lexeme) (piece : List Char) : Nat × Array Lexeme :=
  (s.1 + piece.length + 1, if piece.isEmpty then s.2 else s.2.push ⟨piece, s.1⟩)

/-- The words of a line from left to right. -/
def lexemes (line : List Char) : List Lexeme :=
  ((Text.pieces isSeparator (code line)).foldl placePiece (1, #[])).2.toList

/-- The tokens of a line. -/
def lineTokens (file : String) (row : Nat) (line : String) : List Token :=
  (lexemes line.toList).map fun w => ⟨Text.upper (String.ofList w.chars), ⟨file, row, w.col⟩⟩

/-- Every line of a script with its tokens. -/
def tokens (file source : String) : List (String × List Token) :=
  (lines source).zipIdx.map fun (line, i) => (line, lineTokens file (i + 1) line)

end Source

end ServoScript
