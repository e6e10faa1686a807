import ServoScript.Text.Field
import ServoScript.Yaml.Implicit

/-!
# YAML scalars

A string as a scalar of a block mapping: plain where it would be read back as the same string, in
single quotes where plain text would be taken for something else, as a literal block where it has
line feeds, and in double quotes where the other styles would lose something.
-/

namespace ServoScript.Yaml

/-! ## What plain text would disturb -/

/-- Characters that cannot start plain text. -/
def indicators : List Char :=
  ['#', ',', '[', ']', '\x7b', '\x7d', '&', '*', '!', '|', '>', '\'', '"', '%', '@', '\x60']

/-- Is there a blank, or the end of the text, after this point? -/
def endsWord : List Char → Bool
  | [] => true
  | c :: _ => c == ' '

/-- A colon at the end of a word starts a value. -/
def hasValueMark : List Char → Bool
  | [] => false
  | ':' :: cs => endsWord cs || hasValueMark cs
  | _ :: cs => hasValueMark cs

/-- A number sign at the start of a word starts a comment. -/
def hasCommentMark : List Char → Bool
  | ' ' :: '#' :: _ => true
  | _ :: cs => hasCommentMark cs
  | [] => false

def startsBadly : List Char → Bool
  | '-' :: '-' :: '-' :: _ => true
  | '.' :: '.' :: '.' :: _ => true
  | '-' :: cs => endsWord cs
  | '?' :: cs => endsWord cs
  | ' ' :: _ => true
  | c :: _ => indicators.contains c
  | [] => false

/-- Characters that end a line. -/
def isBreak (c : Char) : Bool := c == '\n' || c == '\u2028' || c == '\u2029'

def disturbs (cs : List Char) : Bool :=
  startsBadly cs || hasValueMark cs || hasCommentMark cs || cs.getLast? == some ' ' ||
    cs.any isBreak

/-! ## Styles -/

def isPrintable (c : Char) : Bool :=
  let n := c.toNat
  ((0x20 ≤ n && n ≤ 0x7E) || 0xA0 ≤ n) && n ≠ 0xFEFF && n ≠ 0xFFFE && n ≠ 0xFFFF

/-- Does a character with `p` stand directly before one with `q`? -/
def adjacent (p q : Char → Bool) (cs : List Char) : Bool :=
  (cs.zip cs.tail).any fun (a, b) => p a && q b

inductive Style where
  | plain
  | singleQuoted
  | doubleQuoted
  | literal
  deriving DecidableEq

/-- The style of a string. Quotes over several lines would lose a blank beside a line break, and a
literal block would lose one at the end of a line. -/
def Style.of (s : String) : Style :=
  let cs := s.toList
  if !cs.all (fun c => isPrintable c || isBreak c) || adjacent (· == ' ') isBreak cs then
    .doubleQuoted
  else if cs.contains '\n' then
    if cs.getLast? == some ' ' then .doubleQuoted else .literal
  else if readsAsOther s || disturbs cs then
    if adjacent isBreak (· == ' ') cs then .doubleQuoted else .singleQuoted
  else .plain

/-! ## Writing -/

/-- Puts `margin` in front of each line that is not empty. The first line has been begun already
unless `fresh`. -/
def indented (margin : List Char) (fresh : Bool) (cs : List Char) : List Char :=
  (cs.zip (fresh :: cs.map isBreak)).flatMap fun (c, starts) =>
    if starts && !isBreak c then margin ++ [c] else [c]

/-- Quotes are doubled. A line break is followed by the margin, also at the closing quote. -/
def singleQuoted (margin cs : List Char) : List Char :=
  indented margin false <|
    '\'' :: (cs.flatMap fun c => if c == '\'' then ['\'', '\''] else [c]) ++ ['\'']

/-- The letter of a short escape. -/
def shortEscape? (c : Char) : Option Char :=
  [(0x00, '0'), (0x07, 'a'), (0x08, 'b'), (0x09, 't'), (0x0A, 'n'), (0x0B, 'v'), (0x0C, 'f'),
    (0x0D, 'r'), (0x1B, 'e'), (0x85, 'N'), (0x2028, 'L'), (0x2029, 'P')].lookup c.toNat

def escaped (c : Char) : String :=
  if c == '"' then "\\\""
  else if c == '\\' then "\\\\"
  else if isPrintable c && !isBreak c then c.toString
  else
    match shortEscape? c with
    | some letter => String.ofList ['\\', letter]
    | none =>
      if c.toNat ≤ 0xFF then "\\x" ++ Text.hex 2 c.toNat else "\\u" ++ Text.hex 4 c.toNat

def doubleQuoted (cs : List Char) : String := "\"" ++ String.join (cs.map escaped) ++ "\""

/-- The step between levels of a document. -/
def indentStep : Nat := 2

/-- A block that starts with a blank or a line break has to say how far it is indented. -/
def indentHint (cs : List Char) : String :=
  match cs.head? with
  | some c => if c == ' ' || isBreak c then toString indentStep else ""
  | none => ""

/-- Says what becomes of the line breaks at the end of a block. A single one needs no hint, several
are kept by `+`, and `-` says that there is none. Nothing but one line break counts as several. -/
def chompHint (cs : List Char) : String :=
  match cs.reverse.map isBreak with
  | true :: false :: _ => ""
  | true :: _ => "+"
  | _ => "-"

def literal (margin cs : List Char) : String :=
  "|" ++ indentHint cs ++ chompHint cs ++ "\n" ++ String.ofList (indented margin true cs)

/-- The scalar that stands for a string, with `margin` in front of its further lines. -/
def scalar (margin : List Char) (s : String) : String :=
  match Style.of s with
  | .plain => s
  | .singleQuoted => String.ofList (singleQuoted margin s.toList)
  | .doubleQuoted => doubleQuoted s.toList
  | .literal => literal margin s.toList

/-- Ends a line that has not ended by itself. -/
def endLine (text : String) : String :=
  if (text.toList.getLast?).any isBreak then text else text ++ "\n"

/-- A string under a key at a level of the document. Its further lines are one level deeper. -/
def field (level : Nat) (key value : String) : String :=
  let margin := List.replicate (indentStep * (level + 1)) ' '
  endLine (key ++ ": " ++ scalar margin value)

end ServoScript.Yaml
