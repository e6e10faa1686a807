import ServoScript.Number
import ServoScript.Text.UpperCase

/-!
# Tokens

A word of a script in upper case, with its position, and what its spelling makes it.
-/

namespace ServoScript

inductive TokenKind where
  /-- Shaped like a number; it may still have no value. -/
  | number
  | keyword (keyword : Keyword)
  /-- A name and a colon; `name` is without the colon. -/
  | label (name : String)
  | op (opcode : Opcode)
  /-- Any other word: the name of a subroutine. -/
  | plain
  deriving DecidableEq

namespace TokenKind

/-- The text before a final colon. -/
def labelName? (text : String) : Option String :=
  let cs := text.toList
  if cs.getLast? = some ':' then some (String.ofList cs.dropLast) else none

/-- The kind of a word that is neither a number nor a label. -/
def ofWord (text : String) : TokenKind :=
  match Keyword.ofSpelling? text with
  | some k => .keyword k
  | none =>
    match Opcode.ofName? text with
    | some o => .op o
    | none => .plain

/-- The kind of a word in upper case. Numbers come first, then labels, then reserved words. -/
def classify (text : String) : TokenKind :=
  if Number.looksNumeric text then .number
  else
    match labelName? text with
    | some n => .label n
    | none => ofWord text

end TokenKind

structure Token where
  /-- The word in upper case. -/
  text : String
  pos : Pos
  deriving DecidableEq

def Token.kind (t : Token) : TokenKind := TokenKind.classify t.text

/-- Finds the opcode of a spelling in any case. -/
def Opcode.ofSpelling? (s : String) : Option Opcode := Opcode.ofName? (Text.upper s)

end ServoScript
