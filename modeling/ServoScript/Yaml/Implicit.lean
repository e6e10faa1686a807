import ServoScript.Text.Digit

/-!
# Implicit YAML values

Text that stands in a YAML document without quotes is taken for null, a boolean, an integer or a
floating-point number if it looks like one.
-/

namespace ServoScript.Yaml

def isNull (s : String) : Bool := ["", "~", "null", "Null", "NULL"].contains s

def isBoolean (s : String) : Bool :=
  ["true", "True", "TRUE", "false", "False", "FALSE"].contains s

/-- Text without one sign in front of it, and whether that sign was a minus. -/
def splitSign : List Char → Bool × List Char
  | '+' :: cs => (false, cs)
  | '-' :: cs => (true, cs)
  | cs => (false, cs)

/-- The value of one or more digits. -/
def naturalOf? (base : Nat) (cs : List Char) : Option Nat :=
  if cs.isEmpty then none
  else cs.foldlM (fun n c => (Text.digitValue? base c).map (base * n + ·)) 0

/-- The magnitude of an integer without sign: decimal, or with a prefix for another base. -/
def magnitude? : List Char → Option Nat
  | '0' :: 'x' :: cs => naturalOf? 16 cs
  | '0' :: 'o' :: cs => naturalOf? 8 cs
  | '0' :: 'b' :: cs => naturalOf? 2 cs
  | cs => naturalOf? 10 cs

/-- Integers are read into 128 bits. -/
def isInteger (s : String) : Bool :=
  let (negative, cs) := splitSign s.toList
  match magnitude? cs with
  | some n => if negative then n ≤ Nat.pow 2 127 else n < Nat.pow 2 128
  | none => false

/-- Digits with a leading zero are no number, but look like one. -/
def isZeroPadded (s : String) : Bool :=
  match (splitSign s.toList).2 with
  | '0' :: c :: cs => (c :: cs).all Char.isDigit
  | _ => false

/-- A decimal with an exponent: its digits, how many of them stand after the point, and the power of
ten. -/
structure Scientific where
  digits : List Char
  places : Nat
  exponent : Int

namespace Scientific

def exponentOf? (cs : List Char) : Option Int :=
  let (negative, digits) := splitSign cs
  (naturalOf? 10 digits).map fun n => if negative then -(n : Int) else n

def isExponentMark (c : Char) : Bool := c == 'e' || c == 'E'

/-- Takes apart `digits.digitsEexponent`, where point and exponent may be missing. -/
def ofChars? (cs : List Char) : Option Scientific :=
  let mantissa := cs.takeWhile (!isExponentMark ·)
  let whole := mantissa.takeWhile (· ≠ '.')
  let fraction := (mantissa.dropWhile (· ≠ '.')).tail
  let digits := whole ++ fraction
  if digits.isEmpty || !digits.all Char.isDigit then none
  else
    match cs.dropWhile (!isExponentMark ·) with
    | [] => some ⟨digits, fraction.length, 0⟩
    | _ :: cs => (exponentOf? cs).map fun e => ⟨digits, fraction.length, e⟩

/-- Numbers from here on are nearer to the power of two above the greatest double than to it. -/
def doubleLimit : Nat := Nat.pow 2 1024 - Nat.pow 2 970

/-- Does the number round to a finite double? Only numbers of 309 digits before the point need a
closer look. -/
def isFinite (x : Scientific) : Bool :=
  let significant := x.digits.dropWhile (· == '0')
  let scale := x.exponent - x.places
  let wholeDigits := significant.length + scale
  if significant.isEmpty || wholeDigits < 309 then true
  else if 309 < wholeDigits then false
  else
    let n := Text.decimalValue significant
    if 0 ≤ scale then n * Nat.pow 10 scale.toNat < doubleLimit
    else n < doubleLimit * Nat.pow 10 (-scale).toNat

end Scientific

def isFloat (s : String) : Bool :=
  [".inf", ".Inf", ".INF"].contains (String.ofList (splitSign s.toList).2) ||
    [".nan", ".NaN", ".NAN"].contains s ||
    match Scientific.ofChars? (splitSign s.toList).2 with
    | some x => x.isFinite
    | none => false

/-- Would plain text be read as something other than a string? -/
def readsAsOther (s : String) : Bool :=
  isNull s || isBoolean s || isInteger s || isZeroPadded s || isFloat s

end ServoScript.Yaml
