import ServoScript.Fault
import ServoScript.Text.Digit

/-!
# Number words

A word is a number by its looks alone: digits and points, with a sign, or hexadecimal digits and
points after `0x`. What it denotes is read exactly, without rounding: a decimal from -32768 to 32767
that is an integer, or a hexadecimal number of 16 bits.
-/

namespace ServoScript.Number

open Text (hexValue?)

/-- What follows a leading `0x` or `0X`. -/
def hexBody? : List Char → Option (List Char)
  | '0' :: 'x' :: rest => some rest
  | '0' :: 'X' :: rest => some rest
  | _ => none

/-- The sign and what follows it. -/
def splitSign : List Char → Bool × List Char
  | '-' :: rest => (true, rest)
  | cs => (false, cs)

def looksDecimal (cs : List Char) : Bool :=
  let body := (splitSign cs).2
  !body.isEmpty && body.all fun c => c.isDigit || c == '.'

def looksHex (cs : List Char) : Bool :=
  match hexBody? cs with
  | some body => !body.isEmpty && body.all fun c => (hexValue? c).isSome || c == '.'
  | none => false

/-- Is the word shaped like a number? Whether it has a value is another matter. -/
def looksNumeric (text : String) : Bool :=
  looksDecimal text.toList || looksHex text.toList

/-! ## Hexadecimal -/

/-- Hexadecimal values are collected in 64 bits. -/
def hexCapacity : Nat := Nat.pow 2 64

def hexRange (text : String) : Fault := .outOfRange text 0 65535

/-- Reads hexadecimal digits from the left. The first character that is no digit, or with which the
value outgrows its capacity, decides; a character that does both is no digit. -/
def readHexDigits (text : String) : Nat → List Char → Except Fault Nat
  | value, [] => .ok value
  | value, c :: rest =>
    match hexValue? c with
    | none => .error (.invalidNumber text)
    | some d =>
      if hexCapacity ≤ 16 * value + d then .error (hexRange text)
      else readHexDigits text (16 * value + d) rest

/-- One plus sign may stand before the digits. -/
def dropPlus : List Char → List Char
  | '+' :: rest => rest
  | cs => cs

def readHex (text : String) (body : List Char) : Except Fault Word :=
  let digits := dropPlus body
  if digits.isEmpty then .error (.invalidNumber text)
  else
    match readHexDigits text 0 digits with
    | .error e => .error e
    | .ok value => if value ≤ 65535 then .ok (UInt16.ofNat value) else .error (hexRange text)

/-! ## Decimal -/

/-- Digits before the point are collected in 64 bits, of which one is for the sign. -/
def wholeCapacity : Nat := Nat.pow 2 63

def decimalRange (text : String) : Fault := .outOfRange text (-32768) 32767

/-- Reads decimal digits from the left, up to the one with which the value outgrows its capacity. -/
def readWholeDigits? : Nat → List Char → Option Nat
  | value, [] => some value
  | value, c :: rest =>
    let next := 10 * value + (c.toNat - '0'.toNat)
    if wholeCapacity ≤ next then none else readWholeDigits? next rest

/-- A decimal as written: digits before and after the point. -/
structure Decimal where
  negative : Bool
  whole : List Char
  fraction : List Char

namespace Decimal

/-- Takes a decimal apart. There is at most one point and at least one digit. -/
def ofChars? (cs : List Char) : Option Decimal :=
  let (negative, digits) := splitSign cs
  let whole := digits.takeWhile (· ≠ '.')
  let fraction := (digits.dropWhile (· ≠ '.')).tail
  let digits := whole ++ fraction
  if digits.isEmpty || !digits.all Char.isDigit then none
  else some ⟨negative, whole, fraction⟩

/-- The integer before the point, if it keeps within its capacity; zero where no digit stands. -/
def integerPart? (d : Decimal) : Option Int :=
  (readWholeDigits? 0 d.whole).map fun n : Nat => if d.negative then -(n : Int) else n

/-- Is there anything but zeros after the point? -/
def hasFraction (d : Decimal) : Bool := d.fraction.any (· ≠ '0')

/-- Is a decimal with the integer part `n` out of range? With a fraction the value lies beyond its
integer part, away from zero. -/
def outOfRange (d : Decimal) (n : Int) : Bool :=
  n < -32768 || 32767 < n || (d.hasFraction && if d.negative then n == -32768 else n == 32767)

end Decimal

def readDecimal (text : String) (cs : List Char) : Except Fault Word :=
  match Decimal.ofChars? cs with
  | none => .error (.invalidNumber text)
  | some d =>
    match d.integerPart? with
    | none => .error (decimalRange text)
    | some n =>
      if d.outOfRange n then .error (decimalRange text)
      else if d.hasFraction then .error (.notAnInteger text)
      else .ok (UInt16.ofInt n)

/-- The word that a number stands for; negative numbers in two's complement. -/
def read (text : String) : Except Fault Word :=
  match hexBody? text.toList with
  | some body => readHex text body
  | none => readDecimal text text.toList

end ServoScript.Number
