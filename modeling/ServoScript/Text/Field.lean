/-!
# Fixed-width text fields

Numbers in a given base with leading zeros, and text filled up with blanks on either side.
A value that needs more room than its field is written in full.
-/

namespace ServoScript.Text

/-- Upper-case hexadecimal with at least `width` digits. -/
def hex (width n : Nat) : String :=
  String.ofList (((Nat.toDigits 16 n).map Char.toUpper).leftpad width '0')

/-- Decimal with at least `width` digits. -/
def decimal (width n : Nat) : String :=
  String.ofList ((Nat.toDigits 10 n).leftpad width '0')

/-- Text at the left end of a field. -/
def alignLeft (width : Nat) (s : String) : String :=
  String.ofList (s.toList.rightpad width ' ')

/-- Text at the right end of a field. -/
def alignRight (width : Nat) (s : String) : String :=
  String.ofList (s.toList.leftpad width ' ')

/-- A column of `n` blanks. -/
def blanks (n : Nat) : String := String.ofList (List.replicate n ' ')

end ServoScript.Text
