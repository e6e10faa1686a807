/-!
# Pieces of text

Text cut at separators.
-/

namespace ServoScript.Text

/-- Puts a character in front of the first piece. -/
def addToFirst (c : Char) : List (List Char) → List (List Char)
  | p :: ps => (c :: p) :: ps
  | [] => [[c]]

/-- Cuts a text at each separator. There is one piece more than there are separators. -/
def pieces (isSeparator : Char → Bool) (cs : List Char) : List (List Char) :=
  cs.foldr (fun c ps => if isSeparator c then [] :: ps else addToFirst c ps) [[]]

@[simp]
theorem pieces_nil (isSeparator : Char → Bool) : pieces isSeparator [] = [[]] := rfl

@[simp]
theorem pieces_cons (isSeparator : Char → Bool) (c : Char) (cs : List Char) :
    pieces isSeparator (c :: cs) =
      if isSeparator c then [] :: pieces isSeparator cs
      else addToFirst c (pieces isSeparator cs) := rfl

end ServoScript.Text
