import ServoScript.Proofs.Reading

/-!
# The words of a script

The words of a line are found piece by piece (`Source.lexemes_eq`). The texts of its tokens are its
non-empty pieces in upper case (`Source.map_text_lineTokens`), whatever their columns, and a script
without line feeds is a single line (`Source.script_of_line`).
-/

namespace ServoScript

namespace Text

variable {isSeparator : Char → Bool} {piece : List Char}

theorem pieces_append {sep : Char} (hpiece : ∀ c ∈ piece, isSeparator c = false)
    (hsep : isSeparator sep = true) (rest : List Char) :
    pieces isSeparator (piece ++ sep :: rest) = piece :: pieces isSeparator rest := by
  induction piece with
  | nil => rw [List.nil_append, pieces_cons, if_pos hsep]
  | cons c piece ih =>
    have hc : ¬isSeparator c = true := by simp [hpiece c List.mem_cons_self]
    rw [List.cons_append, pieces_cons, if_neg hc,
      ih fun x hx => hpiece x (List.mem_cons_of_mem _ hx)]
    rfl

theorem pieces_of_forall (hpiece : ∀ c ∈ piece, isSeparator c = false) :
    pieces isSeparator piece = [piece] := by
  induction piece with
  | nil => rfl
  | cons c piece ih =>
    have hc : ¬isSeparator c = true := by simp [hpiece c List.mem_cons_self]
    rw [pieces_cons, if_neg hc, ih fun x hx => hpiece x (List.mem_cons_of_mem _ hx)]
    rfl

end Text

namespace Source

/-- The words among some pieces, the first of which starts at a column. -/
def lexemesFrom (col : Nat) : List (List Char) → List Lexeme
  | [] => []
  | piece :: rest =>
    let later := lexemesFrom (col + piece.length + 1) rest
    if piece.isEmpty then later else ⟨piece, col⟩ :: later

theorem foldl_placePiece (ps : List (List Char)) (col : Nat) (done : Array Lexeme) :
    (ps.foldl placePiece (col, done)).2.toList = done.toList ++ lexemesFrom col ps := by
  induction ps generalizing col done with
  | nil => rw [List.foldl_nil, lexemesFrom, List.append_nil]
  | cons piece ps ih =>
    rw [List.foldl_cons, placePiece, ih, lexemesFrom]
    dsimp only
    split
    · rfl
    · rw [Array.toList_push, List.append_assoc, List.singleton_append]

theorem lexemes_eq (line : List Char) :
    lexemes line = lexemesFrom 1 (Text.pieces isSeparator (code line)) := by
  rw [lexemes, foldl_placePiece, Array.toList_empty, List.nil_append]

theorem map_chars_lexemesFrom (col : Nat) (ps : List (List Char)) :
    (lexemesFrom col ps).map (·.chars) = ps.filter (fun w => !w.isEmpty) := by
  induction ps generalizing col with
  | nil => rfl
  | cons w ps ih =>
    cases w with
    | nil => exact ih _
    | cons c w => exact congrArg ((c :: w) :: ·) (ih _)

theorem map_text_lineTokens (file : String) (row : Nat) (line : String) :
    (lineTokens file row line).map (·.text) =
      ((Text.pieces isSeparator (code line.toList)).filter (fun w => !w.isEmpty)).map
        fun w => Text.upper (String.ofList w) := by
  rw [← map_chars_lexemesFrom 1, ← lexemes_eq, lineTokens, List.map_map, List.map_map]
  rfl

theorem script_of_line (file : String) {source : String} (hfeed : '\n' ∉ source.toList)
    (hreturn : source.toList.getLast? ≠ some '\r') :
    script file source = lineTokens file 1 source := by
  have hpieces : Text.pieces (· == '\n') source.toList = [source.toList] := by
    refine Text.pieces_of_forall fun c hc => ?_
    rw [beq_eq_false_iff_ne]
    rintro rfl
    exact hfeed hc
  have hlines : lines source = [source] := by
    rw [lines, hpieces, List.map_singleton, dropReturn, if_neg hreturn, String.ofList_toList]
  rw [script, tokens, hlines]
  simp

end Source

end ServoScript
