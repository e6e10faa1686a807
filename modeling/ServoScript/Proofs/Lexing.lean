import ServoScript.Proofs.Columns

/-!
# Tokens are the words of a script

A line of a script is what stands between two line feeds, and its tokens are the longest unbroken
words of its code, each once and from left to right (`tokens_exact`). A word is given by the
characters before it and its own; at either end of it there is a blank, a tab or nothing (`IsWord`).
Which words there are follows the pieces between separators (`isWord_piece_iff`,
`isWord_append_iff`), and so does the column of each (`exists_words`).
-/

namespace ServoScript

theorem Text.pieces_eq_splitOnP (isSeparator : Char → Bool) (cs : List Char) :
    pieces isSeparator cs = cs.splitOnP isSeparator := by
  induction cs with
  | nil => rfl
  | cons c cs ih =>
    rw [pieces_cons, List.splitOnP_cons_eq_if_modifyHead, ih]
    obtain ⟨piece, rest, hpieces⟩ :=
      List.exists_cons_of_ne_nil (List.splitOnP_ne_nil isSeparator cs)
    rw [hpieces]
    rfl

namespace Source

/-! ## Words -/

def Unbroken (cs : List Char) : Prop := ∀ c ∈ cs, c ≠ ' ' ∧ c ≠ '\t'

/-- A word can end before these characters of a line. -/
def Closes (after : List Char) : Prop :=
  after = [] ∨ ∃ s back, after = s :: back ∧ (s = ' ' ∨ s = '\t')

/-- A word of some code and the characters before it: it is not empty and unbroken, and would be
broken by one character more at either end. -/
structure IsWord (code before word : List Char) : Prop where
  ne_nil : word ≠ []
  unbroken : Unbroken word
  opens : Opens before
  closes : ∃ after, code = before ++ word ++ after ∧ Closes after

theorem Unbroken.isSeparator_eq {cs : List Char} (h : Unbroken cs) :
    ∀ c ∈ cs, isSeparator c = false :=
  fun c hc => isSeparator_eq_false_iff.mpr (h c hc)

theorem Unbroken.not_separator {cs : List Char} (h : Unbroken cs) {s : Char} (hs : s ∈ cs) :
    ¬ (s = ' ' ∨ s = '\t') := by
  rintro (rfl | rfl)
  · exact (h ' ' hs).1 rfl
  · exact (h '\t' hs).2 rfl

variable {piece before word after rest : List Char} {s : Char}

theorem Opens.eq_nil (h : Opens before) (hbefore : Unbroken before) : before = [] := by
  rcases h with h | ⟨front, s, rfl, hs⟩
  · exact h
  · exact absurd hs (hbefore.not_separator (by simp))

theorem opens_append_iff {front : List Char} (hs : s = ' ' ∨ s = '\t') :
    Opens (front ++ s :: before) ↔ Opens before := by
  constructor
  · intro h
    rcases List.eq_nil_or_concat before with rfl | ⟨init, c, rfl⟩
    · exact .inl rfl
    · rcases h with h | ⟨front', t, h, ht⟩
      · simp at h
      · rw [List.concat_eq_append, ← List.cons_append, ← List.append_assoc,
          List.append_singleton_inj] at h
        exact .inr ⟨init, c, List.concat_eq_append, h.2 ▸ ht⟩
  · rintro (rfl | ⟨init, t, rfl, ht⟩)
    · exact .inr ⟨front, s, rfl, hs⟩
    · exact .inr ⟨front ++ s :: init, t, by simp, ht⟩

theorem Closes.eq_nil {front : List Char} (h : Closes (front ++ after)) (hfront : Unbroken front) :
    front = [] := by
  cases front with
  | nil => rfl
  | cons c front =>
    rcases h with h | ⟨s, back, h, hs⟩
    · cases h
    · cases h
      exact absurd hs (hfront.not_separator (by simp))

theorem Closes.eq_of_append {after' : List Char} (hafter : Closes after) (hafter' : Closes after')
    (hword : Unbroken word) (hpiece : Unbroken piece) (h : word ++ after = piece ++ after') :
    word = piece := by
  rcases List.append_eq_append_iff.mp h with ⟨more, rfl, rfl⟩ | ⟨more, rfl, rfl⟩
  · have hnil := hafter.eq_nil fun c hc => hpiece c (by simp [hc])
    rw [hnil, List.append_nil]
  · have hnil := hafter'.eq_nil fun c hc => hword c (by simp [hc])
    rw [hnil, List.append_nil]

theorem isWord_piece_iff (hpiece : Unbroken piece) :
    IsWord piece before word ↔ before = [] ∧ word = piece ∧ piece ≠ [] := by
  constructor
  · intro h
    obtain ⟨after, hcode, hafter⟩ := h.closes
    have hbefore : before = [] := h.opens.eq_nil fun c hc => hpiece c (by simp [hcode, hc])
    subst hbefore
    have hword : word = piece :=
      hafter.eq_of_append (.inl rfl) h.unbroken hpiece (by rw [hcode]; simp)
    exact ⟨rfl, hword, hword ▸ h.ne_nil⟩
  · rintro ⟨rfl, rfl, hne⟩
    exact ⟨hne, hpiece, .inl rfl, [], by simp, .inl rfl⟩

theorem isWord_append_iff (hpiece : Unbroken piece) (hs : s = ' ' ∨ s = '\t') :
    IsWord (piece ++ s :: rest) before word ↔
      (before = [] ∧ word = piece ∧ piece ≠ []) ∨
        ∃ before', before = piece ++ s :: before' ∧ IsWord rest before' word := by
  have hcloses : Closes (s :: rest) := .inr ⟨s, rest, rfl, hs⟩
  constructor
  · intro h
    obtain ⟨after, hcode, hafter⟩ := h.closes
    rw [List.append_assoc] at hcode
    rcases List.append_eq_append_iff.mp hcode with ⟨more, rfl, hmore⟩ | ⟨more, rfl, hmore⟩
    · cases more with
      | nil =>
        -- the piece is empty, and the word would start with the separator
        have hword := h.unbroken
        obtain ⟨c, word, rfl⟩ := List.exists_cons_of_ne_nil h.ne_nil
        cases hmore
        exact absurd hs (hword.not_separator List.mem_cons_self)
      | cons c before' =>
        cases hmore
        exact .inr ⟨before', rfl, h.ne_nil, h.unbroken, (opens_append_iff hs).mp h.opens, after,
          by simp, hafter⟩
    · have hbefore : before = [] := h.opens.eq_nil fun c hc => hpiece c (by simp [hc])
      subst hbefore
      have hword : word = more := hafter.eq_of_append hcloses h.unbroken hpiece hmore
      exact .inl ⟨rfl, hword, hword ▸ h.ne_nil⟩
  · rintro (⟨rfl, rfl, hne⟩ | ⟨before', rfl, h⟩)
    · exact ⟨hne, hpiece, .inl rfl, s :: rest, rfl, hcloses⟩
    · obtain ⟨after, rfl, hafter⟩ := h.closes
      exact ⟨h.ne_nil, h.unbroken, (opens_append_iff hs).mpr h.opens, after, by simp, hafter⟩

/-! ## Words and their columns -/

theorem piece_induction {P : List Char → Prop} (last : ∀ piece, Unbroken piece → P piece)
    (next : ∀ piece s rest, Unbroken piece → isSeparator s = true → P rest →
      P (piece ++ s :: rest)) (cs : List Char) : P cs := by
  obtain ⟨piece, after, hcs, hpiece, hafter⟩ := pieces_cases cs
  have hunbroken : Unbroken piece := fun c hc => isSeparator_eq_false_iff.mp (hpiece c hc)
  rcases hafter with ⟨rfl, -⟩ | ⟨s, rest, rfl, hs, -⟩
  · rw [hcs, List.append_nil]
    exact last piece hunbroken
  · rw [hcs]
    exact next piece s rest hunbroken hs (piece_induction last next rest)
termination_by cs.length
decreasing_by
  simp only [hcs, List.length_append, List.length_cons]
  omega

def wordOfPiece (piece : List Char) : List (List Char × List Char) :=
  if piece.isEmpty then [] else [([], piece)]

theorem mem_wordOfPiece :
    (before, word) ∈ wordOfPiece piece ↔ before = [] ∧ word = piece ∧ piece ≠ [] := by
  cases piece <;> simp [wordOfPiece]

theorem pairwise_wordOfPiece (piece : List Char) :
    (wordOfPiece piece).Pairwise fun v w => v.1.length < w.1.length := by
  cases piece <;> simp [wordOfPiece]

theorem lexemesFrom_cons (col : Nat) (piece : List Char) (ps : List (List Char)) :
    lexemesFrom col (piece :: ps) =
      (wordOfPiece piece).map (fun w => ⟨w.2, col + w.1.length⟩) ++
        lexemesFrom (col + piece.length + 1) ps := by
  cases piece <;> rfl

/-- **The words of a text.** There is a list of them from left to right, and the lexer finds each
in its place. -/
theorem exists_words (cs : List Char) : ∃ words : List (List Char × List Char),
    (∀ before word, (before, word) ∈ words ↔ IsWord cs before word) ∧
    words.Pairwise (fun v w => v.1.length < w.1.length) ∧
    ∀ col, lexemesFrom col (Text.pieces isSeparator cs) =
      words.map fun w => ⟨w.2, col + w.1.length⟩ := by
  induction cs using piece_induction with
  | last piece hpiece =>
    refine ⟨wordOfPiece piece, fun before word => ?_, ?_, fun col => ?_⟩
    · rw [mem_wordOfPiece, isWord_piece_iff hpiece]
    · exact pairwise_wordOfPiece piece
    · rw [Text.pieces_of_forall hpiece.isSeparator_eq, lexemesFrom_cons, lexemesFrom,
        List.append_nil]
  | next piece s rest hpiece hs ih =>
    obtain ⟨words, hwords, hordered, hcolumns⟩ := ih
    refine ⟨wordOfPiece piece ++ words.map fun w => (piece ++ s :: w.1, w.2),
      fun before word => ?_, ?_, fun col => ?_⟩
    · rw [List.mem_append, mem_wordOfPiece, isWord_append_iff hpiece (isSeparator_iff.mp hs)]
      refine or_congr_right ⟨fun h => ?_, ?_⟩
      · obtain ⟨⟨before', word'⟩, hmem, heq⟩ := List.mem_map.mp h
        cases heq
        exact ⟨before', rfl, (hwords _ _).mp hmem⟩
      · rintro ⟨before', rfl, hword⟩
        exact List.mem_map.mpr ⟨(before', word), (hwords _ _).mpr hword, rfl⟩
    · rw [List.pairwise_append, List.pairwise_map]
      refine ⟨pairwise_wordOfPiece piece, hordered.imp fun hvw => by simpa using hvw, ?_⟩
      rintro ⟨before, word⟩ hfirst w hw
      obtain ⟨⟨before', word'⟩, -, rfl⟩ := List.mem_map.mp hw
      obtain ⟨rfl, -⟩ := mem_wordOfPiece.mp hfirst
      simp only [List.length_nil, List.length_append, List.length_cons]
      omega
    · rw [Text.pieces_append hpiece.isSeparator_eq hs, lexemesFrom_cons, hcolumns, List.map_append,
        List.map_map]
      congr 1
      refine List.map_congr_left fun w _ => ?_
      simp only [Function.comp_apply, List.length_append, List.length_cons, Lexeme.mk.injEq,
        true_and]
      omega

/-! ## Lines -/

/-- A line is a piece between line feeds without a carriage return at its end. -/
def WithoutReturn (piece line : List Char) : Prop :=
  piece = line ++ ['\r'] ∨ line = piece ∧ piece.getLast? ≠ some '\r'

/-- What the lexer makes of a line: the words of its code in upper case, each once and in order, with
their columns. -/
structure Tokenized (file : String) (row : Nat) (line : List Char) (ts : List Token) : Prop where
  words : ∃ words : List (List Char × List Char),
    (∀ before word, (before, word) ∈ words ↔ IsWord (line.takeWhile (· ≠ '#')) before word) ∧
    words.Pairwise (fun v w => v.1.length < w.1.length) ∧
    ts = words.map fun w => ⟨Text.upper (String.ofList w.2), ⟨file, row, 1 + w.1.length⟩⟩
  columns : ts.Pairwise fun t u => t.pos.col < u.pos.col

theorem withoutReturn_dropReturn (piece : List Char) :
    WithoutReturn piece (dropReturn piece) := by
  unfold dropReturn
  split
  · rename_i hlast
    obtain ⟨front, rfl⟩ := List.getLast?_eq_some_iff.mp hlast
    rw [List.dropLast_concat]
    exact .inl rfl
  · rename_i hlast
    exact .inr ⟨rfl, hlast⟩

theorem tokenized_lineTokens (file : String) (row : Nat) (line : String) :
    Tokenized file row line.toList (lineTokens file row line) := by
  obtain ⟨words, hwords, hordered, hcolumns⟩ := exists_words (code line.toList)
  have htokens : lineTokens file row line =
      words.map fun w => ⟨Text.upper (String.ofList w.2), ⟨file, row, 1 + w.1.length⟩⟩ := by
    rw [lineTokens, lexemes_eq, hcolumns, List.map_map]
    rfl
  refine ⟨⟨words, hwords, hordered, htokens⟩, ?_⟩
  rw [htokens, List.pairwise_map]
  exact hordered.imp fun hvw => Nat.add_lt_add_left hvw 1

/-- **The tokens of a script are its words.** There is one entry for each piece between line feeds,
in order. It holds the piece without a carriage return at its end, and for each longest word without
blanks and tabs before the first `#` a token: the word in upper case, the number of the line, and
one more than the number of characters before the word. -/
theorem tokens_exact (file source : String) :
    List.Forall₂ (fun piece entry => WithoutReturn piece.1 entry.1.toList ∧
        Tokenized file (piece.2 + 1) entry.1.toList entry.2)
      (source.toList.splitOn '\n').zipIdx (tokens file source) := by
  have hlines : lines source =
      (source.toList.splitOn '\n').map fun cs => String.ofList (dropReturn cs) := by
    rw [lines, Text.pieces_eq_splitOnP]
    rfl
  rw [tokens, hlines, List.zipIdx_map, List.map_map, List.forall₂_map_right_iff, List.forall₂_same]
  rintro ⟨piece, n⟩ -
  refine ⟨?_, tokenized_lineTokens file (n + 1) _⟩
  simpa using withoutReturn_dropReturn piece

/-- Separators, a comment and characters that grow in upper case. -/
example : (lineTokens "script" 3 " a\t\tß  x# y").map (fun t => (t.text, t.pos.line, t.pos.col)) =
    [("A", 3, 2), ("SS", 3, 5), ("X", 3, 8)] := by
  decide +kernel

end Source

end ServoScript
