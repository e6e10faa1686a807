import ServoScript.Proofs.Words

/-!
# Where words stand

A token stands at the first character of a word of its line (`Source.exists_line_of_mem_script`),
and the tokens of a script stand one after another (`Source.pairwise_script`).
-/

namespace ServoScript

def Pos.Before (p q : Pos) : Prop := p.line < q.line ∨ p.line = q.line ∧ p.col < q.col

namespace Source

/-- A word can start after these characters of a line. -/
def Opens (before : List Char) : Prop :=
  before = [] ∨ ∃ front s, before = front ++ [s] ∧ (s = ' ' ∨ s = '\t')

/-- A word of the code of a line starts at a column: a character that is no blank, tab or `#` stands
there, no `#` stands before it, and it is the first one or follows a blank or a tab. -/
def StartsWord (line : List Char) (col : Nat) : Prop :=
  ∃ before c after, line = before ++ c :: after ∧ col = before.length + 1 ∧
    c ≠ ' ' ∧ c ≠ '\t' ∧ c ≠ '#' ∧ '#' ∉ before ∧ Opens before

/-! ## Words of a line -/

theorem isSeparator_iff {c : Char} : isSeparator c = true ↔ c = ' ' ∨ c = '\t' := by
  simp [isSeparator]

theorem isSeparator_eq_false_iff {c : Char} : isSeparator c = false ↔ c ≠ ' ' ∧ c ≠ '\t' := by
  simp [isSeparator]

theorem pieces_cases (cs : List Char) :
    ∃ piece after, cs = piece ++ after ∧ (∀ c ∈ piece, isSeparator c = false) ∧
      (after = [] ∧ Text.pieces isSeparator cs = [piece] ∨
        ∃ s rest, after = s :: rest ∧ isSeparator s = true ∧
          Text.pieces isSeparator cs = piece :: Text.pieces isSeparator rest) := by
  induction cs with
  | nil => exact ⟨[], [], rfl, by simp, .inl ⟨rfl, rfl⟩⟩
  | cons c cs ih =>
    by_cases hc : isSeparator c = true
    · exact ⟨[], c :: cs, rfl, by simp, .inr ⟨c, cs, rfl, hc, by simp [hc]⟩⟩
    · obtain ⟨piece, after, rfl, hpiece, hafter⟩ := ih
      have hall : ∀ x ∈ c :: piece, isSeparator x = false :=
        List.forall_mem_cons.mpr ⟨by simpa using hc, hpiece⟩
      refine ⟨c :: piece, after, rfl, hall, ?_⟩
      rcases hafter with ⟨rfl, -⟩ | ⟨s, rest, rfl, hs, -⟩
      · refine .inl ⟨rfl, ?_⟩
        rw [List.append_nil]
        exact Text.pieces_of_forall hall
      · exact .inr ⟨s, rest, rfl, hs, Text.pieces_append hall hs rest⟩

theorem mem_lexemesFrom_cons {col : Nat} {piece : List Char} {rest : List (List Char)}
    {w : Lexeme} : w ∈ lexemesFrom col (piece :: rest) ↔
      piece ≠ [] ∧ w = ⟨piece, col⟩ ∨ w ∈ lexemesFrom (col + piece.length + 1) rest := by
  cases piece with
  | nil => simp [lexemesFrom]
  | cons c piece => simp [lexemesFrom]

theorem pairwise_lexemesFrom (col : Nat) (ps : List (List Char)) :
    (∀ w ∈ lexemesFrom col ps, col ≤ w.col) ∧
      (lexemesFrom col ps).Pairwise (fun v w => v.col < w.col) := by
  induction ps generalizing col with
  | nil => exact ⟨nofun, .nil⟩
  | cons piece ps ih =>
    obtain ⟨hle, hlt⟩ := ih (col + piece.length + 1)
    rw [lexemesFrom]
    split
    · refine ⟨fun w hw => ?_, hlt⟩
      have hcol := hle w hw
      omega
    · rw [List.pairwise_cons]
      refine ⟨?_, ?_, hlt⟩
      · rw [List.forall_mem_cons]
        refine ⟨Nat.le_refl _, fun w hw => ?_⟩
        have hcol := hle w hw
        omega
      · intro w hw
        have hcol := hle w hw
        show col < w.col
        omega

/-- Each word of a text stands at its first character, which starts the text or follows a
separator. -/
theorem exists_of_mem_lexemesFrom {before cs : List Char} (hbefore : Opens before) {w : Lexeme}
    (hw : w ∈ lexemesFrom (before.length + 1) (Text.pieces isSeparator cs)) :
    ∃ front c back, before ++ cs = front ++ c :: back ∧ w.col = front.length + 1 ∧
      isSeparator c = false ∧ Opens front := by
  obtain ⟨piece, after, hcs, hpiece, hafter⟩ := pieces_cases cs
  have hfirst : piece ≠ [] → ∃ front c back, before ++ cs = front ++ c :: back ∧
      before.length + 1 = front.length + 1 ∧ isSeparator c = false ∧ Opens front := by
    intro hne
    obtain ⟨c, piece, rfl⟩ := List.exists_cons_of_ne_nil hne
    exact ⟨before, c, piece ++ after, by rw [hcs]; rfl, rfl, hpiece c List.mem_cons_self, hbefore⟩
  rcases hafter with ⟨rfl, hpieces⟩ | ⟨s, rest, rfl, hs, hpieces⟩
  · rw [hpieces, mem_lexemesFrom_cons] at hw
    rcases hw with ⟨hne, rfl⟩ | hw
    · exact hfirst hne
    · cases hw
  · rw [hpieces, mem_lexemesFrom_cons] at hw
    rcases hw with ⟨hne, rfl⟩ | hw
    · exact hfirst hne
    · -- the words of the rest stand after this piece and its separator
      have hopens : Opens (before ++ piece ++ [s]) := .inr ⟨_, s, rfl, isSeparator_iff.mp hs⟩
      have hcol : before.length + 1 + piece.length + 1 = (before ++ piece ++ [s]).length + 1 := by
        simp only [List.length_append, List.length_singleton]
        omega
      rw [hcol] at hw
      obtain ⟨front, c, back, heq, hplaced⟩ := exists_of_mem_lexemesFrom hopens hw
      refine ⟨front, c, back, ?_, hplaced⟩
      rw [← heq, hcs]
      simp
termination_by cs.length
decreasing_by
  simp only [hcs, List.length_append, List.length_cons]
  omega

theorem startsWord_of_mem_lexemes {line : List Char} {w : Lexeme} (hw : w ∈ lexemes line) :
    StartsWord line w.col := by
  rw [lexemes_eq] at hw
  change w ∈ lexemesFrom (([] : List Char).length + 1) _ at hw
  obtain ⟨front, c, back, hcode, hcol, hc, hfront⟩ := exists_of_mem_lexemesFrom (.inl rfl) hw
  rw [List.nil_append] at hcode
  have hcomment : ∀ x ∈ code line, x ≠ '#' := by
    intro x hx
    simpa using List.all_eq_true.mp List.all_takeWhile x hx
  obtain ⟨hblank, htab⟩ := isSeparator_eq_false_iff.mp hc
  refine ⟨front, c, back ++ line.dropWhile (· ≠ '#'), ?_, hcol, hblank, htab, ?_, ?_, hfront⟩
  · calc
      line = code line ++ line.dropWhile (· ≠ '#') := List.takeWhile_append_dropWhile.symm
      _ = front ++ c :: (back ++ line.dropWhile (· ≠ '#')) := by
        rw [hcode, List.append_assoc, List.cons_append]
  · exact hcomment c (by simp [hcode])
  · intro hmem
    exact hcomment '#' (by simp [hcode, hmem]) rfl

/-! ## Tokens of a script -/

theorem map_fst_tokens (file source : String) :
    (tokens file source).map (·.1) = lines source := by
  rw [tokens, List.map_map]
  exact List.zipIdx_map_fst 0 (lines source)

theorem script_eq (file source : String) : script file source =
    (lines source).zipIdx.flatMap fun l => lineTokens file (l.2 + 1) l.1 := by
  rw [script, tokens, List.flatMap_map]

theorem exists_line_of_mem_script {file source : String} {t : Token}
    (h : t ∈ script file source) : ∃ (n : Nat) (line : String),
      (lines source)[n]? = some line ∧ t.pos.file = file ∧ t.pos.line = n + 1 ∧
        StartsWord line.toList t.pos.col := by
  rw [script_eq] at h
  obtain ⟨⟨line, n⟩, hline, ht⟩ := List.mem_flatMap.mp h
  obtain ⟨w, hw, rfl⟩ := List.mem_map.mp ht
  exact ⟨n, line, List.mem_zipIdx_iff_getElem?.mp hline, rfl, rfl, startsWord_of_mem_lexemes hw⟩

theorem line_of_mem_lineTokens {file : String} {row : Nat} {line : String} {t : Token}
    (h : t ∈ lineTokens file row line) : t.pos.line = row := by
  obtain ⟨w, -, rfl⟩ := List.mem_map.mp h
  rfl

theorem pairwise_lineTokens (file : String) (row : Nat) (line : String) :
    (lineTokens file row line).Pairwise (fun t u => t.pos.Before u.pos) := by
  rw [lineTokens, List.pairwise_map, lexemes_eq]
  exact (pairwise_lexemesFrom 1 _).2.imp fun hlt => .inr ⟨rfl, hlt⟩

theorem pairwise_script (file source : String) :
    (script file source).Pairwise (fun t u => t.pos.Before u.pos) := by
  rw [script_eq, List.pairwise_flatMap]
  refine ⟨fun l _ => pairwise_lineTokens file (l.2 + 1) l.1, ?_⟩
  have hrows : (lines source).zipIdx.Pairwise (fun k l => k.2 < l.2) := by
    rw [← List.pairwise_map, List.zipIdx_map_snd]
    exact List.pairwise_lt_range'
  apply hrows.imp
  intro k l hkl t ht u hu
  left
  rw [line_of_mem_lineTokens ht, line_of_mem_lineTokens hu]
  omega

end Source

end ServoScript
