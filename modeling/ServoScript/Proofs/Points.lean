import ServoScript.Proofs.Nesting
import ServoScript.Proofs.Reading

/-!
# Points of a script

The point `n` of a script is the place before its `n`-th token, counted from 0. Which tokens are
read for themselves and which as names depends on the tokens before them alone (`awaitsName`), and
so does the block keyword after a point (`blockKeywordAt`). A script that is read to its end is a
course of open blocks for these keywords (`Reader.Reads.course`).
-/

namespace ServoScript

/-! ## Names and keywords -/

def Token.takesName (t : Token) : Bool := t.kind = .keyword .GOTO || t.kind = .keyword .SUB

/-- Whether the token after these is read as a name, whatever it looks like. -/
def awaitsName (ts : List Token) : Bool := ts.foldl (fun awaits t => !awaits && t.takesName) false

theorem awaitsName_concat (ts : List Token) (t : Token) :
    awaitsName (ts ++ [t]) = (!awaitsName ts && t.takesName) := by
  rw [awaitsName, List.foldl_append]
  rfl

theorem take_succ_eq {script : List Token} {n : Nat} {t : Token} (ht : script[n]? = some t) :
    script.take (n + 1) = script.take n ++ [t] := by
  rw [List.take_add_one, ht]
  rfl

def Token.blockKeyword? (t : Token) : Option Keyword :=
  match t.kind with
  | .keyword .GOTO | .keyword .SUB => none
  | .keyword k => some k
  | _ => none

/-- The block keyword after a point of a script, if there is one and it is read for itself. -/
def blockKeywordAt (script : List Token) (n : Nat) : Option Keyword :=
  if awaitsName (script.take n) then none else script[n]?.bind Token.blockKeyword?

theorem Token.kind_of_blockKeyword? {t : Token} {k : Keyword} (h : t.blockKeyword? = some k) :
    t.kind = .keyword k ∧ k ≠ .GOTO ∧ k ≠ .SUB := by
  unfold blockKeyword? at h
  split at h
  · cases h
  · cases h
  · rename_i hgoto hsub hkind
    cases h
    exact ⟨hkind, hgoto, hsub⟩
  · cases h

theorem Token.blockKeyword?_of_kind {t : Token} {k : Keyword} (hk : t.kind = .keyword k)
    (hgoto : k ≠ .GOTO) (hsub : k ≠ .SUB) : t.blockKeyword? = some k := by
  cases k with
  | GOTO => exact absurd rfl hgoto
  | SUB => exact absurd rfl hsub
  | BEGIN | WHILE | REPEAT | IF | ELSE | ENDIF => simp only [blockKeyword?, hk]

theorem blockKeywordAt_eq_some {script : List Token} {n : Nat} {k : Keyword}
    (h : blockKeywordAt script n = some k) :
    awaitsName (script.take n) = false ∧ ∃ t, script[n]? = some t ∧ t.blockKeyword? = some k := by
  unfold blockKeywordAt at h
  split at h
  · cases h
  · rename_i hawaits
    exact ⟨by simpa using hawaits, Option.bind_eq_some_iff.mp h⟩

theorem lt_of_blockKeywordAt {script : List Token} {n : Nat} {k : Keyword}
    (h : blockKeywordAt script n = some k) : n < script.length := by
  obtain ⟨-, t, ht, -⟩ := blockKeywordAt_eq_some h
  exact (List.getElem?_eq_some_iff.mp ht).1

/-! ## Steps -/

def Pending.awaits : Pending → Bool
  | .nothing => false
  | .goto _ => true
  | .sub _ => true

namespace Reader

variable {t : Token} {r r' : Reader}

theorem Enacts.takesName_eq {pos : Pos} {k : Keyword} {n n' : Nest} {new : List Item}
    (h : Enacts pos k n n' new) (hk : t.kind = .keyword k) : t.takesName = false := by
  cases h <;> simp [Token.takesName, hk]

theorem Step.awaits (h : Step t r r') : r'.pending.awaits = (!r.pending.awaits && t.takesName) := by
  cases h with
  | emit h =>
    have htakes : t.takesName = false := by
      cases h with
      | label hk => simp [Token.takesName, hk]
      | opcode hk => simp [Token.takesName, hk]
      | call hk => simp [Token.takesName, hk]
      | block hk h => exact h.takesName_eq hk
    rw [htakes]
    rfl
  | firstLiteral hk => simp [Token.takesName, hk, Pending.awaits]
  | nextLiteral hk => simp [Token.takesName, hk, Pending.awaits]
  | goto hk => simp [Token.takesName, hk, Pending.awaits]
  | sub hk => simp [Token.takesName, hk, Pending.awaits]
  | target => rfl
  | declaration => rfl

theorem Enacts.moves {pos : Pos} {k : Keyword} {n n' : Nest} {new : List Item}
    (h : Enacts pos k n n' new) : Moves k n.blocks n'.blocks := by
  cases h with
  | loop => exact .loop rfl
  | branch => exact .branch rfl
  | exit hblocks =>
    rw [hblocks]
    exact .exit rfl
  | again hblocks =>
    rw [Nest.leave, hblocks]
    exact .again rfl
  | alternative hblocks =>
    rw [Nest.enter, Nest.leave, hblocks]
    exact .alternative rfl rfl
  | close hkind hblocks =>
    rw [Nest.leave, hblocks]
    exact .close hkind

theorem exists_enacts {k : Keyword} {bs bs' : List Block} (h : Moves k bs bs') {n : Nest}
    (hkinds : bs.map (·.kind) = n.blocks.map (·.kind)) (pos : Pos) :
    ∃ n' new, Enacts pos k n n' new := by
  cases h with
  | loop => exact ⟨_, _, .loop⟩
  | branch => exact ⟨_, _, .branch⟩
  | exit hb =>
    obtain ⟨⟨kind, id, q⟩, cs, hblocks, hc, -⟩ := List.map_eq_cons_iff.mp hkinds.symm
    obtain rfl : kind = .loop := hc.trans hb
    exact ⟨_, _, .exit hblocks⟩
  | again hb =>
    obtain ⟨⟨kind, id, q⟩, cs, hblocks, hc, -⟩ := List.map_eq_cons_iff.mp hkinds.symm
    obtain rfl : kind = .loop := hc.trans hb
    exact ⟨_, _, .again hblocks⟩
  | alternative hb =>
    obtain ⟨⟨kind, id, q⟩, cs, hblocks, hc, -⟩ := List.map_eq_cons_iff.mp hkinds.symm
    obtain rfl : kind = .branch := hc.trans hb
    exact ⟨_, _, .alternative hblocks⟩
  | close hb =>
    obtain ⟨c, cs, hblocks, hc, -⟩ := List.map_eq_cons_iff.mp hkinds.symm
    exact ⟨_, _, .close (hc ▸ hb) hblocks⟩

theorem Enacts.blockKeyword?_eq {pos : Pos} {k : Keyword} {n n' : Nest} {new : List Item}
    (h : Enacts pos k n n' new) (hk : t.kind = .keyword k) : t.blockKeyword? = some k := by
  cases h <;> simp [Token.blockKeyword?, hk]

theorem Step.trail (h : Step t r r') :
    Trail (if r.pending.awaits then none else t.blockKeyword?).toList
      r.program.nest.blocks r'.program.nest.blocks := by
  cases h with
  | emit h =>
    cases h with
    | label hk =>
      simp only [Token.blockKeyword?, hk]
      rfl
    | opcode hk =>
      simp only [Token.blockKeyword?, hk]
      rfl
    | call hk =>
      simp only [Token.blockKeyword?, hk]
      rfl
    | block hk h =>
      rw [h.blockKeyword?_eq hk]
      exact trail_singleton.mpr h.moves
  | firstLiteral hk | nextLiteral hk | goto hk | sub hk =>
    simp only [Token.blockKeyword?, hk]
    rfl
  | target => rfl
  | declaration => rfl

theorem Step.enacts {k : Keyword} (h : Step t r r') (hawaits : r.pending.awaits = false)
    (hk : t.blockKeyword? = some k) :
    ∃ nest new, Enacts t.pos k r.program.nest nest new ∧ r'.program = r.program.grow nest new := by
  obtain ⟨hkind, hgoto, hsub⟩ := Token.kind_of_blockKeyword? hk
  cases h with
  | emit h =>
    cases h with
    | label hk' => cases hk'.symm.trans hkind
    | opcode hk' => cases hk'.symm.trans hkind
    | call hk' => cases hk'.symm.trans hkind
    | block hk' h =>
      cases hk'.symm.trans hkind
      exact ⟨_, _, h, rfl⟩
  | firstLiteral hk' | nextLiteral hk' => cases hk'.symm.trans hkind
  | goto hk' =>
    cases hk'.symm.trans hkind
    exact absurd rfl hgoto
  | sub hk' =>
    cases hk'.symm.trans hkind
    exact absurd rfl hsub
  | target => cases hawaits
  | declaration => cases hawaits

/-! ## The reader at a point -/

/-- The reader after some tokens; after the first one that is refused, if there is one. -/
def after (profile : Profile) (ts : List Token) : Reader :=
  match (ts.forM token).run (.start profile) with
  | .ok _ r => r
  | .error _ r => r

theorem Reads.after_eq {profile : Profile} {ts : List Token} (h : Reads ts (.start profile) r) :
    after profile ts = r := by
  rw [Reads] at h
  rw [after, h]

namespace Reads

variable {profile : Profile} {script : List Token} (h : Reads script (.start profile) r)
include h

theorem reads_take (n : Nat) :
    Reads (script.take n) (.start profile) (after profile (script.take n)) ∧
      Reads (script.drop n) (after profile (script.take n)) r := by
  rw [← List.take_append_drop n script] at h
  obtain ⟨r₁, htake, hdrop⟩ := reads_append.mp h
  rw [htake.after_eq]
  exact ⟨htake, hdrop⟩

theorem step_at {n : Nat} (hn : script[n]? = some t) :
    Step t (after profile (script.take n)) (after profile (script.take (n + 1))) := by
  have hreads := (h.reads_take (n + 1)).1
  rw [take_succ_eq hn] at hreads ⊢
  obtain ⟨r₁, hfront, hlast⟩ := reads_append.mp hreads
  rw [hfront.after_eq]
  exact reads_singleton.mp hlast

theorem awaits_at {n : Nat} (hn : n ≤ script.length) :
    (after profile (script.take n)).pending.awaits = awaitsName (script.take n) := by
  induction n with
  | zero => rfl
  | succ n ih =>
    have ht : script[n]? = some script[n] := List.getElem?_eq_getElem hn
    rw [(h.step_at ht).awaits, ih (by omega), take_succ_eq ht, awaitsName_concat]

/-- **A script that is read to its end is a course of open blocks.** -/
theorem course (hend : r.program.nest.blocks = []) :
    Course (blockKeywordAt script) (fun n => (after profile (script.take n)).program.nest.blocks)
      script.length where
  first := rfl
  last := by
    rw [List.take_length, h.after_eq]
    exact hend
  step := by
    intro n hn
    have ht : script[n]? = some script[n] := List.getElem?_eq_getElem hn
    have htrail := (h.step_at ht).trail
    rw [h.awaits_at (Nat.le_of_lt hn)] at htrail
    rw [blockKeywordAt, ht]
    exact htrail

theorem enacts_at {n : Nat} {k : Keyword} (hk : blockKeywordAt script n = some k) :
    ∃ pos nest new,
      Enacts pos k (after profile (script.take n)).program.nest nest new ∧
      (after profile (script.take (n + 1))).program =
        (after profile (script.take n)).program.grow nest new := by
  obtain ⟨hawaits, t, ht, hkeyword⟩ := blockKeywordAt_eq_some hk
  have hn := (List.getElem?_eq_some_iff.mp ht).1
  rw [← h.awaits_at (Nat.le_of_lt hn)] at hawaits
  exact ⟨t.pos, (h.step_at ht).enacts hawaits hkeyword⟩

end Reads

end Reader

end ServoScript
