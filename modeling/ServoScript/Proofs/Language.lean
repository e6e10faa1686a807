import ServoScript.Proofs.Drafts
import ServoScript.Proofs.Points

/-!
# The language of scripts

Which scripts are accepted, said of their tokens alone (`Readable`). A reader that has come to a
point of a script has gone through the block keywords before it, and its last run of literals is as
long as the row of numbers that ends there (`Reader.Reaches`). Whether it takes the next token
depends on nothing else (`Reader.exists_step_iff`).
-/

namespace ServoScript

/-! ## Readable scripts -/

/-- The token after a point, if it is read for itself and not as a name. -/
def OrdinaryAt (script : List Token) (n : Nat) (t : Token) : Prop :=
  script[n]? = some t ∧ awaitsName (script.take n) = false

/-- All tokens between two points are numbers that are read for themselves. -/
def NumbersIn (script : List Token) (m n : Nat) : Prop :=
  ∀ l, m ≤ l → l < n → ∃ t, OrdinaryAt script l t ∧ t.kind = .number

def TokenKind.IsName (k : TokenKind) : Prop :=
  k ≠ .number ∧ (∀ op, k ≠ .op op) ∧ ∀ keyword, k ≠ .keyword keyword

/-- The scripts that can be read for a model. -/
structure Readable (profile : Profile) (script : List Token) : Prop where
  /-- No `GOTO` or `SUB` is left without a name. -/
  names : awaitsName script = false
  /-- The block keywords are a word of the grammar. -/
  blocks : Nested false (keywordsIn (blockKeywordAt script) 0 script.length)
  /-- Numbers have values. -/
  numbers : ∀ n t, OrdinaryAt script n t → t.kind = .number → ∃ w, Number.read t.text = .ok w
  /-- Numbers in a row are not too many. -/
  runs : ∀ m l, NumbersIn script m (m + l) → l ≤ profile.longestRun
  /-- Opcodes may be written out. -/
  opcodes : ∀ n t op, OrdinaryAt script n t → t.kind = .op op → op.Writable profile
  /-- What follows a `SUB` can be a name. -/
  declarations : ∀ n t u, OrdinaryAt script n t → t.kind = .keyword .SUB →
    script[n + 1]? = some u → u.kind.IsName

theorem TokenKind.isName_iff {k : TokenKind} :
    k.IsName ↔ (∃ name, k = .label name) ∨ k = .plain := by
  cases k <;> simp [IsName]

/-! ## The run at the end of a program -/

namespace Program

variable {p : Program}

def runLength (p : Program) : Nat := (p.openRun?.map (·.args.length)).getD 0

theorem runLength_of_none (h : p.openRun? = none) : p.runLength = 0 := by
  rw [runLength, h]
  rfl

theorem runLength_of_run {front : List Item} {run : Item} (hitems : p.items.toList = front ++ [run])
    (hrun : run.head = .run) : p.runLength = run.args.length := by
  rw [runLength, openRun?_eq_some_iff.mpr ⟨hrun, front, hitems⟩]
  rfl

theorem runLength_of_ne {front : List Item} {i : Item} (hitems : p.items.toList = front ++ [i])
    (hi : i.head ≠ .run) : p.runLength = 0 := by
  cases hopen : p.openRun? with
  | none => exact runLength_of_none hopen
  | some run =>
    obtain ⟨hrun, front', hitems'⟩ := openRun?_eq_some_iff.mp hopen
    rw [hitems, List.append_singleton_inj] at hitems'
    exact absurd (hitems'.2 ▸ hrun) hi

theorem Draft.runLength_le (h : p.Draft) : p.runLength ≤ p.profile.longestRun := by
  cases hopen : p.openRun? with
  | none =>
    rw [runLength_of_none hopen]
    exact Nat.zero_le _
  | some run =>
    obtain ⟨hrun, front, hitems⟩ := openRun?_eq_some_iff.mp hopen
    rw [runLength_of_run hitems hrun, ← Item.exceededLimit?_eq_none_iff]
    have hdrafted := h run (by rw [hitems]; simp)
    cases hdrafted with
    | run _ hlimit => exact hlimit
    | opcode | label | jump | jumpIfZero | subroutine | call => cases hrun

end Program

namespace Reader

variable {t : Token} {r r' : Reader}

theorem Enacts.exists_last {pos : Pos} {k : Keyword} {n n' : Nest} {new : List Item}
    (h : Enacts pos k n n' new) : ∃ front i, new = front ++ [i] ∧ i.head ≠ .run := by
  cases h with
  | loop | exit | close => exact ⟨[], _, rfl, nofun⟩
  | again | branch => exact ⟨[_], _, rfl, nofun⟩
  | alternative => exact ⟨[_, _], _, rfl, nofun⟩

theorem Emits.exists_last {profile : Profile} {n n' : Nest} {new : List Item}
    (h : Emits profile t n n' new) :
    t.kind ≠ .number ∧ ∃ front i, new = front ++ [i] ∧ i.head ≠ .run := by
  cases h with
  | label hk | opcode hk | call hk => exact ⟨by simp [hk], [], _, rfl, nofun⟩
  | block hk h => exact ⟨by simp [hk], h.exists_last⟩

theorem Step.runLength (h : Step t r r') (hr' : r'.pending = .nothing) :
    r'.program.runLength =
      if r.pending = .nothing ∧ t.kind = .number then r.program.runLength + 1 else 0 := by
  cases h with
  | @emit p nest new h =>
    obtain ⟨hk, front, i, rfl, hi⟩ := h.exists_last
    rw [if_neg (fun h' => hk h'.2)]
    have hitems : (p.grow nest (front ++ [i])).items.toList = p.items.toList ++ front ++ [i] := by
      rw [Program.toList_items_grow, List.append_assoc]
    exact Program.runLength_of_ne hitems hi
  | firstLiteral hk _ hopen =>
    rw [if_pos ⟨rfl, hk⟩, Program.runLength_of_run (Program.toList_items_grow _ _ _) rfl,
      Program.runLength_of_none hopen]
    rfl
  | @nextLiteral p w front run hk _ hitems hrun _ =>
    rw [if_pos ⟨rfl, hk⟩, Program.runLength_of_run hitems hrun]
    have hpush : Program.runLength { p with items := (front ++ [run.push w]).toArray } =
        (run.push w).args.length := Program.runLength_of_run rfl hrun
    rw [hpush, Item.push, List.length_append]
    rfl
  | goto | sub => cases hr'
  | target | declaration =>
    rw [if_neg (by simp)]
    exact Program.runLength_of_ne (Program.toList_items_grow _ _ _) nofun

/-! ## Which tokens are accepted -/

/-- What must be the case for a token to be accepted. -/
def Accepts (r : Reader) (t : Token) : Prop :=
  match r.pending with
  | .goto _ => True
  | .sub _ => t.kind.IsName
  | .nothing =>
    match t.kind with
    | .number => (∃ w, Number.read t.text = .ok w) ∧
        r.program.runLength < r.program.profile.longestRun
    | .op op => op.Writable r.program.profile
    | .keyword k => k = .GOTO ∨ k = .SUB ∨ ∃ nest new, Enacts t.pos k r.program.nest nest new
    | .label _ | .plain => True

theorem accepts_of_ordinary {p : Program} (h : Step t ⟨p, .nothing⟩ r') :
    Accepts ⟨p, .nothing⟩ t := by
  unfold Accepts
  cases h with
  | emit h =>
    cases h with
    | label hk | call hk => simp only [hk]
    | opcode hk hop => simpa only [hk] using hop
    | block hk h => simpa only [hk] using .inr (.inr ⟨_, _, h⟩)
  | firstLiteral hk hn hopen =>
    simp only [hk]
    refine ⟨⟨_, hn⟩, ?_⟩
    rw [Program.runLength_of_none hopen]
    cases p.profile <;> simp [Profile.longestRun]
  | nextLiteral hk hn hitems hrun hlimit =>
    simp only [hk]
    refine ⟨⟨_, hn⟩, ?_⟩
    rw [Program.runLength_of_run hitems hrun]
    exact Item.exceededLimit?_eq_none_iff.mp hlimit
  | goto hk | sub hk => simp [hk]

theorem exists_step_of_ordinary {p : Program} (h : Accepts ⟨p, .nothing⟩ t) :
    ∃ r', Step t ⟨p, .nothing⟩ r' := by
  unfold Accepts at h
  cases hk : t.kind with
  | number =>
    simp only [hk] at h
    obtain ⟨⟨w, hn⟩, hlength⟩ := h
    cases hopen : p.openRun? with
    | none => exact ⟨_, .firstLiteral hk hn hopen⟩
    | some run =>
      obtain ⟨hrun, front, hitems⟩ := Program.openRun?_eq_some_iff.mp hopen
      rw [Program.runLength_of_run hitems hrun] at hlength
      exact ⟨_, .nextLiteral hk hn hitems hrun (Item.exceededLimit?_eq_none_iff.mpr hlength)⟩
  | op op =>
    simp only [hk] at h
    exact ⟨_, .emit (.opcode hk h)⟩
  | keyword k =>
    simp only [hk] at h
    rcases h with rfl | rfl | ⟨nest, new, h⟩
    · exact ⟨_, .goto hk⟩
    · exact ⟨_, .sub hk⟩
    · exact ⟨_, .emit (.block hk h)⟩
  | label name => exact ⟨_, .emit (.label hk)⟩
  | plain => exact ⟨_, .emit (.call hk)⟩

/-- **Which tokens are accepted.** -/
theorem exists_step_iff : (∃ r', Step t r r') ↔ r.Accepts t := by
  obtain ⟨p, pending⟩ := r
  cases pending with
  | nothing => exact ⟨fun ⟨_, h⟩ => accepts_of_ordinary h, exists_step_of_ordinary⟩
  | goto => exact ⟨fun _ => trivial, fun _ => ⟨_, .target⟩⟩
  | sub =>
    constructor
    · rintro ⟨_, h⟩
      cases h with
      | declaration hk => exact TokenKind.isName_iff.mpr hk
    · intro h
      exact ⟨_, .declaration (TokenKind.isName_iff.mp h)⟩

end Reader

/-! ## Readers at points of a script -/

theorem Pending.awaits_eq_false_iff {pending : Pending} :
    pending.awaits = false ↔ pending = .nothing := by
  cases pending <;> simp [awaits]

section points

variable {script : List Token} {m n : Nat} {t : Token}

theorem numbersIn_succ (hmn : m ≤ n) (ht : script[n]? = some t) :
    NumbersIn script m (n + 1) ↔
      NumbersIn script m n ∧ awaitsName (script.take n) = false ∧ t.kind = .number := by
  constructor
  · intro h
    obtain ⟨u, ⟨hu, hawaits⟩, hkind⟩ := h n hmn (Nat.lt_succ_self n)
    cases ht.symm.trans hu
    exact ⟨fun l hml hln => h l hml (by omega), hawaits, hkind⟩
  · rintro ⟨h, hawaits, hkind⟩ l hml hln
    rcases Nat.lt_or_eq_of_le (Nat.le_of_lt_succ hln) with hlt | rfl
    · exact h l hml hlt
    · exact ⟨t, ⟨ht, hawaits⟩, hkind⟩

theorem numbersIn_self : NumbersIn script n n := fun l hnl hln => absurd hln (by omega)

theorem keywordsIn_blockKeywordAt_succ (ht : script[n]? = some t) :
    keywordsIn (blockKeywordAt script) 0 (n + 1) = keywordsIn (blockKeywordAt script) 0 n ++
      (if awaitsName (script.take n) then none else t.blockKeyword?).toList := by
  rw [keywordsIn_append _ (Nat.zero_le n) (Nat.le_succ n), keywordsIn_succ, blockKeywordAt, ht]
  rfl

end points

namespace Reader

variable {profile : Profile} {script : List Token} {n : Nat} {t : Token} {r r' : Reader}

/-- What is known of a reader that has come to the point `n` of a script. -/
structure Reaches (profile : Profile) (script : List Token) (n : Nat) (r : Reader) : Prop where
  reads : Reads (script.take n) (.start profile) r
  awaits : r.pending.awaits = awaitsName (script.take n)
  /-- The open blocks are those that the block keywords before the point leave open. -/
  trail : Trail (keywordsIn (blockKeywordAt script) 0 n) [] r.program.nest.blocks
  /-- The last run is as long as the row of numbers that ends at the point. -/
  run : r.pending = .nothing → r.program.runLength ≤ n ∧
    ∀ m ≤ n, NumbersIn script m n ↔ n ≤ m + r.program.runLength
  /-- If a name for a subroutine is awaited, the token before the point is `SUB`. -/
  sub : ∀ pos, r.pending = .sub pos →
    ∃ m t, n = m + 1 ∧ OrdinaryAt script m t ∧ t.kind = .keyword .SUB

theorem reaches_zero (profile : Profile) (script : List Token) :
    Reaches profile script 0 (.start profile) where
  reads := reads_nil.mpr rfl
  awaits := rfl
  trail := by
    rw [keywordsIn_self]
    rfl
  run _ := by
    refine ⟨Nat.le_refl _, fun m hm => ?_⟩
    rw [Nat.le_zero.mp hm]
    exact ⟨fun _ => Nat.zero_le _, fun _ => numbersIn_self⟩
  sub _ h := by cases h

namespace Reaches

theorem profile_eq (h : Reaches profile script n r) : r.program.profile = profile :=
  h.reads.frame.1

theorem pending_eq_nothing_iff (h : Reaches profile script n r) :
    r.pending = .nothing ↔ awaitsName (script.take n) = false := by
  rw [← h.awaits, Pending.awaits_eq_false_iff]

theorem run_step (h : Reaches profile script n r) (ht : script[n]? = some t) (hstep : Step t r r')
    (hr' : r'.pending = .nothing) : r'.program.runLength ≤ n + 1 ∧
      ∀ m ≤ n + 1, NumbersIn script m (n + 1) ↔ n + 1 ≤ m + r'.program.runLength := by
  rw [hstep.runLength hr']
  by_cases hnumber : r.pending = .nothing ∧ t.kind = .number
  · obtain ⟨hle, hrun⟩ := h.run hnumber.1
    have hawaits := h.pending_eq_nothing_iff.mp hnumber.1
    rw [if_pos hnumber]
    refine ⟨by omega, fun m hm => ?_⟩
    rcases Nat.lt_or_eq_of_le hm with hlt | rfl
    · rw [numbersIn_succ (Nat.le_of_lt_succ hlt) ht, hrun m (Nat.le_of_lt_succ hlt)]
      simp only [hawaits, hnumber.2, and_true]
      omega
    · exact ⟨fun _ => by omega, fun _ => numbersIn_self⟩
  · rw [if_neg hnumber]
    refine ⟨Nat.zero_le _, fun m hm => ?_⟩
    rcases Nat.lt_or_eq_of_le hm with hlt | rfl
    · -- the token itself is not a number that is read for itself
      rw [numbersIn_succ (Nat.le_of_lt_succ hlt) ht, ← h.pending_eq_nothing_iff]
      constructor
      · rintro ⟨-, hmode, hkind⟩
        exact absurd ⟨hmode, hkind⟩ hnumber
      · intro hle
        omega
    · exact ⟨fun _ => by omega, fun _ => numbersIn_self⟩

theorem step (h : Reaches profile script n r) (ht : script[n]? = some t) (hstep : Step t r r') :
    Reaches profile script (n + 1) r' where
  reads := by
    rw [take_succ_eq ht]
    exact reads_append.mpr ⟨r, h.reads, reads_singleton.mpr hstep⟩
  awaits := by rw [hstep.awaits, h.awaits, take_succ_eq ht, awaitsName_concat]
  trail := by
    rw [keywordsIn_blockKeywordAt_succ ht, ← h.awaits]
    exact trail_append.mpr ⟨_, h.trail, hstep.trail⟩
  run := h.run_step ht hstep
  sub := by
    intro pos hpos
    cases hstep with
    | sub hk => exact ⟨n, t, rfl, ⟨ht, h.pending_eq_nothing_iff.mp rfl⟩, hk⟩
    | emit | firstLiteral | nextLiteral | goto | target | declaration => cases hpos

end Reaches

theorem Reads.reaches (h : Reads script (.start profile) r) (hn : n ≤ script.length) :
    Reaches profile script n (after profile (script.take n)) := by
  induction n with
  | zero => exact reaches_zero profile script
  | succ n ih =>
    have ht : script[n]? = some script[n] := List.getElem?_eq_getElem hn
    exact (ih (by omega)).step ht (h.step_at ht)

/-! ## Accepted scripts are readable -/

namespace Reads

variable (h : Reads script (.start profile) r)
include h

theorem accepts_at (ht : OrdinaryAt script n t) : ∃ p, after profile (script.take n) = ⟨p, .nothing⟩ ∧
    p.profile = profile ∧ Accepts ⟨p, .nothing⟩ t := by
  have hn := (List.getElem?_eq_some_iff.mp ht.1).1
  have hreaches := h.reaches (Nat.le_of_lt hn)
  have hstep := h.step_at ht.1
  have hpending := hreaches.pending_eq_nothing_iff.mpr ht.2
  have hprofile := hreaches.profile_eq
  generalize after profile (script.take n) = r₁ at hstep hpending hprofile
  obtain ⟨p, pending⟩ := r₁
  cases hpending
  exact ⟨p, rfl, hprofile, exists_step_iff.mp ⟨_, hstep⟩⟩

theorem longestRun_of_numbersIn {m l : Nat} (hnumbers : NumbersIn script m (m + l)) :
    l ≤ profile.longestRun := by
  cases l with
  | zero => exact Nat.zero_le _
  | succ l =>
    -- after the last of the numbers no name is awaited, and the run is at least as long
    obtain ⟨t, ⟨ht, -⟩, hkind⟩ := hnumbers (m + l) (by omega) (by omega)
    have hn := (List.getElem?_eq_some_iff.mp ht).1
    have hreaches : Reaches profile script (m + (l + 1)) _ := h.reaches hn
    have hpending : (after profile (script.take (m + (l + 1)))).pending = .nothing := by
      rw [hreaches.pending_eq_nothing_iff]
      change awaitsName (script.take (m + l + 1)) = false
      rw [take_succ_eq ht, awaitsName_concat, Token.takesName, hkind]
      simp
    have hlong := ((hreaches.run hpending).2 m (by omega)).mp hnumbers
    have hdraft := hreaches.reads.draft fun i hi => by cases hi
    have hle := hdraft.runLength_le
    rw [hreaches.profile_eq] at hle
    omega

theorem pending_of_sub (ht : OrdinaryAt script n t) (hkind : t.kind = .keyword .SUB) :
    ∃ pos, (after profile (script.take (n + 1))).pending = .sub pos := by
  obtain ⟨p, hp, -, -⟩ := h.accepts_at ht
  have hsub := h.step_at ht.1
  rw [hp] at hsub
  generalize after profile (script.take (n + 1)) = r₁ at hsub
  cases hsub with
  | sub => exact ⟨_, rfl⟩
  | emit h =>
    cases h with
    | label hk | opcode hk | call hk => cases hk.symm.trans hkind
    | block hk h =>
      cases hk.symm.trans hkind
      cases h
  | firstLiteral hk | nextLiteral hk | goto hk => cases hk.symm.trans hkind

theorem isName_of_sub {u : Token} (ht : OrdinaryAt script n t) (hkind : t.kind = .keyword .SUB)
    (hu : script[n + 1]? = some u) : u.kind.IsName := by
  obtain ⟨pos, hpos⟩ := h.pending_of_sub ht hkind
  have haccepts := exists_step_iff.mp ⟨_, h.step_at hu⟩
  rw [Accepts, hpos] at haccepts
  exact haccepts

theorem readable (hpending : r.pending = .nothing) (hblocks : r.program.nest.blocks = []) :
    Readable profile script where
  names := by
    have hend := (h.reaches (Nat.le_refl _)).awaits
    rw [List.take_length, h.after_eq, hpending] at hend
    exact hend.symm
  blocks := (h.course hblocks).nested (Nat.le_refl _) (h.course hblocks).last
  numbers n t ht hkind := by
    obtain ⟨p, -, -, haccepts⟩ := h.accepts_at ht
    simp only [Accepts, hkind] at haccepts
    exact haccepts.1
  runs _ _ := h.longestRun_of_numbersIn
  opcodes n t op ht hkind := by
    obtain ⟨p, -, hprofile, haccepts⟩ := h.accepts_at ht
    simp only [Accepts, hkind, hprofile] at haccepts
    exact haccepts
  declarations _ _ _ := h.isName_of_sub

end Reads

end Reader

/-! ## Readable scripts are accepted -/

namespace Readable

open Reader (Reaches Enacts Accepts)

variable {profile : Profile} {script : List Token} {n : Nat} {t : Token} {r : Reader}
  (h : Readable profile script)
include h

theorem exists_enacts {k : Keyword} (hreaches : Reaches profile script n r)
    (hk : blockKeywordAt script n = some k) (pos : Pos) :
    ∃ nest new, Enacts pos k r.program.nest nest new := by
  have hn := lt_of_blockKeywordAt hk
  have htrail : Trail _ [] [] := h.blocks.trail nofun
  rw [keywordsIn_append _ (Nat.zero_le n) (Nat.le_of_lt hn), keywordsIn_cons hk hn] at htrail
  obtain ⟨bs, hbefore, bs', hmoves, -⟩ := trail_append.mp htrail
  exact Reader.exists_enacts hmoves (hbefore.kinds_eq hreaches.trail rfl) pos

theorem accepts (hreaches : Reaches profile script n r) (ht : script[n]? = some t) :
    r.Accepts t := by
  unfold Accepts
  cases hpending : r.pending with
  | goto => trivial
  | sub pos =>
    obtain ⟨m, u, rfl, hu, hkind⟩ := hreaches.sub pos hpending
    exact h.declarations m u t hu hkind ht
  | nothing =>
    have hordinary : OrdinaryAt script n t := ⟨ht, hreaches.pending_eq_nothing_iff.mp hpending⟩
    cases hkind : t.kind with
    | number =>
      refine ⟨h.numbers n t hordinary hkind, ?_⟩
      obtain ⟨hle, hrun⟩ := hreaches.run hpending
      have hnumbers : NumbersIn script (n - r.program.runLength) (n + 1) := by
        rw [numbersIn_succ (by omega) ht, hrun _ (by omega)]
        exact ⟨by omega, hordinary.2, hkind⟩
      have hlength : n + 1 = n - r.program.runLength + (r.program.runLength + 1) := by omega
      rw [hlength] at hnumbers
      rw [hreaches.profile_eq]
      exact h.runs _ _ hnumbers
    | op op =>
      change op.Writable r.program.profile
      rw [hreaches.profile_eq]
      exact h.opcodes n t op hordinary hkind
    | keyword k =>
      by_cases hgoto : k = .GOTO
      · exact .inl hgoto
      · by_cases hsub : k = .SUB
        · exact .inr (.inl hsub)
        · refine .inr (.inr (h.exists_enacts hreaches ?_ t.pos))
          rw [blockKeywordAt, if_neg (by simp [hordinary.2]), ht]
          exact Token.blockKeyword?_of_kind hkind hgoto hsub
    | label | plain => trivial

theorem exists_reaches (hn : n ≤ script.length) : ∃ r, Reaches profile script n r := by
  induction n with
  | zero => exact ⟨_, Reader.reaches_zero profile script⟩
  | succ n ih =>
    obtain ⟨r, hreaches⟩ := ih (by omega)
    have ht : script[n]? = some script[n] := List.getElem?_eq_getElem hn
    obtain ⟨r', hstep⟩ := Reader.exists_step_iff.mpr (h.accepts hreaches ht)
    exact ⟨r', hreaches.step ht hstep⟩

theorem exists_reads : ∃ q, Reader.Reads script (.start profile) ⟨q, .nothing⟩ ∧
    q.nest.blocks = [] := by
  obtain ⟨⟨q, pending⟩, hreaches⟩ := h.exists_reaches (Nat.le_refl _)
  have hpending := hreaches.pending_eq_nothing_iff.mpr (by rw [List.take_length]; exact h.names)
  cases hpending
  have hreads := hreaches.reads
  rw [List.take_length] at hreads
  exact ⟨q, hreads, h.blocks.eq_of_trail hreaches.trail⟩

end Readable

/-- **The language of scripts.** A script is accepted for a model exactly if it is readable. -/
theorem read_accepts_iff (file source : String) (profile : Profile) :
    (∃ p, Program.read file source profile = .ok p) ↔
      Readable profile (Source.script file source) := by
  rw [Program.exists_read_iff]
  constructor
  · rintro ⟨q, hreads, hblocks⟩
    exact hreads.readable rfl hblocks
  · exact Readable.exists_reads

end ServoScript
