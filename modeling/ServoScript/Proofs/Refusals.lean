import ServoScript.Proofs.Complaints
import ServoScript.Proofs.Reading

/-!
# Tokens that are refused

`Reader.Refuses` says once what a token that is refused leaves behind, beside `Reader.Step` for the
tokens that are accepted. A reader that goes on after a refused token (`Reader.afterLines`) therefore
keeps whatever every step and every refusal keeps (`Reader.afterLines_invariant`), and the next
refusal leaves its program intact (`refused_token_leaves_program`).
-/

namespace ServoScript

/-! ## Actions that fail -/

inductive Number.Refused (text : String) : Fault → Prop
  | invalid : Refused text (.invalidNumber text)
  | fractional : Refused text (.notAnInteger text)
  | range {least greatest : Int} : Refused text (.outOfRange text least greatest)

theorem Number.refused_of_readHexDigits {text : String} {n : Nat} {cs : List Char} {f : Fault}
    (h : readHexDigits text n cs = .error f) : Refused text f := by
  induction cs generalizing n with
  | nil => cases h
  | cons c rest ih =>
    rw [readHexDigits] at h
    split at h
    · cases h
      exact .invalid
    · split at h
      · cases h
        exact .range
      · exact ih h

theorem Number.refused_of_read {text : String} {f : Fault} (h : Number.read text = .error f) :
    Refused text f := by
  unfold Number.read at h
  split at h
  · unfold readHex at h
    dsimp only at h
    split at h
    · cases h
      exact .invalid
    · split at h
      · rename_i hf
        cases h
        exact refused_of_readHexDigits hf
      · split at h <;> cases h
        exact .range
  · unfold readDecimal at h
    split at h
    · cases h
      exact .invalid
    · split at h
      · cases h
        exact .range
      · split_ifs at h
        · cases h
          exact .range
        · cases h
          exact .fractional

namespace Program

variable {p p' : Program} {pos : Pos} {d : Diag}

theorem whileInLoop_eq_error (h : (whileInLoop pos).run p = .error d p') :
    p' = p ∧ d = ⟨pos, .whileOutsideBegin⟩ := by
  rw [EStateM.run, whileInLoop] at h
  split at h <;> cases h
  exact ⟨rfl, rfl⟩

theorem repeatLoop_eq_error (h : (repeatLoop pos).run p = .error d p') :
    p' = p ∧ d = ⟨pos, .repeatWithoutBegin⟩ := by
  rw [EStateM.run, repeatLoop] at h
  split at h <;> cases h
  exact ⟨rfl, rfl⟩

theorem beginAlternative_eq_error (h : (beginAlternative pos).run p = .error d p') :
    p' = p ∧ d = ⟨pos, .elseWithoutIf⟩ := by
  rw [EStateM.run, beginAlternative] at h
  split at h <;> cases h
  exact ⟨rfl, rfl⟩

theorem endBranch_eq_error (h : (endBranch pos).run p = .error d p') :
    p' = p ∧ d = ⟨pos, .endifWithoutIf⟩ := by
  rw [EStateM.run, endBranch] at h
  split at h <;> cases h
  exact ⟨rfl, rfl⟩

/-- A literal is refused only when the run before it is full, and the run keeps it. -/
theorem addLiteral_eq_error {w : Word} (h : (addLiteral w pos).run p = .error d p') :
    ∃ front run limit, p.items.toList = front ++ [run] ∧ run.head = .run ∧
      Item.exceededLimit? p.profile (run.args.length + 1) = some limit ∧
      d = ⟨run.pos, .tooManyLiterals limit⟩ ∧
      p' = { p with items := (front ++ [run.push w]).toArray } := by
  rw [EStateM.run, addLiteral] at h
  cases hopen : p.openRun? with
  | none =>
    have hlimit : Item.exceededLimit? p.profile ((Item.emptyRun pos).args.length + 1) = none :=
      exceededLimit?_one p.profile
    simp only [hopen, EStateM.run, Item.pushLiteral, hlimit] at h
    cases h
  | some run =>
    obtain ⟨hrun, front, hitems⟩ := openRun?_eq_some_iff.mp hopen
    simp only [hopen, EStateM.run, Item.pushLiteral] at h
    cases hlimit : Item.exceededLimit? p.profile (run.args.length + 1) with
    | none =>
      simp only [hlimit] at h
      cases h
    | some limit =>
      simp only [hlimit, replaceLast_eq hitems] at h
      cases h
      exact ⟨front, run, limit, hitems, hrun, hlimit, rfl, rfl⟩

end Program

/-! ## Refusals -/

structure Fault.Single (f : Fault) : Prop where
  ne_tooManyLiterals : ∀ limit, f ≠ .tooManyLiterals limit
  ne_labelAlreadyUsed : ∀ name first, f ≠ .labelAlreadyUsed name first

theorem Number.Refused.single {text : String} {f : Fault} (h : Number.Refused text f) :
    f.Single := by
  cases h <;> exact ⟨by simp, by simp⟩

namespace Reader

/-- What a token that is refused leaves behind. The reader waits for nothing any more, and its
program is as before; only a run that has grown too long keeps the literal that is too many. -/
inductive Refuses (t : Token) : Reader → Diag → Reader → Prop
  | token {p : Program} {pending : Pending} {f : Fault} : f.Single →
      Refuses t ⟨p, pending⟩ ⟨t.pos, f⟩ ⟨p, .nothing⟩
  | literal {p : Program} {w : Word} {front : List Item} {run : Item} {limit : Nat} :
      t.kind = .number → Number.read t.text = .ok w → p.items.toList = front ++ [run] →
      run.head = .run → Item.exceededLimit? p.profile (run.args.length + 1) = some limit →
      Refuses t ⟨p, .nothing⟩ ⟨run.pos, .tooManyLiterals limit⟩
        ⟨{ p with items := (front ++ [run.push w]).toArray }, .nothing⟩

variable {t : Token} {r r' : Reader} {d : Diag}

theorem act_eq_error {action : Program.Action Unit} : (act action).run r = .error d r' ↔
    ∃ p, action.run r.program = .error d p ∧ r' = ⟨p, r.pending⟩ := by
  obtain ⟨program, pending⟩ := r
  rw [EStateM.run, act]
  cases action.run program with
  | ok v p => simp
  | error e p =>
    simp only [EStateM.Result.error.injEq]
    constructor
    · rintro ⟨rfl, rfl⟩
      exact ⟨p, ⟨rfl, rfl⟩, rfl⟩
    · rintro ⟨q, ⟨rfl, rfl⟩, rfl⟩
      exact ⟨rfl, rfl⟩

theorem emit_ne_error {i : Item} : (emit i).run r ≠ .error d r' := by
  intro h
  obtain ⟨p, hp, -⟩ := act_eq_error.mp h
  cases hp

theorem opcode_eq_error {op : Opcode} {pos : Pos} (h : (opcode op pos).run r = .error d r') :
    r' = r ∧ d.pos = pos ∧ d.fault.Single := by
  rw [EStateM.run, opcode] at h
  split_ifs at h
  · cases h
    exact ⟨rfl, rfl, by simp, by simp⟩
  · cases h
    exact ⟨rfl, rfl, by simp, by simp⟩
  · cases h
    exact ⟨rfl, rfl, by simp, by simp⟩
  · exact absurd h emit_ne_error
  · cases h
    exact ⟨rfl, rfl, by simp, by simp⟩

theorem keyword_eq_error {k : Keyword} {pos : Pos} (h : (keyword k pos).run r = .error d r') :
    r' = r ∧ d.pos = pos ∧ d.fault.Single := by
  cases k with
  | GOTO | SUB => cases h
  | BEGIN | IF =>
    rw [keyword] at h
    obtain ⟨p, hp, -⟩ := act_eq_error.mp h
    cases hp
  | WHILE =>
    rw [keyword] at h
    obtain ⟨p, hp, rfl⟩ := act_eq_error.mp h
    obtain ⟨rfl, rfl⟩ := Program.whileInLoop_eq_error hp
    exact ⟨rfl, rfl, by simp, by simp⟩
  | REPEAT =>
    rw [keyword] at h
    obtain ⟨p, hp, rfl⟩ := act_eq_error.mp h
    obtain ⟨rfl, rfl⟩ := Program.repeatLoop_eq_error hp
    exact ⟨rfl, rfl, by simp, by simp⟩
  | ELSE =>
    rw [keyword] at h
    obtain ⟨p, hp, rfl⟩ := act_eq_error.mp h
    obtain ⟨rfl, rfl⟩ := Program.beginAlternative_eq_error hp
    exact ⟨rfl, rfl, by simp, by simp⟩
  | ENDIF =>
    rw [keyword] at h
    obtain ⟨p, hp, rfl⟩ := act_eq_error.mp h
    obtain ⟨rfl, rfl⟩ := Program.endBranch_eq_error hp
    exact ⟨rfl, rfl, by simp, by simp⟩

theorem refuses_of_pos {p : Program} {pending : Pending} (hr : r' = ⟨p, .nothing⟩)
    (hpos : d.pos = t.pos) (hfault : d.fault.Single) :
    Refuses t ⟨p, pending⟩ d r' := by
  obtain ⟨pos, fault⟩ := d
  cases hpos
  subst hr
  exact .token hfault

theorem refuses_of_ordinary {p : Program} (h : (ordinary t).run ⟨p, .nothing⟩ = .error d r') :
    Refuses t ⟨p, .nothing⟩ d r' := by
  unfold ordinary at h
  cases hk : t.kind with
  | number =>
    simp only [hk] at h
    cases hn : Number.read t.text with
    | error f =>
      simp only [hn] at h
      cases h
      exact .token (Number.refused_of_read hn).single
    | ok w =>
      simp only [hn, act_eq_error] at h
      obtain ⟨q, hq, rfl⟩ := h
      obtain ⟨front, run, limit, hitems, hrun, hlimit, rfl, rfl⟩ := Program.addLiteral_eq_error hq
      exact .literal hk hn hitems hrun hlimit
  | keyword k =>
    simp only [hk] at h
    obtain ⟨hr, hpos, hfault⟩ := keyword_eq_error h
    exact refuses_of_pos hr hpos hfault
  | label name =>
    simp only [hk] at h
    exact absurd h emit_ne_error
  | op op =>
    simp only [hk] at h
    obtain ⟨hr, hpos, hfault⟩ := opcode_eq_error h
    exact refuses_of_pos hr hpos hfault
  | plain =>
    simp only [hk] at h
    exact absurd h emit_ne_error

/-- **What a refused token leaves behind.** -/
theorem refuses_of_token (h : (token t).run r = .error d r') : Refuses t r d r' := by
  obtain ⟨p, pending⟩ := r
  cases pending with
  | nothing => exact refuses_of_ordinary h
  | goto pos =>
    change (emit _).run ⟨p, .nothing⟩ = _ at h
    exact absurd h emit_ne_error
  | sub pos =>
    change (declaration t).run ⟨p, .nothing⟩ = _ at h
    unfold declaration at h
    cases hk : t.kind with
    | label name =>
      simp only [hk] at h
      exact absurd h emit_ne_error
    | plain =>
      simp only [hk] at h
      exact absurd h emit_ne_error
    | number | keyword k | op op =>
      simp only [hk] at h
      cases h
      exact .token ⟨by simp, by simp⟩

/-! ## Readers that go on -/

def afterLine (r : Reader) (l : String × List Token) : Reader :=
  match (line l.1 l.2).run r with
  | .ok _ r' => r'
  | .error _ r' => r'

/-- The reader after some lines, each taken up whatever became of those before it. -/
def afterLines (r : Reader) (script : List (String × List Token)) : Reader :=
  script.foldl afterLine r

theorem afterLine_cases (r : Reader) (raw : String) (ts : List Token) :
    ∃ front r₁, Reads front (r.withLines (r.program.lines.push raw)) r₁ ∧
      (afterLine r (raw, ts) = r₁ ∨ ∃ t d, Refuses t r₁ d (afterLine r (raw, ts))) := by
  unfold afterLine
  rw [run_line]
  cases hts : (ts.forM token).run (r.withLines (r.program.lines.push raw)) with
  | ok u r' => exact ⟨ts, r', hts, .inl rfl⟩
  | error d r' =>
    obtain ⟨front, t, back, r₁, rfl, hfront, ht⟩ := forM_eq_error.mp hts
    exact ⟨front, r₁, hfront, .inr ⟨t, d, refuses_of_token ht⟩⟩

/-- What every step and every refusal keeps holds after any lines, whatever was refused in them. -/
theorem afterLines_invariant {P : Reader → Prop}
    (hlines : ∀ {r} (lines : Array String), P r → P (r.withLines lines))
    (hstep : ∀ {t r r'}, Step t r r' → P r → P r')
    (hrefuses : ∀ {t r d r'}, Refuses t r d r' → P r → P r') (script : List (String × List Token))
    (hr : P r) : P (r.afterLines script) := by
  induction script generalizing r with
  | nil => exact hr
  | cons l script ih =>
    obtain ⟨raw, ts⟩ := l
    obtain ⟨front, r₁, hreads, hend⟩ := afterLine_cases r raw ts
    have hr₁ : P r₁ := hreads.invariant hstep (hlines _ hr)
    refine ih (r := r.afterLine (raw, ts)) ?_
    rcases hend with hend | ⟨t, d, hrefuse⟩
    · rw [hend]
      exact hr₁
    · exact hrefuses hrefuse hr₁

end Reader

/-! ## What a refusal changes -/

/-- **A refused token leaves the program intact.** Whatever lines the reader has taken, and whatever
was refused in them, a token that is refused now leaves it waiting for nothing and with the program
that it had. The one exception is a literal that is too many: its word is appended to the run at the
end of the program, and nothing else changes. -/
theorem refused_token_leaves_program (profile : Profile) (session : List (String × List Token))
    {t : Token} {d : Diag} {r' : Reader}
    (h : (Reader.token t).run ((Reader.start profile).afterLines session) = .error d r') :
    let r := (Reader.start profile).afterLines session
    r'.pending = .nothing ∧
    ((∀ limit, d.fault ≠ .tooManyLiterals limit) → r'.program = r.program) ∧
    ∀ limit, d.fault = .tooManyLiterals limit → ∃ front run w,
      r.program.items.toList = front ++ [run] ∧ run.isRun = true ∧ Number.read t.text = .ok w ∧
      r'.program = { r.program with items := (front ++ [run.push w]).toArray } := by
  have hrefuses := Reader.refuses_of_token h
  -- from here on it does not matter how the reader has come to its state
  generalize (Reader.start profile).afterLines session = r at hrefuses ⊢
  cases hrefuses with
  | token hfault =>
    exact ⟨rfl, fun _ => rfl, fun limit hlimit => absurd hlimit (hfault.ne_tooManyLiterals limit)⟩
  | literal _ hn hitems hrun _ =>
    refine ⟨rfl, fun hne => absurd rfl (hne _), fun _ _ => ?_⟩
    exact ⟨_, _, _, hitems, by simp [Item.isRun, hrun], hn, rfl⟩

/-- The end of a loop is refused in a branch, after two names that were refused; and a run on the
smaller model grows on when it is too long already. -/
theorem refused_token_leaves_program_examples :
    let pos : Pos := ⟨"script", 1, 1⟩
    let words : List String → List Token := List.map (⟨·, pos⟩)
    let branch := (Reader.start .mini).afterLines
      [("", words ["BEGIN", "SUB", "ELSE", "IF"]), ("", words ["IF", "SUB"]), ("", words ["12"])]
    let run := (Reader.start .micro).afterLines [("", words (List.replicate 33 "7"))]
    (∃ r', (Reader.token ⟨"REPEAT", pos⟩).run branch = .error ⟨pos, .repeatWithoutBegin⟩ r' ∧
      r'.pending = .nothing ∧ r'.program = branch.program) ∧
    ∃ r', (Reader.token ⟨"-1", pos⟩).run run = .error ⟨pos, .tooManyLiterals 32⟩ r' ∧
      ∃ front i, run.program.items.toList = front ++ [i] ∧
        r'.program = { run.program with items := (front ++ [i.push 0xFFFF]).toArray } := by
  intro pos words branch run
  constructor
  · obtain ⟨r', hr'⟩ := exists_error_of_complaint?
      (x := (Reader.token ⟨"REPEAT", pos⟩).run branch) (e := ⟨pos, .repeatWithoutBegin⟩)
      (by decide +kernel)
    obtain ⟨hpending, hprogram, -⟩ := refused_token_leaves_program _ _ hr'
    exact ⟨r', hr', hpending, hprogram fun _ => by simp⟩
  · obtain ⟨r', hr'⟩ := exists_error_of_complaint?
      (x := (Reader.token ⟨"-1", pos⟩).run run) (e := ⟨pos, .tooManyLiterals 32⟩)
      (by decide +kernel)
    have hvalue : Number.read "-1" = .ok 0xFFFF := by decide +kernel
    obtain ⟨-, -, hliteral⟩ := refused_token_leaves_program _ _ hr'
    obtain ⟨front, i, w, hitems, -, hw, hprogram⟩ := hliteral 32 rfl
    cases hvalue.symm.trans hw
    exact ⟨r', hr', front, i, hitems, hprogram⟩

end ServoScript
