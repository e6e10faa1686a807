import ServoScript.Proofs.Basic
import ServoScript.Reader

/-!
# What the reader does with a token

`Reader.Step` says once what a token that is accepted does to the reader, and `token_eq_ok_iff` that
this is what the reader does. Everything about reading a script is an induction over its tokens with
one case for each kind of step (`Reads.invariant`). Lines only matter as text that is kept
(`reads_of_lines`, `lines_of_reads`).
-/

namespace ServoScript

/-! ## Programs that grow -/

/-- The program with more items at its end and other open blocks. -/
def Program.grow (p : Program) (nest : Nest) (new : List Item) : Program :=
  { p with nest, items := (p.items.toList ++ new).toArray }

@[simp]
theorem Program.toList_items_grow (p : Program) (nest : Nest) (new : List Item) :
    (p.grow nest new).items.toList = p.items.toList ++ new := rfl

theorem Program.push_eq_grow (p : Program) (i : Item) : p.push i = p.grow p.nest [i] := by
  obtain ⟨profile, lines, ⟨items⟩, nest, labels, commands, addresses⟩ := p
  simp [push, grow]

theorem Program.openBlock_eq_grow (p : Program) (kind : BlockKind) (pos : Pos) :
    p.openBlock kind pos =
      p.grow (p.nest.enter kind pos) [.label (Block.startLabelOf p.nest.nextId) pos] := by
  obtain ⟨profile, lines, ⟨items⟩, nest, labels, commands, addresses⟩ := p
  simp [openBlock, grow, Nest.next, Block.startLabel]

theorem Program.closeBlock_eq_grow {p : Program} {b : Block} {bs : List Block}
    (h : p.nest.blocks = b :: bs) (pos : Pos) :
    p.closeBlock pos = p.grow p.nest.leave [.label (Block.endLabelOf b.id) pos] := by
  obtain ⟨profile, lines, ⟨items⟩, nest, labels, commands, addresses⟩ := p
  have hb : nest.innermost? = some b := by rw [Nest.innermost?, h, List.head?_cons]
  simp [closeBlock, grow, hb, Block.endLabel]

@[simp]
theorem Program.grow_grow (p : Program) (nest nest' : Nest) (new new' : List Item) :
    (p.grow nest new).grow nest' new' = p.grow nest' (new ++ new') := by
  simp [grow]

/-! ## Steps -/

/-- The opcodes that a script for a model may write out. -/
def Opcode.Writable (op : Opcode) (profile : Profile) : Prop :=
  op.isLiteral = false ∧ op.isJump = false ∧ op ≠ .call ∧ profile.supports op = true

namespace Reader

/-- What a block keyword does: the open blocks before and after it, and the new items. -/
inductive Enacts (pos : Pos) : Keyword → Nest → Nest → List Item → Prop
  | loop {n : Nest} : Enacts pos .BEGIN n (n.enter .loop pos)
      [.label (Block.startLabelOf n.nextId) pos]
  | exit {n : Nest} {id : Nat} {q : Pos} {bs : List Block} : n.blocks = ⟨.loop, id, q⟩ :: bs →
      Enacts pos .WHILE n n [.jumpIfZero (Block.endLabelOf id) pos]
  | again {n : Nest} {id : Nat} {q : Pos} {bs : List Block} : n.blocks = ⟨.loop, id, q⟩ :: bs →
      Enacts pos .REPEAT n n.leave
        [.jump (Block.startLabelOf id) pos, .label (Block.endLabelOf id) pos]
  | branch {n : Nest} : Enacts pos .IF n (n.enter .branch pos)
      [.label (Block.startLabelOf n.nextId) pos, .jumpIfZero (Block.endLabelOf n.nextId) pos]
  | alternative {n : Nest} {id : Nat} {q : Pos} {bs : List Block} :
      n.blocks = ⟨.branch, id, q⟩ :: bs →
      Enacts pos .ELSE n (n.leave.enter .alternative pos)
        [.jump (Block.endLabelOf n.nextId) pos, .label (Block.endLabelOf id) pos,
          .label (Block.startLabelOf n.nextId) pos]
  | close {n : Nest} {b : Block} {bs : List Block} : b.kind ≠ .loop → n.blocks = b :: bs →
      Enacts pos .ENDIF n n.leave [.label (Block.endLabelOf b.id) pos]

/-- What a token that is read for itself adds to a program, if it is no number. -/
inductive Emits (profile : Profile) (t : Token) : Nest → Nest → List Item → Prop
  | label {n : Nest} {name : String} : t.kind = .label name →
      Emits profile t n n [.label (userLabel name) t.pos]
  | opcode {n : Nest} {op : Opcode} : t.kind = .op op → op.Writable profile →
      Emits profile t n n [.ofOpcode op t.pos]
  | call {n : Nest} : t.kind = .plain → Emits profile t n n [.call t.text t.pos]
  | block {n n' : Nest} {k : Keyword} {new : List Item} : t.kind = .keyword k →
      Enacts t.pos k n n' new → Emits profile t n n' new

/-- What a token that is accepted does to the reader. -/
inductive Step (t : Token) : Reader → Reader → Prop
  | emit {p : Program} {nest : Nest} {new : List Item} : Emits p.profile t p.nest nest new →
      Step t ⟨p, .nothing⟩ ⟨p.grow nest new, .nothing⟩
  | firstLiteral {p : Program} {w : Word} : t.kind = .number → Number.read t.text = .ok w →
      p.openRun? = none →
      Step t ⟨p, .nothing⟩ ⟨p.grow p.nest [(Item.emptyRun t.pos).push w], .nothing⟩
  | nextLiteral {p : Program} {w : Word} {front : List Item} {run : Item} : t.kind = .number →
      Number.read t.text = .ok w → p.items.toList = front ++ [run] → run.head = .run →
      Item.exceededLimit? p.profile (run.args.length + 1) = none →
      Step t ⟨p, .nothing⟩ ⟨{ p with items := (front ++ [run.push w]).toArray }, .nothing⟩
  | goto {p : Program} : t.kind = .keyword .GOTO → Step t ⟨p, .nothing⟩ ⟨p, .goto t.pos⟩
  | sub {p : Program} : t.kind = .keyword .SUB → Step t ⟨p, .nothing⟩ ⟨p, .sub t.pos⟩
  | target {p : Program} {pos : Pos} :
      Step t ⟨p, .goto pos⟩ ⟨p.grow p.nest [.jump (userLabel t.text) t.pos], .nothing⟩
  | declaration {p : Program} {pos : Pos} :
      (∃ name, t.kind = .label name) ∨ t.kind = .plain →
      Step t ⟨p, .sub pos⟩ ⟨p.grow p.nest [.subroutine t.text t.pos], .nothing⟩

end Reader

/-! ## Actions on the program -/

namespace Program

variable {p p' : Program} {pos : Pos} {u : Unit}

theorem beginLoop_eq_ok : (beginLoop pos).run p = .ok u p' ↔
    p' = p.grow (p.nest.enter .loop pos) [.label (Block.startLabelOf p.nest.nextId) pos] := by
  rw [beginLoop, run_modify_eq_ok, openBlock_eq_grow]

theorem whileInLoop_eq_ok : (whileInLoop pos).run p = .ok u p' ↔
    ∃ id q bs, p.nest.blocks = ⟨.loop, id, q⟩ :: bs ∧
      p' = p.grow p.nest [.jumpIfZero (Block.endLabelOf id) pos] := by
  rw [EStateM.run, whileInLoop, Nest.innermost?]
  split
  · rename_i id q hb
    obtain ⟨bs, hbs⟩ := List.head?_eq_some_iff.mp hb
    simp [hbs, push_eq_grow, eq_comm]
  · rename_i hb
    simp only [reduceCtorEq, false_iff, not_exists, not_and]
    intro id q bs hbs
    exact absurd (by rw [hbs, List.head?_cons]) (hb id q)

theorem repeatLoop_eq_ok : (repeatLoop pos).run p = .ok u p' ↔
    ∃ id q bs, p.nest.blocks = ⟨.loop, id, q⟩ :: bs ∧
      p' = p.grow p.nest.leave
        [.jump (Block.startLabelOf id) pos, .label (Block.endLabelOf id) pos] := by
  rw [EStateM.run, repeatLoop, Nest.innermost?]
  split
  · rename_i id q hb
    obtain ⟨bs, hbs⟩ := List.head?_eq_some_iff.mp hb
    have hclose := closeBlock_eq_grow (p := p.push (.jump (Block.startLabelOf id) pos)) hbs pos
    rw [hclose, push_eq_grow, grow_grow]
    simp [hbs, grow, eq_comm]
  · rename_i hb
    simp only [reduceCtorEq, false_iff, not_exists, not_and]
    intro id q bs hbs
    exact absurd (by rw [hbs, List.head?_cons]) (hb id q)

theorem beginBranch_eq_ok : (beginBranch pos).run p = .ok u p' ↔
    p' = p.grow (p.nest.enter .branch pos)
      [.label (Block.startLabelOf p.nest.nextId) pos,
        .jumpIfZero (Block.endLabelOf p.nest.nextId) pos] := by
  rw [EStateM.run, beginBranch, openBlock_eq_grow, push_eq_grow, grow_grow]
  simp [grow, Nest.nextEndLabel, eq_comm]

theorem beginAlternative_eq_ok : (beginAlternative pos).run p = .ok u p' ↔
    ∃ id q bs, p.nest.blocks = ⟨.branch, id, q⟩ :: bs ∧
      p' = p.grow (p.nest.leave.enter .alternative pos)
        [.jump (Block.endLabelOf p.nest.nextId) pos, .label (Block.endLabelOf id) pos,
          .label (Block.startLabelOf p.nest.nextId) pos] := by
  rw [EStateM.run, beginAlternative, Nest.innermostKind?, Nest.innermost?]
  split
  · rename_i hk
    obtain ⟨⟨kind, id, q⟩, hb, hkind⟩ := Option.map_eq_some_iff.mp hk
    obtain ⟨bs, hbs⟩ := List.head?_eq_some_iff.mp hb
    change kind = .branch at hkind
    subst hkind
    have hclose := closeBlock_eq_grow (p := p.push (.jump p.nest.nextEndLabel pos)) hbs pos
    dsimp only
    rw [hclose, push_eq_grow, openBlock_eq_grow, grow_grow, grow_grow]
    simp [hbs, grow, Nest.nextEndLabel, Nest.leave, eq_comm]
  · rename_i hk
    simp only [reduceCtorEq, false_iff, not_exists, not_and]
    intro id q bs hbs
    exact absurd (by rw [hbs, List.head?_cons, Option.map_some]) hk

theorem endBranch_eq_ok : (endBranch pos).run p = .ok u p' ↔
    ∃ b bs, p.nest.blocks = b :: bs ∧ b.kind ≠ .loop ∧
      p' = p.grow p.nest.leave [.label (Block.endLabelOf b.id) pos] := by
  rw [EStateM.run, endBranch, Nest.innermostKind?, Nest.innermost?]
  cases hblocks : p.nest.blocks with
  | nil => simp
  | cons b bs =>
    have hclose := closeBlock_eq_grow hblocks pos
    cases hk : b.kind with
    | loop => simp [hk]
    | branch => simp [hk, hclose, eq_comm]
    | alternative => simp [hk, hclose, eq_comm]

theorem exceededLimit?_one (profile : Profile) : Item.exceededLimit? profile 1 = none := by
  cases profile <;> rfl

theorem openRun?_eq_some_iff {run : Item} :
    p.openRun? = some run ↔ run.head = .run ∧ ∃ front, p.items.toList = front ++ [run] := by
  have hback : p.items.back? = some run ↔ ∃ front, p.items.toList = front ++ [run] := by
    rw [← Array.getLast?_toList, List.getLast?_eq_some_iff]
  rw [openRun?, Option.filter_eq_some_iff, hback]
  simp [Item.isRun, and_comm]

theorem replaceLast_eq {front : List Item} {run : Item} (h : p.items.toList = front ++ [run])
    (i : Item) : p.replaceLast i = { p with items := (front ++ [i]).toArray } := by
  have hpop : p.items.pop.push i = (front ++ [i]).toArray := by
    apply Array.toList_inj.mp
    simp [h]
  rw [replaceLast, hpop]

theorem addLiteral_eq_ok {w : Word} : (addLiteral w pos).run p = .ok u p' ↔
    (p.openRun? = none ∧ p' = p.grow p.nest [(Item.emptyRun pos).push w]) ∨
      ∃ front run, p.items.toList = front ++ [run] ∧ run.head = .run ∧
        Item.exceededLimit? p.profile (run.args.length + 1) = none ∧
        p' = { p with items := (front ++ [run.push w]).toArray } := by
  rw [EStateM.run, addLiteral]
  cases hopen : p.openRun? with
  | none =>
    have hnone : ∀ front run, p.items.toList = front ++ [run] → run.head ≠ .run := by
      intro front run hitems hrun
      rw [openRun?_eq_some_iff.mpr ⟨hrun, front, hitems⟩] at hopen
      cases hopen
    have hlimit : Item.exceededLimit? p.profile ((Item.emptyRun pos).args.length + 1) = none :=
      exceededLimit?_one p.profile
    simp only [EStateM.run, Item.pushLiteral, hlimit, push_eq_grow]
    constructor
    · intro h
      cases h
      exact .inl ⟨trivial, rfl⟩
    · rintro (⟨-, rfl⟩ | ⟨front, run, hitems, hrun, -⟩)
      · rfl
      · exact absurd hrun (hnone front run hitems)
  | some run =>
    obtain ⟨hrun, front, hitems⟩ := openRun?_eq_some_iff.mp hopen
    simp only [EStateM.run, Item.pushLiteral, replaceLast_eq hitems]
    cases hlimit : Item.exceededLimit? p.profile (run.args.length + 1) with
    | none =>
      constructor
      · intro h
        cases h
        exact .inr ⟨front, run, hitems, hrun, hlimit, rfl⟩
      · rintro (⟨h, -⟩ | ⟨front', run', hitems', -, -, rfl⟩)
        · cases h
        · rw [hitems, List.append_singleton_inj] at hitems'
          obtain ⟨rfl, rfl⟩ := hitems'
          rfl
    | some limit =>
      constructor
      · intro h
        cases h
      · rintro (⟨h, -⟩ | ⟨front', run', hitems', -, hlimit', -⟩)
        · cases h
        · rw [hitems, List.append_singleton_inj] at hitems'
          obtain ⟨rfl, rfl⟩ := hitems'
          rw [hlimit] at hlimit'
          cases hlimit'

end Program

/-! ## Tokens -/

namespace Reader

variable {r r' : Reader} {t : Token} {u : Unit}

theorem act_eq_ok {action : Program.Action Unit} : (act action).run r = .ok u r' ↔
    ∃ p, action.run r.program = .ok () p ∧ r' = ⟨p, r.pending⟩ := by
  obtain ⟨program, pending⟩ := r
  rw [EStateM.run, act]
  cases action.run program with
  | ok v p => simp [eq_comm]
  | error d p => simp

theorem emit_eq_ok {i : Item} : (emit i).run r = .ok u r' ↔
    r' = ⟨r.program.grow r.program.nest [i], r.pending⟩ := by
  rw [emit, act_eq_ok]
  simp [Program.push_eq_grow]

theorem opcode_eq_ok {op : Opcode} {pos : Pos} : (opcode op pos).run r = .ok u r' ↔
    op.Writable r.program.profile ∧
      r' = ⟨r.program.grow r.program.nest [.ofOpcode op pos], r.pending⟩ := by
  rw [EStateM.run, opcode]
  unfold Opcode.Writable
  split_ifs with hliteral hjump hcall hsupports
  · simp [hliteral]
  · simp [hjump]
  · simp [hcall]
  · simp [hliteral, hjump, hcall, hsupports, emit_eq_ok]
  · simp [hsupports]

theorem step_of_ordinary {p : Program} (h : (ordinary t).run ⟨p, .nothing⟩ = .ok u r') :
    Step t ⟨p, .nothing⟩ r' := by
  unfold ordinary at h
  cases hk : t.kind with
  | number =>
    simp only [hk] at h
    cases hn : Number.read t.text with
    | error f =>
      simp only [hn] at h
      cases h
    | ok w =>
      simp only [hn, act_eq_ok, Program.addLiteral_eq_ok] at h
      obtain ⟨q, ⟨hopen, rfl⟩ | ⟨front, run, hitems, hrun, hlimit, rfl⟩, rfl⟩ := h
      · exact .firstLiteral hk hn hopen
      · exact .nextLiteral hk hn hitems hrun hlimit
  | keyword k =>
    simp only [hk] at h
    cases k with
    | GOTO =>
      cases h
      exact .goto hk
    | SUB =>
      cases h
      exact .sub hk
    | BEGIN =>
      rw [keyword, act_eq_ok] at h
      obtain ⟨q, hq, rfl⟩ := h
      rw [Program.beginLoop_eq_ok.mp hq]
      exact .emit (.block hk .loop)
    | WHILE =>
      rw [keyword, act_eq_ok] at h
      obtain ⟨q, hq, rfl⟩ := h
      obtain ⟨id, pos, bs, hblocks, rfl⟩ := Program.whileInLoop_eq_ok.mp hq
      exact .emit (.block hk (.exit hblocks))
    | REPEAT =>
      rw [keyword, act_eq_ok] at h
      obtain ⟨q, hq, rfl⟩ := h
      obtain ⟨id, pos, bs, hblocks, rfl⟩ := Program.repeatLoop_eq_ok.mp hq
      exact .emit (.block hk (.again hblocks))
    | IF =>
      rw [keyword, act_eq_ok] at h
      obtain ⟨q, hq, rfl⟩ := h
      rw [Program.beginBranch_eq_ok.mp hq]
      exact .emit (.block hk .branch)
    | ELSE =>
      rw [keyword, act_eq_ok] at h
      obtain ⟨q, hq, rfl⟩ := h
      obtain ⟨id, pos, bs, hblocks, rfl⟩ := Program.beginAlternative_eq_ok.mp hq
      exact .emit (.block hk (.alternative hblocks))
    | ENDIF =>
      rw [keyword, act_eq_ok] at h
      obtain ⟨q, hq, rfl⟩ := h
      obtain ⟨b, bs, hblocks, hkind, rfl⟩ := Program.endBranch_eq_ok.mp hq
      exact .emit (.block hk (.close hkind hblocks))
  | label name =>
    simp only [hk, emit_eq_ok] at h
    rw [h]
    exact .emit (.label hk)
  | op op =>
    simp only [hk, opcode_eq_ok] at h
    rw [h.2]
    exact .emit (.opcode hk h.1)
  | plain =>
    simp only [hk, emit_eq_ok] at h
    rw [h]
    exact .emit (.call hk)

theorem ordinary_of_step {p : Program} (h : Step t ⟨p, .nothing⟩ r') :
    (ordinary t).run ⟨p, .nothing⟩ = .ok () r' := by
  unfold ordinary
  cases h with
  | emit h =>
    cases h with
    | label hk => simp only [hk, emit_eq_ok]
    | opcode hk hop => simp only [hk, opcode_eq_ok, hop, true_and]
    | call hk => simp only [hk, emit_eq_ok]
    | block hk h =>
      simp only [hk]
      cases h with
      | loop =>
        rw [keyword, act_eq_ok]
        exact ⟨_, Program.beginLoop_eq_ok.mpr rfl, rfl⟩
      | exit hblocks =>
        rw [keyword, act_eq_ok]
        exact ⟨_, Program.whileInLoop_eq_ok.mpr ⟨_, _, _, hblocks, rfl⟩, rfl⟩
      | again hblocks =>
        rw [keyword, act_eq_ok]
        exact ⟨_, Program.repeatLoop_eq_ok.mpr ⟨_, _, _, hblocks, rfl⟩, rfl⟩
      | branch =>
        rw [keyword, act_eq_ok]
        exact ⟨_, Program.beginBranch_eq_ok.mpr rfl, rfl⟩
      | alternative hblocks =>
        rw [keyword, act_eq_ok]
        exact ⟨_, Program.beginAlternative_eq_ok.mpr ⟨_, _, _, hblocks, rfl⟩, rfl⟩
      | close hkind hblocks =>
        rw [keyword, act_eq_ok]
        exact ⟨_, Program.endBranch_eq_ok.mpr ⟨_, _, hblocks, hkind, rfl⟩, rfl⟩
  | firstLiteral hk hn hopen =>
    simp only [hk, hn, act_eq_ok]
    exact ⟨_, Program.addLiteral_eq_ok.mpr (.inl ⟨hopen, rfl⟩), rfl⟩
  | nextLiteral hk hn hitems hrun hlimit =>
    simp only [hk, hn, act_eq_ok]
    exact ⟨_, Program.addLiteral_eq_ok.mpr (.inr ⟨_, _, hitems, hrun, hlimit, rfl⟩), rfl⟩
  | goto hk =>
    simp only [hk]
    rfl
  | sub hk =>
    simp only [hk]
    rfl

/-- **The reader accepts a token exactly by a step.** -/
theorem token_eq_ok_iff : (token t).run r = .ok u r' ↔ Step t r r' := by
  obtain ⟨p, pending⟩ := r
  cases pending with
  | nothing => exact ⟨step_of_ordinary, ordinary_of_step⟩
  | goto pos =>
    change (emit (.jump (userLabel t.text) t.pos)).run ⟨p, .nothing⟩ = _ ↔ _
    rw [emit_eq_ok]
    constructor
    · rintro rfl
      exact .target
    · intro h
      cases h
      rfl
  | sub pos =>
    change (declaration t).run ⟨p, .nothing⟩ = _ ↔ _
    unfold declaration
    constructor
    · intro h
      cases hk : t.kind with
      | label name =>
        simp only [hk, emit_eq_ok] at h
        rw [h]
        exact .declaration (.inl ⟨name, hk⟩)
      | plain =>
        simp only [hk, emit_eq_ok] at h
        rw [h]
        exact .declaration (.inr hk)
      | number =>
        simp only [hk] at h
        cases h
      | keyword k =>
        simp only [hk] at h
        cases h
      | op op =>
        simp only [hk] at h
        cases h
    · intro h
      cases h with
      | declaration hk =>
        rcases hk with ⟨name, hk⟩ | hk
        · simp only [hk, emit_eq_ok]
        · simp only [hk, emit_eq_ok]

/-! ## Runs -/

/-- The reader takes the tokens one after the other, from `r` to `r'`. -/
def Reads (ts : List Token) (r r' : Reader) : Prop := (ts.forM token).run r = .ok () r'

theorem reads_nil : Reads [] r r' ↔ r' = r := forM_nil_eq_ok

theorem reads_cons {ts : List Token} :
    Reads (t :: ts) r r' ↔ ∃ r₁, Step t r r₁ ∧ Reads ts r₁ r' := by
  simp only [Reads, forM_cons_eq_ok, token_eq_ok_iff]

theorem reads_append {ts us : List Token} :
    Reads (ts ++ us) r r' ↔ ∃ r₁, Reads ts r r₁ ∧ Reads us r₁ r' := forM_append_eq_ok

theorem reads_singleton : Reads [t] r r' ↔ Step t r r' := by
  simp [reads_cons, reads_nil]

theorem Reads.unique {ts : List Token} {r₁ r₂ : Reader} (h₁ : Reads ts r r₁)
    (h₂ : Reads ts r r₂) : r₁ = r₂ := (EStateM.Result.ok.inj (Eq.trans (Eq.symm h₁) h₂)).2

/-- What every step keeps holds after a run. -/
theorem Reads.invariant {P : Reader → Prop} (hstep : ∀ {t r r'}, Step t r r' → P r → P r')
    {ts : List Token} (h : Reads ts r r') (hr : P r) : P r' := by
  induction ts generalizing r with
  | nil =>
    rw [reads_nil.mp h]
    exact hr
  | cons t ts ih =>
    obtain ⟨r₁, ht, hts⟩ := reads_cons.mp h
    exact ih hts (hstep ht hr)

theorem Step.frame (h : Step t r r') :
    r'.program.profile = r.program.profile ∧ r'.program.labels = r.program.labels ∧
      r'.program.commands = r.program.commands ∧
      r'.program.addresses = r.program.addresses := by
  cases h <;> exact ⟨rfl, rfl, rfl, rfl⟩

theorem Reads.frame {ts : List Token} (h : Reads ts r r') :
    r'.program.profile = r.program.profile ∧ r'.program.labels = r.program.labels ∧
      r'.program.commands = r.program.commands ∧
      r'.program.addresses = r.program.addresses := by
  refine h.invariant (P := fun x => x.program.profile = r.program.profile ∧
    x.program.labels = r.program.labels ∧ x.program.commands = r.program.commands ∧
    x.program.addresses = r.program.addresses) ?_ ⟨rfl, rfl, rfl, rfl⟩
  intro t r₁ r₂ hstep hr
  obtain ⟨h1, h2, h3, h4⟩ := hstep.frame
  rw [h1, h2, h3, h4]
  exact hr

/-! ## Lines -/

def withLines (r : Reader) (lines : Array String) : Reader :=
  { r with program := { r.program with lines } }

theorem Step.withLines (h : Step t r r') (lines : Array String) :
    Step t (r.withLines lines) (r'.withLines lines) := by
  cases h with
  | @emit p _ _ h => exact .emit (p := { p with lines }) h
  | @firstLiteral p _ hk hn hopen => exact .firstLiteral (p := { p with lines }) hk hn hopen
  | @nextLiteral p _ _ _ hk hn hitems hrun hlimit =>
    exact .nextLiteral (p := { p with lines }) hk hn hitems hrun hlimit
  | goto hk => exact .goto hk
  | sub hk => exact .sub hk
  | @target p _ => exact .target (p := { p with lines })
  | @declaration p _ hk => exact .declaration (p := { p with lines }) hk

theorem Reads.withLines {ts : List Token} (h : Reads ts r r') (lines : Array String) :
    Reads ts (r.withLines lines) (r'.withLines lines) := by
  induction ts generalizing r with
  | nil =>
    rw [reads_nil.mp h]
    exact reads_nil.mpr rfl
  | cons t ts ih =>
    obtain ⟨r₁, ht, hts⟩ := reads_cons.mp h
    exact reads_cons.mpr ⟨_, ht.withLines lines, ih hts⟩

theorem run_line (raw : String) (ts : List Token) (r : Reader) :
    (line raw ts).run r = (ts.forM token).run (r.withLines (r.program.lines.push raw)) := by
  obtain ⟨program, pending⟩ := r
  rfl

/-- Reading lines is reading their tokens; the text of the lines is only kept. -/
theorem reads_of_lines {script : List (String × List Token)}
    (h : (Reader.lines script).run r = .ok u r') :
    Reads (script.flatMap (·.2)) r (r'.withLines r.program.lines) := by
  induction script generalizing r with
  | nil =>
    rw [Reader.lines, forM_nil_eq_ok] at h
    subst h
    exact reads_nil.mpr rfl
  | cons first rest ih =>
    obtain ⟨raw, ts⟩ := first
    rw [Reader.lines, forM_cons_eq_ok] at h
    obtain ⟨r₁, hline, hrest⟩ := h
    rw [run_line] at hline
    -- the tokens of the first line, read without the line's text
    have hfirst : Reads ts r (r₁.withLines r.program.lines) :=
      Reads.withLines hline r.program.lines
    have hrest := (ih hrest).withLines r.program.lines
    rw [List.flatMap_cons]
    exact reads_append.mpr ⟨_, hfirst, hrest⟩

theorem lines_of_reads {script : List (String × List Token)}
    (h : Reads (script.flatMap (·.2)) r r') :
    ∃ r₁, (Reader.lines script).run r = .ok () r₁ ∧
      ∀ lines, r₁.withLines lines = r'.withLines lines := by
  induction script generalizing r r' with
  | nil =>
    rw [reads_nil.mp h]
    exact ⟨r, rfl, fun _ => rfl⟩
  | cons first rest ih =>
    obtain ⟨raw, ts⟩ := first
    rw [List.flatMap_cons] at h
    obtain ⟨r₁, hts, hrest⟩ := reads_append.mp h
    have hline : (line raw ts).run r = .ok () (r₁.withLines (r.program.lines.push raw)) := by
      rw [run_line]
      exact hts.withLines _
    obtain ⟨r₂, hlines, heq⟩ := ih (hrest.withLines (r.program.lines.push raw))
    refine ⟨r₂, ?_, heq⟩
    rw [Reader.lines, forM_cons_eq_ok]
    exact ⟨_, hline, hlines⟩

theorem finish_eq_ok {p : Program} :
    r.finish = .ok p ↔ r = ⟨p, .nothing⟩ ∧ p.nest.blocks = [] := by
  obtain ⟨q, pending⟩ := r
  unfold finish
  cases pending with
  | goto | sub => simp
  | nothing =>
    dsimp only
    cases hnest : q.nest.innermost? with
    | some block =>
      have hblocks : q.nest.blocks ≠ [] := by
        intro hnil
        rw [Nest.innermost?, hnil] at hnest
        cases hnest
      simp only [reduceCtorEq, mk.injEq, and_true, false_iff, not_and]
      rintro rfl
      exact hblocks
    | none =>
      simp only [Except.ok.injEq, mk.injEq, and_true, iff_self_and]
      rintro rfl
      exact List.head?_eq_none_iff.mp hnest

end Reader

def Source.script (file source : String) : List Token := (Source.tokens file source).flatMap (·.2)

/-- **What is read.** The program of a script is what its tokens leave when nothing is awaited and
no block is open, with the source lines added. -/
theorem Program.reads_of_read {file source : String} {profile : Profile} {p : Program}
    (h : Program.read file source profile = .ok p) :
    ∃ q, Reader.Reads (Source.script file source) (.start profile) ⟨q, .nothing⟩ ∧
      q.nest.blocks = [] ∧ p = { q with lines := p.lines } := by
  unfold read at h
  split at h
  · rename_i r hr
    have hreads := Reader.reads_of_lines hr
    obtain ⟨rfl, hblocks⟩ := Reader.finish_eq_ok.mp h
    exact ⟨_, hreads, hblocks, rfl⟩
  · cases h

theorem Program.exists_read_iff {file source : String} {profile : Profile} :
    (∃ p, Program.read file source profile = .ok p) ↔
      ∃ q, Reader.Reads (Source.script file source) (.start profile) ⟨q, .nothing⟩ ∧
        q.nest.blocks = [] := by
  constructor
  · rintro ⟨p, hp⟩
    obtain ⟨q, hreads, hblocks, -⟩ := reads_of_read hp
    exact ⟨q, hreads, hblocks⟩
  · rintro ⟨q, hreads, hblocks⟩
    obtain ⟨⟨p, pending⟩, hlines, heq⟩ := Reader.lines_of_reads hreads
    have hpending : pending = .nothing := congrArg Reader.pending (heq q.lines)
    have hnest : p.nest = q.nest := congrArg (·.program.nest) (heq q.lines)
    refine ⟨p, ?_⟩
    unfold read
    rw [hlines]
    exact Reader.finish_eq_ok.mpr ⟨by rw [hpending], hnest ▸ hblocks⟩

end ServoScript
