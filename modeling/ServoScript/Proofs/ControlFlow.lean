import ServoScript.Proofs.Points
import ServoScript.Proofs.Resolved

/-!
# Structured control flow

Where the jumps of blocks lead in the finished image. A point of the script has an offset in the
image, the number of bytes of the items that were pushed before it, and a token has the machine code
of the items that it pushed. For each block keyword the module says which label it places and to
which label it jumps (`Origin.code_at_if`, `Origin.label_at_endif` and so on). The two ends of a
block see the same innermost block, so the labels of one are those that the other jumps to.
-/

namespace ServoScript

open Program

/-! ## Offsets and code of a script -/

namespace Program

/-- The program as it was after the first `n` tokens of its script. -/
def draftAt (p : Program) (script : List Token) (n : Nat) : Program :=
  (Reader.after p.profile (script.take n)).program

/-- The number of items that the first `n` tokens of the script have pushed. -/
def pushedAt (p : Program) (script : List Token) (n : Nat) : Nat :=
  (p.draftAt script n).items.toList.length

/-- The number of bytes of the image that stand for items pushed before a point. -/
def offset (p : Program) (script : List Token) (n : Nat) : Nat :=
  p.bytesBefore (p.pushedAt script n)

def itemsAt (p : Program) (script : List Token) (n : Nat) : List Item :=
  (p.items.toList.take (p.pushedAt script (n + 1))).drop (p.pushedAt script n)

def codeAt (p : Program) (script : List Token) (n : Nat) : List Instruction :=
  (p.itemsAt script n).filterMap Item.instruction?

/-- The token after the point `n` has pushed one jump, and it carries the target. -/
def JumpsTo (p : Program) (script : List Token) (op : Opcode) (n target : Nat) : Prop :=
  ∃ addr, p.codeAt script n = [⟨.op op, [addr]⟩] ∧ addr.toNat = target

/-- The token after the point `n` has pushed one jump, and it leads to the label. -/
def JumpsToLabel (p : Program) (script : List Token) (op : Opcode) (n : Nat) (name : String) :
    Prop :=
  ∃ addr, p.codeAt script n = [⟨.op op, [addr]⟩] ∧ p.labelAddress? name = some addr

def LabelAt (p : Program) (name : String) (target : Nat) : Prop :=
  ∃ addr, p.labelAddress? name = some addr ∧ addr.toNat = target

theorem JumpsToLabel.jumpsTo {p : Program} {script : List Token} {op : Opcode} {n target : Nat}
    {name : String} (hjump : p.JumpsToLabel script op n name) (hlabel : p.LabelAt name target) :
    p.JumpsTo script op n target := by
  obtain ⟨addr, hcode, haddr⟩ := hjump
  obtain ⟨addr', haddr', htarget⟩ := hlabel
  rw [haddr] at haddr'
  cases haddr'
  exact ⟨addr, hcode, htarget⟩

end Program

theorem Settles.label_eq {p : Program} {name : String} {pos : Pos} {j : Item}
    (h : Settles p (.label name pos) j) : j = .label name pos := by
  generalize hi : Item.label name pos = i at h
  cases h with
  | label =>
    cases hi
    rfl
  | opcode | run | subroutine | jump | direct | general => cases hi

theorem Settles.jump_eq {p : Program} {op : Opcode} {name : String} {pos : Pos} {j : Item}
    (h : Settles p ⟨.jump name, .set (.op op), [], pos⟩ j) :
    ∃ addr, p.labelAddress? name = some addr ∧
      j = ⟨.jump name, .set (.op op), [addr], pos⟩ := by
  generalize hi : (⟨.jump name, .set (.op op), [], pos⟩ : Item) = i at h
  cases h with
  | jump _ haddr =>
    cases hi
    exact ⟨_, haddr, rfl⟩
  | opcode | run | label | subroutine | direct | general => cases hi

/-- `p` is the script, read as the draft `d` and resolved. -/
structure Origin (script : List Token) (d p : Program) : Prop where
  reads : Reader.Reads script (.start p.profile) ⟨d, .nothing⟩
  closed : d.nest.blocks = []
  resolved : Resolved d p

theorem origin_of_assemble {file source : String} {profile : Profile} {p : Program}
    (h : assemble file source profile = .ok p) :
    ∃ d, Origin (Source.script file source) d p := by
  obtain ⟨d, hreads, hclosed, hprofile, hres⟩ := resolved_of_assemble h
  refine ⟨d, ?_, hclosed, hres⟩
  rw [hres.profile, hprofile]
  exact hreads

theorem Reader.Enacts.head_ne_run {pos : Pos} {k : Keyword} {n n' : Nest} {new : List Item}
    (h : Reader.Enacts pos k n n' new) : ∀ i ∈ new, i.head ≠ .run := by
  cases h <;> simp [Item.label, Item.jump, Item.jumpIfZero]

namespace Origin

variable {script : List Token} {d p : Program} (h : Origin script d p)
include h

theorem enacts {n : Nat} {k : Keyword} (hk : blockKeywordAt script n = some k) :
    ∃ pos nest new, Reader.Enacts pos k (p.draftAt script n).nest nest new ∧
      (p.draftAt script (n + 1)).nest = nest ∧
      p.pushedAt script (n + 1) = p.pushedAt script n + new.length ∧
      List.Forall₂ (Settles p) new (p.itemsAt script n) := by
  obtain ⟨pos, nest, new, henacts, hgrow⟩ := h.reads.enacts_at hk
  have hnext : (p.draftAt script (n + 1)).items.toList =
      (p.draftAt script n).items.toList ++ new := congrArg (·.items.toList) hgrow
  have hpushed : p.pushedAt script (n + 1) = p.pushedAt script n + new.length := by
    rw [pushedAt, hnext, List.length_append, pushedAt]
  refine ⟨pos, nest, new, henacts, congrArg Program.nest hgrow, hpushed, ?_⟩
  have hkeeps : Reader.Keeps (p.draftAt script (n + 1)).items.toList d.items.toList :=
    (h.reads.reads_take (n + 1)).2.keeps
  have hslice : (d.items.toList.take (p.pushedAt script (n + 1))).drop (p.pushedAt script n) =
      new := by
    apply List.ext_getElem?
    intro m
    rw [List.getElem?_drop, List.getElem?_take]
    cases hm : new[m]? with
    | none =>
      have hle := List.getElem?_eq_none_iff.mp hm
      rw [if_neg (by omega)]
    | some i =>
      have hlt := (List.getElem?_eq_some_iff.mp hm).1
      rw [if_pos (by omega)]
      refine hkeeps.2 _ i ?_ (henacts.head_ne_run i (List.mem_of_getElem? hm))
      rw [hnext, pushedAt, List.getElem?_append_right (by omega), Nat.add_sub_cancel_left]
      exact hm
  rw [← hslice, itemsAt]
  exact List.forall₂_drop _ (List.forall₂_take _ h.resolved.items)

omit h in
theorem getElem?_items {n m : Nat} {i : Item} (hi : (p.itemsAt script n)[m]? = some i) :
    p.items.toList[p.pushedAt script n + m]? = some i := by
  rw [itemsAt, List.getElem?_drop, List.getElem?_take] at hi
  split at hi
  · exact hi
  · cases hi

theorem labelAt {n m : Nat} {name : String} {pos : Pos}
    (hi : (p.itemsAt script n)[m]? = some (.label name pos)) :
    p.LabelAt name (p.bytesBefore (p.pushedAt script n + m)) := by
  have hitem := getElem?_items hi
  exact ⟨_, h.resolved.labelAddress?_eq hitem rfl,
    h.resolved.toNat_ofNat_bytesBefore (List.getElem?_eq_some_iff.mp hitem).1⟩

/-! ## What each keyword leaves behind -/

theorem label_at_begin {n : Nat} (hk : blockKeywordAt script n = some .BEGIN) :
    ∃ id pos, (p.draftAt script (n + 1)).nest.blocks =
        ⟨.loop, id, pos⟩ :: (p.draftAt script n).nest.blocks ∧
      p.LabelAt (Block.startLabelOf id) (p.offset script n) := by
  obtain ⟨pos, nest, new, henacts, hnest, -, hitems⟩ := h.enacts hk
  cases henacts
  generalize heq : p.itemsAt script n = items at hitems
  obtain _ | ⟨hj, _ | _⟩ := hitems
  have hlabel : (p.itemsAt script n)[0]? =
      some (.label (Block.startLabelOf (p.draftAt script n).nest.nextId) pos) := by
    rw [heq, hj.label_eq]
    rfl
  exact ⟨_, pos, by rw [hnest]; rfl, h.labelAt hlabel⟩

theorem code_at_if {n : Nat} (hk : blockKeywordAt script n = some .IF) :
    ∃ id pos, (p.draftAt script (n + 1)).nest.blocks =
        ⟨.branch, id, pos⟩ :: (p.draftAt script n).nest.blocks ∧
      p.JumpsToLabel script .jumpZ n (Block.endLabelOf id) := by
  obtain ⟨pos, nest, new, henacts, hnest, -, hitems⟩ := h.enacts hk
  cases henacts
  generalize heq : p.itemsAt script n = items at hitems
  obtain _ | ⟨hj₁, _ | ⟨hj₂, _ | _⟩⟩ := hitems
  obtain ⟨addr, haddr, rfl⟩ := hj₂.jump_eq
  cases hj₁.label_eq
  refine ⟨_, pos, by rw [hnest]; rfl, addr, ?_, haddr⟩
  rw [codeAt, heq]
  rfl

theorem code_at_while {n : Nat} (hk : blockKeywordAt script n = some .WHILE) :
    ∃ id pos bs, (p.draftAt script n).nest.blocks = ⟨.loop, id, pos⟩ :: bs ∧
      p.JumpsToLabel script .jumpZ n (Block.endLabelOf id) := by
  obtain ⟨pos, nest, new, henacts, -, -, hitems⟩ := h.enacts hk
  cases henacts with
  | exit hblocks =>
  generalize heq : p.itemsAt script n = items at hitems
  obtain _ | ⟨hj, _ | _⟩ := hitems
  obtain ⟨addr, haddr, rfl⟩ := hj.jump_eq
  refine ⟨_, _, _, hblocks, addr, ?_, haddr⟩
  rw [codeAt, heq]
  rfl

theorem code_at_repeat {n : Nat} (hk : blockKeywordAt script n = some .REPEAT) :
    ∃ id pos bs, (p.draftAt script n).nest.blocks = ⟨.loop, id, pos⟩ :: bs ∧
      p.JumpsToLabel script .jump n (Block.startLabelOf id) ∧
      p.LabelAt (Block.endLabelOf id) (p.offset script (n + 1)) := by
  obtain ⟨pos, nest, new, henacts, -, hpushed, hitems⟩ := h.enacts hk
  cases henacts with
  | @again _ id _ _ hblocks =>
  generalize heq : p.itemsAt script n = items at hitems
  obtain _ | ⟨hj₁, _ | ⟨hj₂, _ | _⟩⟩ := hitems
  obtain ⟨addr, haddr, rfl⟩ := hj₁.jump_eq
  cases hj₂.label_eq
  refine ⟨_, _, _, hblocks, ⟨addr, ?_, haddr⟩, ?_⟩
  · rw [codeAt, heq]
    rfl
  · -- the end label takes no bytes, so it lies where the next token starts
    have hlabel : (p.itemsAt script n)[1]? = some (.label (Block.endLabelOf id) pos) := by
      rw [heq]
      rfl
    have hoffset : p.offset script (n + 1) = p.bytesBefore (p.pushedAt script n + 1) := by
      rw [offset, hpushed]
      exact bytesBefore_succ (getElem?_items hlabel)
    rw [hoffset]
    exact h.labelAt hlabel

theorem code_at_else {n : Nat} (hk : blockKeywordAt script n = some .ELSE) :
    ∃ id pos id' pos' bs, (p.draftAt script n).nest.blocks = ⟨.branch, id, pos⟩ :: bs ∧
      (p.draftAt script (n + 1)).nest.blocks = ⟨.alternative, id', pos'⟩ :: bs ∧
      p.JumpsToLabel script .jump n (Block.endLabelOf id') ∧
      p.LabelAt (Block.endLabelOf id) (p.offset script (n + 1)) := by
  obtain ⟨pos, nest, new, henacts, hnest, hpushed, hitems⟩ := h.enacts hk
  cases henacts with
  | @alternative _ id _ bs hblocks =>
  generalize heq : p.itemsAt script n = items at hitems
  obtain _ | ⟨hj₁, _ | ⟨hj₂, _ | ⟨hj₃, _ | _⟩⟩⟩ := hitems
  obtain ⟨addr, haddr, rfl⟩ := hj₁.jump_eq
  cases hj₂.label_eq
  cases hj₃.label_eq
  refine ⟨_, _, _, pos, _, hblocks, ?_, ⟨addr, ?_, haddr⟩, ?_⟩
  · rw [hnest, Nest.enter, Nest.leave, hblocks]
    rfl
  · rw [codeAt, heq]
    rfl
  · -- neither the end label of the branch nor the start label of the alternative takes bytes
    have hlabel : (p.itemsAt script n)[1]? = some (.label (Block.endLabelOf id) pos) := by
      rw [heq]
      rfl
    have hnext : (p.itemsAt script n)[2]? =
        some (.label (Block.startLabelOf (p.draftAt script n).nest.nextId) pos) := by
      rw [heq]
      rfl
    have hoffset : p.offset script (n + 1) = p.bytesBefore (p.pushedAt script n + 1) := by
      rw [offset, hpushed]
      exact (bytesBefore_succ (getElem?_items hnext)).trans
        (bytesBefore_succ (getElem?_items hlabel))
    rw [hoffset]
    exact h.labelAt hlabel

theorem label_at_endif {n : Nat} (hk : blockKeywordAt script n = some .ENDIF) :
    ∃ b bs, (p.draftAt script n).nest.blocks = b :: bs ∧
      p.LabelAt (Block.endLabelOf b.id) (p.offset script n) := by
  obtain ⟨pos, nest, new, henacts, -, -, hitems⟩ := h.enacts hk
  cases henacts with
  | @close _ b _ _ hblocks =>
  generalize heq : p.itemsAt script n = items at hitems
  obtain _ | ⟨hj, _ | _⟩ := hitems
  have hlabel : (p.itemsAt script n)[0]? = some (.label (Block.endLabelOf b.id) pos) := by
    rw [heq, hj.label_eq]
    rfl
  exact ⟨_, _, hblocks, h.labelAt hlabel⟩

/-! ## Blocks -/

theorem course : Course (blockKeywordAt script) (fun n => (p.draftAt script n).nest.blocks)
    script.length := h.reads.course h.closed

/-- The two ends of a block see the same open blocks. -/
theorem blocks_eq {kind : BlockKind} {closing : Keyword} {m n : Nat}
    (hpair : Pair (blockKeywordAt script) kind closing m n) :
    (p.draftAt script n).nest.blocks = (p.draftAt script (m + 1)).nest.blocks :=
  h.course.blocks_eq_of_nested hpair.lt (Nat.le_of_lt (lt_of_blockKeywordAt hpair.closes))
    hpair.nested

theorem innermost_eq {kind : BlockKind} {closing : Keyword} {m n : Nat} {b c : Block}
    {bs cs : List Block} (hpair : Pair (blockKeywordAt script) kind closing m n)
    (hopen : (p.draftAt script (m + 1)).nest.blocks = b :: bs)
    (hclose : (p.draftAt script n).nest.blocks = c :: cs) : b = c := by
  rw [h.blocks_eq hpair, hopen] at hclose
  exact (List.cons.inj hclose).1

theorem jumpsTo_if_endif {m n : Nat}
    (hpair : Pair (blockKeywordAt script) .branch .ENDIF m n) :
    p.JumpsTo script .jumpZ m (p.offset script n) := by
  obtain ⟨id, pos, hopen, hjump⟩ := h.code_at_if hpair.opens
  obtain ⟨b, bs, hclose, hlabel⟩ := h.label_at_endif hpair.closes
  cases h.innermost_eq hpair hopen hclose
  exact hjump.jumpsTo hlabel

theorem jumpsTo_if_else {m n : Nat}
    (hpair : Pair (blockKeywordAt script) .branch .ELSE m n) :
    p.JumpsTo script .jumpZ m (p.offset script (n + 1)) := by
  obtain ⟨id, pos, hopen, hjump⟩ := h.code_at_if hpair.opens
  obtain ⟨id', pos', _, _, bs, hclose, -, -, hlabel⟩ := h.code_at_else hpair.closes
  cases h.innermost_eq hpair hopen hclose
  exact hjump.jumpsTo hlabel

theorem jumpsTo_else_endif {m n : Nat}
    (hpair : Pair (blockKeywordAt script) .alternative .ENDIF m n) :
    p.JumpsTo script .jump m (p.offset script n) := by
  obtain ⟨_, _, id, pos, bs, -, hopen, hjump, -⟩ := h.code_at_else hpair.opens
  obtain ⟨b, bs', hclose, hlabel⟩ := h.label_at_endif hpair.closes
  cases h.innermost_eq hpair hopen hclose
  exact hjump.jumpsTo hlabel

theorem jumpsTo_begin_repeat {m n : Nat}
    (hpair : Pair (blockKeywordAt script) .loop .REPEAT m n) :
    p.JumpsTo script .jump n (p.offset script m) := by
  obtain ⟨id, pos, hopen, hlabel⟩ := h.label_at_begin hpair.opens
  obtain ⟨id', pos', bs, hclose, hjump, -⟩ := h.code_at_repeat hpair.closes
  cases h.innermost_eq hpair hopen hclose
  exact hjump.jumpsTo hlabel

theorem jumpsTo_while {m l n : Nat} (hpair : Pair (blockKeywordAt script) .loop .REPEAT m n)
    (hexit : Exits (blockKeywordAt script) m l) :
    p.JumpsTo script .jumpZ l (p.offset script (n + 1)) := by
  obtain ⟨id, pos, bs, hinside, hjump⟩ := h.code_at_while hexit.exits
  obtain ⟨id', pos', bs', hclose, -, hlabel⟩ := h.code_at_repeat hpair.closes
  have hopen : (p.draftAt script l).nest.blocks = (p.draftAt script (m + 1)).nest.blocks :=
    h.course.blocks_eq_of_nested hexit.lt (Nat.le_of_lt (lt_of_blockKeywordAt hexit.exits))
      hexit.nested
  cases h.innermost_eq hpair (hopen.symm.trans hinside) hclose
  exact hjump.jumpsTo hlabel

end Origin

/-- The blocks of a script as they lie in the image of a program. -/
structure Program.LaidOut (p : Program) (script : List Token) : Prop where
  /-- A branch without alternative is skipped to its end. -/
  if_endif : ∀ {m n : Nat}, Pair (blockKeywordAt script) .branch .ENDIF m n →
    p.JumpsTo script .jumpZ m (p.offset script n)
  /-- A branch with an alternative is skipped to the start of the alternative. -/
  if_else : ∀ {m n : Nat}, Pair (blockKeywordAt script) .branch .ELSE m n →
    p.JumpsTo script .jumpZ m (p.offset script (n + 1))
  /-- The alternative is skipped to its end. -/
  else_endif : ∀ {m n : Nat}, Pair (blockKeywordAt script) .alternative .ENDIF m n →
    p.JumpsTo script .jump m (p.offset script n)
  /-- A loop goes back to its start. -/
  begin_repeat : ∀ {m n : Nat}, Pair (blockKeywordAt script) .loop .REPEAT m n →
    p.JumpsTo script .jump n (p.offset script m)
  /-- A loop is left to the point after it. -/
  while_exits : ∀ {m l n : Nat}, Pair (blockKeywordAt script) .loop .REPEAT m n →
    Exits (blockKeywordAt script) m l → p.JumpsTo script .jumpZ l (p.offset script (n + 1))
  /-- Every keyword that opens a block has its partner. -/
  opens : ∀ {m : Nat} {kind : BlockKind}, blockKeywordAt script m = some kind.keyword →
    ∃ n closing, Pair (blockKeywordAt script) kind closing m n
  /-- Every keyword that closes a block has its partner. -/
  closes : ∀ {n : Nat} {k : Keyword}, k = .REPEAT ∨ k = .ELSE ∨ k = .ENDIF →
    blockKeywordAt script n = some k → ∃ m kind, Pair (blockKeywordAt script) kind k m n
  /-- Every `WHILE` stands directly in a loop. -/
  exits : ∀ {l : Nat}, blockKeywordAt script l = some .WHILE →
    ∃ m n, Pair (blockKeywordAt script) .loop .REPEAT m n ∧
      Exits (blockKeywordAt script) m l ∧ l < n

/-- **Structured control flow.** In every assembled program the jumps of all blocks lead where their
keywords say, however the blocks are nested. -/
theorem blocks_laid_out {file source : String} {profile : Profile} {p : Program}
    (h : assemble file source profile = .ok p) : p.LaidOut (Source.script file source) := by
  obtain ⟨d, horigin⟩ := origin_of_assemble h
  exact {
    if_endif := horigin.jumpsTo_if_endif
    if_else := horigin.jumpsTo_if_else
    else_endif := horigin.jumpsTo_else_endif
    begin_repeat := horigin.jumpsTo_begin_repeat
    while_exits := horigin.jumpsTo_while
    opens := fun hk => horigin.course.exists_pair_of_opens (lt_of_blockKeywordAt hk) hk
    closes := fun hk hkey =>
      horigin.course.exists_pair_of_closes (lt_of_blockKeywordAt hkey) hk hkey
    exits := fun hk => horigin.course.exists_loop_of_exits (lt_of_blockKeywordAt hk) hk }

/-- A branch with a loop in it and an alternative, in a loop. Its jump stands at 7, and its
alternative starts at 21. -/
theorem blocks_laid_out_nested :
    ∃ p, assemble "script" "begin 1 while 2 if begin 3 while repeat else 4 endif repeat" .mini =
        .ok p ∧
      p.JumpsTo (Source.script "script"
        "begin 1 while 2 if begin 3 while repeat else 4 endif repeat") .jumpZ 4 21 := by
  obtain ⟨p, hp, hq⟩ := exists_ok_of_any
    (x := assemble "script" "begin 1 while 2 if begin 3 while repeat else 4 endif repeat" .mini)
    (q := fun p => p.offset (Source.script "script"
      "begin 1 while 2 if begin 3 while repeat else 4 endif repeat") 10 = 21) (by decide +kernel)
  have hpair : Pair (blockKeywordAt (Source.script "script"
      "begin 1 while 2 if begin 3 while repeat else 4 endif repeat")) .branch .ELSE 4 9 := by
    refine ⟨by decide +kernel, by decide +kernel, by decide, by decide, ?_⟩
    have hbetween : keywordsIn (blockKeywordAt (Source.script "script"
        "begin 1 while 2 if begin 3 while repeat else 4 endif repeat")) 5 9 =
        [.BEGIN, .WHILE, .REPEAT] := by decide +kernel
    rw [hbetween]
    exact .loop .nil (.exit .nil)
  have hjump := (blocks_laid_out hp).if_else hpair
  rw [of_decide_eq_true hq] at hjump
  exact ⟨p, hp, hjump⟩

end ServoScript
