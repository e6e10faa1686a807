import Mathlib.Data.List.Basic
import ServoScript.Block

/-!
# Nested blocks

The grammar of block keywords (`Nested`) beside the stack of open blocks (`Moves`). A word of the
grammar leaves the stack as it was (`Nested.eq_of_trail`). In a course of stacks that starts and
ends empty every keyword that opens a block has its partner later on (`Course.exists_closing`), and
every keyword inside a block has the opening one before it (`Course.exists_opening`), with a word of
the grammar between the two.
-/

namespace ServoScript

/-! ## The grammar -/

/-- Words of block keywords in which every block that is opened is closed. Directly in the body of
a loop there may also be `WHILE`. -/
inductive Nested : Bool → List Keyword → Prop
  | nil {inLoop : Bool} : Nested inLoop []
  | loop {inLoop : Bool} {w body : List Keyword} : Nested inLoop w → Nested true body →
      Nested inLoop (w ++ .BEGIN :: (body ++ [.REPEAT]))
  | branch {inLoop : Bool} {w body : List Keyword} : Nested inLoop w → Nested false body →
      Nested inLoop (w ++ .IF :: (body ++ [.ENDIF]))
  | alternative {inLoop : Bool} {w yes no : List Keyword} : Nested inLoop w → Nested false yes →
      Nested false no → Nested inLoop (w ++ .IF :: (yes ++ .ELSE :: (no ++ [.ENDIF])))
  | exit {w : List Keyword} : Nested true w → Nested true (w ++ [.WHILE])

theorem Nested.append {inLoop : Bool} {u v : List Keyword} (hu : Nested inLoop u)
    (hv : Nested inLoop v) : Nested inLoop (u ++ v) := by
  induction hv with
  | nil =>
    rw [List.append_nil]
    exact hu
  | loop _ hbody ih _ =>
    rw [← List.append_assoc]
    exact .loop (ih hu) hbody
  | branch _ hbody ih _ =>
    rw [← List.append_assoc]
    exact .branch (ih hu) hbody
  | alternative _ hyes hno ih _ _ =>
    rw [← List.append_assoc]
    exact .alternative (ih hu) hyes hno
  | exit _ ih =>
    rw [← List.append_assoc]
    exact .exit (ih hu)

/-! ## The stack of open blocks -/

/-- What a block keyword does to the open blocks, innermost first. -/
inductive Moves : Keyword → List Block → List Block → Prop
  | loop {b : Block} {bs : List Block} : b.kind = .loop → Moves .BEGIN bs (b :: bs)
  | exit {b : Block} {bs : List Block} : b.kind = .loop → Moves .WHILE (b :: bs) (b :: bs)
  | again {b : Block} {bs : List Block} : b.kind = .loop → Moves .REPEAT (b :: bs) bs
  | branch {b : Block} {bs : List Block} : b.kind = .branch → Moves .IF bs (b :: bs)
  | alternative {b c : Block} {bs : List Block} : b.kind = .branch → c.kind = .alternative →
      Moves .ELSE (b :: bs) (c :: bs)
  | close {b : Block} {bs : List Block} : b.kind ≠ .loop → Moves .ENDIF (b :: bs) bs

namespace Moves

variable {bs bs' : List Block}

theorem of_begin (h : Moves .BEGIN bs bs') : ∃ b : Block, b.kind = .loop ∧ bs' = b :: bs := by
  cases h with
  | loop hkind => exact ⟨_, hkind, rfl⟩

theorem of_while (h : Moves .WHILE bs bs') :
    ∃ (b : Block) (rest : List Block), b.kind = .loop ∧ bs = b :: rest := by
  cases h with
  | exit hkind => exact ⟨_, _, hkind, rfl⟩

theorem of_repeat (h : Moves .REPEAT bs bs') : ∃ b : Block, b.kind = .loop ∧ bs = b :: bs' := by
  cases h with
  | again hkind => exact ⟨_, hkind, rfl⟩

theorem of_if (h : Moves .IF bs bs') : ∃ b : Block, b.kind = .branch ∧ bs' = b :: bs := by
  cases h with
  | branch hkind => exact ⟨_, hkind, rfl⟩

theorem of_else (h : Moves .ELSE bs bs') :
    ∃ (b c : Block) (rest : List Block), b.kind = .branch ∧ c.kind = .alternative ∧
      bs = b :: rest ∧ bs' = c :: rest := by
  cases h with
  | alternative hb hc => exact ⟨_, _, _, hb, hc, rfl, rfl⟩

theorem of_endif (h : Moves .ENDIF bs bs') : ∃ b : Block, b.kind ≠ .loop ∧ bs = b :: bs' := by
  cases h with
  | close hkind => exact ⟨_, hkind, rfl⟩

end Moves

/-- The open blocks before and after a word of keywords. -/
def Trail : List Keyword → List Block → List Block → Prop
  | [], bs, bs' => bs' = bs
  | k :: w, bs, bs' => ∃ bs₁, Moves k bs bs₁ ∧ Trail w bs₁ bs'

theorem trail_append {u v : List Keyword} {bs bs' : List Block} :
    Trail (u ++ v) bs bs' ↔ ∃ bs₁, Trail u bs bs₁ ∧ Trail v bs₁ bs' := by
  induction u generalizing bs with
  | nil => simp [Trail]
  | cons k u ih =>
    simp only [List.cons_append, Trail, ih]
    constructor
    · rintro ⟨bs₁, hk, bs₂, hu, hv⟩
      exact ⟨bs₂, ⟨bs₁, hk, hu⟩, hv⟩
    · rintro ⟨bs₂, ⟨bs₁, hk, hu⟩, hv⟩
      exact ⟨bs₁, hk, bs₂, hu, hv⟩

theorem trail_singleton {k : Keyword} {bs bs' : List Block} :
    Trail [k] bs bs' ↔ Moves k bs bs' := by
  simp [Trail]

/-- A word of the grammar closes what it opens, and leaves all other blocks open. -/
theorem Nested.eq_of_trail {inLoop : Bool} {w : List Keyword} (h : Nested inLoop w)
    {bs bs' : List Block} (ht : Trail w bs bs') : bs' = bs := by
  induction h generalizing bs bs' with
  | nil => exact ht
  | loop _ _ ihw ihbody =>
    obtain ⟨bs₁, hw, bs₂, hopen, hrest⟩ := trail_append.mp ht
    obtain ⟨bs₃, hbody, hclose⟩ := trail_append.mp hrest
    cases ihw hw
    cases hopen
    cases ihbody hbody
    cases trail_singleton.mp hclose
    rfl
  | branch _ _ ihw ihbody =>
    obtain ⟨bs₁, hw, bs₂, hopen, hrest⟩ := trail_append.mp ht
    obtain ⟨bs₃, hbody, hclose⟩ := trail_append.mp hrest
    cases ihw hw
    cases hopen
    cases ihbody hbody
    cases trail_singleton.mp hclose
    rfl
  | alternative _ _ _ ihw ihyes ihno =>
    obtain ⟨bs₁, hw, bs₂, hopen, hrest⟩ := trail_append.mp ht
    obtain ⟨bs₃, hyes, bs₄, helse, hrest⟩ := trail_append.mp hrest
    obtain ⟨bs₅, hno, hclose⟩ := trail_append.mp hrest
    cases ihw hw
    cases hopen
    cases ihyes hyes
    cases helse
    cases ihno hno
    cases trail_singleton.mp hclose
    rfl
  | exit _ ih =>
    obtain ⟨bs₁, hw, hexit⟩ := trail_append.mp ht
    cases ih hw
    cases trail_singleton.mp hexit
    rfl

/-- A word of the grammar can be followed from any open blocks, if `WHILE` is allowed only in a
loop. -/
theorem Nested.trail {inLoop : Bool} {w : List Keyword} (h : Nested inLoop w) {bs : List Block}
    (hloop : inLoop = true → ∃ (b : Block) (rest : List Block), b.kind = .loop ∧ bs = b :: rest) :
    Trail w bs bs := by
  have hblock : ∀ kind, ∃ b : Block, b.kind = kind := fun kind => ⟨⟨kind, 0, ⟨"", 0, 0⟩⟩, rfl⟩
  induction h generalizing bs with
  | nil => rfl
  | loop _ _ ihw ihbody =>
    obtain ⟨b, hb⟩ := hblock .loop
    refine trail_append.mpr ⟨bs, ihw hloop, b :: bs, .loop hb, ?_⟩
    exact trail_append.mpr ⟨_, ihbody fun _ => ⟨b, bs, hb, rfl⟩, trail_singleton.mpr (.again hb)⟩
  | branch _ _ ihw ihbody =>
    obtain ⟨b, hb⟩ := hblock .branch
    refine trail_append.mpr ⟨bs, ihw hloop, b :: bs, .branch hb, ?_⟩
    exact trail_append.mpr ⟨_, ihbody nofun, trail_singleton.mpr (.close (by simp [hb]))⟩
  | alternative _ _ _ ihw ihyes ihno =>
    obtain ⟨b, hb⟩ := hblock .branch
    obtain ⟨c, hc⟩ := hblock .alternative
    refine trail_append.mpr ⟨bs, ihw hloop, b :: bs, .branch hb, ?_⟩
    refine trail_append.mpr ⟨_, ihyes nofun, c :: bs, .alternative hb hc, ?_⟩
    exact trail_append.mpr ⟨_, ihno nofun, trail_singleton.mpr (.close (by simp [hc]))⟩
  | exit _ ih =>
    obtain ⟨b, rest, hb, rfl⟩ := hloop rfl
    exact trail_append.mpr ⟨_, ih fun _ => ⟨b, rest, hb, rfl⟩, trail_singleton.mpr (.exit hb)⟩

theorem Moves.kinds_eq {k : Keyword} {bs bs' cs cs' : List Block} (h : Moves k bs bs')
    (h' : Moves k cs cs') (hkinds : bs.map (·.kind) = cs.map (·.kind)) :
    bs'.map (·.kind) = cs'.map (·.kind) := by
  cases h with
  | loop hb =>
    obtain ⟨c, hc, rfl⟩ := h'.of_begin
    rw [List.map_cons, List.map_cons, hb, hc, hkinds]
  | exit _ =>
    cases h' with
    | exit _ => exact hkinds
  | again _ =>
    obtain ⟨c, -, rfl⟩ := h'.of_repeat
    exact (List.cons.inj hkinds).2
  | branch hb =>
    obtain ⟨c, hc, rfl⟩ := h'.of_if
    rw [List.map_cons, List.map_cons, hb, hc, hkinds]
  | alternative _ hb =>
    obtain ⟨_, c, rest, -, hc, rfl, rfl⟩ := h'.of_else
    rw [List.map_cons, List.map_cons, hb, hc, (List.cons.inj hkinds).2]
  | close _ =>
    obtain ⟨c, -, rfl⟩ := h'.of_endif
    exact (List.cons.inj hkinds).2

theorem Trail.kinds_eq {w : List Keyword} {bs bs' cs cs' : List Block} (h : Trail w bs bs')
    (h' : Trail w cs cs') (hkinds : bs.map (·.kind) = cs.map (·.kind)) :
    bs'.map (·.kind) = cs'.map (·.kind) := by
  induction w generalizing bs cs with
  | nil =>
    cases h
    cases h'
    exact hkinds
  | cons k w ih =>
    obtain ⟨bs₁, hk, hw⟩ := h
    obtain ⟨cs₁, hk', hw'⟩ := h'
    exact ih hw hw' (hk.kinds_eq hk' hkinds)

/-! ## Keywords along a script

A script is followed from point to point: `key n` is the block keyword between the points `n` and
`n + 1`, if there is one.
-/

def keywordsIn (key : Nat → Option Keyword) (m n : Nat) : List Keyword :=
  (List.range' m (n - m)).filterMap key

section keywordsIn

variable (key : Nat → Option Keyword)

theorem keywordsIn_self (n : Nat) : keywordsIn key n n = [] := by
  simp [keywordsIn]

theorem keywordsIn_append {m l n : Nat} (hml : m ≤ l) (hln : l ≤ n) :
    keywordsIn key m n = keywordsIn key m l ++ keywordsIn key l n := by
  have hsplit := List.range'_append_1 (s := m) (m := l - m) (n := n - l)
  have hl : m + (l - m) = l := by omega
  have hn : l - m + (n - l) = n - m := by omega
  rw [hl, hn] at hsplit
  rw [keywordsIn, ← hsplit, List.filterMap_append, keywordsIn, keywordsIn]

theorem keywordsIn_succ (n : Nat) : keywordsIn key n (n + 1) = (key n).toList := by
  have hone : n + 1 - n = 1 := by omega
  cases h : key n <;> simp [keywordsIn, hone, h]

variable {key}

theorem keywordsIn_cons {m n : Nat} {k : Keyword} (hk : key m = some k) (hmn : m < n) :
    keywordsIn key m n = k :: keywordsIn key (m + 1) n := by
  rw [keywordsIn_append key (Nat.le_succ m) hmn, keywordsIn_succ, hk]
  rfl

theorem keywordsIn_concat {m n : Nat} {k : Keyword} (hk : key n = some k) (hmn : m ≤ n) :
    keywordsIn key m (n + 1) = keywordsIn key m n ++ [k] := by
  rw [keywordsIn_append key hmn (Nat.le_succ n), keywordsIn_succ, hk]
  rfl

end keywordsIn

def BlockKind.closers : BlockKind → List Keyword
  | .loop => [.REPEAT]
  | .branch => [.ELSE, .ENDIF]
  | .alternative => [.ENDIF]

theorem BlockKind.endif_mem_closers {kind : BlockKind} (h : kind ≠ .loop) :
    .ENDIF ∈ kind.closers := by
  cases kind with
  | loop => exact absurd rfl h
  | branch => simp [closers]
  | alternative => simp [closers]

/-- The keywords after the points `m` and `n` are the two ends of a block. -/
structure Pair (key : Nat → Option Keyword) (kind : BlockKind) (closing : Keyword) (m n : Nat) :
    Prop where
  opens : key m = some kind.keyword
  closes : key n = some closing
  closing_mem : closing ∈ kind.closers
  lt : m < n
  nested : Nested (kind = .loop) (keywordsIn key (m + 1) n)

/-- The `WHILE` after the point `n` stands directly in the loop that is opened after `m`. -/
structure Exits (key : Nat → Option Keyword) (m n : Nat) : Prop where
  opens : key m = some .BEGIN
  exits : key n = some .WHILE
  lt : m < n
  nested : Nested true (keywordsIn key (m + 1) n)

/-- The open blocks at the points of a script that is read to its end. -/
structure Course (key : Nat → Option Keyword) (blocks : Nat → List Block) (size : Nat) : Prop where
  first : blocks 0 = []
  last : blocks size = []
  step : ∀ n < size, Trail (key n).toList (blocks n) (blocks (n + 1))

namespace Course

variable {key : Nat → Option Keyword} {blocks : Nat → List Block} {size : Nat}
  (h : Course key blocks size)
include h

theorem moves {n : Nat} {k : Keyword} (hn : n < size) (hk : key n = some k) :
    Moves k (blocks n) (blocks (n + 1)) := by
  have hstep := h.step n hn
  rw [hk] at hstep
  exact trail_singleton.mp hstep

theorem stays {n : Nat} (hn : n < size) (hk : key n = none) : blocks (n + 1) = blocks n := by
  have hstep := h.step n hn
  rw [hk] at hstep
  exact hstep

theorem trail {m n : Nat} (hmn : m ≤ n) (hn : n ≤ size) :
    Trail (keywordsIn key m n) (blocks m) (blocks n) := by
  induction hmn with
  | refl =>
    rw [keywordsIn_self]
    rfl
  | @step n hmn ih =>
    rw [keywordsIn_append key hmn (Nat.le_succ n), keywordsIn_succ]
    exact trail_append.mpr ⟨_, ih (by omega), h.step n hn⟩

theorem blocks_eq_of_nested {m n : Nat} {inLoop : Bool} (hmn : m ≤ n) (hn : n ≤ size)
    (hnested : Nested inLoop (keywordsIn key m n)) : blocks n = blocks m :=
  hnested.eq_of_trail (h.trail hmn hn)

end Course

/-! ## Partners -/

/-- A word that can follow any word of the grammar: blocks that are complete. -/
def Complete (u : List Keyword) : Prop :=
  ∀ {inLoop : Bool} {w : List Keyword}, Nested inLoop w → Nested inLoop (w ++ u)

section partners

variable (key : Nat → Option Keyword) (blocks : Nat → List Block)

/-- The block that is innermost at the point `n` was opened before, with complete blocks since. -/
def Opened (n : Nat) (b : Block) (bs : List Block) : Prop :=
  ∃ m < n, key m = some b.kind.keyword ∧ blocks (m + 1) = b :: bs ∧
    Nested (b.kind = .loop) (keywordsIn key (m + 1) n)

/-- The block that is innermost at the point `n` is closed later, with complete blocks until
then. -/
def Closed (size n : Nat) (b : Block) (bs : List Block) : Prop :=
  ∃ m, n ≤ m ∧ m < size ∧ (∃ c ∈ b.kind.closers, key m = some c) ∧ blocks m = b :: bs ∧
    Nested (b.kind = .loop) (keywordsIn key n m)

end partners

namespace Course

variable {key : Nat → Option Keyword} {blocks : Nat → List Block} {size : Nat}
  (h : Course key blocks size)
include h

theorem exists_loop_start {n : Nat} {b : Block} {bs : List Block} (hn : n < size)
    (hkind : b.kind = .loop) (hkey : key n = some .REPEAT)
    (hopened : Opened key blocks n b bs) :
    ∃ m < n, blocks m = bs ∧ Complete (keywordsIn key m (n + 1)) := by
  obtain ⟨m, hm, hopen, hblocks, hnested⟩ := hopened
  simp only [hkind, BlockKind.keyword, decide_true] at hopen hnested
  obtain ⟨c, -, hc⟩ := (h.moves (by omega) hopen).of_begin
  rw [hblocks] at hc
  refine ⟨m, hm, (List.cons.inj hc).2.symm, fun hw => ?_⟩
  rw [keywordsIn_cons hopen (by omega), keywordsIn_concat hkey hm]
  exact .loop hw hnested

theorem exists_branch_start {n : Nat} {b : Block} {bs : List Block} (hn : n < size)
    (hkind : b.kind ≠ .loop) (hb : blocks n = b :: bs) (hkey : key n = some .ENDIF)
    (hopened : ∀ m ≤ n, ∀ c cs, blocks m = c :: cs → Opened key blocks m c cs) :
    ∃ m < n, blocks m = bs ∧ Complete (keywordsIn key m (n + 1)) := by
  obtain ⟨m, hm, hopen, hblocks, hnested⟩ := hopened n (Nat.le_refl n) b bs hb
  cases hb' : b.kind with
  | loop => exact absurd hb' hkind
  | branch =>
    simp only [hb', BlockKind.keyword, reduceCtorEq, decide_false] at hopen hnested
    obtain ⟨c, -, hc⟩ := (h.moves (by omega) hopen).of_if
    rw [hblocks] at hc
    refine ⟨m, hm, (List.cons.inj hc).2.symm, fun hw => ?_⟩
    rw [keywordsIn_cons hopen (by omega), keywordsIn_concat hkey hm]
    exact .branch hw hnested
  | alternative =>
    simp only [hb', BlockKind.keyword, reduceCtorEq, decide_false] at hopen hnested
    obtain ⟨c, c', rest, hckind, -, hc, hc'⟩ := (h.moves (by omega) hopen).of_else
    rw [hblocks] at hc'
    obtain ⟨-, rfl⟩ := List.cons.inj hc'
    -- the branch before the alternative, which was opened by `IF`
    obtain ⟨l, hl, hopen', hblocks', hnested'⟩ := hopened m (by omega) c bs hc
    simp only [hckind, BlockKind.keyword, reduceCtorEq, decide_false] at hopen' hnested'
    obtain ⟨e, -, he⟩ := (h.moves (by omega) hopen').of_if
    rw [hblocks'] at he
    refine ⟨l, by omega, (List.cons.inj he).2.symm, fun hw => ?_⟩
    rw [keywordsIn_cons hopen' (by omega), keywordsIn_append key hl (by omega : m ≤ n + 1),
      keywordsIn_cons hopen (by omega), keywordsIn_concat hkey hm]
    exact .alternative hw hnested' hnested

/-- **Every open block has been opened.** -/
theorem exists_opening {n : Nat} {b : Block} {bs : List Block} (hn : n ≤ size)
    (hb : blocks n = b :: bs) : Opened key blocks n b bs := by
  -- on the point: a block that ends just before it is skipped together with its opening
  induction n using Nat.strongRecOn generalizing b bs with
  | ind n ih =>
    cases n with
    | zero =>
      rw [h.first] at hb
      cases hb
    | succ j =>
      have hopened : ∀ m ≤ j, ∀ c cs, blocks m = c :: cs → Opened key blocks m c cs :=
        fun m hm c cs hc => ih m (by omega) (by omega) hc
      -- what is open at an earlier point, with complete blocks up to here
      have hskip : ∀ m ≤ j, blocks m = b :: bs → Complete (keywordsIn key m (j + 1)) →
          Opened key blocks (j + 1) b bs := by
        intro m hm hblocks hcomplete
        obtain ⟨l, hl, hopen, hbl, hnested⟩ := hopened m hm b bs hblocks
        refine ⟨l, by omega, hopen, hbl, ?_⟩
        rw [keywordsIn_append key hl (by omega : m ≤ j + 1)]
        exact hcomplete hnested
      have hhere : key j = some b.kind.keyword → Opened key blocks (j + 1) b bs := by
        intro hopen
        refine ⟨j, by omega, hopen, hb, ?_⟩
        rw [keywordsIn_self]
        exact .nil
      cases hkey : key j with
      | none =>
        have hcomplete : Complete (keywordsIn key j (j + 1)) := by
          intro _ w hw
          rw [keywordsIn_succ, hkey]
          exact (List.append_nil w).symm ▸ hw
        exact hskip j (Nat.le_refl j) ((h.stays hn hkey).symm.trans hb) hcomplete
      | some k =>
        have hmove := h.moves hn hkey
        rw [hb] at hmove
        generalize hj : blocks j = s at hmove
        cases hmove with
        | loop hkind => exact hhere (by rw [hkey, hkind]; rfl)
        | branch hkind => exact hhere (by rw [hkey, hkind]; rfl)
        | alternative _ hkind => exact hhere (by rw [hkey, hkind]; rfl)
        | exit hkind =>
          obtain ⟨m, hm, hopen, hblocks, hnested⟩ := hopened j (Nat.le_refl j) b bs hj
          refine ⟨m, by omega, hopen, hblocks, ?_⟩
          rw [keywordsIn_concat hkey hm]
          simp only [hkind, decide_true] at hnested ⊢
          exact .exit hnested
        | again hkind =>
          obtain ⟨m, hm, hblocks, hcomplete⟩ :=
            h.exists_loop_start hn hkind hkey (hopened j (Nat.le_refl j) _ _ hj)
          exact hskip m (by omega) hblocks hcomplete
        | close hkind =>
          obtain ⟨m, hm, hblocks, hcomplete⟩ := h.exists_branch_start hn hkind hj hkey hopened
          exact hskip m (by omega) hblocks hcomplete

/-- **Where no block is open, the keywords so far are a word of the grammar.** -/
theorem nested {n : Nat} (hn : n ≤ size) (hb : blocks n = []) :
    Nested false (keywordsIn key 0 n) := by
  -- on the point: before a block that ends here no block was open either
  induction n using Nat.strongRecOn with
  | ind n ih =>
    cases n with
    | zero =>
      rw [keywordsIn_self]
      exact .nil
    | succ j =>
      have hskip : ∀ m ≤ j, blocks m = [] → Complete (keywordsIn key m (j + 1)) →
          Nested false (keywordsIn key 0 (j + 1)) := by
        intro m hm hblocks hcomplete
        rw [keywordsIn_append key (Nat.zero_le m) (by omega : m ≤ j + 1)]
        exact hcomplete (ih m (by omega) (by omega) hblocks)
      cases hkey : key j with
      | none =>
        have hnested := ih j (by omega) (by omega) ((h.stays hn hkey).symm.trans hb)
        rw [keywordsIn_append key (Nat.zero_le j) (Nat.le_succ j), keywordsIn_succ, hkey]
        exact (List.append_nil _).symm ▸ hnested
      | some k =>
        have hmove := h.moves hn hkey
        rw [hb] at hmove
        generalize hj : blocks j = s at hmove
        cases hmove with
        | again hkind =>
          obtain ⟨m, hm, hblocks, hcomplete⟩ :=
            h.exists_loop_start hn hkind hkey (h.exists_opening (by omega) hj)
          exact hskip m (by omega) hblocks hcomplete
        | close hkind =>
          obtain ⟨m, hm, hblocks, hcomplete⟩ := h.exists_branch_start hn hkind hj hkey
            fun m hm c cs hc => h.exists_opening (by omega) hc
          exact hskip m (by omega) hblocks hcomplete

theorem exists_loop_end {n : Nat} (hn : n < size) (hkey : key n = some .BEGIN)
    (hclosed : ∀ m, n < m → m ≤ size → ∀ c cs, blocks m = c :: cs →
      Closed key blocks size m c cs) :
    ∃ m, n < m ∧ m ≤ size ∧ blocks m = blocks n ∧ Complete (keywordsIn key n m) := by
  obtain ⟨b, hkind, hb⟩ := (h.moves hn hkey).of_begin
  obtain ⟨m, hnm, hm, ⟨c, hc, hclose⟩, hblocks, hnested⟩ := hclosed (n + 1) (by omega) hn _ _ hb
  simp only [hkind, BlockKind.closers, List.mem_singleton, decide_true] at hc hnested
  subst hc
  obtain ⟨e, -, he⟩ := (h.moves hm hclose).of_repeat
  rw [hblocks] at he
  refine ⟨m + 1, by omega, hm, (List.cons.inj he).2.symm, fun hw => ?_⟩
  rw [keywordsIn_cons hkey (by omega), keywordsIn_concat hclose hnm]
  exact .loop hw hnested

theorem exists_branch_end {n : Nat} (hn : n < size) (hkey : key n = some .IF)
    (hclosed : ∀ m, n < m → m ≤ size → ∀ c cs, blocks m = c :: cs →
      Closed key blocks size m c cs) :
    ∃ m, n < m ∧ m ≤ size ∧ blocks m = blocks n ∧ Complete (keywordsIn key n m) := by
  obtain ⟨b, hkind, hb⟩ := (h.moves hn hkey).of_if
  obtain ⟨m, hnm, hm, ⟨c, hc, hclose⟩, hblocks, hnested⟩ := hclosed (n + 1) (by omega) hn _ _ hb
  simp only [hkind, BlockKind.closers, List.mem_cons, List.not_mem_nil, or_false, reduceCtorEq,
    decide_false] at hc hnested
  rcases hc with rfl | rfl
  · obtain ⟨b', c, rest, -, hckind, hb', hc⟩ := (h.moves hm hclose).of_else
    rw [hblocks] at hb'
    obtain ⟨-, rfl⟩ := List.cons.inj hb'
    -- the alternative, which ends with `ENDIF`
    obtain ⟨l, hml, hl, ⟨e, he, hend⟩, hblocks', hnested'⟩ :=
      hclosed (m + 1) (by omega) hm _ _ hc
    simp only [hckind, BlockKind.closers, List.mem_singleton, reduceCtorEq, decide_false]
      at he hnested'
    subst he
    obtain ⟨e, -, he⟩ := (h.moves hl hend).of_endif
    rw [hblocks'] at he
    refine ⟨l + 1, by omega, hl, (List.cons.inj he).2.symm, fun hw => ?_⟩
    rw [keywordsIn_cons hkey (by omega), keywordsIn_append key hnm (by omega : m ≤ l + 1),
      keywordsIn_cons hclose (by omega), keywordsIn_concat hend hml]
    exact .alternative hw hnested hnested'
  · obtain ⟨e, -, he⟩ := (h.moves hm hclose).of_endif
    rw [hblocks] at he
    refine ⟨m + 1, by omega, hm, (List.cons.inj he).2.symm, fun hw => ?_⟩
    rw [keywordsIn_cons hkey (by omega), keywordsIn_concat hclose hnm]
    exact .branch hw hnested

/-- **Every open block is closed.** -/
theorem exists_closing {n : Nat} {b : Block} {bs : List Block} (hn : n ≤ size)
    (hb : blocks n = b :: bs) : Closed key blocks size n b bs := by
  -- on the number of points that are left: a block that starts here is skipped up to its end
  induction hleft : size - n using Nat.strongRecOn generalizing n b bs with
  | ind left ih =>
    have hlt : n < size := by
      rcases Nat.lt_or_eq_of_le hn with hlt | rfl
      · exact hlt
      · rw [h.last] at hb
        cases hb
    have hclosed : ∀ m, n < m → m ≤ size → ∀ c cs, blocks m = c :: cs →
        Closed key blocks size m c cs :=
      fun m hnm hm c cs hc => ih (size - m) (by omega) hm hc rfl
    -- what is open at a later point, with a word before it that can start
    have hskip : ∀ m, n < m → m ≤ size → blocks m = b :: bs →
        Nested (b.kind = .loop) (keywordsIn key n m) → Closed key blocks size n b bs := by
      intro m hnm hm hblocks hword
      obtain ⟨l, hml, hl, hclose, hbl, hnested⟩ := hclosed m hnm hm b bs hblocks
      refine ⟨l, by omega, hl, hclose, hbl, ?_⟩
      rw [keywordsIn_append key (Nat.le_of_lt hnm) hml]
      exact hword.append hnested
    have hhere : ∀ c ∈ b.kind.closers, key n = some c → Closed key blocks size n b bs := by
      intro c hc hclose
      refine ⟨n, Nat.le_refl n, hlt, ⟨c, hc, hclose⟩, hb, ?_⟩
      rw [keywordsIn_self]
      exact .nil
    cases hkey : key n with
    | none =>
      refine hskip (n + 1) (by omega) hlt ((h.stays hlt hkey).trans hb) ?_
      rw [keywordsIn_succ, hkey]
      exact .nil
    | some k =>
      have hmove := h.moves hlt hkey
      rw [hb] at hmove
      generalize ht : blocks (n + 1) = t at hmove
      cases hmove with
      | loop =>
        obtain ⟨m, hnm, hm, hblocks, hcomplete⟩ := h.exists_loop_end hlt hkey hclosed
        exact hskip m hnm hm (hblocks.trans hb) (hcomplete .nil)
      | branch =>
        obtain ⟨m, hnm, hm, hblocks, hcomplete⟩ := h.exists_branch_end hlt hkey hclosed
        exact hskip m hnm hm (hblocks.trans hb) (hcomplete .nil)
      | exit hkind =>
        refine hskip (n + 1) (by omega) hlt ht ?_
        rw [keywordsIn_succ, hkey, hkind]
        exact .exit .nil
      | again hkind => exact hhere .REPEAT (by rw [hkind]; simp [BlockKind.closers]) hkey
      | alternative hkind => exact hhere .ELSE (by rw [hkind]; simp [BlockKind.closers]) hkey
      | close hkind => exact hhere .ENDIF (BlockKind.endif_mem_closers hkind) hkey

/-! ## Pairs -/

theorem exists_pair_of_opens {m : Nat} {kind : BlockKind} (hm : m < size)
    (hkey : key m = some kind.keyword) : ∃ n closing, Pair key kind closing m n := by
  obtain ⟨b, bs, hkind, hb⟩ : ∃ b bs, b.kind = kind ∧ blocks (m + 1) = b :: bs := by
    have hmove := h.moves hm hkey
    cases kind with
    | loop =>
      obtain ⟨b, hkind, hb⟩ := hmove.of_begin
      exact ⟨b, _, hkind, hb⟩
    | branch =>
      obtain ⟨b, hkind, hb⟩ := hmove.of_if
      exact ⟨b, _, hkind, hb⟩
    | alternative =>
      obtain ⟨-, c, rest, -, hkind, -, hc⟩ := hmove.of_else
      exact ⟨c, rest, hkind, hc⟩
  subst hkind
  obtain ⟨n, hmn, -, ⟨c, hc, hclose⟩, -, hnested⟩ := h.exists_closing hm hb
  exact ⟨n, c, hkey, hclose, hc, hmn, hnested⟩

theorem exists_pair_of_closes {n : Nat} {k : Keyword} (hn : n < size)
    (hk : k = .REPEAT ∨ k = .ELSE ∨ k = .ENDIF) (hkey : key n = some k) :
    ∃ m kind, Pair key kind k m n := by
  obtain ⟨b, bs, hmem, hb⟩ : ∃ b bs, k ∈ b.kind.closers ∧ blocks n = b :: bs := by
    have hmove := h.moves hn hkey
    rcases hk with rfl | rfl | rfl
    · obtain ⟨b, hkind, hb⟩ := hmove.of_repeat
      exact ⟨b, _, by rw [hkind]; simp [BlockKind.closers], hb⟩
    · obtain ⟨b, -, rest, hkind, -, hb, -⟩ := hmove.of_else
      exact ⟨b, rest, by rw [hkind]; simp [BlockKind.closers], hb⟩
    · obtain ⟨b, hkind, hb⟩ := hmove.of_endif
      exact ⟨b, _, BlockKind.endif_mem_closers hkind, hb⟩
  obtain ⟨m, hm, hopen, -, hnested⟩ := h.exists_opening (Nat.le_of_lt hn) hb
  exact ⟨m, b.kind, hopen, hkey, hmem, hm, hnested⟩

theorem exists_loop_of_exits {l : Nat} (hl : l < size) (hkey : key l = some .WHILE) :
    ∃ m n, Pair key .loop .REPEAT m n ∧ Exits key m l ∧ l < n := by
  obtain ⟨b, bs, hkind, hb⟩ := (h.moves hl hkey).of_while
  obtain ⟨m, hm, hopen, -, hbefore⟩ := h.exists_opening (Nat.le_of_lt hl) hb
  obtain ⟨n, hln, -, ⟨c, hc, hclose⟩, -, hafter⟩ := h.exists_closing (Nat.le_of_lt hl) hb
  simp only [hkind, BlockKind.closers, List.mem_singleton, decide_true] at hopen hbefore hc hafter
  subst hc
  have hne : l ≠ n := by
    rintro rfl
    rw [hkey] at hclose
    cases hclose
  refine ⟨m, n, ⟨hopen, hclose, by simp [BlockKind.closers], by omega, ?_⟩,
    ⟨hopen, hkey, hm, hbefore⟩, by omega⟩
  rw [keywordsIn_append key hm hln]
  exact hbefore.append hafter

end Course

end ServoScript
