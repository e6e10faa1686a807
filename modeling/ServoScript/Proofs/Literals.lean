import Mathlib.Data.List.SplitBy
import ServoScript.Proofs.ControlFlow
import ServoScript.Proofs.Language

/-!
# Runs of literals

The numbers of a script that are read for themselves fall into rows, divided where another token
stands between them (`rows`). Reading makes one run of literals of each row, in the order of the
script: a number that directly follows another one finds its run still open, and any other number
begins a new run (`Reader.Reads.holds_rows`). So no number is lost, and two of them share a run
exactly if nothing but numbers stands between them.
-/

namespace ServoScript

/-! ## Numbers and their rows -/

/-- The numbers of a script that are read for themselves, each with the point that it stands at. -/
def numbers (script : List Token) : List (Token × Nat) :=
  script.zipIdx.filter fun x => !awaitsName (script.take x.2) && decide (x.1.kind = .number)

/-- The numbers of a script, divided where another token stands between two of them. -/
def rows (script : List Token) : List (List (Token × Nat)) :=
  (numbers script).splitBy fun x y => decide (y.2 = x.2 + 1)

section rows

variable {script : List Token} {row : List (Token × Nat)} {x y : Token × Nat}

theorem mem_numbers : x ∈ numbers script ↔ OrdinaryAt script x.2 x.1 ∧ x.1.kind = .number := by
  rw [numbers, List.mem_filter, List.mem_zipIdx_iff_getElem?, OrdinaryAt]
  simp [and_assoc]

theorem lt_of_mem_numbers (hx : x ∈ numbers script) : x.2 < script.length :=
  (List.getElem?_eq_some_iff.mp (mem_numbers.mp hx).1.1).1

theorem eq_of_mem_numbers (hx : x ∈ numbers script) (hy : y ∈ numbers script) (hxy : x.2 = y.2) :
    x = y := by
  have ht := (mem_numbers.mp hx).1.1
  rw [hxy, (mem_numbers.mp hy).1.1] at ht
  exact Prod.ext (Option.some.inj ht).symm hxy

theorem pairwise_numbers (script : List Token) : (numbers script).Pairwise (·.2 < ·.2) := by
  refine List.Pairwise.filter _ (List.pairwise_map.mp ?_)
  rw [List.zipIdx_map_snd]
  exact List.pairwise_lt_range' 1

theorem numbers_concat (ts : List Token) (t : Token) :
    numbers (ts ++ [t]) = numbers ts ++
      if awaitsName ts = false ∧ t.kind = .number then [(t, ts.length)] else [] := by
  have hfront : ts.zipIdx.filter (fun x => !awaitsName ((ts ++ [t]).take x.2) &&
      decide (x.1.kind = .number)) = numbers ts := by
    refine List.filter_congr fun x hx => ?_
    have hlt := (List.getElem?_eq_some_iff.mp (List.mem_zipIdx_iff_getElem?.mp hx)).1
    rw [List.take_append_of_le_length (Nat.le_of_lt hlt)]
  rw [numbers, List.zipIdx_append, List.filter_append, hfront]
  simp [List.filter_singleton]

theorem numbers_concat_of_number {ts : List Token} {t : Token} (hawaits : awaitsName ts = false)
    (hk : t.kind = .number) : numbers (ts ++ [t]) = numbers ts ++ [(t, ts.length)] := by
  rw [numbers_concat, if_pos ⟨hawaits, hk⟩]

theorem flatten_rows (script : List Token) : (rows script).flatten = numbers script :=
  List.flatten_splitBy _ _

theorem mem_numbers_iff_exists_row : x ∈ numbers script ↔ ∃ row ∈ rows script, x ∈ row := by
  rw [← flatten_rows, List.mem_flatten]

theorem isChain_of_mem_rows (hrow : row ∈ rows script) : row.IsChain fun x y => y.2 = x.2 + 1 := by
  simpa using List.isChain_of_mem_splitBy hrow

theorem snd_getElem_of_isChain (h : row.IsChain fun x y => y.2 = x.2 + 1) {n : Nat}
    (hn : n < row.length) : row[n].2 = row[0].2 + n := by
  induction n with
  | zero => rfl
  | succ n ih => rw [List.isChain_iff_getElem.mp h n hn, ih (by omega), Nat.add_assoc]

theorem exists_mem_row_of_between (h : row.IsChain fun x y => y.2 = x.2 + 1) (hx : x ∈ row)
    (hy : y ∈ row) {l : Nat} (hxl : x.2 ≤ l) (hly : l ≤ y.2) : ∃ t, (t, l) ∈ row := by
  obtain ⟨m, hm, rfl⟩ := List.getElem_of_mem hx
  obtain ⟨n, hn, rfl⟩ := List.getElem_of_mem hy
  rw [snd_getElem_of_isChain h hm] at hxl
  rw [snd_getElem_of_isChain h hn] at hly
  obtain ⟨k, rfl⟩ := Nat.exists_eq_add_of_le (Nat.le_trans (Nat.le_add_right _ _) hxl)
  have hk : k < row.length := by omega
  refine ⟨row[k].1, ?_⟩
  rw [← snd_getElem_of_isChain h hk]
  exact List.getElem_mem hk

theorem ne_succ_of_rows_eq {front rest : List (List (Token × Nat))} {init tail : List (Token × Nat)}
    (h : rows script = front ++ (init ++ [x]) :: (y :: tail) :: rest) : y.2 ≠ x.2 + 1 := by
  have hchain := List.isChain_getLast_head_splitBy (fun x y => decide (y.2 = x.2 + 1))
    (numbers script)
  rw [← rows, h, List.isChain_append, List.isChain_cons_cons] at hchain
  simpa using hchain.2.1.1

theorem mem_row_of_succ (hrow : row ∈ rows script) (hx : x ∈ row) (hy : y ∈ numbers script)
    (hxy : y.2 = x.2 + 1) : y ∈ row := by
  obtain ⟨front, back, hrows⟩ := List.append_of_mem hrow
  have hflatten : numbers script = front.flatten ++ (row ++ back.flatten) := by
    rw [← flatten_rows, hrows]
    simp
  have hsorted := pairwise_numbers script
  rw [hflatten, List.pairwise_append] at hsorted
  obtain ⟨-, hsorted, hbefore⟩ := hsorted
  rw [hflatten, List.mem_append, List.mem_append] at hy
  rcases hy with hy | hy | hy
  · have hlt := hbefore y hy x (List.mem_append_left _ hx)
    omega
  · exact hy
  · -- only `last` and `first` could stand between `x` and `y`, and there is a gap between them
    obtain _ | ⟨next, rest⟩ := back
    · cases hy
    have hnext : next ∈ rows script := by simp [hrows]
    obtain ⟨init, last, rfl⟩ := (List.eq_nil_or_concat' row).resolve_left
      (List.ne_nil_of_mem_splitBy hrow)
    obtain ⟨first, tail, rfl⟩ := List.exists_cons_of_ne_nil (List.ne_nil_of_mem_splitBy hnext)
    have hgap := ne_succ_of_rows_eq hrows
    rw [List.flatten_cons, List.cons_append, List.pairwise_append, List.pairwise_append] at hsorted
    obtain ⟨⟨-, -, hinit⟩, hnext, hafter⟩ := hsorted
    have hlast : x.2 ≤ last.2 := by
      rcases List.mem_append.mp hx with hx | hx
      · exact Nat.le_of_lt (hinit x hx last (List.mem_singleton_self _))
      · rw [List.mem_singleton.mp hx]
    have hle : first.2 ≤ y.2 := by
      rcases List.mem_cons.mp hy with rfl | hy
      · exact Nat.le_refl _
      · exact Nat.le_of_lt (List.rel_of_pairwise_cons hnext hy)
    have hlt := hafter last (by simp) first (by simp)
    omega

theorem mem_row_of_numbersIn (hrow : row ∈ rows script) (hx : x ∈ row) {n : Nat} (hn : x.2 ≤ n)
    (h : NumbersIn script (x.2 + 1) n) {t : Token} (ht : (t, n) ∈ numbers script) :
    (t, n) ∈ row := by
  have hxmem := mem_numbers_iff_exists_row.mpr ⟨row, hrow, hx⟩
  induction n, hn using Nat.le_induction generalizing t with
  | base =>
    rw [eq_of_mem_numbers ht hxmem rfl]
    exact hx
  | succ n hn ih =>
    obtain ⟨u, hu⟩ : ∃ u, (u, n) ∈ numbers script := by
      rcases Nat.eq_or_lt_of_le hn with heq | hlt
      · exact ⟨x.1, by rw [← heq]; exact hxmem⟩
      · obtain ⟨u, hu⟩ := h n hlt (Nat.lt_succ_self n)
        exact ⟨u, mem_numbers.mpr hu⟩
    exact mem_row_of_succ hrow (ih (fun l hl hln => h l hl (by omega)) hu) ht rfl

/-- **Rows.** Two numbers stand in one row exactly if all tokens between them are numbers. -/
theorem exists_row_iff (hx : x ∈ numbers script) (hy : y ∈ numbers script) (hxy : x.2 < y.2) :
    (∃ row ∈ rows script, x ∈ row ∧ y ∈ row) ↔ NumbersIn script (x.2 + 1) y.2 := by
  constructor
  · rintro ⟨row, hrow, hx, hy⟩ l hl hly
    obtain ⟨t, ht⟩ :=
      exists_mem_row_of_between (isChain_of_mem_rows hrow) hx hy (by omega) (Nat.le_of_lt hly)
    exact ⟨t, mem_numbers.mp (mem_numbers_iff_exists_row.mpr ⟨row, hrow, ht⟩)⟩
  · intro h
    obtain ⟨row, hrow, hx⟩ := mem_numbers_iff_exists_row.mp hx
    exact ⟨row, hrow, hx, mem_row_of_numbersIn hrow hx (Nat.le_of_lt hxy) h hy⟩

theorem rows_concat_of_ne {ts : List Token} {z : Token × Nat}
    (h : numbers script = numbers ts ++ [z]) (hne : ∀ x ∈ numbers ts, z.2 ≠ x.2 + 1) :
    rows script = rows ts ++ [[z]] := by
  rw [rows, h, List.splitBy_append]
  · rfl
  · intro x hx y hy
    cases hy
    exact decide_eq_false (hne x (List.mem_of_getLast? hx))

theorem rows_concat_of_eq {ts : List Token} {front : List (Token × Nat)} {z : Token × Nat}
    (h : numbers script = numbers ts ++ [z]) (hfront : numbers ts = front ++ [x])
    (heq : z.2 = x.2 + 1) :
    ∃ init row, rows ts = init ++ [row] ∧ rows script = init ++ [row ++ [z]] := by
  have hne : rows ts ≠ [] := by simp [rows, hfront]
  obtain ⟨init, row, hrows⟩ := (List.eq_nil_or_concat' _).resolve_left hne
  obtain ⟨hflatten, hnil, hchain, hgaps⟩ := List.splitBy_eq_iff.mp hrows
  obtain ⟨row, last, rfl⟩ := (List.eq_nil_or_concat' row).resolve_left fun hrow => by
    simp [hrow] at hnil
  have hlast : last = x := by
    rw [hfront, List.flatten_concat, ← List.append_assoc, List.append_singleton_inj] at hflatten
    exact hflatten.2.symm
  refine ⟨init, row ++ [last], hrows, ?_⟩
  rw [rows, List.splitBy_eq_iff, h, hflatten]
  refine ⟨by simp, ?_, ?_, ?_⟩
  · simpa using hnil
  · intro m hm
    rcases List.mem_append.mp hm with hm | hm
    · exact hchain m (List.mem_append_left _ hm)
    · rw [List.mem_singleton.mp hm]
      refine (hchain _ (by simp)).append (List.isChain_singleton _) ?_
      simpa [hlast] using heq
  · rw [List.isChain_append] at hgaps ⊢
    refine ⟨hgaps.1, List.isChain_singleton _, fun m hm _ hrow => ?_⟩
    cases hrow
    obtain ⟨hm', hne, hgap⟩ := hgaps.2.2 m hm _ rfl
    refine ⟨hm', by simp, ?_⟩
    rw [List.head_append_of_ne_nil hne]
    exact hgap

end rows

/-! ## Runs of a program -/

def Program.runs (p : Program) : List Item := p.items.toList.filter Item.isRun

def RunsApart (items : List Item) : Prop := items.IsChain fun i j => i.head = .run → j.head ≠ .run

/-- A run holds the values of a row of numbers, and is where the first of them is. -/
structure Item.Holds (run : Item) (row : List (Token × Nat)) : Prop where
  values : List.Forall₂ (fun w x => Number.read x.1.text = .ok w) run.args row
  pos : row.head?.map (·.1.pos) = some run.pos

theorem Item.Holds.args_ne_nil {run : Item} {row : List (Token × Nat)} (h : run.Holds row) :
    run.args ≠ [] := by
  intro hnil
  have hvalues := h.values
  rw [hnil, List.forall₂_nil_left_iff] at hvalues
  cases hvalues ▸ h.pos

theorem Item.holds_first {t : Token} {w : Word} (hread : Number.read t.text = .ok w) (n : Nat) :
    ((Item.emptyRun t.pos).push w).Holds [(t, n)] where
  values := .cons hread .nil
  pos := rfl

theorem Item.Holds.push {run : Item} {row : List (Token × Nat)} (h : run.Holds row) {t : Token}
    {w : Word} (hread : Number.read t.text = .ok w) (n : Nat) :
    (run.push w).Holds (row ++ [(t, n)]) where
  values := List.rel_append h.values (.cons hread .nil)
  pos := by
    obtain ⟨first, tail, rfl⟩ := List.exists_cons_of_ne_nil (l := row) fun hnil => by
      cases hnil ▸ h.pos
    exact h.pos

namespace Reader

variable {t : Token} {r r' : Reader}

/-- What a token does to the items of a program and its runs of literals. -/
inductive Collects (t : Token) (r : Reader) : List Item → Prop
  | other {new : List Item} : ¬(r.pending = .nothing ∧ t.kind = .number) →
      (∀ i ∈ new, i.head ≠ .run) → Collects t r (r.program.items.toList ++ new)
  | first {w : Word} : r.pending = .nothing → t.kind = .number → Number.read t.text = .ok w →
      r.program.openRun? = none →
      Collects t r (r.program.items.toList ++ [(Item.emptyRun t.pos).push w])
  | next {w : Word} {front : List Item} {run : Item} : r.pending = .nothing → t.kind = .number →
      Number.read t.text = .ok w → r.program.items.toList = front ++ [run] → run.head = .run →
      Collects t r (front ++ [run.push w])

theorem Emits.head_ne_run {profile : Profile} {n n' : Nest} {new : List Item}
    (h : Emits profile t n n' new) : ∀ i ∈ new, i.head ≠ .run := by
  cases h with
  | label | opcode | call => simp [Item.label, Item.ofOpcode, Item.call]
  | block _ h => exact h.head_ne_run

theorem Step.collects (h : Step t r r') : Collects t r r'.program.items.toList := by
  cases h with
  | emit h => exact .other (fun h' => h.exists_last.1 h'.2) h.head_ne_run
  | firstLiteral hk hread hopen => exact .first rfl hk hread hopen
  | nextLiteral hk hread hitems hrun _ => exact .next rfl hk hread hitems hrun
  | @goto p hk | @sub p hk =>
    rw [← List.append_nil p.items.toList]
    exact .other (by simp [hk]) (by simp)
  | target => exact .other (by simp) (by simp [Item.jump])
  | declaration => exact .other (by simp) (by simp [Item.subroutine])

variable {profile : Profile} {script ts : List Token}

theorem Reads.reaches_end (h : Reads ts (.start profile) r) : Reaches profile ts ts.length r := by
  have hreaches := h.reaches (Nat.le_refl _)
  rw [List.take_length, h.after_eq] at hreaches
  exact hreaches

theorem Reaches.length_ne_succ (h : Reaches profile ts ts.length r)
    (hpending : r.pending = .nothing) (hopen : r.program.openRun? = none) : ∀ x ∈ numbers ts, ts.length ≠ x.2 + 1 := by
  intro x hx heq
  obtain ⟨⟨ht, hawaits⟩, hk⟩ := mem_numbers.mp hx
  have hlast : NumbersIn ts x.2 ts.length := by
    rw [heq, numbersIn_succ (Nat.le_refl _) ht]
    exact ⟨numbersIn_self, hawaits, hk⟩
  have hle := ((h.run hpending).2 x.2 (by omega)).mp hlast
  rw [Program.runLength_of_none hopen] at hle
  omega

theorem Reaches.exists_last_number (h : Reaches profile ts ts.length r)
    (hpending : r.pending = .nothing) (hopen : 0 < r.program.runLength) :
    ∃ front x, numbers ts = front ++ [x] ∧ x.2 + 1 = ts.length := by
  obtain ⟨hle, hrun⟩ := h.run hpending
  obtain ⟨t, ht⟩ := (hrun (ts.length - 1) (by omega)).mpr (by omega) (ts.length - 1) (by omega)
    (by omega)
  have hmem : (t, ts.length - 1) ∈ numbers ts := mem_numbers.mpr ht
  obtain ⟨front, x, hfront⟩ := (List.eq_nil_or_concat' _).resolve_left (List.ne_nil_of_mem hmem)
  refine ⟨front, x, hfront, ?_⟩
  have hlt : x.2 < ts.length := lt_of_mem_numbers (by simp [hfront])
  have hsorted := pairwise_numbers ts
  rw [hfront] at hmem hsorted
  rcases List.mem_append.mp hmem with hmem | hmem
  · have hlast := (List.pairwise_append.mp hsorted).2.2 _ hmem x (List.mem_singleton_self _)
    omega
  · rw [← List.mem_singleton.mp hmem]
    omega

theorem Reaches.holds_rows (h : Reaches profile ts ts.length r) (hstep : Step t r r')
    (hr : List.Forall₂ Item.Holds r.program.runs (rows ts)) :
    List.Forall₂ Item.Holds r'.program.runs (rows (ts ++ [t])) := by
  have hmode := h.pending_eq_nothing_iff
  rw [List.take_length] at hmode
  have hcollects := hstep.collects
  rw [Program.runs] at hr ⊢
  generalize r'.program.items.toList = items at hcollects
  cases hcollects with
  | @other new hnot hnew =>
    have hnone : new.filter Item.isRun = [] :=
      List.filter_eq_nil_iff.mpr fun i hi => by simpa [Item.isRun] using hnew i hi
    rw [hmode] at hnot
    rw [List.filter_append, hnone, List.append_nil, rows, numbers_concat, if_neg hnot,
      List.append_nil]
    exact hr
  | first hpending hk hread hopen =>
    have hnumbers := numbers_concat_of_number (hmode.mp hpending) hk
    rw [List.filter_append, rows_concat_of_ne hnumbers (h.length_ne_succ hpending hopen)]
    exact List.rel_append hr (.cons (Item.holds_first hread _) .nil)
  | @next w front run hpending hk hread hitems hrun =>
    have hnumbers := numbers_concat_of_number (hmode.mp hpending) hk
    have hfilter : ∀ i : Item, i.head = .run → [i].filter Item.isRun = [i] := by
      intro i hi
      simp [Item.isRun, hi]
    rw [hitems, List.filter_append, hfilter run hrun] at hr
    obtain ⟨init, row, hrows, hinit, hrow⟩ := forall₂_concat_left hr
    have hopen : 0 < r.program.runLength := by
      rw [Program.runLength_of_run hitems hrun]
      exact List.length_pos_iff.mpr hrow.args_ne_nil
    -- the number goes to the end of the last row, as its value goes to the end of the last run
    obtain ⟨_, x, hlast, hx⟩ := h.exists_last_number hpending hopen
    obtain ⟨init', row', hrows', hnew⟩ := rows_concat_of_eq hnumbers hlast hx.symm
    rw [hrows, List.append_singleton_inj] at hrows'
    obtain ⟨rfl, rfl⟩ := hrows'
    rw [List.filter_append, hfilter (run.push w) hrun, hnew]
    exact List.rel_append hinit (.cons (hrow.push hread _) .nil)

/-- **The runs of a program hold the rows of its script**, in their order. -/
theorem Reads.holds_rows (h : Reads script (.start profile) r) :
    List.Forall₂ Item.Holds r.program.runs (rows script) := by
  induction script using List.reverseRecOn generalizing r with
  | nil =>
    rw [reads_nil.mp h]
    exact .nil
  | append_singleton ts t ih =>
    obtain ⟨r₁, hts, ht⟩ := reads_append.mp h
    exact hts.reaches_end.holds_rows (reads_singleton.mp ht) (ih hts)

theorem Step.runsApart (h : Step t r r') (hr : RunsApart r.program.items.toList) :
    RunsApart r'.program.items.toList := by
  have hcollects := h.collects
  generalize r'.program.items.toList = items at hcollects
  cases hcollects with
  | other _ hnew =>
    refine hr.append ?_ fun _ _ j hj _ => hnew j (List.mem_of_head? hj)
    exact List.isChain_iff_getElem.mpr fun _ _ _ => hnew _ (List.getElem_mem _)
  | first _ _ _ hopen =>
    refine hr.append (List.isChain_singleton _) fun i hi j hj hrun => ?_
    obtain ⟨front, hitems⟩ := List.getLast?_eq_some_iff.mp hi
    rw [Program.openRun?_eq_some_iff.mpr ⟨hrun, front, hitems⟩] at hopen
    cases hopen
  | @next w front run _ _ _ hitems hrun =>
    rw [hitems, RunsApart, List.isChain_append] at hr
    refine hr.1.append (List.isChain_singleton _) fun i hi j hj => ?_
    cases hj
    exact hr.2.2 i hi run rfl

theorem Reads.runsApart (h : Reads script (.start profile) r) : RunsApart r.program.items.toList :=
  h.invariant (P := fun x => RunsApart x.program.items.toList) Step.runsApart .nil

end Reader

/-! ## Programs that are read -/

namespace Program

def Shares (p : Program) (script : List Token) (x y : Token × Nat) : Prop :=
  ∃ (n : Nat) (run : Item) (row : List (Token × Nat)),
    p.runs[n]? = some run ∧ (rows script)[n]? = some row ∧ x ∈ row ∧ y ∈ row

theorem shares_iff {p : Program} {script : List Token}
    (h : List.Forall₂ Item.Holds p.runs (rows script)) {x y : Token × Nat} :
    p.Shares script x y ↔ ∃ row ∈ rows script, x ∈ row ∧ y ∈ row := by
  constructor
  · rintro ⟨n, run, row, -, hrow, hx, hy⟩
    exact ⟨row, List.mem_of_getElem? hrow, hx, hy⟩
  · rintro ⟨row, hrow, hx, hy⟩
    obtain ⟨n, hn⟩ := List.getElem?_of_mem hrow
    have hlt : n < p.runs.length := h.length_eq ▸ (List.getElem?_eq_some_iff.mp hn).1
    exact ⟨n, p.runs[n], row, List.getElem?_eq_getElem hlt, hn, hx, hy⟩

theorem Draft.length_run {p : Program} (h : p.Draft) {run : Item} (hrun : run ∈ p.runs) :
    1 ≤ run.args.length ∧ run.args.length ≤ p.profile.longestRun := by
  obtain ⟨hmem, hhead⟩ := List.mem_filter.mp hrun
  cases h run hmem with
  | run hne hlimit =>
    exact ⟨List.length_pos_iff.mpr hne, Item.exceededLimit?_eq_none_iff.mp hlimit⟩
  | opcode | label | jump | jumpIfZero | subroutine | call => cases hhead

/-- How the runs of a program for a model hold the numbers of its script. -/
structure Accumulates (p : Program) (profile : Profile) (script : List Token) : Prop where
  /-- All numbers that are read for themselves are there, in the order of the script. -/
  values : List.Forall₂ (fun w x => Number.read x.1.text = .ok w) (p.runs.flatMap (·.args))
    (numbers script)
  /-- Each run holds one row of numbers, and is where the first of them is. -/
  runs : List.Forall₂ Item.Holds p.runs (rows script)
  /-- Two numbers share a run exactly if nothing but numbers stands between them. -/
  shared : ∀ x ∈ numbers script, ∀ y ∈ numbers script, x.2 < y.2 →
    (p.Shares script x y ↔ NumbersIn script (x.2 + 1) y.2)
  apart : RunsApart p.items.toList
  lengths : ∀ run ∈ p.runs, 1 ≤ run.args.length ∧ run.args.length ≤ profile.longestRun

end Program

/-- **Literals.** Reading a script loses and reorders no number. -/
theorem literals_accumulate {file source : String} {profile : Profile} {p : Program}
    (h : Program.read file source profile = .ok p) :
    p.Accumulates profile (Source.script file source) := by
  obtain ⟨q, hreads, -, hp⟩ := Program.reads_of_read h
  have hprofile : p.profile = profile := by
    rw [hp]
    exact hreads.frame.1
  have hitems : p.items = q.items := by rw [hp]
  have hholds : List.Forall₂ Item.Holds p.runs (rows (Source.script file source)) := by
    rw [Program.runs, hitems]
    exact hreads.holds_rows
  exact {
    values := by
      have hvalues := List.rel_flatMap hholds fun _ _ hrun => hrun.values
      rw [← flatten_rows, ← List.flatMap_id]
      exact hvalues
    runs := hholds
    shared := fun x hx y hy hxy => by rw [Program.shares_iff hholds, exists_row_iff hx hy hxy]
    apart := hitems ▸ hreads.runsApart
    lengths := fun run hrun => hprofile ▸ (Program.draft_of_read h).length_run hrun }

/-- A row goes on over the end of a line, and ends before a jump. The name after `GOTO` is no
number, whatever it looks like. -/
theorem literals_accumulate_lines :
    ∃ p, Program.read "script" "1 2\n3 goto 4 5 -6" .micro = .ok p ∧
      p.runs.map (·.args) = [[1, 2, 3], [5, 0xFFFA]] ∧
      p.Accumulates .micro (Source.script "script" "1 2\n3 goto 4 5 -6") := by
  obtain ⟨p, hp, hruns⟩ := exists_ok_of_any
    (x := Program.read "script" "1 2\n3 goto 4 5 -6" .micro)
    (q := fun p => p.runs.map (·.args) = [[1, 2, 3], [5, 0xFFFA]]) (by decide +kernel)
  exact ⟨p, hp, of_decide_eq_true hruns, literals_accumulate hp⟩

end ServoScript
