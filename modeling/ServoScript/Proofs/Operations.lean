import ServoScript.Proofs.Verdicts

/-!
# Operations in any order

A program can be written to and resolved in any order, and an operation that fails keeps what it has
done by then. `Triple` says what holds after an action in either case. What writing and each of the
passes keep holds after any operations (`Program.Invariant.performAll`).

One thing that they keep is that the tables follow the items: their names are those of the first
markers, in order (`Program.InOrder`). If a table has any name in it, the pass that fills it meets
that name first and refuses it (`Program.commands_eq_nil_of_declareSubroutines`,
`Program.labels_eq_nil_of_defineLabels`).
-/

namespace ServoScript

/-! ## Actions that may fail -/

section triples

variable {ε σ α β : Type} {P Q R E : σ → Prop}

/-- From a state with `P`, an action succeeds in one with `Q` or fails in one with `E`. -/
structure Triple (P : σ → Prop) (x : EStateM ε σ α) (Q E : σ → Prop) : Prop where
  ok : ∀ {s a s'}, P s → x.run s = .ok a s' → Q s'
  error : ∀ {s e s'}, P s → x.run s = .error e s' → E s'

/-- The state that an action leaves, whether it succeeds or fails. -/
def stateAfter (x : EStateM ε σ α) (s : σ) : σ :=
  match x.run s with
  | .ok _ s' | .error _ s' => s'

theorem Triple.stateAfter {x : EStateM ε σ α} (h : Triple P x Q Q) {s : σ} (hs : P s) :
    Q (stateAfter x s) := by
  unfold ServoScript.stateAfter
  cases hrun : x.run s with
  | ok a s' => exact h.ok hs hrun
  | error e s' => exact h.error hs hrun

theorem Triple.bind {x : EStateM ε σ α} {f : α → EStateM ε σ β} (hx : Triple P x Q E)
    (hf : ∀ a, Triple Q (f a) R E) : Triple P (x >>= f) R E where
  ok hs h := by
    obtain ⟨a, s₁, hrun, hrest⟩ := run_bind_eq_ok.mp h
    exact (hf a).ok (hx.ok hs hrun) hrest
  error hs h := by
    rcases run_bind_eq_error.mp h with hrun | ⟨a, s₁, hrun, hrest⟩
    · exact hx.error hs hrun
    · exact (hf a).error (hx.ok hs hrun) hrest

theorem Triple.modify {f : σ → σ} (h : ∀ s, P s → Q (f s)) :
    Triple P (modify f : EStateM ε σ PUnit) Q E where
  ok hs hrun := run_modify_eq_ok.mp hrun ▸ h _ hs
  error _ hrun := by cases hrun

theorem Triple.forM {f : α → EStateM ε σ PUnit} (h : ∀ a, Triple P (f a) P P) (as : List α) :
    Triple P (as.forM f) P P := by
  induction as with
  | nil => exact ⟨fun hs hrun => forM_nil_eq_ok.mp hrun ▸ hs, fun _ hrun => by cases hrun⟩
  | cons a as ih => exact (h a).bind fun _ => ih

end triples

/-! ## Tables of marks -/

section tables

variable {ε σ α : Type} {name? : α → Option String} {names : σ → List String}
  {f : α → EStateM ε σ PUnit} {as : List α} {s s' : σ} {u : PUnit} {e : ε}

theorem append_prefix_of_notMem {xs ys zs : List String} (hx : xs <+: zs) (hy : ys <+: zs)
    (h : ∀ y ∈ ys, y ∉ xs) : xs ++ ys <+: zs := by
  cases xs with
  | nil => exact hy
  | cons x xs =>
    cases ys with
    | nil => rwa [List.append_nil]
    | cons y ys =>
      -- both begin with the first name of the list
      obtain ⟨back, rfl⟩ := hx
      have hxy : y = x := (List.cons_prefix_cons.mp hy).1
      exact absurd (hxy ▸ List.mem_cons_self) (h y List.mem_cons_self)

/-- An action for each element enters the name of the element, if it has one, at the end of a table.
It fails if the name is there, and leaves the names as they are when it fails. -/
structure Tabulates (name? : α → Option String) (names : σ → List String)
    (f : α → EStateM ε σ PUnit) : Prop where
  ok : ∀ {a s s' u}, (f a).run s = .ok u s' →
    names s' = names s ++ (name? a).toList ∧ ∀ n ∈ (name? a).toList, n ∉ names s
  error : ∀ {a s s' e}, (f a).run s = .error e s' → names s' = names s

theorem Tabulates.forM_ok (h : Tabulates name? names f) (hrun : (as.forM f).run s = .ok u s') :
    names s' = names s ++ as.filterMap name? ∧ ∀ n ∈ as.filterMap name?, n ∉ names s := by
  induction as generalizing s with
  | nil =>
    rw [forM_nil_eq_ok] at hrun
    simp [hrun]
  | cons a as ih =>
    obtain ⟨s₁, ha, has⟩ := forM_cons_eq_ok.mp hrun
    obtain ⟨hnames₁, hnew₁⟩ := h.ok ha
    obtain ⟨hnames, hnew⟩ := ih has
    have hcons : (a :: as).filterMap name? = (name? a).toList ++ as.filterMap name? := by
      cases hname : name? a <;> simp [hname]
    rw [hcons, hnames, hnames₁, List.append_assoc]
    refine ⟨rfl, fun n hn hmem => ?_⟩
    rcases List.mem_append.mp hn with hn | hn
    · exact hnew₁ n hn hmem
    · exact hnew n hn (hnames₁ ▸ List.mem_append_left _ hmem)

theorem Tabulates.forM_error (h : Tabulates name? names f)
    (hrun : (as.forM f).run s = .error e s') :
    ∃ front, front <+: as.filterMap name? ∧ names s' = names s ++ front ∧
      ∀ n ∈ front, n ∉ names s := by
  obtain ⟨front, a, back, s₁, rfl, hfront, ha⟩ := forM_eq_error.mp hrun
  obtain ⟨hnames, hnew⟩ := h.forM_ok hfront
  refine ⟨front.filterMap name?, ?_, (h.error ha).trans hnames, hnew⟩
  rw [List.filterMap_append]
  exact List.prefix_append _ _

/-- A table that begins as the marks do cannot be filled again. -/
theorem Tabulates.eq_nil_of_ok (h : Tabulates name? names f)
    (hrun : (as.forM f).run s = .ok u s') (hs : names s <+: as.filterMap name?) :
    names s = [] := by
  obtain ⟨-, hnew⟩ := h.forM_ok hrun
  exact List.eq_nil_iff_forall_not_mem.mpr fun n hn => hnew n (hs.subset hn) hn

theorem Tabulates.triple_begins (h : Tabulates name? names f) (as : List α) :
    Triple (fun s => names s <+: as.filterMap name?) (as.forM f)
      (fun s => names s <+: as.filterMap name?) (fun s => names s <+: as.filterMap name?) where
  ok hs hrun := by
    obtain ⟨hnames, hnew⟩ := h.forM_ok hrun
    exact hnames ▸ append_prefix_of_notMem hs (List.prefix_refl _) hnew
  error hs hrun := by
    obtain ⟨front, hfront, hnames, hnew⟩ := h.forM_error hrun
    exact hnames ▸ append_prefix_of_notMem hs hfront hnew

theorem Tabulates.triple_ne_nil (h : Tabulates name? names f) (as : List α) :
    Triple (fun s => names s ≠ []) (as.forM f) (fun s => names s ≠ []) (fun s => names s ≠ []) where
  ok hs hrun := by
    rw [(h.forM_ok hrun).1]
    exact List.append_ne_nil_of_left_ne_nil hs _
  error hs hrun := by
    obtain ⟨front, -, hnames, -⟩ := h.forM_error hrun
    rw [hnames]
    exact List.append_ne_nil_of_left_ne_nil hs _

end tables

namespace Program

variable {p q : Program} {u : Unit} {d : Diag}

theorem declare_eq_error {profile : Profile} {i : Item} {s s' : Declarations}
    (h : (declare profile i).run s = .error d s') : s' = s := by
  obtain ⟨table, count⟩ := s
  rw [EStateM.run, declare] at h
  split at h
  · split_ifs at h
    · cases h
      rfl
    · split at h
      · cases h
        rfl
      · cases h
  · cases h

theorem tabulates_declare (profile : Profile) :
    Tabulates (fun i : Item => i.role.subroutine?) (fun s : Declarations => s.1.names)
      (declare profile) where
  ok {i s s' u} h := by
    rcases declare_eq_ok.mp h with ⟨hrole, rfl⟩ | ⟨name, hrole, hnew, -, rfl⟩
    · simp [hrole]
    · simp [hrole, Role.subroutine?, Symbols.names_insert, hnew]
  error h := by rw [declare_eq_error h]

theorem tabulates_defineLabel :
    Tabulates (fun x : Placed => x.item.role.label?) Symbols.names defineLabel where
  ok {x t t' u} h := by
    rcases defineLabel_eq_ok.mp h with ⟨hrole, rfl⟩ | ⟨name, hrole, hnew, rfl⟩
    · simp [hrole]
    · simp [hrole, Role.label?, Symbols.names_insert, hnew]
  error {x t t' d} h := by
    rw [EStateM.run, defineLabel] at h
    split at h
    · split at h
      · rename_i name _ _ first addr hfirst
        cases h
        rw [Symbols.names_insert, if_pos (Symbols.mem_names_of_get? hfirst)]
      · cases h
    · cases h

theorem filterMap_ofItems (name? : Role → Option String) (addr : Nat) (items : List Item) :
    (Placed.ofItems addr items).filterMap (fun x => name? x.item.role) = markNames name? items := by
  rw [← map_name_places name? addr, places, List.map_filterMap]
  congr 1
  funext x
  cases name? x.item.role <;> rfl

/-! ## Passes that fail -/

theorem amendFrom_eq_error {change : Item → Except Diag Item} {done out : Array Item}
    {items : List Item} (h : amendFrom change done items = .error d out) :
    ∃ changed, List.Forall₂ (fun i j => j = i ∨ change i = .ok j) items changed ∧
      out = (done.toList ++ changed).toArray := by
  induction items generalizing done with
  | nil => cases h
  | cons i rest ih =>
    rw [amendFrom] at h
    cases hi : change i with
    | ok j =>
      rw [hi] at h
      obtain ⟨changed, hrest, rfl⟩ := ih h
      exact ⟨j :: changed, .cons (.inr hi) hrest, by simp⟩
    | error d' =>
      rw [hi] at h
      cases h
      exact ⟨i :: rest, List.forall₂_same.mpr fun _ _ => .inl rfl, Array.ext' (by simp)⟩

theorem amend_eq_error {change : Item → Except Diag Item}
    (h : (amend change).run p = .error d q) :
    ∃ changed, List.Forall₂ (fun i j => j = i ∨ change i = .ok j) p.items.toList changed ∧
      q = { p with items := changed.toArray } := by
  rw [EStateM.run, amend] at h
  cases hrun : amendFrom change #[] p.items.toList with
  | ok u items =>
    rw [hrun] at h
    cases h
  | error d' items =>
    rw [hrun] at h
    cases h
    obtain ⟨changed, hall, rfl⟩ := amendFrom_eq_error hrun
    exact ⟨changed, hall, rfl⟩

/-- One program is another with its items changed, each as `R` allows. -/
def Amended (R : Item → Item → Prop) (p q : Program) : Prop :=
  ∃ items : Array Item, List.Forall₂ R p.items.toList items.toList ∧ q = { p with items }

/-- A pass over the items changes them as it changes one, and may stop before it comes to the
last. -/
theorem amended_amend {change : Item → Except Diag Item} {R : Item → Item → Prop} (p : Program)
    (hrefl : ∀ i, R i i) (h : ∀ i ∈ p.items.toList, ∀ j, change i = .ok j → R i j) :
    Triple (· = p) (amend change) (Amended R p) (Amended R p) where
  ok hs hrun := by
    subst hs
    obtain ⟨changed, hall, rfl⟩ := amend_eq_ok.mp hrun
    have hall := (List.forall₂_and_left _ _).mpr ⟨h, hall⟩
    exact ⟨changed.toArray, hall.imp fun i j ⟨hi, hij⟩ => hi j hij, rfl⟩
  error hs hrun := by
    subst hs
    obtain ⟨changed, hall, rfl⟩ := amend_eq_error hrun
    have hall := (List.forall₂_and_left _ _).mpr ⟨h, hall⟩
    refine ⟨changed.toArray, hall.imp fun i j ⟨hi, hij⟩ => ?_, rfl⟩
    rcases hij with rfl | hij
    · exact hrefl j
    · exact hi j hij

theorem amended_sameRole {change : Item → Except Diag Item}
    (h : ∀ {i j}, change i = .ok j → i.SameRole j) (p : Program) :
    Triple (· = p) (amend change) (Amended Item.SameRole p) (Amended Item.SameRole p) :=
  amended_amend p (fun _ => ⟨rfl, rfl⟩) fun _ _ _ => h

theorem declareSubroutines_eq_error (h : declareSubroutines.run p = .error d q) :
    ∃ commands n, (p.items.toList.forM (declare p.profile)).run (p.commands, 0) =
      .error d (commands, n) ∧ q = { p with commands } := by
  rw [EStateM.run, declareSubroutines] at h
  cases hrun : (p.items.toList.forM (declare p.profile)).run (p.commands, 0) with
  | ok u s =>
    rw [hrun] at h
    cases h
  | error d' s =>
    rw [hrun] at h
    cases h
    exact ⟨s.1, s.2, rfl, rfl⟩

theorem placeSubroutines_eq_error (h : placeSubroutines.run p = .error d q) : q = p := by
  rw [EStateM.run, placeSubroutines] at h
  split at h <;> cases h
  rfl

theorem defineLabels_eq_error (h : defineLabels.run p = .error d q) :
    q = p ∨ ∃ labels, ((Placed.ofItems 0 p.items.toList).forM defineLabel).run p.labels =
      .error d labels ∧ q = { p with labels } := by
  rw [EStateM.run, defineLabels] at h
  cases hlayout : p.checkedLayout with
  | error d' =>
    rw [hlayout] at h
    cases h
    exact .inl rfl
  | ok layout =>
    obtain ⟨-, rfl⟩ := checkedLayout_eq_ok_iff.mp hlayout
    simp only [hlayout, toList_layout] at h
    cases hrun : ((Placed.ofItems 0 p.items.toList).forM defineLabel).run p.labels with
    | ok u labels =>
      rw [hrun] at h
      cases h
    | error d' labels =>
      rw [hrun] at h
      cases h
      exact .inr ⟨labels, rfl, rfl⟩

/-! ## Tables in order -/

/-- The names in the tables are those of the first markers, in order. -/
structure InOrder (p : Program) : Prop where
  commands : p.commands.names <+: markNames Role.subroutine? p.items.toList
  labels : p.labels.names <+: markNames Role.label? p.items.toList

theorem commands_eq_nil_of_declareSubroutines (hp : p.InOrder)
    (h : declareSubroutines.run p = .ok u q) : p.commands.names = [] := by
  obtain ⟨commands, n, hrun, -⟩ := declareSubroutines_eq_ok.mp h
  exact (tabulates_declare p.profile).eq_nil_of_ok hrun hp.commands

theorem labels_eq_nil_of_defineLabels (hp : p.InOrder) (h : defineLabels.run p = .ok u q) :
    p.labels.names = [] := by
  obtain ⟨-, labels, hrun, -⟩ := defineLabels_eq_ok.mp h
  refine tabulates_defineLabel.eq_nil_of_ok hrun ?_
  rw [filterMap_ofItems]
  exact hp.labels

theorem inOrder_declareSubroutines : Triple InOrder declareSubroutines InOrder InOrder where
  ok {p} _ _ hp h := by
    obtain ⟨commands, n, hrun, rfl⟩ := declareSubroutines_eq_ok.mp h
    exact { hp with
      commands := ((tabulates_declare p.profile).triple_begins _).ok hp.commands hrun }
  error {p} _ _ hp h := by
    obtain ⟨commands, n, hrun, rfl⟩ := declareSubroutines_eq_error h
    exact { hp with
      commands := ((tabulates_declare p.profile).triple_begins _).error hp.commands hrun }

theorem inOrder_defineLabels : Triple InOrder defineLabels InOrder InOrder := by
  have hforM := fun items : List Item =>
    tabulates_defineLabel.triple_begins (Placed.ofItems 0 items)
  simp only [filterMap_ofItems] at hforM
  constructor
  · intro p _ q hp h
    obtain ⟨-, labels, hrun, rfl⟩ := defineLabels_eq_ok.mp h
    exact { hp with labels := (hforM _).ok hp.labels hrun }
  · intro p _ q hp h
    rcases defineLabels_eq_error h with rfl | ⟨labels, hrun, rfl⟩
    · exact hp
    · exact { hp with labels := (hforM _).error hp.labels hrun }

theorem InOrder.amended (h : p.InOrder) {items : Array Item}
    (hsame : List.Forall₂ Item.SameRole p.items.toList items.toList) :
    InOrder { p with items } where
  commands := markNames_sameRole _ hsame ▸ h.commands
  labels := markNames_sameRole _ hsame ▸ h.labels

theorem inOrder_amend {change : Item → Except Diag Item}
    (h : ∀ {i j}, change i = .ok j → i.SameRole j) :
    Triple InOrder (amend change) InOrder InOrder where
  ok hp hrun := by
    obtain ⟨items, hsame, rfl⟩ := (amended_sameRole h _).ok rfl hrun
    exact hp.amended hsame
  error hp hrun := by
    obtain ⟨items, hsame, rfl⟩ := (amended_sameRole h _).error rfl hrun
    exact hp.amended hsame

theorem sameRole_of_resolveCall {commands : Symbols Command} {i j : Item}
    (h : resolveCall commands i = .ok j) : i.SameRole j := by
  rcases resolveCall_eq_ok.mp h with ⟨-, rfl⟩ | ⟨name, c, -, -, -, rfl⟩ <;> exact ⟨rfl, rfl⟩

theorem sameRole_of_aimJump {labels : Symbols (Pos × Word)} {i j : Item}
    (h : aimJump labels i = .ok j) : i.SameRole j := by
  rcases aimJump_eq_ok.mp h with ⟨-, rfl⟩ | ⟨name, pos, addr, -, -, rfl⟩ <;> exact ⟨rfl, rfl⟩

theorem inOrder_resolveCalls : Triple InOrder resolveCalls InOrder InOrder where
  ok hp h := (inOrder_amend sameRole_of_resolveCall).ok hp h
  error hp h := (inOrder_amend sameRole_of_resolveCall).error hp h

theorem inOrder_aimJumps : Triple InOrder aimJumps InOrder InOrder where
  ok hp h := (inOrder_amend sameRole_of_aimJump).ok hp h
  error hp h := (inOrder_amend sameRole_of_aimJump).error hp h

theorem InOrder.completeLiterals (h : p.InOrder) : (completeLiterals p).InOrder :=
  h.amended (Fresh.settled_sameRole p)

theorem InOrder.passAddresses (h : p.InOrder) : (passAddresses p).InOrder := by
  refine h.amended ?_
  rw [Array.toList_map, List.forall₂_map_right_iff, List.forall₂_same]
  intro i _
  obtain ⟨hrole, hpos, -⟩ := passAddress_sameMark p.addresses i
  exact ⟨hrole, hpos⟩

/-! ## Writing -/

/-- What the operations other than the passes do: they put new items at the end of the program, or a
new value into the run there. -/
inductive Writes (Allowed : Item → Prop) (p : Program) : Program → Prop
  | items {nest : Nest} {new : List Item} : (∀ i ∈ new, Allowed i) →
      Writes Allowed p (p.grow nest new)
  | value {front : List Item} {run : Item} (w : Word) : p.items.toList = front ++ [run] →
      run.head = .run → Writes Allowed p { p with items := (front ++ [run.push w]).toArray }

theorem Writes.mono {Allowed Allowed' : Item → Prop} (h : ∀ i, Allowed i → Allowed' i)
    (hq : p.Writes Allowed q) : p.Writes Allowed' q := by
  cases hq with
  | items hnew => exact .items fun i hi => h i (hnew i hi)
  | value w hitems hrun => exact .value w hitems hrun

theorem writes_push {Allowed : Item → Prop} (p : Program) {i : Item} (hi : Allowed i) :
    p.Writes Allowed (p.push i) :=
  push_eq_grow p i ▸ .items (List.forall_mem_singleton.mpr hi)

theorem writes_openBlock (p : Program) (kind : BlockKind) (pos : Pos) :
    p.Writes Item.Fresh (p.openBlock kind pos) :=
  openBlock_eq_grow p kind pos ▸ .items (List.forall_mem_singleton.mpr .label)

theorem writes_closeBlock (p : Program) (pos : Pos) : p.Writes Item.Fresh (p.closeBlock pos) := by
  cases hblocks : p.nest.blocks with
  | nil =>
    have hnone : p.nest.innermost? = none := by rw [Nest.innermost?, hblocks, List.head?_nil]
    have hsame : p.closeBlock pos = p.grow p.nest [] := by simp [closeBlock, hnone, grow]
    exact hsame ▸ .items (List.forall_mem_nil _)
  | cons b bs =>
    rw [closeBlock_eq_grow hblocks]
    exact .items (List.forall_mem_singleton.mpr .label)

theorem writes_addLiteral (p : Program) (w : Word) (pos : Pos) :
    Triple (· = p) (addLiteral w pos) (p.Writes Item.Fresh) (p.Writes Item.Fresh) where
  ok hs h := by
    subst hs
    rcases addLiteral_eq_ok.mp h with ⟨-, rfl⟩ | ⟨front, run, hitems, hrun, -, rfl⟩
    · exact .items (List.forall_mem_singleton.mpr .code)
    · exact .value w hitems hrun
  error hs h := by
    subst hs
    obtain ⟨front, run, limit, hitems, hrun, -, -, rfl⟩ := addLiteral_eq_error h
    exact .value w hitems hrun

theorem InOrder.writes {Allowed : Item → Prop} (hp : p.InOrder) (h : p.Writes Allowed q) :
    q.InOrder := by
  cases h with
  | @items nest new hnew =>
    have hgrow : ∀ name? : Role → Option String,
        markNames name? p.items.toList <+: markNames name? (p.grow nest new).items.toList := by
      intro name?
      rw [toList_items_grow, markNames_append]
      exact List.prefix_append _ _
    exact ⟨hp.commands.trans (hgrow _), hp.labels.trans (hgrow _)⟩
  | @value front run w hitems hrun =>
    have hfront : List.Forall₂ Item.SameRole front front :=
      List.forall₂_same.mpr fun _ _ => ⟨rfl, rfl⟩
    refine hp.amended ?_
    rw [hitems]
    exact List.rel_append hfront (.cons ⟨rfl, rfl⟩ .nil)

end Program

/-! ## Sequences of operations -/

inductive Operation where
  | push (i : Item)
  | addLiteral (w : Word) (pos : Pos)
  | openBlock (kind : BlockKind) (pos : Pos)
  | closeBlock (pos : Pos)
  | completeLiterals
  | completeCalls
  | completeJumps
  | complete

def Operation.action : Operation → Program.Action Unit
  | .push i => modify (·.push i)
  | .addLiteral w pos => Program.addLiteral w pos
  | .openBlock kind pos => modify (·.openBlock kind pos)
  | .closeBlock pos => modify (·.closeBlock pos)
  | .completeLiterals => modify Program.completeLiterals
  | .completeCalls => Program.completeCalls
  | .completeJumps => Program.completeJumps
  | .complete => Program.complete

namespace Program

/-- The program after an operation, whether that succeeds or fails. -/
def perform (p : Program) (op : Operation) : Program := stateAfter op.action p

/-- The program after some operations, each done whatever became of those before it. -/
def performAll (p : Program) (ops : List Operation) : Program := ops.foldl perform p

/-- What every operation keeps, if only items with `Allowed` are pushed. -/
structure Invariant (Allowed : Item → Prop) (P : Program → Prop) : Prop where
  writes : ∀ {p q}, P p → p.Writes Allowed q → P q
  literals : ∀ p, P p → P (completeLiterals p)
  calls : Triple P completeCalls P P
  jumps : Triple P completeJumps P P

variable {Allowed : Item → Prop} {P : Program → Prop}

theorem Invariant.perform (h : Invariant Allowed P) (hfresh : ∀ i, i.Fresh → Allowed i)
    {p : Program} (hp : P p) {op : Operation} (hop : ∀ i, op = .push i → Allowed i) :
    P (p.perform op) := by
  have hwrites : ∀ q, p.Writes Item.Fresh q → P q := fun q hq => h.writes hp (hq.mono hfresh)
  cases op with
  | push i => exact h.writes hp (p.writes_push (hop i rfl))
  | addLiteral w pos => exact hwrites _ ((p.writes_addLiteral w pos).stateAfter rfl)
  | openBlock kind pos => exact hwrites _ (p.writes_openBlock kind pos)
  | closeBlock pos => exact hwrites _ (p.writes_closeBlock pos)
  | completeLiterals => exact h.literals p hp
  | completeCalls => exact h.calls.stateAfter hp
  | completeJumps => exact h.jumps.stateAfter hp
  | complete =>
    have hall : Triple P Program.complete P P :=
      (Triple.modify h.literals).bind fun _ => h.calls.bind fun _ => h.jumps
    exact hall.stateAfter hp

theorem Invariant.performAll (h : Invariant Allowed P) (hfresh : ∀ i, i.Fresh → Allowed i)
    {p : Program} (hp : P p) {ops : List Operation} (hops : ∀ i, .push i ∈ ops → Allowed i) :
    P (p.performAll ops) := by
  induction ops generalizing p with
  | nil => exact hp
  | cons op ops ih =>
    refine ih (h.perform hfresh hp fun i hi => hops i ?_) fun i hi => hops i ?_
    · exact hi ▸ List.mem_cons_self
    · exact List.mem_cons_of_mem _ hi

end Program

end ServoScript
