import Mathlib.Logic.Function.Basic
import Mathlib.Tactic.SplitIfs
import ServoScript.Proofs.Passes

/-!
# Names and positions do not matter

Names of labels, names of subroutines, positions and source lines are carried through the resolution
of a program, and nothing else depends on them than which names are equal. So resolving a program
whose names and positions have been changed gives the changed result of resolving the program itself
(`Program.complete_rename`), whether it succeeds or fails, and the image stays the same
(`Program.image_rename`).
-/

namespace ServoScript

/-! ## Actions on changed states -/

section carry

variable {ε ε' σ σ' α β : Type} {f : ε → ε'} {g : σ → σ'}

/-- The result of an action with its complaint and its state changed. -/
def carry (f : ε → ε') (g : σ → σ') : EStateM.Result ε σ α → EStateM.Result ε' σ' α
  | .ok a s => .ok a (g s)
  | .error e s => .error (f e) (g s)

theorem carry_carry {ε'' σ'' : Type} {f' : ε' → ε''} {g' : σ' → σ''}
    (x : EStateM.Result ε σ α) : carry f' g' (carry f g x) = carry (f' ∘ f) (g' ∘ g) x := by
  cases x <;> rfl

theorem run_bind_carry {x : EStateM ε σ α} {k : α → EStateM ε σ β} {y : EStateM ε' σ' α}
    {l : α → EStateM ε' σ' β} {s : σ} (hx : y.run (g s) = carry f g (x.run s))
    (hk : ∀ a s₁, x.run s = .ok a s₁ → (l a).run (g s₁) = carry f g ((k a).run s₁)) :
    (y >>= l).run (g s) = carry f g ((x >>= k).run s) := by
  change EStateM.bind y l (g s) = carry f g (EStateM.bind x k s)
  change y (g s) = carry f g (x s) at hx
  rw [EStateM.bind, EStateM.bind, hx]
  cases h : x s with
  | ok a s₁ => exact hk a s₁ h
  | error e s₁ => rfl

theorem forM_carry {h : α → β} {x : α → EStateM ε σ PUnit} {y : β → EStateM ε' σ' PUnit}
    (hxy : ∀ a s, (y (h a)).run (g s) = carry f g ((x a).run s)) (as : List α) (s : σ) :
    ((as.map h).forM y).run (g s) = carry f g ((as.forM x).run s) := by
  induction as generalizing s with
  | nil => rfl
  | cons a as ih => exact run_bind_carry (hxy a s) fun _ s₁ _ => ih s₁

end carry

/-! ## Renamings -/

/-- A change of the names and positions in a program, and of the source lines that it keeps. -/
structure Renaming where
  label : String → String
  subroutine : String → String
  pos : Pos → Pos
  lines : Array String → Array String
  label_injective : Function.Injective label
  subroutine_injective : Function.Injective subroutine

namespace Symbols

variable {α β : Type} {f : String → String} {g : α → β}

def map (f : String → String) (g : α → β) (t : Symbols α) : Symbols β :=
  ⟨t.entries.map fun e => (f e.1, g e.2)⟩

theorem get?_map (hf : Function.Injective f) (t : Symbols α) (name : String) :
    (t.map f g).get? (f name) = (t.get? name).map g := by
  obtain ⟨entries⟩ := t
  change (entries.map _).lookup (f name) = (entries.lookup name).map g
  induction entries with
  | nil => rfl
  | cons e rest ih =>
    obtain ⟨key, value⟩ := e
    rw [List.map_cons, List.lookup_cons, List.lookup_cons, ih]
    by_cases h : name = key
    · simp [h]
    · have hne : f name ≠ f key := hf.ne h
      simp [beq_eq_false_iff_ne.mpr h, beq_eq_false_iff_ne.mpr hne]

theorem contains_map (hf : Function.Injective f) (t : Symbols α) (name : String) :
    (t.map f g).contains (f name) = t.contains name := by
  rw [contains, get?_map hf, Option.isSome_map, contains]

theorem insert_map (hf : Function.Injective f) (t : Symbols α) (name : String) (value : α) :
    (t.map f g).insert (f name) (g value) = (t.insert name value).map f g := by
  obtain ⟨entries⟩ := t
  refine congrArg Symbols.mk ?_
  change enter (f name) (g value) (entries.map _) = (enter name value entries).map _
  induction entries with
  | nil => rfl
  | cons e rest ih =>
    rw [List.map_cons, enter, enter, ih]
    simp only [hf.eq_iff]
    split <;> rfl

end Symbols

section rename

variable (ρ : Renaming)

def Role.rename : Role → Role
  | .code => .code
  | .label name => .label (ρ.label name)
  | .jump name => .jump (ρ.label name)
  | .subroutine name => .subroutine (ρ.subroutine name)
  | .call name => .call (ρ.subroutine name)

def Item.rename (i : Item) : Item := { i with role := i.role.rename ρ, pos := ρ.pos i.pos }

def Block.rename (b : Block) : Block := { b with pos := ρ.pos b.pos }

def Nest.rename (n : Nest) : Nest := { n with blocks := n.blocks.map (·.rename ρ) }

def Placed.rename (x : Placed) : Placed := { x with item := x.item.rename ρ }

def Fault.rename : Fault → Fault
  | .labelAlreadyUsed name first => .labelAlreadyUsed (ρ.label name) (ρ.pos first)
  | .labelNotFound name => .labelNotFound (ρ.label name)
  | .notUnderstood name => .notUnderstood (ρ.subroutine name)
  | .subroutineRedefined name => .subroutineRedefined (ρ.subroutine name)
  | fault => fault

def Diag.rename (d : Diag) : Diag := ⟨ρ.pos d.pos, d.fault.rename ρ⟩

namespace Program

def renameLabels (labels : Symbols (Pos × Word)) : Symbols (Pos × Word) :=
  labels.map ρ.label fun e => (ρ.pos e.1, e.2)

def rename (p : Program) : Program where
  profile := p.profile
  lines := ρ.lines p.lines
  items := p.items.map (·.rename ρ)
  nest := p.nest.rename ρ
  labels := renameLabels ρ p.labels
  commands := p.commands.map ρ.subroutine id
  addresses := p.addresses.map ρ.subroutine id

end Program

/-! ## Items and their layout -/

namespace Item

@[simp]
theorem command?_rename (i : Item) : (i.rename ρ).command? = i.command? := rfl

@[simp]
theorem bytes_rename (i : Item) : (i.rename ρ).bytes = i.bytes := by
  obtain ⟨role, head, args, pos⟩ := i
  cases role <;> rfl

@[simp]
theorem size_rename (i : Item) : (i.rename ρ).size = i.size := by
  rw [size, bytes_rename, size]

theorem settle_rename (i : Item) : (i.rename ρ).settle = i.settle.rename ρ := by
  obtain ⟨role, head, args, pos⟩ := i
  cases head <;> rfl

end Item

theorem Placed.ofItems_rename (addr : Nat) (items : List Item) :
    ofItems addr (items.map (·.rename ρ)) = (ofItems addr items).map (·.rename ρ) := by
  induction items generalizing addr with
  | nil => rfl
  | cons i rest ih =>
    rw [List.map_cons, ofItems_cons, ofItems_cons, List.map_cons, Item.size_rename, ih]
    rfl

namespace Program

variable (p : Program)

@[simp]
theorem toList_items_rename : (p.rename ρ).items.toList = p.items.toList.map (·.rename ρ) := by
  rw [rename, Array.toList_map]

theorem image_rename : (p.rename ρ).image = p.image := by
  rw [image, toList_items_rename, List.flatMap_map]
  simp only [Item.bytes_rename, image]

theorem layout_rename : (p.rename ρ).layout = p.layout.map (·.rename ρ) := by
  apply Array.toList_inj.mp
  rw [toList_layout, toList_items_rename, Placed.ofItems_rename, Array.toList_map, toList_layout]

theorem checkedLayout_rename : (p.rename ρ).checkedLayout =
    (p.checkedLayout.map (·.map (·.rename ρ))).mapError (·.rename ρ) := by
  have hfind : (p.rename ρ).layout.find? (65535 < ·.addr) =
      (p.layout.find? (65535 < ·.addr)).map (·.rename ρ) := by
    rw [layout_rename, Array.find?_map]
    rfl
  unfold checkedLayout
  dsimp only
  rw [hfind, layout_rename]
  cases p.layout.find? (65535 < ·.addr) <;> rfl

/-! ## Tables of a renamed program -/

theorem labelAddress?_rename (name : String) :
    (p.rename ρ).labelAddress? (ρ.label name) = p.labelAddress? name := by
  rw [labelAddress?, rename, renameLabels, Symbols.get?_map ρ.label_injective, Option.map_map]
  rfl

theorem addressOf_rename (name : String) :
    (p.rename ρ).addressOf (ρ.subroutine name) = p.addressOf name := by
  rw [addressOf, rename, Symbols.get?_map ρ.subroutine_injective, Option.map_id_apply]
  rfl

theorem slots_rename : (p.rename ρ).slots = p.slots := by
  have hstep : ∀ (table : Vector Word 128) (e : String × Command),
      (p.rename ρ).enterSlot table (ρ.subroutine e.1, id e.2) = p.enterSlot table e := by
    intro table e
    obtain ⟨name, c⟩ := e
    cases c with
    | op => rfl
    | sub slot =>
      change table.set slot ((p.rename ρ).addressOf (ρ.subroutine name)) = _
      rw [addressOf_rename]
      rfl
  change ((p.commands.map ρ.subroutine id).entries).foldl _ _ = _
  rw [Symbols.map, List.foldl_map]
  simp only [hstep, slots]

theorem checksum_rename : (p.rename ρ).checksum = p.checksum := by
  rw [checksum, slots_rename, image_rename, checksum]

end Program

end rename

/-! ## The passes -/

namespace Program

variable (ρ : Renaming)

theorem amendFrom_rename {change change' : Item → Except Diag Item}
    (h : ∀ i, change' (i.rename ρ) = ((change i).map (·.rename ρ)).mapError (·.rename ρ))
    (items : List Item) (done : Array Item) :
    amendFrom change' (done.map (·.rename ρ)) (items.map (·.rename ρ)) =
      carry (·.rename ρ) (·.map (·.rename ρ)) (amendFrom change done items) := by
  induction items generalizing done with
  | nil => rfl
  | cons i rest ih =>
    rw [List.map_cons, amendFrom, amendFrom, h i]
    cases change i with
    | ok j =>
      change amendFrom change' ((done.map _).push (j.rename ρ)) _ = _
      rw [← Array.map_push]
      exact ih _
    | error d =>
      refine congrArg (EStateM.Result.error (d.rename ρ)) ?_
      apply Array.toList_inj.mp
      simp

theorem run_amend (change : Item → Except Diag Item) (p : Program) : (amend change).run p =
    carry id (fun items => { p with items }) (amendFrom change #[] p.items.toList) := by
  rw [EStateM.run, amend]
  cases amendFrom change #[] p.items.toList <;> rfl

theorem amend_rename {change change' : Item → Except Diag Item} (p : Program)
    (h : ∀ i, change' (i.rename ρ) = ((change i).map (·.rename ρ)).mapError (·.rename ρ)) :
    (amend change').run (p.rename ρ) = carry (·.rename ρ) (·.rename ρ) ((amend change).run p) := by
  have hitems := amendFrom_rename ρ h p.items.toList #[]
  rw [← toList_items_rename, Array.map_empty] at hitems
  rw [run_amend, run_amend, hitems, carry_carry, carry_carry]
  rfl

theorem completeLiterals_rename (p : Program) :
    completeLiterals (p.rename ρ) = (completeLiterals p).rename ρ := by
  have hitems : (p.items.map (·.rename ρ)).map Item.settle =
      (p.items.map Item.settle).map (·.rename ρ) := by
    rw [Array.map_map, Array.map_map]
    exact congrArg (p.items.map ·) (funext fun i => i.settle_rename ρ)
  rw [completeLiterals, completeLiterals, rename, hitems]
  rfl

/-! ### Calls -/

def renameDeclarations (s : Declarations) : Declarations := (s.1.map ρ.subroutine id, s.2)

theorem declare_rename (profile : Profile) (i : Item) (s : Declarations) :
    (declare profile (i.rename ρ)).run (renameDeclarations ρ s) =
      carry (·.rename ρ) (renameDeclarations ρ) ((declare profile i).run s) := by
  obtain ⟨role, head, args, pos⟩ := i
  obtain ⟨table, count⟩ := s
  cases role with
  | subroutine name =>
    have hinsert : ∀ c : Command, (table.map ρ.subroutine id).insert (ρ.subroutine name) c =
        (table.insert name c).map ρ.subroutine id :=
      fun c => Symbols.insert_map ρ.subroutine_injective table name c
    simp only [EStateM.run, declare, Item.rename, Role.rename, renameDeclarations,
      Symbols.contains_map ρ.subroutine_injective, hinsert]
    split_ifs
    · rfl
    · rfl
    · cases profile.subroutineLimit? <;> rfl
  | code | label | jump | call => rfl

theorem run_declareSubroutines (p : Program) : declareSubroutines.run p =
    carry id (fun s => { p with commands := s.1 })
      ((p.items.toList.forM (declare p.profile)).run (p.commands, 0)) := by
  rw [EStateM.run, declareSubroutines]
  cases (p.items.toList.forM (declare p.profile)).run (p.commands, 0) <;> rfl

theorem declareSubroutines_rename (p : Program) : declareSubroutines.run (p.rename ρ) =
    carry (·.rename ρ) (·.rename ρ) (declareSubroutines.run p) := by
  have hall := forM_carry (declare_rename ρ p.profile) p.items.toList (p.commands, 0)
  rw [← toList_items_rename] at hall
  rw [run_declareSubroutines, run_declareSubroutines, carry_carry]
  refine (congrArg (carry id _) hall).trans ?_
  rw [carry_carry]
  rfl

theorem resolveCall_rename (commands : Symbols Command) (i : Item) :
    resolveCall (commands.map ρ.subroutine id) (i.rename ρ) =
      ((resolveCall commands i).map (·.rename ρ)).mapError (·.rename ρ) := by
  obtain ⟨role, head, args, pos⟩ := i
  cases role with
  | call name =>
    simp only [resolveCall, Item.rename, Role.rename, Symbols.get?_map ρ.subroutine_injective]
    cases commands.get? name with
    | none => rfl
    | some c => cases head <;> rfl
  | code | label | jump | subroutine => rfl

theorem resolveCalls_rename (p : Program) : resolveCalls.run (p.rename ρ) =
    carry (·.rename ρ) (·.rename ρ) (resolveCalls.run p) :=
  amend_rename ρ p (resolveCall_rename ρ p.commands)

theorem enterAddress_rename (table : Symbols Word) (x : Placed) :
    enterAddress (table.map ρ.subroutine id) (x.rename ρ) =
      (enterAddress table x).map ρ.subroutine id := by
  obtain ⟨addr, role, head, args, pos⟩ := x
  cases role with
  | subroutine name =>
    exact Symbols.insert_map (g := id) ρ.subroutine_injective table name (UInt16.ofNat addr)
  | code | label | jump | call => rfl

theorem foldl_enterAddress_rename (layout : Array Placed) (table : Symbols Word) :
    (layout.map (·.rename ρ)).foldl enterAddress (table.map ρ.subroutine id) =
      (layout.foldl enterAddress table).map ρ.subroutine id := by
  rw [← Array.foldl_toList, ← Array.foldl_toList, Array.toList_map]
  induction layout.toList generalizing table with
  | nil => rfl
  | cons x rest ih => rw [List.map_cons, List.foldl_cons, enterAddress_rename, ih, List.foldl_cons]

theorem placeSubroutines_rename (p : Program) : placeSubroutines.run (p.rename ρ) =
    carry (·.rename ρ) (·.rename ρ) (placeSubroutines.run p) := by
  rw [EStateM.run, placeSubroutines, EStateM.run, placeSubroutines, checkedLayout_rename]
  cases p.checkedLayout with
  | error d => rfl
  | ok layout =>
    exact congrArg (fun addresses => EStateM.Result.ok () { p.rename ρ with addresses })
      (foldl_enterAddress_rename ρ layout p.addresses)

/-- The general call is not the command of anything that a label is the name of. -/
def Tidy (p : Program) : Prop :=
  ∀ i ∈ p.items.toList, ∀ name, i.role = .label name ∨ i.role = .jump name →
    i.command? ≠ some (.op .call)

theorem Tidy.completeLiterals {p : Program} (h : p.Tidy) : (completeLiterals p).Tidy := by
  intro i hi name hrole
  rw [Program.completeLiterals, Array.toList_map] at hi
  obtain ⟨j, hj, rfl⟩ := List.mem_map.mp hi
  have hsame : j.settle.role = j.role ∧ j.settle.command? = j.command? := by
    obtain ⟨role, head, args, pos⟩ := j
    cases head <;> exact ⟨rfl, rfl⟩
  rw [hsame.1] at hrole
  rw [hsame.2]
  exact h j hj name hrole

theorem Tidy.resolveCalls {p q : Program} {u : Unit} (h : p.Tidy)
    (hq : resolveCalls.run p = .ok u q) : q.Tidy := by
  obtain ⟨called, hcalled, rfl⟩ := amend_eq_ok.mp hq
  intro i hi name hrole
  obtain ⟨j, hj, hji⟩ := exists_of_forall₂ hcalled i hi
  rcases resolveCall_eq_ok.mp hji with ⟨-, rfl⟩ | ⟨other, c, hcall, -, -, rfl⟩
  · exact h _ hj name hrole
  · rcases hrole with hrole | hrole <;> cases hcall.symm.trans hrole

theorem passAddress_rename (addresses : Symbols Word) {i : Item}
    (h : ∀ name, i.role = .label name ∨ i.role = .jump name → i.command? ≠ some (.op .call)) :
    passAddress (addresses.map ρ.subroutine id) (i.rename ρ) =
      (passAddress addresses i).rename ρ := by
  by_cases hcall : i.command? = some (.op .call)
  · obtain ⟨role, head, args, pos⟩ := i
    rw [passAddress, passAddress, Item.command?_rename, if_pos hcall, if_pos hcall]
    cases role with
    | code => rfl
    | label name => exact absurd hcall (h name (.inl rfl))
    | jump name => exact absurd hcall (h name (.inr rfl))
    | subroutine name | call name =>
      simp only [Item.rename, Role.rename, Role.name?, Option.bind_some,
        Symbols.get?_map ρ.subroutine_injective]
      cases addresses.get? name <;> rfl
  · rw [passAddress, passAddress, Item.command?_rename, if_neg hcall, if_neg hcall]

theorem passAddresses_rename {p : Program} (h : p.Tidy) :
    passAddresses (p.rename ρ) = (passAddresses p).rename ρ := by
  have hitems : (p.rename ρ).items.map (passAddress (p.rename ρ).addresses) =
      (p.items.map (passAddress p.addresses)).map (·.rename ρ) := by
    apply Array.toList_inj.mp
    rw [Array.toList_map, toList_items_rename, Array.toList_map, Array.toList_map, List.map_map,
      List.map_map]
    exact List.map_congr_left fun i hi => passAddress_rename ρ p.addresses (h i hi)
  rw [passAddresses, hitems]
  rfl

theorem completeCalls_rename {p : Program} (h : p.Tidy) : completeCalls.run (p.rename ρ) =
    carry (·.rename ρ) (·.rename ρ) (completeCalls.run p) := by
  refine run_bind_carry (declareSubroutines_rename ρ p) fun _ p₁ h₁ => ?_
  refine run_bind_carry (resolveCalls_rename ρ p₁) fun _ p₂ h₂ => ?_
  refine run_bind_carry (placeSubroutines_rename ρ p₂) fun _ p₃ h₃ => ?_
  obtain ⟨commands, n, -, rfl⟩ := declareSubroutines_eq_ok.mp h₁
  have htidy : p₂.Tidy := Tidy.resolveCalls (p := { p with commands }) h h₂
  obtain ⟨-, rfl⟩ := placeSubroutines_eq_ok.mp h₃
  exact congrArg (EStateM.Result.ok ())
    (passAddresses_rename ρ (p := { p₂ with addresses := _ }) htidy)

/-! ### Jumps -/

theorem defineLabel_rename (x : Placed) (labels : Symbols (Pos × Word)) :
    (defineLabel (x.rename ρ)).run (renameLabels ρ labels) =
      carry (·.rename ρ) (renameLabels ρ) ((defineLabel x).run labels) := by
  obtain ⟨addr, role, head, args, pos⟩ := x
  cases role with
  | label name =>
    have hinsert := Symbols.insert_map (g := fun e : Pos × Word => (ρ.pos e.1, e.2))
      ρ.label_injective labels name (pos, UInt16.ofNat addr)
    simp only [EStateM.run, defineLabel, Placed.rename, Item.rename, Role.rename, renameLabels,
      Symbols.get?_map ρ.label_injective, hinsert]
    cases labels.get? name <;> rfl
  | code | jump | subroutine | call => rfl

theorem run_defineLabels (p : Program) : defineLabels.run p =
    match p.checkedLayout with
    | .error d => .error d p
    | .ok layout =>
      carry id (fun labels => { p with labels }) ((layout.toList.forM defineLabel).run p.labels) := by
  rw [EStateM.run, defineLabels]
  cases p.checkedLayout with
  | error d => rfl
  | ok layout =>
    dsimp only
    cases (layout.toList.forM defineLabel).run p.labels <;> rfl

theorem defineLabels_rename (p : Program) : defineLabels.run (p.rename ρ) =
    carry (·.rename ρ) (·.rename ρ) (defineLabels.run p) := by
  rw [run_defineLabels, run_defineLabels, checkedLayout_rename]
  cases p.checkedLayout with
  | error d => rfl
  | ok layout =>
    have hall := forM_carry (defineLabel_rename ρ) layout.toList p.labels
    rw [← Array.toList_map] at hall
    refine (congrArg (carry id _) hall).trans ?_
    dsimp only
    rw [carry_carry, carry_carry]
    rfl

theorem aimJump_rename (labels : Symbols (Pos × Word)) (i : Item) :
    aimJump (renameLabels ρ labels) (i.rename ρ) =
      ((aimJump labels i).map (·.rename ρ)).mapError (·.rename ρ) := by
  obtain ⟨role, head, args, pos⟩ := i
  cases role with
  | jump name =>
    simp only [aimJump, Item.rename, Role.rename, renameLabels,
      Symbols.get?_map ρ.label_injective]
    cases labels.get? name <;> rfl
  | code | label | subroutine | call => rfl

theorem completeJumps_rename (p : Program) : completeJumps.run (p.rename ρ) =
    carry (·.rename ρ) (·.rename ρ) (completeJumps.run p) := by
  refine run_bind_carry (defineLabels_rename ρ p) fun _ p₁ _ => ?_
  exact amend_rename ρ p₁ (aimJump_rename ρ p₁.labels)

/-- **Resolution does not depend on names and positions.** -/
theorem complete_rename {p : Program} (h : p.Tidy) : complete.run (p.rename ρ) =
    carry (·.rename ρ) (·.rename ρ) (complete.run p) := by
  refine run_bind_carry (congrArg (EStateM.Result.ok ()) (completeLiterals_rename ρ p)) ?_
  intro _ p₁ h₁
  rw [run_modify_eq_ok] at h₁
  subst h₁
  refine run_bind_carry (completeCalls_rename ρ h.completeLiterals) fun _ p₂ _ => ?_
  exact completeJumps_rename ρ p₂

end Program

end ServoScript
