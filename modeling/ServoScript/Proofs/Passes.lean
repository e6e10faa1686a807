import Mathlib.Data.List.Nodup
import ServoScript.Proofs.Basic
import ServoScript.Proofs.Placement
import ServoScript.Resolution

/-!
# The passes one by one

What each pass of the resolution does when it succeeds. A pass over the items changes them one by
one (`amend_eq_ok`); a pass over the markers adds one entry for each to a table, in order, and only
new names (`forM_declare`, `foldl_enterAddress`, `forM_defineLabel`).
-/

namespace ServoScript.Program

variable {p q : Program} {u : Unit}

/-! ## Changing items -/

theorem amendFrom_eq_ok {change : Item → Except Diag Item} {done out : Array Item}
    {items : List Item} : amendFrom change done items = .ok u out ↔
      ∃ changed, List.Forall₂ (fun i j => change i = .ok j) items changed ∧
        out = (done.toList ++ changed).toArray := by
  induction items generalizing done with
  | nil =>
    rw [amendFrom]
    simp [eq_comm]
  | cons i rest ih =>
    rw [amendFrom]
    cases hi : change i with
    | ok j =>
      simp only [ih]
      constructor
      · rintro ⟨changed, hrest, rfl⟩
        exact ⟨j :: changed, .cons hi hrest, by simp⟩
      · rintro ⟨changed, hall, rfl⟩
        cases hall with
        | cons hj hrest =>
          rw [hi] at hj
          cases hj
          exact ⟨_, hrest, by simp⟩
    | error d =>
      simp only [reduceCtorEq, false_iff, not_exists, not_and]
      intro changed hall
      cases hall with
      | cons hj _ =>
        rw [hi] at hj
        cases hj

theorem amend_eq_ok {change : Item → Except Diag Item} : (amend change).run p = .ok u q ↔
    ∃ changed, List.Forall₂ (fun i j => change i = .ok j) p.items.toList changed ∧
      q = { p with items := changed.toArray } := by
  have hrun : (amend change).run p = .ok u q ↔
      ∃ items, amendFrom change #[] p.items.toList = .ok () items ∧ q = { p with items } := by
    rw [EStateM.run, amend]
    cases amendFrom change #[] p.items.toList <;> simp [eq_comm]
  simp only [hrun, amendFrom_eq_ok, List.nil_append]
  constructor
  · rintro ⟨items, ⟨changed, hall, rfl⟩, rfl⟩
    exact ⟨changed, hall, rfl⟩
  · rintro ⟨changed, hall, rfl⟩
    exact ⟨_, ⟨changed, hall, rfl⟩, rfl⟩

/-! ## Subroutines -/

/-- The command that calls the `n`-th subroutine of a script, counted from 0. -/
def callCommand (n : Nat) : Command :=
  if h : n < 128 then .sub ⟨n, h⟩ else .op .call

theorem declare_eq_ok {profile : Profile} {i : Item} {t : Symbols Command} {n : Nat}
    {s : Declarations} : (declare profile i).run (t, n) = .ok u s ↔
      (i.role.subroutine? = none ∧ s = (t, n)) ∨
        ∃ name, i.role = .subroutine name ∧ name ∉ t.names ∧
          (n < 128 ∨ profile.subroutineLimit? = none) ∧
          s = (t.insert name (callCommand n), n + 1) := by
  rw [EStateM.run, declare]
  cases hrole : i.role with
  | subroutine name =>
    simp only [Role.subroutine?, reduceCtorEq, false_and, false_or, Role.subroutine.injEq,
      exists_eq_left', ← Symbols.contains_iff_mem_names]
    cases hmem : t.contains name with
    | true => simp
    | false =>
      by_cases hn : n < 128
      · simp [hn, callCommand, eq_comm]
      · cases hlimit : profile.subroutineLimit? with
        | none => simp [hn, callCommand, eq_comm]
        | some limit => simp [hn]
  | code => simp [Role.subroutine?, eq_comm]
  | label name => simp [Role.subroutine?, eq_comm]
  | jump name => simp [Role.subroutine?, eq_comm]
  | call name => simp [Role.subroutine?, eq_comm]

theorem forM_declare {profile : Profile} {items : List Item} {t t' : Symbols Command} {n n' : Nat}
    (h : (items.forM (declare profile)).run (t, n) = .ok u (t', n')) :
    t'.entries = t.entries ++ (markNames Role.subroutine? items).mapIdx
        (fun k name => (name, callCommand (n + k))) ∧
      (t.names.Nodup → t'.names.Nodup) := by
  induction items generalizing t n with
  | nil =>
    rw [forM_nil_eq_ok] at h
    cases h
    simp [markNames]
  | cons i rest ih =>
    obtain ⟨s, hi, hrest⟩ := forM_cons_eq_ok.mp h
    rcases declare_eq_ok.mp hi with ⟨hrole, rfl⟩ | ⟨name, hrole, hnew, -, rfl⟩
    · rw [markNames_cons, hrole]
      exact ih hrest
    · obtain ⟨hentries, hnodup⟩ := ih hrest
      have hname : i.role.subroutine? = some name := by rw [hrole, Role.subroutine?]
      rw [markNames_cons, hname, Option.toList_some, List.singleton_append, List.mapIdx_cons,
        hentries, Symbols.entries_insert_of_notMem _ hnew]
      refine ⟨?_, fun ht => hnodup ?_⟩
      · simp only [List.append_assoc, List.singleton_append, Nat.add_zero, Nat.add_assoc,
          Nat.add_comm 1]
      · rw [Symbols.names_insert, if_neg hnew, ← List.concat_eq_append]
        exact List.Nodup.concat hnew ht

theorem declareSubroutines_eq_ok : declareSubroutines.run p = .ok u q ↔
    ∃ commands n, (p.items.toList.forM (declare p.profile)).run (p.commands, 0) =
      .ok () (commands, n) ∧ q = { p with commands } := by
  rw [EStateM.run, declareSubroutines]
  cases (p.items.toList.forM (declare p.profile)).run (p.commands, 0) with
  | ok v s =>
    obtain ⟨commands, n⟩ := s
    simp [eq_comm]
  | error d s => simp

theorem resolveCall_eq_ok {commands : Symbols Command} {i j : Item} :
    resolveCall commands i = .ok j ↔
      ((∀ name, i.role ≠ .call name) ∧ j = i) ∨
        ∃ name c, i.role = .call name ∧ commands.get? name = some c ∧ i.head = .unset ∧
          j = { i with head := .set c } := by
  rw [resolveCall]
  cases hrole : i.role with
  | call name =>
    cases hc : commands.get? name with
    | none => simp [hc]
    | some c =>
      cases hhead : i.head <;> simp [hc, hhead, hrole, Item.setCommand, Except.mapError, eq_comm]
  | code => simp [eq_comm]
  | label name => simp [eq_comm]
  | jump name => simp [eq_comm]
  | subroutine name => simp [eq_comm]

theorem enterAddress_eq (t : Symbols Word) (x : Placed) :
    enterAddress t x =
      match x.item.role.subroutine? with
      | some name => t.insert name (UInt16.ofNat x.addr)
      | none => t := by
  unfold enterAddress
  cases x.item.role <;> rfl

theorem foldl_enterAddress (items : List Item) (addr : Nat) (t : Symbols Word)
    (h : (t.names ++ markNames Role.subroutine? items).Nodup) :
    ((Placed.ofItems addr items).foldl enterAddress t).entries =
      t.entries ++ (places Role.subroutine? addr items).map
        fun x => (x.name, UInt16.ofNat x.addr) := by
  induction items generalizing addr t with
  | nil => simp [Placed.ofItems, places]
  | cons i rest ih =>
    rw [Placed.ofItems_cons, List.foldl_cons, places_cons, enterAddress_eq]
    rw [markNames_cons] at h
    cases hname : i.role.subroutine? with
    | none =>
      rw [hname] at h
      rw [ih _ _ h]
      rfl
    | some name =>
      rw [hname, Option.toList_some, List.singleton_append] at h
      have hnew : name ∉ t.names := fun hmem =>
        List.disjoint_of_nodup_append h hmem List.mem_cons_self
      rw [ih, Symbols.entries_insert_of_notMem _ hnew]
      · simp
      · rw [Symbols.names_insert, if_neg hnew, List.append_assoc]
        exact h

theorem placeSubroutines_eq_ok : placeSubroutines.run p = .ok u q ↔
    Addressable p.items.toList ∧
      q = { p with
        addresses := (Placed.ofItems 0 p.items.toList).foldl enterAddress p.addresses } := by
  rw [EStateM.run, placeSubroutines]
  cases h : p.checkedLayout with
  | ok layout =>
    obtain ⟨hsmall, rfl⟩ := checkedLayout_eq_ok_iff.mp h
    simp only [← Array.foldl_toList, toList_layout]
    simp [hsmall, eq_comm]
  | error d =>
    have hlarge : ¬ Addressable p.items.toList := by
      intro hsmall
      rw [checkedLayout_eq_ok_iff.mpr ⟨hsmall, rfl⟩] at h
      cases h
    simp [hlarge]

/-! ## Addresses of calls -/

theorem head_of_command?_call {i : Item} (h : i.command? = some (.op .call)) :
    i.head = .set (.op .call) := by
  unfold Item.command? at h
  cases hhead : i.head with
  | unset => simp [hhead] at h
  | run =>
    simp only [hhead, Option.some.injEq, Command.op.injEq, Item.literalOpcode] at h
    split at h <;> cases h
  | set c => simpa [hhead] using h

theorem passAddress_sameMark (addresses : Symbols Word) (i : Item) :
    Item.SameMark i (passAddress addresses i) := by
  unfold passAddress
  split
  · rename_i hcall
    split
    · exact ⟨rfl, rfl, (Item.size_push (head_of_command?_call hcall) rfl _).symm⟩
    · exact ⟨rfl, rfl, rfl⟩
  · exact ⟨rfl, rfl, rfl⟩

/-! ## Labels and jumps -/

theorem defineLabel_eq_ok {x : Placed} {t t' : Symbols (Pos × Word)} :
    (defineLabel x).run t = .ok u t' ↔
      (x.item.role.label? = none ∧ t' = t) ∨
        ∃ name, x.item.role = .label name ∧ name ∉ t.names ∧
          t' = t.insert name (x.item.pos, UInt16.ofNat x.addr) := by
  rw [EStateM.run, defineLabel]
  cases hrole : x.item.role with
  | label name =>
    simp only [Role.label?, reduceCtorEq, false_and, false_or, Role.label.injEq, exists_eq_left',
      ← Symbols.get?_eq_none_iff]
    cases t.get? name <;> simp [eq_comm]
  | code => simp [Role.label?, eq_comm]
  | jump name => simp [Role.label?, eq_comm]
  | subroutine name => simp [Role.label?, eq_comm]
  | call name => simp [Role.label?, eq_comm]

theorem forM_defineLabel {items : List Item} {addr : Nat} {t t' : Symbols (Pos × Word)}
    (h : ((Placed.ofItems addr items).forM defineLabel).run t = .ok u t') :
    t'.entries = t.entries ++ (places Role.label? addr items).map
        (fun x => (x.name, x.pos, UInt16.ofNat x.addr)) ∧
      (t.names.Nodup → t'.names.Nodup) := by
  induction items generalizing addr t with
  | nil =>
    change (([] : List Placed).forM defineLabel).run t = _ at h
    rw [forM_nil_eq_ok] at h
    subst h
    simp [places, Placed.ofItems]
  | cons i rest ih =>
    rw [Placed.ofItems_cons, forM_cons_eq_ok] at h
    obtain ⟨s, hi, hrest⟩ := h
    rw [places_cons]
    rcases defineLabel_eq_ok.mp hi with ⟨hrole, rfl⟩ | ⟨name, hrole, hnew, rfl⟩
    · rw [hrole]
      exact ih hrest
    · obtain ⟨hentries, hnodup⟩ := ih hrest
      have hname : i.role.label? = some name := Role.label?_eq_some.mpr hrole
      rw [hname, hentries, Symbols.entries_insert_of_notMem _ hnew]
      refine ⟨by simp, fun ht => hnodup ?_⟩
      rw [Symbols.names_insert, if_neg hnew, ← List.concat_eq_append]
      exact List.Nodup.concat hnew ht

theorem defineLabels_eq_ok : defineLabels.run p = .ok u q ↔
    Addressable p.items.toList ∧
      ∃ labels, ((Placed.ofItems 0 p.items.toList).forM defineLabel).run p.labels =
        .ok () labels ∧ q = { p with labels } := by
  rw [EStateM.run, defineLabels]
  cases h : p.checkedLayout with
  | ok layout =>
    obtain ⟨hsmall, rfl⟩ := checkedLayout_eq_ok_iff.mp h
    simp only [toList_layout, hsmall, true_and]
    cases ((Placed.ofItems 0 p.items.toList).forM defineLabel).run p.labels <;> simp [eq_comm]
  | error d =>
    have hlarge : ¬ Addressable p.items.toList := by
      intro hsmall
      rw [checkedLayout_eq_ok_iff.mpr ⟨hsmall, rfl⟩] at h
      cases h
    simp [hlarge]

theorem aimJump_eq_ok {labels : Symbols (Pos × Word)} {i j : Item} :
    aimJump labels i = .ok j ↔
      ((∀ name, i.role ≠ .jump name) ∧ j = i) ∨
        ∃ name pos addr, i.role = .jump name ∧ labels.get? name = some (pos, addr) ∧
          j = i.push addr := by
  rw [aimJump]
  cases hrole : i.role with
  | jump name =>
    cases hl : labels.get? name with
    | none => simp [hl]
    | some entry =>
      obtain ⟨pos, addr⟩ := entry
      simp [hl, eq_comm]
  | code => simp [eq_comm]
  | label name => simp [eq_comm]
  | subroutine name => simp [eq_comm]
  | call name => simp [eq_comm]

/-! ## All passes -/

/-- The stages of a successful resolution. `called` are the items once the calls have their
commands, `passed` once the general calls have their addresses, `aimed` once the jumps have
theirs. -/
structure Stages (p q : Program) where
  commands : Symbols Command
  count : Nat
  called : List Item
  addresses : Symbols Word
  passed : List Item
  labels : Symbols (Pos × Word)
  aimed : List Item
  declared : ((p.items.toList.map Item.settle).forM (declare p.profile)).run (p.commands, 0) =
    .ok () (commands, count)
  resolved : List.Forall₂ (fun i j => resolveCall commands i = .ok j)
    (p.items.toList.map Item.settle) called
  addresses_eq : addresses = (Placed.ofItems 0 called).foldl enterAddress p.addresses
  passed_eq : passed = called.map (passAddress addresses)
  addressable : Addressable passed
  defined : ((Placed.ofItems 0 passed).forM defineLabel).run p.labels = .ok () labels
  aims : List.Forall₂ (fun i j => aimJump labels i = .ok j) passed aimed
  result : q = { p with items := aimed.toArray, commands, addresses, labels }

theorem stages_of_complete (h : complete.run p = .ok u q) : Nonempty (Stages p q) := by
  obtain ⟨⟨⟩, p₁, h₁, h⟩ := run_bind_eq_ok.mp h
  obtain ⟨⟨⟩, p₅, hcalls, hjumps⟩ := run_bind_eq_ok.mp h
  -- the calls
  obtain ⟨⟨⟩, p₂, h₂, hcalls⟩ := run_bind_eq_ok.mp hcalls
  obtain ⟨⟨⟩, p₃, h₃, hcalls⟩ := run_bind_eq_ok.mp hcalls
  obtain ⟨⟨⟩, p₄, h₄, h₅⟩ := run_bind_eq_ok.mp hcalls
  -- the jumps
  obtain ⟨⟨⟩, p₆, h₆, h₇⟩ := run_bind_eq_ok.mp hjumps
  rw [run_modify_eq_ok] at h₁
  subst h₁
  obtain ⟨commands, count, hdeclared, rfl⟩ := declareSubroutines_eq_ok.mp h₂
  obtain ⟨called, hresolved, rfl⟩ := amend_eq_ok.mp h₃
  obtain ⟨-, rfl⟩ := placeSubroutines_eq_ok.mp h₄
  rw [run_modify_eq_ok] at h₅
  subst h₅
  obtain ⟨hsmall, labels, hdefined, rfl⟩ := defineLabels_eq_ok.mp h₆
  obtain ⟨aimed, haims, rfl⟩ := amend_eq_ok.mp h₇
  exact ⟨{
    commands, count, called, labels, aimed
    addresses := _
    passed := called.map (passAddress _)
    declared := by simpa [completeLiterals] using hdeclared
    resolved := by simpa [completeLiterals] using hresolved
    addresses_eq := rfl
    passed_eq := rfl
    addressable := by simpa [completeLiterals, passAddresses] using hsmall
    defined := by simpa [completeLiterals, passAddresses] using hdefined
    aims := by simpa [completeLiterals, passAddresses] using haims
    result := rfl }⟩

theorem complete_of_stages (st : Stages p q) : complete.run p = .ok () q := by
  have hplaced : Addressable st.called := by
    refine st.addressable.congr ?_
    rw [st.passed_eq, List.forall₂_map_left_iff, List.forall₂_same]
    intro i _
    obtain ⟨hrole, hpos, hsize⟩ := passAddress_sameMark st.addresses i
    exact ⟨hrole.symm, hpos.symm, hsize.symm⟩
  refine run_bind_eq_ok.mpr ⟨(), completeLiterals p, rfl, ?_⟩
  refine run_bind_eq_ok.mpr ⟨(), { p with
    items := st.passed.toArray, commands := st.commands, addresses := st.addresses }, ?_, ?_⟩
  · -- the calls
    refine run_bind_eq_ok.mpr
      ⟨(), _, declareSubroutines_eq_ok.mpr ⟨st.commands, st.count, ?_, rfl⟩, ?_⟩
    · simpa [completeLiterals] using st.declared
    refine run_bind_eq_ok.mpr ⟨(), _, amend_eq_ok.mpr ⟨st.called, ?_, rfl⟩, ?_⟩
    · simpa [completeLiterals] using st.resolved
    refine run_bind_eq_ok.mpr ⟨(), _, placeSubroutines_eq_ok.mpr ⟨hplaced, rfl⟩, ?_⟩
    rw [run_modify_eq_ok, st.passed_eq, st.addresses_eq]
    simp [passAddresses, completeLiterals]
  · -- the jumps
    refine run_bind_eq_ok.mpr ⟨(), _, defineLabels_eq_ok.mpr
      ⟨st.addressable, st.labels, st.defined, rfl⟩, ?_⟩
    exact amend_eq_ok.mpr ⟨st.aimed, st.aims, st.result⟩

end ServoScript.Program
