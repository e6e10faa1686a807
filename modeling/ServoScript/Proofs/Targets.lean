import ServoScript.Proofs.Operations

/-!
# Targets are pushed once

Jumps and calls get their targets as arguments, and nothing in the items themselves keeps a pass
from pushing a second target. It is the tables that do: once a table has a name, the pass that fills
it refuses the first marker of the program. Hence a pass that comes to its items finds them without
targets, and whatever is done with a program, and fails, no item has more than one
(`targets_pushed_once`).
-/

namespace ServoScript

/-! ## Items on their way -/

/-- How far an item can have come. Calls are as they were made unless `called`, have no target
unless `passed`, and jumps have none unless `aimed`. -/
inductive Item.Within (called passed aimed : Prop) : Item → Prop
  | code {head : Head} {args : List Word} {pos : Pos} :
      Within called passed aimed ⟨.code, head, args, pos⟩
  | label {name : String} {pos : Pos} : Within called passed aimed (.label name pos)
  | subroutine {name : String} {pos : Pos} : Within called passed aimed (.subroutine name pos)
  | jump {op : Opcode} {name : String} {pos : Pos} : op.isJump = true →
      Within called passed aimed ⟨.jump name, .set (.op op), [], pos⟩
  | aimedJump {op : Opcode} {name : String} {addr : Word} {pos : Pos} : op.isJump = true → aimed →
      Within called passed aimed ⟨.jump name, .set (.op op), [addr], pos⟩
  | call {name : String} {pos : Pos} : Within called passed aimed (.call name pos)
  | resolvedCall {name : String} {c : Command} {pos : Pos} : called →
      Within called passed aimed ⟨.call name, .set c, [], pos⟩
  | passedCall {name : String} {addr : Word} {pos : Pos} : passed →
      Within called passed aimed ⟨.call name, .set (.op .call), [addr], pos⟩

namespace Item

variable {called passed aimed called' passed' aimed' : Prop} {i j : Item}

theorem Fresh.within (h : i.Fresh) : i.Within called passed aimed := by
  cases h with
  | code => exact .code
  | label => exact .label
  | jump hop => exact .jump hop
  | subroutine => exact .subroutine
  | call => exact .call

theorem Within.mono (h : i.Within called passed aimed) (hcalled : called → called')
    (hpassed : passed → passed') (haimed : aimed → aimed') : i.Within called' passed' aimed' := by
  cases h with
  | code => exact .code
  | label => exact .label
  | subroutine => exact .subroutine
  | jump hop => exact .jump hop
  | aimedJump hop h => exact .aimedJump hop (haimed h)
  | call => exact .call
  | resolvedCall h => exact .resolvedCall (hcalled h)
  | passedCall h => exact .passedCall (hpassed h)

theorem within_of_code (h : i.role = .code) : i.Within called passed aimed := by
  obtain ⟨role, head, args, pos⟩ := i
  cases h
  exact .code

theorem Within.role_of_run (h : i.Within called passed aimed) (hrun : i.head = .run) :
    i.role = .code := by
  cases h with
  | code => rfl
  | label | subroutine | jump | aimedJump | call | resolvedCall | passedCall => cases hrun

theorem Within.settle (h : i.Within called passed aimed) : i.settle.Within called passed aimed := by
  by_cases hrun : i.head = .run
  · exact within_of_code ((settle_sameRole i).1 ▸ h.role_of_run hrun)
  · have hsame : i.settle = i := by
      unfold Item.settle
      split
      · contradiction
      · rfl
    exact hsame.symm ▸ h

theorem Within.resolveCall {commands : Symbols Command} (h : i.Within False False aimed)
    (hj : Program.resolveCall commands i = .ok j) :
    j.Within (commands.names ≠ []) False aimed := by
  rcases Program.resolveCall_eq_ok.mp hj with ⟨-, rfl⟩ | ⟨name, c, hrole, hc, -, rfl⟩
  · exact h.mono False.elim id id
  · have hcommands : commands.names ≠ [] := List.ne_nil_of_mem (Symbols.mem_names_of_get? hc)
    cases h with
    | call => exact .resolvedCall hcommands
    | resolvedCall h | passedCall h => exact h.elim
    | code | label | subroutine | jump | aimedJump => cases hrole

theorem Within.passAddress (addresses : Symbols Word) (h : i.Within called False aimed) :
    (Program.passAddress addresses i).Within called called aimed := by
  unfold Program.passAddress
  split
  · rename_i hcall
    have hhead := Program.head_of_command?_call hcall
    split
    · cases h with
      | code => exact .code
      | resolvedCall h =>
        cases hhead
        exact .passedCall h
      | passedCall h => exact h.elim
      | jump hop | aimedJump hop =>
        -- a general call is no jump
        cases hhead
        cases hop
      | label | subroutine | call => cases hhead
    · exact h.mono id False.elim id
  · exact h.mono id False.elim id

theorem Within.aimJump {labels : Symbols (Pos × Word)} (h : i.Within called passed False)
    (hj : Program.aimJump labels i = .ok j) : j.Within called passed (labels.names ≠ []) := by
  rcases Program.aimJump_eq_ok.mp hj with ⟨-, rfl⟩ | ⟨name, pos, addr, hrole, hl, rfl⟩
  · exact h.mono id id False.elim
  · have hlabels : labels.names ≠ [] := List.ne_nil_of_mem (Symbols.mem_names_of_get? hl)
    cases h with
    | jump hop => exact .aimedJump hop hlabels
    | aimedJump _ h => exact h.elim
    | code | label | subroutine | call | resolvedCall | passedCall => cases hrole

end Item

/-! ## Programs on their way -/

namespace Program

/-- The tables are in order and no item has come further than it should. -/
structure Within (called passed aimed : Prop) (p : Program) : Prop extends p.InOrder where
  items : ∀ i ∈ p.items.toList, i.Within called passed aimed

/-- Calls are resolved only once there are commands, and jumps only once there are labels. -/
def Orderly (p : Program) : Prop :=
  p.Within (p.commands.names ≠ []) (p.commands.names ≠ []) (p.labels.names ≠ [])

def Uncalled (p : Program) : Prop := p.Within False False (p.labels.names ≠ [])

def Unpassed (p : Program) : Prop :=
  p.Within (p.commands.names ≠ []) False (p.labels.names ≠ [])

def Unaimed (p : Program) : Prop :=
  p.Within (p.commands.names ≠ []) (p.commands.names ≠ []) False

variable {p q : Program}

theorem Orderly.writes (hp : p.Orderly) (h : p.Writes Item.Fresh q) : q.Orderly := by
  have horder := hp.toInOrder.writes h
  cases h with
  | items hnew =>
    refine ⟨horder, fun i hi => ?_⟩
    rcases List.mem_append.mp hi with hi | hi
    · exact hp.items i hi
    · exact (hnew i hi).within
  | @value front run w hitems hrun =>
    have hold := hp.items
    rw [hitems] at hold
    refine ⟨horder, fun i hi => ?_⟩
    rcases List.mem_append.mp hi with hi | hi
    · exact hold i (List.mem_append_left _ hi)
    · rw [List.mem_singleton.mp hi]
      exact Item.within_of_code ((hold run (by simp)).role_of_run hrun)

theorem Orderly.completeLiterals (hp : p.Orderly) : (completeLiterals p).Orderly := by
  refine ⟨hp.toInOrder.completeLiterals, fun i hi => ?_⟩
  obtain ⟨j, hj, rfl⟩ := Array.mem_map.mp (Array.mem_toList_iff.mp hi)
  exact (hp.items j (Array.mem_toList_iff.mpr hj)).settle

/-! ## Calls -/

/-- Subroutines are declared for the first time or not at all. -/
theorem orderly_declareSubroutines :
    Triple Orderly declareSubroutines Uncalled Orderly where
  ok {p} _ _ hp h := by
    have horder := inOrder_declareSubroutines.ok hp.toInOrder h
    -- had there been commands, the first marker would have been refused
    have hnil := commands_eq_nil_of_declareSubroutines hp.toInOrder h
    obtain ⟨commands, n, -, rfl⟩ := declareSubroutines_eq_ok.mp h
    exact ⟨horder, fun i hi => (hp.items i hi).mono (absurd hnil) (absurd hnil) id⟩
  error {p} _ _ hp h := by
    have horder := inOrder_declareSubroutines.error hp.toInOrder h
    obtain ⟨commands, n, hrun, rfl⟩ := declareSubroutines_eq_error h
    have hmore : p.commands.names ≠ [] → commands.names ≠ [] := fun hne =>
      ((tabulates_declare p.profile).triple_ne_nil _).error hne hrun
    exact ⟨horder, fun i hi => (hp.items i hi).mono hmore hmore id⟩

theorem orderly_resolveCalls : Triple Uncalled resolveCalls Unpassed Orderly where
  ok hp h := by
    have horder := inOrder_resolveCalls.ok hp.toInOrder h
    obtain ⟨changed, hall, rfl⟩ := amend_eq_ok.mp h
    refine ⟨horder, fun j hj => ?_⟩
    obtain ⟨i, hi, hij⟩ := exists_of_forall₂ hall j hj
    exact (hp.items i hi).resolveCall hij
  error hp h := by
    have horder := inOrder_resolveCalls.error hp.toInOrder h
    obtain ⟨changed, hall, rfl⟩ := amend_eq_error h
    refine ⟨horder, fun j hj => ?_⟩
    obtain ⟨i, hi, rfl | hij⟩ := exists_of_forall₂ hall j hj
    · exact (hp.items j hi).mono False.elim False.elim id
    · exact ((hp.items i hi).resolveCall hij).mono id False.elim id

theorem orderly_placeSubroutines : Triple Unpassed placeSubroutines Unpassed Orderly where
  ok hp h := by
    obtain ⟨-, rfl⟩ := placeSubroutines_eq_ok.mp h
    exact ⟨⟨hp.commands, hp.labels⟩, hp.items⟩
  error hp h := by
    rw [placeSubroutines_eq_error h]
    exact ⟨hp.toInOrder, fun i hi => (hp.items i hi).mono id False.elim id⟩

theorem Unpassed.passAddresses (hp : p.Unpassed) : (passAddresses p).Orderly := by
  refine ⟨hp.toInOrder.passAddresses, fun i hi => ?_⟩
  obtain ⟨j, hj, rfl⟩ := Array.mem_map.mp (Array.mem_toList_iff.mp hi)
  exact (hp.items j (Array.mem_toList_iff.mpr hj)).passAddress p.addresses

theorem orderly_completeCalls : Triple Orderly completeCalls Orderly Orderly :=
  orderly_declareSubroutines.bind fun _ => orderly_resolveCalls.bind fun _ =>
    orderly_placeSubroutines.bind fun _ => .modify fun _ hp => hp.passAddresses

/-! ## Jumps -/

theorem orderly_defineLabels : Triple Orderly defineLabels Unaimed Orderly where
  ok hp h := by
    have horder := inOrder_defineLabels.ok hp.toInOrder h
    have hnil := labels_eq_nil_of_defineLabels hp.toInOrder h
    obtain ⟨-, labels, -, rfl⟩ := defineLabels_eq_ok.mp h
    exact ⟨horder, fun i hi => (hp.items i hi).mono id id (absurd hnil)⟩
  error {p} _ _ hp h := by
    have horder := inOrder_defineLabels.error hp.toInOrder h
    rcases defineLabels_eq_error h with rfl | ⟨labels, hrun, rfl⟩
    · exact hp
    · have hmore : p.labels.names ≠ [] → labels.names ≠ [] := fun hne =>
        (tabulates_defineLabel.triple_ne_nil _).error hne hrun
      exact ⟨horder, fun i hi => (hp.items i hi).mono id id hmore⟩

theorem orderly_aimJumps : Triple Unaimed aimJumps Orderly Orderly where
  ok hp h := by
    have horder := inOrder_aimJumps.ok hp.toInOrder h
    obtain ⟨changed, hall, rfl⟩ := amend_eq_ok.mp h
    refine ⟨horder, fun j hj => ?_⟩
    obtain ⟨i, hi, hij⟩ := exists_of_forall₂ hall j hj
    exact (hp.items i hi).aimJump hij
  error hp h := by
    have horder := inOrder_aimJumps.error hp.toInOrder h
    obtain ⟨changed, hall, rfl⟩ := amend_eq_error h
    refine ⟨horder, fun j hj => ?_⟩
    obtain ⟨i, hi, rfl | hij⟩ := exists_of_forall₂ hall j hj
    · exact (hp.items j hi).mono id id False.elim
    · exact (hp.items i hi).aimJump hij

theorem orderly_completeJumps : Triple Orderly completeJumps Orderly Orderly :=
  orderly_defineLabels.bind fun _ => orderly_aimJumps

/-! ## Any operations -/

theorem invariant_orderly : Invariant Item.Fresh Orderly where
  writes hp h := hp.writes h
  literals _ hp := hp.completeLiterals
  calls := orderly_completeCalls
  jumps := orderly_completeJumps

theorem orderly_empty (profile : Profile) : (empty profile).Orderly := by
  refine ⟨⟨List.nil_prefix, List.nil_prefix⟩, fun i hi => ?_⟩
  cases hi

end Program

/-- At most one target has been pushed onto an item, and none onto one that needs none. -/
structure Item.TargetedOnce (i : Item) : Prop where
  jump : ∀ name, i.role = .jump name → i.args.length ≤ 1
  call : ∀ name, i.role = .call name → i.args.length ≤ 1
  direct : ∀ name slot, i.role = .call name → i.command? = some (.sub slot) → i.args = []
  marker : ∀ name, i.role = .label name ∨ i.role = .subroutine name → i.args = [] ∧ i.bytes = []

theorem Item.Within.targetedOnce {called passed aimed : Prop} {i : Item}
    (h : i.Within called passed aimed) : i.TargetedOnce := by
  cases h with
  | code => constructor <;> simp
  | label | subroutine => constructor <;> simp [Item.label, Item.subroutine, Item.bytes]
  | jump | aimedJump => constructor <;> simp
  | call => constructor <;> simp [Item.call]
  | resolvedCall => constructor <;> simp
  | passedCall => constructor <;> simp [Item.command?]

/-- **Targets are pushed at most once**, in whatever order items are written and passes are made, and
whichever of them fail. -/
theorem targets_pushed_once (profile : Profile) {ops : List Operation}
    (hops : ∀ i, .push i ∈ ops → i.Fresh) :
    ∀ i ∈ ((Program.empty profile).performAll ops).items.toList, i.TargetedOnce := by
  have horderly := Program.invariant_orderly.performAll (fun _ h => h)
    (Program.orderly_empty profile) hops
  exact fun i hi => (horderly.items i hi).targetedOnce

/-- A program that is resolved too early and again too late. -/
def untimely : List Operation :=
  let pos : Pos := ⟨"script", 1, 1⟩
  [.push (.label "top" pos), .addLiteral 7 pos, .push (.jump "top" pos), .complete,
    .push (.call "go" pos), .completeCalls, .push (.subroutine "go" pos), .complete,
    .completeJumps, .completeCalls]

theorem targets_pushed_once_untimely :
    ((Program.empty .mini).performAll untimely).items.toList.map (·.args) =
        [[], [7], [0], [], []] ∧
      ∀ i ∈ ((Program.empty .mini).performAll untimely).items.toList, i.TargetedOnce := by
  refine ⟨by decide +kernel, targets_pushed_once .mini ?_⟩
  intro i hi
  simp only [untimely, List.mem_cons, Operation.push.injEq, reduceCtorEq, List.not_mem_nil,
    false_or, or_false] at hi
  rcases hi with rfl | rfl | rfl | rfl
  exacts [.label, .jump rfl, .call, .subroutine]

end ServoScript
