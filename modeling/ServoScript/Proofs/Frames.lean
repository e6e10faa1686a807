import ServoScript.Proofs.CommandTables

/-!
# What the passes leave alone

Addresses are computed in the middle of the resolution, so nothing may move afterwards. A pass adds
arguments to items and gives commands to those that have none (`Item.Extends`), whether it comes to
its end or not. Arguments take no room of their own where they are added, because the commands of
jumps and general calls have room for one word from the start, and commands take room only where
they are given to calls (`Item.Resized`). This needs no more of the items than that a jump has the
command of a jump, which holds of all items that can be made, also by hand (`passes_keep_items`).
-/

namespace ServoScript

/-! ## Items -/

namespace Item

/-- What a pass may make of an item: the same thing at the same position, with the same command if
it had one, and perhaps with more arguments. -/
structure Extends (i j : Item) : Prop where
  role : j.role = i.role
  pos : j.pos = i.pos
  command : ∀ c, i.head = .set c → j.head = .set c
  args : i.args <+: j.args

/-- An item takes as many bytes as it took, or it is a call that took none and has its command
now. -/
def Resized (i j : Item) : Prop :=
  j.size = i.size ∨ (∃ name, i.role = .call name) ∧ i.size = 0 ∧ (j.size = 1 ∨ j.size = 3)

def JumpsByJump (i : Item) : Prop :=
  ∀ name, i.role = .jump name → ∃ op : Opcode, i.head = .set (.op op) ∧ op.isJump = true

variable {i j k : Item}

theorem Extends.refl (i : Item) : i.Extends i := ⟨rfl, rfl, fun _ h => h, List.prefix_refl _⟩

theorem Extends.trans (hij : i.Extends j) (hjk : j.Extends k) : i.Extends k where
  role := hjk.role.trans hij.role
  pos := hjk.pos.trans hij.pos
  command c h := hjk.command c (hij.command c h)
  args := hij.args.trans hjk.args

theorem Resized.refl (i : Item) : i.Resized i := .inl rfl

theorem Resized.trans (hrole : j.role = i.role) (hij : i.Resized j) (hjk : j.Resized k) :
    i.Resized k := by
  rcases hij with hij | ⟨hcall, hzero, hsize⟩
  · rcases hjk with hjk | ⟨hcall, hzero, hsize⟩
    · exact .inl (hjk.trans hij)
    · exact .inr ⟨hrole ▸ hcall, hij ▸ hzero, hsize⟩
  · refine .inr ⟨hcall, hzero, ?_⟩
    rcases hjk with hjk | ⟨-, hzero', -⟩
    · exact hjk ▸ hsize
    · omega

/-- What the passes may make of an item, with the room that it takes. -/
structure Advances (i j : Item) : Prop extends i.Extends j where
  resized : i.Resized j

theorem Advances.refl (i : Item) : i.Advances i := ⟨.refl i, .refl i⟩

theorem Advances.trans (i j k : Item) (hij : i.Advances j) (hjk : j.Advances k) : i.Advances k :=
  ⟨hij.toExtends.trans hjk.toExtends, hij.resized.trans hij.role hjk.resized⟩

theorem extends_push (i : Item) (w : Word) : i.Extends (i.push w) :=
  ⟨rfl, rfl, fun _ h => h, List.prefix_append _ _⟩

theorem extends_setCommand {c : Command} (h : i.setCommand c = .ok j) : i.Extends j := by
  unfold setCommand at h
  split at h
  · rename_i hunset
    cases h
    refine ⟨rfl, rfl, fun c h => ?_, List.prefix_refl _⟩
    rw [hunset] at h
    cases h
  · cases h

theorem extends_settle (i : Item) : i.Extends i.settle := by
  obtain ⟨role, head, args, pos⟩ := i
  cases head with
  | run =>
    refine ⟨rfl, rfl, fun c h => ?_, List.prefix_refl _⟩
    cases h
  | unset | set => exact Extends.refl _

theorem JumpsByJump.extends (h : i.JumpsByJump) (hij : i.Extends j) : j.JumpsByJump := by
  intro name hrole
  obtain ⟨op, hhead, hop⟩ := h name (hij.role ▸ hrole)
  exact ⟨op, hij.command _ hhead, hop⟩

theorem Fresh.jumpsByJump (h : i.Fresh) : i.JumpsByJump := by
  intro name hrole
  cases h with
  | @jump op _ _ hop => exact ⟨op, rfl, hop⟩
  | code | label | subroutine | call => cases hrole

/-! ## Items made by hand -/

/-- The items that can be made: by one of the constructors, and then by any changes. -/
inductive Made : Item → Prop
  | ofOpcode (op : Opcode) (pos : Pos) : Made (.ofOpcode op pos)
  | emptyRun (pos : Pos) : Made (.emptyRun pos)
  | label (name : String) (pos : Pos) : Made (.label name pos)
  | jump (name : String) (pos : Pos) : Made (.jump name pos)
  | jumpIfZero (name : String) (pos : Pos) : Made (.jumpIfZero name pos)
  | subroutine (name : String) (pos : Pos) : Made (.subroutine name pos)
  | call (name : String) (pos : Pos) : Made (.call name pos)
  | pushLiteral {i : Item} (profile : Profile) (w : Word) : Made i →
      Made (stateAfter (Item.pushLiteral profile w) i)
  | push {i : Item} (w : Word) : Made i → Made (i.push w)
  | setCommand {i j : Item} (c : Command) : Made i → i.setCommand c = .ok j → Made j
  | settle {i : Item} : Made i → Made i.settle

theorem stateAfter_pushLiteral (profile : Profile) (w : Word) (i : Item) :
    stateAfter (Item.pushLiteral profile w) i = i.push w := by
  unfold stateAfter EStateM.run Item.pushLiteral
  cases exceededLimit? profile (i.args.length + 1) <;> rfl

theorem Made.jumpsByJump (h : i.Made) : i.JumpsByJump := by
  induction h with
  | ofOpcode | emptyRun | label | subroutine | call =>
    intro name hrole
    cases hrole
  | jump => exact fun _ _ => ⟨.jump, rfl, rfl⟩
  | jumpIfZero => exact fun _ _ => ⟨.jumpZ, rfl, rfl⟩
  | @pushLiteral i profile w _ ih =>
    rw [stateAfter_pushLiteral]
    exact ih.extends (i.extends_push w)
  | @push i w _ ih => exact ih.extends (i.extends_push w)
  | setCommand c _ hset ih => exact ih.extends (extends_setCommand hset)
  | @settle i _ ih => exact ih.extends i.extends_settle

end Item

/-! ## Changes of single items -/

namespace Program

variable {profile : Profile} {i j : Item}

theorem extends_resolveCall {commands : Symbols Command} (h : resolveCall commands i = .ok j) :
    i.Extends j := by
  rcases resolveCall_eq_ok.mp h with ⟨-, rfl⟩ | ⟨name, c, -, -, hunset, rfl⟩
  · exact .refl _
  · refine ⟨rfl, rfl, fun c h => ?_, List.prefix_refl _⟩
    rw [hunset] at h
    cases h

theorem length_encode_callCommand (n : Nat) (args : List Word) :
    (Instruction.encode ⟨callCommand n, args⟩).length = 1 ∨
      (Instruction.encode ⟨callCommand n, args⟩).length = 3 := by
  by_cases hn : n < 128
  · have hcommand : callCommand n = .sub ⟨n, hn⟩ := callCommand_eq_sub_iff.mpr rfl
    rw [hcommand]
    exact .inl rfl
  · rw [callCommand_eq_op_iff.mpr ⟨Nat.not_lt.mp hn, rfl⟩]
    exact .inr rfl

theorem resized_resolveCall {commands : Symbols Command} (hcommands : Numbered profile commands)
    (h : resolveCall commands i = .ok j) : i.Resized j := by
  rcases resolveCall_eq_ok.mp h with ⟨-, rfl⟩ | ⟨name, c, hrole, hget, hunset, rfl⟩
  · exact .refl _
  · obtain ⟨n, -, hc⟩ :=
      hcommands.exists_number ((Symbols.get?_eq_some_iff hcommands.nodup).mp hget)
    dsimp only at hc
    subst hc
    have hzero : i.size = 0 := by
      rw [Item.size, Item.bytes, hrole, Item.command?, hunset]
      rfl
    have hsize : Item.size { i with head := .set (callCommand n) } =
        (Instruction.encode ⟨callCommand n, i.args⟩).length := by
      rw [Item.size, Item.bytes, hrole, Item.command?]
    exact .inr ⟨⟨name, hrole⟩, hzero, hsize ▸ length_encode_callCommand n i.args⟩

theorem extends_passAddress (addresses : Symbols Word) (i : Item) :
    i.Extends (passAddress addresses i) := by
  unfold passAddress
  split
  · split
    · exact i.extends_push _
    · exact .refl i
  · exact .refl i

theorem extends_aimJump {labels : Symbols (Pos × Word)} (h : aimJump labels i = .ok j) :
    i.Extends j := by
  rcases aimJump_eq_ok.mp h with ⟨-, rfl⟩ | ⟨name, pos, addr, -, -, rfl⟩
  · exact .refl _
  · exact i.extends_push addr

/-- A jump has room for its target from the start. -/
theorem size_aimJump {labels : Symbols (Pos × Word)} (hi : i.JumpsByJump)
    (h : aimJump labels i = .ok j) : j.size = i.size := by
  rcases aimJump_eq_ok.mp h with ⟨-, rfl⟩ | ⟨name, pos, addr, hrole, -, rfl⟩
  · rfl
  · obtain ⟨op, hhead, hop⟩ := hi name hrole
    exact Item.size_push hhead (Opcode.operand_of_isJump hop) addr

/-! ## Passes -/

/-- The items of one program are those of another in the same order, each changed as `R` allows. -/
def Altered (R : Item → Item → Prop) (p q : Program) : Prop :=
  List.Forall₂ R p.items.toList q.items.toList

/-- From a program with `P` an action changes the items only as `R` allows, also if it fails. -/
def Alters (P : Program → Prop) (R : Item → Item → Prop) (x : Action Unit) : Prop :=
  ∀ p, P p → Triple (· = p) x (Altered R p) (Altered R p)

variable {p q : Program} {P P' E : Program → Prop} {R R' : Item → Item → Prop} {x : Action Unit}

theorem Altered.mono (h : ∀ i j, R i j → R' i j) (hpq : Altered R p q) : Altered R' p q :=
  List.Forall₂.imp h hpq

theorem Altered.trans (htrans : ∀ i j k, R i j → R j k → R i k) {r : Program}
    (hpq : Altered R p q) (hqr : Altered R q r) : Altered R p r :=
  forall₂_comp hpq hqr fun i _ j k => htrans i j k

theorem Alters.mono (hP : ∀ p, P' p → P p) (hR : ∀ i j, R i j → R' i j) (h : Alters P R x) :
    Alters P' R' x := by
  intro p hp
  have hx := h p (hP p hp)
  exact ⟨fun hs hrun => (hx.ok hs hrun).mono hR, fun hs hrun => (hx.error hs hrun).mono hR⟩

theorem Alters.bind {f : Unit → Action Unit} (htrans : ∀ i j k, R i j → R j k → R i k)
    (hx : Alters P R x) (hstate : Triple P x P' E) (hf : ∀ u, Alters P' R (f u)) :
    Alters P R (x >>= f) := by
  intro p hp
  constructor
  · intro s _ r hs h
    subst hs
    obtain ⟨u, q, hrun, hrest⟩ := run_bind_eq_ok.mp h
    exact ((hx s hp).ok rfl hrun).trans htrans ((hf u q (hstate.ok hp hrun)).ok rfl hrest)
  · intro s _ r hs h
    subst hs
    rcases run_bind_eq_error.mp h with hrun | ⟨u, q, hrun, hrest⟩
    · exact (hx s hp).error rfl hrun
    · exact ((hx s hp).ok rfl hrun).trans htrans ((hf u q (hstate.ok hp hrun)).error rfl hrest)

theorem Alters.modify {f : Program → Program} (h : ∀ p, Altered R p (f p)) :
    Alters P R (modify f) := by
  intro p _
  exact Triple.modify fun q hq => hq ▸ h q

theorem Alters.amend {change : Program → Item → Except Diag Item} (hrefl : ∀ i, R i i)
    (h : ∀ p, P p → ∀ i ∈ p.items.toList, ∀ j, change p i = .ok j → R i j) :
    Alters P R fun p => (amend (change p)).run p := by
  intro p hp
  have hamend := amended_amend p hrefl (h p hp)
  constructor
  · intro s _ q hs hrun
    subst hs
    obtain ⟨items, hall, rfl⟩ := hamend.ok rfl hrun
    exact hall
  · intro s _ q hs hrun
    subst hs
    obtain ⟨items, hall, rfl⟩ := hamend.error rfl hrun
    exact hall

theorem Alters.of_items (hrefl : ∀ i, R i i)
    (h : ∀ items, Triple (·.items = items) x (·.items = items) (·.items = items)) :
    Alters P R x := by
  have hsame : ∀ {p q : Program}, q.items = p.items → Altered R p q := by
    intro p q hitems
    unfold Altered
    rw [hitems]
    exact List.forall₂_same.mpr fun i _ => hrefl i
  intro p _
  constructor
  · intro s _ q hs hrun
    exact hsame ((h p.items).ok (hs ▸ rfl) hrun)
  · intro s _ q hs hrun
    exact hsame ((h p.items).error (hs ▸ rfl) hrun)

theorem items_declareSubroutines (items : Array Item) :
    Triple (·.items = items) declareSubroutines (·.items = items) (·.items = items) where
  ok hs h := by
    obtain ⟨commands, n, -, rfl⟩ := declareSubroutines_eq_ok.mp h
    exact hs
  error hs h := by
    obtain ⟨commands, n, -, rfl⟩ := declareSubroutines_eq_error h
    exact hs

theorem items_placeSubroutines (items : Array Item) :
    Triple (·.items = items) placeSubroutines (·.items = items) (·.items = items) where
  ok hs h := by
    obtain ⟨-, rfl⟩ := placeSubroutines_eq_ok.mp h
    exact hs
  error hs h := placeSubroutines_eq_error h ▸ hs

theorem items_defineLabels (items : Array Item) :
    Triple (·.items = items) defineLabels (·.items = items) (·.items = items) where
  ok hs h := by
    obtain ⟨-, labels, -, rfl⟩ := defineLabels_eq_ok.mp h
    exact hs
  error hs h := by
    rcases defineLabels_eq_error h with rfl | ⟨labels, -, rfl⟩ <;> exact hs

theorem altered_completeLiterals (p : Program) :
    Altered (fun i j => i.Extends j ∧ j.bytes = i.bytes) p (completeLiterals p) := by
  unfold Altered completeLiterals
  rw [Array.toList_map, List.forall₂_map_right_iff, List.forall₂_same]
  exact fun i _ => ⟨i.extends_settle, i.bytes_settle⟩

theorem alters_resolveCalls : Alters (Declared profile) Item.Advances resolveCalls :=
  .amend .refl fun _ hp _ _ _ h => ⟨extends_resolveCall h, resized_resolveCall hp.numbered h⟩

theorem altered_passAddresses (p : Program) : Altered Item.Advances p (passAddresses p) := by
  unfold Altered passAddresses
  rw [Array.toList_map, List.forall₂_map_right_iff, List.forall₂_same]
  intro i _
  obtain ⟨-, -, hsize⟩ := passAddress_sameMark p.addresses i
  exact ⟨extends_passAddress p.addresses i, .inl hsize.symm⟩

theorem alters_completeCalls : Alters (Registered profile) Item.Advances completeCalls :=
  have hdeclare : Alters (Registered profile) Item.Advances declareSubroutines :=
    .of_items .refl items_declareSubroutines
  have hplace : Alters (Declared profile) Item.Advances placeSubroutines :=
    .of_items .refl items_placeSubroutines
  hdeclare.bind .trans registered_declareSubroutines fun _ =>
    alters_resolveCalls.bind .trans registered_resolveCalls fun _ =>
      hplace.bind .trans registered_placeSubroutines fun _ => .modify altered_passAddresses

/-! ## Sound programs -/

structure Sound (profile : Profile) (p : Program) : Prop extends p.Registered profile where
  jumps : ∀ i ∈ p.items.toList, i.JumpsByJump

theorem Altered.jumps (h : Altered R p q) (hR : ∀ i j, R i j → i.Extends j)
    (hp : ∀ i ∈ p.items.toList, i.JumpsByJump) : ∀ j ∈ q.items.toList, j.JumpsByJump := by
  intro j hj
  obtain ⟨i, hi, hij⟩ := exists_of_forall₂ h j hj
  exact (hp i hi).extends (hR i j hij)

theorem Alters.sound (h : Alters (Sound profile) R x) (hR : ∀ i j, R i j → i.Extends j)
    (hx : Triple (Registered profile) x (Registered profile) (Registered profile)) :
    Triple (Sound profile) x (Sound profile) (Sound profile) where
  ok hp hrun := ⟨hx.ok hp.toRegistered hrun, ((h _ hp).ok rfl hrun).jumps hR hp.jumps⟩
  error hp hrun := ⟨hx.error hp.toRegistered hrun, ((h _ hp).error rfl hrun).jumps hR hp.jumps⟩

theorem Sound.completeLiterals (hp : p.Sound profile) : (completeLiterals p).Sound profile :=
  ⟨(invariant_registered (fun _ => True) profile).literals p hp.toRegistered,
    (altered_completeLiterals p).jumps (fun _ _ h => h.1) hp.jumps⟩

theorem sound_completeCalls :
    Triple (Sound profile) completeCalls (Sound profile) (Sound profile) :=
  (alters_completeCalls.mono (fun _ hp => hp.toRegistered) fun _ _ h => h).sound
    (fun _ _ h => h.toExtends) registered_completeCalls

theorem alters_completeJumps :
    Alters (Sound profile) (fun i j => i.Extends j ∧ j.size = i.size) completeJumps := by
  have htrans : ∀ i j k : Item, i.Extends j ∧ j.size = i.size → j.Extends k ∧ k.size = j.size →
      i.Extends k ∧ k.size = i.size := fun i j k hij hjk =>
    ⟨hij.1.trans hjk.1, hjk.2.trans hij.2⟩
  have hlabels : Alters (Sound profile) (fun i j => i.Extends j ∧ j.size = i.size) defineLabels :=
    .of_items (fun i => ⟨.refl i, rfl⟩) items_defineLabels
  have hjumps : Alters (Sound profile) (fun i j => i.Extends j ∧ j.size = i.size) aimJumps :=
    .amend (fun i => ⟨.refl i, rfl⟩) fun _ hp i hi _ h =>
      ⟨extends_aimJump h, size_aimJump (hp.jumps i hi) h⟩
  have hsound := hlabels.sound (fun _ _ h => h.1) registered_defineLabels
  exact hlabels.bind htrans hsound fun _ => hjumps

theorem alters_complete : Alters (Sound profile) Item.Advances complete := by
  have hliterals : Alters (Sound profile) Item.Advances (modify completeLiterals) :=
    .modify fun p => (altered_completeLiterals p).mono fun i j h =>
      ⟨h.1, .inl (congrArg List.length h.2)⟩
  have hcalls : Alters (Sound profile) Item.Advances completeCalls :=
    alters_completeCalls.mono (fun _ hp => hp.toRegistered) fun _ _ h => h
  have hjumps : Alters (Sound profile) Item.Advances completeJumps :=
    alters_completeJumps.mono (fun _ hp => hp) fun _ _ h => ⟨h.1, .inl h.2⟩
  have hsound : Triple (Sound profile) (modify Program.completeLiterals : Action Unit)
      (Sound profile) (Sound profile) := .modify fun _ hp => hp.completeLiterals
  exact hliterals.bind .trans hsound fun _ =>
    hcalls.bind .trans sound_completeCalls fun _ => hjumps

theorem Sound.writes (hp : p.Sound profile) (h : p.Writes Item.JumpsByJump q) :
    q.Sound profile := by
  have htables := hp.toRegistered.writes h
  cases h with
  | items hnew =>
    refine ⟨htables, fun i hi => ?_⟩
    rcases List.mem_append.mp hi with hi | hi
    · exact hp.jumps i hi
    · exact hnew i hi
  | @value front run w hitems hrun =>
    have hold := hp.jumps
    rw [hitems, List.forall_mem_append] at hold
    refine ⟨htables, List.forall_mem_append.mpr ⟨hold.1, ?_⟩⟩
    rw [List.forall_mem_singleton] at hold ⊢
    exact hold.2.extends (run.extends_push w)

theorem invariant_sound (profile : Profile) : Invariant Item.JumpsByJump (Sound profile) where
  writes hp h := hp.writes h
  literals _ hp := hp.completeLiterals
  calls := sound_completeCalls
  jumps := alters_completeJumps.sound (fun _ _ h => h.1)
    (registered_defineLabels.bind fun _ => registered_aimJumps)

/-! ## Programs that can be made -/

/-- The programs that can be made for a model: source lines are added, and operations are performed
with items that can be made, whatever becomes of them. -/
inductive Reachable (profile : Profile) : Program → Prop
  | empty : Reachable profile (empty profile)
  | addLine {p : Program} (line : String) : Reachable profile p → Reachable profile (p.addLine line)
  | perform {p : Program} (op : Operation) : Reachable profile p →
      (∀ i, op = .push i → i.Made) → Reachable profile (p.perform op)

theorem Reachable.sound (h : p.Reachable profile) : p.Sound profile := by
  induction h with
  | empty =>
    refine ⟨registered_empty profile, fun i hi => ?_⟩
    cases hi
  | addLine line _ ih =>
    exact ⟨⟨⟨ih.commands, ih.labels⟩, ih.profile_eq, ih.numbered, ih.placed⟩, ih.jumps⟩
  | perform op _ hop ih =>
    exact (invariant_sound profile).perform (fun _ h => h.jumpsByJump) ih fun i hi =>
      (hop i hi).jumpsByJump

theorem Reachable.performAll (h : p.Reachable profile) {ops : List Operation}
    (hops : ∀ i, .push i ∈ ops → i.Made) : (p.performAll ops).Reachable profile := by
  induction ops generalizing p with
  | nil => exact h
  | cons op ops ih =>
    refine ih (h.perform op fun i hi => hops i ?_) fun i hi => hops i ?_
    · exact hi ▸ List.mem_cons_self
    · exact List.mem_cons_of_mem _ hi

end Program

open Program

/-- **What the passes leave alone.** From any program that can be made, and whether a pass succeeds
or fails, there are as many items as before, in the same order, with the roles and positions that
they had, and arguments are only added at the end. Ending runs keeps the bytes of every item, aiming
jumps their number, and resolving calls changes that number only for calls, from 0 to 1 or 3. -/
theorem passes_keep_items {profile : Profile} {p : Program} (hp : p.Reachable profile) :
    Altered (fun i j => i.Extends j ∧ j.bytes = i.bytes) p (completeLiterals p) ∧
    Altered Item.Advances p (stateAfter completeCalls p) ∧
    Altered (fun i j => i.Extends j ∧ j.size = i.size) p (stateAfter completeJumps p) ∧
    Altered Item.Advances p (stateAfter complete p) := by
  have hsound := hp.sound
  exact ⟨altered_completeLiterals p, (alters_completeCalls p hsound.toRegistered).stateAfter rfl,
    (alters_completeJumps p hsound).stateAfter rfl, (alters_complete p hsound).stateAfter rfl⟩

/-- A program with a call and a jump that have words already, a label with a command, and a call of
a subroutine that there is not. -/
def handmade : List Operation :=
  let pos : Pos := ⟨"script", 1, 1⟩
  [.push ((Item.call "go" pos).push 9), .addLiteral 300 pos, .push ((Item.jump "top" pos).push 7),
    .push { Item.label "top" pos with head := .set (.op .call) }, .push (.subroutine "go" pos),
    .push (.call "nowhere" pos)]

/-- The calls before the one that is refused have their commands. -/
theorem passes_keep_items_handmade :
    let p := (Program.empty .micro).performAll handmade
    p.Reachable .micro ∧ p.items.toList.map Item.size = [0, 3, 3, 0, 0, 0] ∧
      (stateAfter completeCalls p).items.toList.map Item.size = [1, 3, 3, 0, 0, 0] ∧
      Altered Item.Advances p (stateAfter completeCalls p) := by
  intro p
  have hmade : ∀ i, Operation.push i ∈ handmade → i.Made := by
    intro i hi
    simp only [handmade, List.mem_cons, Operation.push.injEq, reduceCtorEq, List.not_mem_nil,
      false_or, or_false] at hi
    rcases hi with rfl | rfl | rfl | rfl | rfl
    exacts [.push 9 (.call _ _), .push 7 (.jump _ _), .setCommand _ (.label _ _) rfl,
      .subroutine _ _, .call _ _]
  have hp : p.Reachable .micro := Reachable.empty.performAll hmade
  exact ⟨hp, by decide +kernel, by decide +kernel, (passes_keep_items hp).2.1⟩

end ServoScript
