import ServoScript.Proofs.Disassembly
import ServoScript.Proofs.Spacing
import ServoScript.Proofs.Subroutines

/-!
# Scripts for one model and for the other

A program that is assembled for a model fits it (`Program.fits_of_assembleTokens`): its opcodes are
supported, its runs of literals short enough and its subroutines not too many. These are the only
things that a model is asked for, so a program that fits another model is assembled for that one
too, into the same image and tables (`Program.Fits.assembleTokens`). What fits the smaller model
fits the larger one.
-/

namespace ServoScript

/-! ## What fits a model -/

/-- A model has the opcode of an item, and room for its literals. -/
def Item.Fits (profile : Profile) (i : Item) : Prop :=
  ∀ op, i.command? = some (.op op) →
    profile.supports op = true ∧ (op.isLiteral = true → i.args.length ≤ profile.longestRun)

/-- A model can give a command to each of so many subroutines. -/
def Profile.HasSlots (profile : Profile) (count : Nat) : Prop :=
  profile.subroutineLimit? = none ∨ count ≤ 128

structure Program.Fits (profile : Profile) (p : Program) : Prop where
  items : ∀ i ∈ p.items.toList, i.Fits profile
  subroutines : profile.HasSlots (markNames Role.subroutine? p.items.toList).length

theorem Item.Fits.mini {i : Item} (h : i.Fits .micro) : i.Fits .mini := by
  intro op hop
  refine ⟨rfl, fun hliteral => ?_⟩
  have hle : i.args.length ≤ 32 := (h op hop).2 hliteral
  show i.args.length ≤ 126
  omega

theorem Program.Fits.mini {p : Program} (h : p.Fits .micro) : p.Fits .mini :=
  ⟨fun i hi => (h.items i hi).mini, .inl rfl⟩

theorem Program.Fits.congr {profile : Profile} {p q : Program} (h : p.Fits profile)
    (hitems : p.items = q.items) : q.Fits profile := ⟨hitems ▸ h.items, hitems ▸ h.subroutines⟩

theorem Item.isLiteral_literalOpcode (words : List Word) :
    (literalOpcode words).isLiteral = true := by
  unfold literalOpcode
  dsimp only
  split <;> rfl

theorem Opcode.supports_of_isLiteral {op : Opcode} (h : op.isLiteral = true) (profile : Profile) :
    profile.supports op = true := by
  cases profile <;> cases op <;> first | rfl | cases h

theorem Opcode.supports_of_isJump {op : Opcode} (h : op.isJump = true) (profile : Profile) :
    profile.supports op = true := by
  cases profile <;> cases op <;> first | rfl | cases h

theorem Opcode.isLiteral_of_isJump {op : Opcode} (h : op.isJump = true) : op.isLiteral = false := by
  cases op <;> first | rfl | cases h

theorem Item.fits_of_unset {profile : Profile} {i : Item} (h : i.head = .unset) :
    i.Fits profile := by
  intro op hop
  simp [command?, h] at hop

theorem Item.fits_run_iff {profile : Profile} {i : Item} (h : i.head = .run) :
    i.Fits profile ↔ i.args.length ≤ profile.longestRun := by
  have hcommand : i.command? = some (.op (literalOpcode i.args)) := by simp [command?, h]
  constructor
  · intro hfits
    exact (hfits _ hcommand).2 (isLiteral_literalOpcode i.args)
  · intro hle op hop
    rw [hcommand] at hop
    cases hop
    exact ⟨Opcode.supports_of_isLiteral (isLiteral_literalOpcode i.args) profile, fun _ => hle⟩

theorem Item.length_lt_of_fits_push {profile : Profile} {i : Item} {w : Word} (h : i.head = .run)
    (hfits : (i.push w).Fits profile) : i.args.length < profile.longestRun := by
  have hhead : (i.push w).head = .run := h
  have hle := (fits_run_iff hhead).mp hfits
  rw [push, List.length_append, List.length_singleton] at hle
  omega

theorem Item.fits_jump {profile : Profile} {role : Role} {op : Opcode} {args : List Word}
    {pos : Pos} (h : op.isJump = true) : Item.Fits profile ⟨role, .set (.op op), args, pos⟩ := by
  intro op' hop
  cases hop
  refine ⟨Opcode.supports_of_isJump h profile, fun hliteral => ?_⟩
  rw [Opcode.isLiteral_of_isJump h] at hliteral
  cases hliteral

theorem Item.Drafted.fits {profile : Profile} {i : Item} (h : i.Drafted profile) :
    i.Fits profile := by
  cases h with
  | opcode hop =>
    intro op' hop'
    cases hop'
    refine ⟨hop.2.2.2, fun hliteral => ?_⟩
    rw [hop.1] at hliteral
    cases hliteral
  | run _ hlimit => exact (fits_run_iff rfl).mpr (exceededLimit?_eq_none_iff.mp hlimit)
  | label | subroutine | call => exact fits_of_unset rfl
  | jump | jumpIfZero => exact fits_jump rfl

/-! ## Reading for another model -/

def Program.withProfile (p : Program) (profile : Profile) : Program := { p with profile }

namespace Reader

variable {t : Token} {r r' : Reader} {profile : Profile}

def withProfile (r : Reader) (profile : Profile) : Reader :=
  { r with program := r.program.withProfile profile }

theorem Step.withProfile (h : Step t r r') (hfits : ∀ i ∈ r'.program.items.toList, i.Fits profile) :
    Step t (r.withProfile profile) (r'.withProfile profile) := by
  cases h with
  | @emit p nest new h =>
    refine .emit (p := p.withProfile profile) ?_
    cases h with
    | label hk => exact .label hk
    | call hk => exact .call hk
    | block hk h => exact .block hk h
    | @opcode op hk hop =>
      have hsupports := hfits (.ofOpcode op t.pos) (by simp) op rfl
      exact .opcode hk ⟨hop.1, hop.2.1, hop.2.2.1, hsupports.1⟩
  | @firstLiteral p w hk hn hopen =>
    exact .firstLiteral (p := p.withProfile profile) hk hn hopen
  | @nextLiteral p w front run hk hn hitems hrun _ =>
    have hle := Item.length_lt_of_fits_push hrun (hfits (run.push w) (by simp))
    exact .nextLiteral (p := p.withProfile profile) hk hn hitems hrun
      (Item.exceededLimit?_eq_none_iff.mpr hle)
  | goto hk => exact .goto hk
  | sub hk => exact .sub hk
  | @target p _ => exact .target (p := p.withProfile profile)
  | @declaration p _ hk => exact .declaration (p := p.withProfile profile) hk

theorem Step.fits (h : Step t r r') (hfits : ∀ i ∈ r'.program.items.toList, i.Fits profile) :
    ∀ i ∈ r.program.items.toList, i.Fits profile := by
  cases h with
  | emit | firstLiteral | target | declaration =>
    intro i hi
    exact hfits i (List.mem_append_left _ hi)
  | @nextLiteral p w front run _ _ hitems hrun _ =>
    change ∀ i ∈ p.items.toList, _
    rw [hitems]
    intro i hi
    rcases List.mem_append.mp hi with hi | hi
    · exact hfits i (List.mem_append_left _ hi)
    · -- the run at the end has only grown
      rw [List.mem_singleton.mp hi, Item.fits_run_iff hrun]
      have hlt := Item.length_lt_of_fits_push hrun (hfits (run.push w) (by simp))
      omega
  | goto => exact hfits
  | sub => exact hfits

/-- Tokens that are read into items that fit another model are read for that model too. -/
theorem Reads.withProfile {ts : List Token} (h : Reads ts r r')
    (hfits : ∀ i ∈ r'.program.items.toList, i.Fits profile) :
    Reads ts (r.withProfile profile) (r'.withProfile profile) ∧
      ∀ i ∈ r.program.items.toList, i.Fits profile := by
  induction ts generalizing r with
  | nil =>
    rw [reads_nil] at h
    subst h
    exact ⟨reads_nil.mpr rfl, hfits⟩
  | cons t ts ih =>
    obtain ⟨r₁, ht, hts⟩ := reads_cons.mp h
    obtain ⟨hreads, hfits₁⟩ := ih hts
    exact ⟨reads_cons.mpr ⟨_, ht.withProfile hfits₁, hreads⟩, ht.fits hfits₁⟩

end Reader

/-! ## Resolving for another model -/

namespace Program

variable {profile : Profile}

theorem forM_declare_of_hasSlots {profile' : Profile} {items : List Item} {n : Nat}
    {t : Symbols Command} {s : Declarations}
    (h : (items.forM (declare profile)).run (t, n) = .ok () s)
    (hslots : profile'.HasSlots (n + (markNames Role.subroutine? items).length)) :
    (items.forM (declare profile')).run (t, n) = .ok () s := by
  induction items generalizing t n with
  | nil => exact h
  | cons i rest ih =>
    obtain ⟨s₁, hi, hrest⟩ := forM_cons_eq_ok.mp h
    rw [markNames_cons, List.length_append] at hslots
    rcases declare_eq_ok.mp hi with ⟨hrole, rfl⟩ | ⟨name, hrole, hnew, -, rfl⟩
    · rw [hrole, Option.toList_none, List.length_nil, Nat.zero_add] at hslots
      exact forM_cons_eq_ok.mpr ⟨_, declare_eq_ok.mpr (.inl ⟨hrole, rfl⟩), ih hrest hslots⟩
    · have hname : i.role.subroutine? = some name := by rw [hrole, Role.subroutine?]
      rw [hname, Option.toList_some, List.length_singleton, ← Nat.add_assoc] at hslots
      have hroom : n < 128 ∨ profile'.subroutineLimit? = none := by
        rcases hslots with hnone | hle
        · exact .inr hnone
        · left
          omega
      exact forM_cons_eq_ok.mpr
        ⟨_, declare_eq_ok.mpr (.inr ⟨name, hrole, hnew, hroom, rfl⟩), ih hrest hslots⟩

theorem hasSlots_of_forM_declare {items : List Item} {n : Nat} {t : Symbols Command}
    {s : Declarations} (h : (items.forM (declare profile)).run (t, n) = .ok () s)
    (hn : profile.HasSlots n) :
    profile.HasSlots (n + (markNames Role.subroutine? items).length) := by
  induction items generalizing t n with
  | nil => exact hn
  | cons i rest ih =>
    obtain ⟨s₁, hi, hrest⟩ := forM_cons_eq_ok.mp h
    rw [markNames_cons, List.length_append]
    rcases declare_eq_ok.mp hi with ⟨hrole, rfl⟩ | ⟨name, hrole, -, hroom, rfl⟩
    · rw [hrole, Option.toList_none, List.length_nil, Nat.zero_add]
      exact ih hrest hn
    · have hname : i.role.subroutine? = some name := by rw [hrole, Role.subroutine?]
      rw [hname, Option.toList_some, List.length_singleton, ← Nat.add_assoc]
      refine ih hrest ?_
      rcases hroom with hlt | hnone
      · exact .inr hlt
      · exact .inl hnone

theorem markNames_settle (items : List Item) :
    markNames Role.subroutine? (items.map Item.settle) = markNames Role.subroutine? items := by
  refine (markNames_sameRole _ ?_).symm
  rw [List.forall₂_map_right_iff, List.forall₂_same]
  exact fun i _ => i.settle_sameRole

theorem complete_withProfile {d p : Program} (h : complete.run d = .ok () p)
    (hslots : profile.HasSlots (markNames Role.subroutine? d.items.toList).length) :
    complete.run (d.withProfile profile) = .ok () (p.withProfile profile) := by
  obtain ⟨st⟩ := stages_of_complete h
  have hdeclared := st.declared
  rw [← markNames_settle, ← Nat.zero_add (List.length _)] at hslots
  exact complete_of_stages { st with
    declared := forM_declare_of_hasSlots hdeclared hslots
    result := congrArg (·.withProfile profile) st.result }

theorem hasSlots_of_complete {d p : Program} (h : complete.run d = .ok () p) :
    d.profile.HasSlots (markNames Role.subroutine? d.items.toList).length := by
  obtain ⟨st⟩ := stages_of_complete h
  have hslots := hasSlots_of_forM_declare st.declared (.inr (Nat.zero_le 128))
  rw [markNames_settle, Nat.zero_add] at hslots
  exact hslots

end Program

/-! ## Resolved items -/

section resolved

variable {profile : Profile} {d p : Program}

theorem Settles.fits_draft {i j : Item} (h : Settles p i j) (hj : j.Fits profile) :
    i.Fits profile := by
  cases h with
  | opcode | label | subroutine => exact hj
  | run _ _ => exact hj
  | jump hop _ => exact Item.fits_jump hop
  | direct | general => exact Item.fits_of_unset rfl

theorem Settles.fits {i j : Item} (h : Settles p i j) (hi : i.Fits profile)
    (hcall : ∀ name, p.commands.get? name = some (.op .call) → profile.supports .call = true) :
    j.Fits profile := by
  cases h with
  | opcode | label | subroutine => exact hi
  | run _ _ => exact hi
  | jump hop _ => exact Item.fits_jump hop
  | direct => exact fun op hop => by cases hop
  | general hcommand _ =>
    intro op hop
    cases hop
    exact ⟨hcall _ hcommand, fun hliteral => by cases hliteral⟩

namespace Resolved

variable (h : Resolved d p)
include h

theorem supports_call
    (hslots : profile.HasSlots (markNames Role.subroutine? p.items.toList).length) (name : String)
    (hc : p.commands.get? name = some (.op .call)) : profile.supports .call = true := by
  rcases hslots with hnone | hle
  · cases profile with
    | micro => cases hnone
    | mini => rfl
  · obtain ⟨n, s, hs, -, hop⟩ := h.exists_place_of_command hc
    have hn := (callCommand_eq_op_iff.mp hop).1
    have hlt : n < p.subroutinePlaces.length := (List.getElem?_eq_some_iff.mp hs).1
    rw [← map_name_places _ 0, List.length_map] at hle
    change n < (places Role.subroutine? 0 p.items.toList).length at hlt
    omega

theorem fits_iff : p.Fits profile ↔ d.Fits profile := by
  constructor
  · rintro ⟨hitems, hslots⟩
    refine ⟨fun i hi => ?_, h.markNames_eq _ ▸ hslots⟩
    obtain ⟨j, hj, hij⟩ := exists_of_forall₂ h.items.flip i hi
    exact hij.fits_draft (hitems j hj)
  · rintro ⟨hitems, hslots⟩
    rw [← h.markNames_eq] at hslots
    refine ⟨fun j hj => ?_, hslots⟩
    obtain ⟨i, hi, hij⟩ := exists_of_forall₂ h.items j hj
    exact hij.fits (hitems i hi) (h.supports_call hslots)

end Resolved

end resolved

/-! ## Assembly for another model -/

section assembly

variable {profile : Profile} {ts : List Token} {p : Program}

theorem exists_resolved_of_assembleTokens (h : assembleTokens profile ts = .ok p) :
    ∃ d, Reader.Reads ts (.start profile) ⟨d, .nothing⟩ ∧ d.nest.blocks = [] ∧
      d.profile = profile ∧ d.Draft ∧ Program.complete.run d = .ok () p ∧ Resolved d p := by
  obtain ⟨d, hd, hp⟩ := assembleTokens_eq_ok.mp h
  obtain ⟨hreads, hblocks⟩ := Program.ofTokens_eq_ok.mp hd
  have hdraft : d.Draft := hreads.draft fun i hi => by cases hi
  have hfresh := Program.fresh_of_ofTokens hd
  exact ⟨d, hreads, hblocks, hreads.frame.1, hdraft, hp,
    resolved_of_complete hdraft hfresh.commands hfresh.addresses hfresh.labels hp⟩

/-- **A program fits the model that it is assembled for.** -/
theorem Program.fits_of_assembleTokens (h : assembleTokens profile ts = .ok p) :
    p.Fits profile := by
  obtain ⟨d, -, -, hprofile, hdraft, hp, hresolved⟩ := exists_resolved_of_assembleTokens h
  subst hprofile
  exact hresolved.fits_iff.mpr ⟨fun i hi => (hdraft i hi).fits, hasSlots_of_complete hp⟩

/-- **A program that fits another model is assembled for that one too.** -/
theorem Program.Fits.assembleTokens {profile' : Profile} (hfits : p.Fits profile')
    (h : assembleTokens profile ts = .ok p) :
    ServoScript.assembleTokens profile' ts = .ok (p.withProfile profile') := by
  obtain ⟨d, hreads, hblocks, -, -, hp, hresolved⟩ := exists_resolved_of_assembleTokens h
  obtain ⟨hitems, hslots⟩ := hresolved.fits_iff.mp hfits
  refine assembleTokens_eq_ok.mpr ⟨d.withProfile profile', ?_, complete_withProfile hp hslots⟩
  exact ofTokens_eq_ok.mpr ⟨(hreads.withProfile hitems).1, hblocks⟩

theorem Program.fits_of_assemble {file source : String} (h : assemble file source profile = .ok p) :
    p.Fits profile := by
  obtain ⟨q, hq, heq⟩ := assembleTokens_script_of_ok h
  exact (fits_of_assembleTokens hq).congr (congrArg items heq).symm

theorem Program.Fits.assemble {profile' : Profile} {file source : String} (hfits : p.Fits profile')
    (h : assemble file source profile = .ok p) :
    ∃ q, ServoScript.assemble file source profile' = .ok q ∧ p.items = q.items ∧
      p.Alike Eq q := by
  obtain ⟨p₁, hp₁, heq⟩ := assembleTokens_script_of_ok h
  have hitems : p.items = p₁.items := congrArg (·.items) heq
  obtain ⟨q, hq, hqp⟩ :=
    exists_assemble_of_assembleTokens ((hfits.congr hitems).assembleTokens hp₁)
  have hpq : { p with lines := #[], profile := profile' } = { q with lines := #[] } :=
    (congrArg (Program.withProfile · profile') heq).trans hqp.symm
  have halike : Program.Alike Eq { p with lines := #[], profile := profile' }
      { q with lines := #[] } := by
    rw [hpq]
    exact .refl _
  exact ⟨q, hq, congrArg (·.items) hpq, halike.of_with⟩

theorem Program.supports_of_mem_rows {file source : String}
    (h : ServoScript.assemble file source profile = .ok p) :
    ∃ rows, Image.disassemble p.image = .ok rows ∧
      ∀ row ∈ rows, ∀ op, row.instruction.command = .op op → profile.supports op = true := by
  obtain ⟨d, -, -, -, hresolved⟩ := resolved_of_assemble h
  refine ⟨_, hresolved.disassemble_eq, fun row hrow op hop => ?_⟩
  obtain ⟨x, hx, hxrow⟩ := List.mem_filterMap.mp hrow
  obtain ⟨c, hc, rfl⟩ := Option.map_eq_some_iff.mp hxrow
  obtain ⟨hcommand, -⟩ := Item.command?_of_instruction? hc
  have hmem : x.item ∈ p.items.toList := by
    obtain ⟨n, hn⟩ := List.mem_iff_getElem?.mp hx
    rw [Placed.getElem?_ofItems] at hn
    obtain ⟨i, hi, rfl⟩ := Option.map_eq_some_iff.mp hn
    exact List.mem_of_getElem? hi
  change c.command = .op op at hop
  rw [hop] at hcommand
  exact ((fits_of_assemble h).items _ hmem op hcommand).1

end assembly

/-! ## The smaller model and the larger one -/

/-- A program with at most 128 subroutines, runs of at most 32 literals and opcodes below 50. -/
structure Program.FitsMicro (p : Program) : Prop where
  subroutines : (markNames Role.subroutine? p.items.toList).length ≤ 128
  literals : ∀ i ∈ p.items.toList, ∀ op, i.command? = some (.op op) → op.isLiteral = true →
    i.args.length ≤ 32
  opcodes : ∀ i ∈ p.items.toList, ∀ op, i.command? = some (.op op) → op.code.toNat < 50

theorem Profile.micro_supports_iff {op : Opcode} :
    Profile.micro.supports op = true ↔ op.code.toNat < 50 := by
  simp [supports, firstMiniOnly, UInt8.lt_iff_toNat_lt]

theorem Program.fits_micro_iff {p : Program} : p.Fits .micro ↔ p.FitsMicro := by
  constructor
  · rintro ⟨hitems, hslots⟩
    refine ⟨hslots.resolve_left nofun, ?_, ?_⟩
    · intro i hi op hop
      exact (hitems i hi op hop).2
    · intro i hi op hop
      exact Profile.micro_supports_iff.mp (hitems i hi op hop).1
  · rintro ⟨hslots, hliterals, hopcodes⟩
    refine ⟨fun i hi op hop => ⟨?_, hliterals i hi op hop⟩, .inr hslots⟩
    exact Profile.micro_supports_iff.mpr (hopcodes i hi op hop)

/-- **The smaller model takes the scripts that fit it.** A script is assembled for it if and only if
it is assembled for the larger model into a program that has no more subroutines, literals in a run
and opcodes than it has room for. The two programs are then alike, and no instruction of the image
is one that the smaller model lacks. -/
theorem micro_assembles_what_fits (file source : String) :
    ((∃ p, assemble file source .micro = .ok p) ↔
      ∃ q, assemble file source .mini = .ok q ∧ q.FitsMicro) ∧
    (∀ p q, assemble file source .micro = .ok p → assemble file source .mini = .ok q →
      p.Alike Eq q) ∧
    ∀ p, assemble file source .micro = .ok p →
      ∃ rows, Image.disassemble p.image = .ok rows ∧
        ∀ row ∈ rows, ∀ op, row.instruction.command = .op op →
          Profile.micro.supports op = true := by
  have hmini : ∀ p, assemble file source .micro = .ok p →
      ∃ q, assemble file source .mini = .ok q ∧ q.FitsMicro ∧ p.Alike Eq q := by
    intro p hp
    have hfits := Program.fits_of_assemble hp
    obtain ⟨q, hq, hitems, halike⟩ := hfits.mini.assemble hp
    exact ⟨q, hq, Program.fits_micro_iff.mp (hfits.congr hitems), halike⟩
  refine ⟨⟨?_, ?_⟩, ?_, fun p hp => Program.supports_of_mem_rows hp⟩
  · rintro ⟨p, hp⟩
    obtain ⟨q, hq, hfits, -⟩ := hmini p hp
    exact ⟨q, hq, hfits⟩
  · rintro ⟨q, hq, hfits⟩
    obtain ⟨p, hp, -⟩ := (Program.fits_micro_iff.mpr hfits).assemble hq
    exact ⟨p, hp⟩
  · intro p q hp hq
    obtain ⟨q', hq', -, halike⟩ := hmini p hp
    cases hq.symm.trans hq'
    exact halike

/-- A loop that sets a servo, and the same loop with an operation that the smaller model lacks. -/
theorem micro_assembles_what_fits_examples :
    (∃ p q, assemble "script" "begin 7 300 servo repeat" .micro = .ok p ∧
      assemble "script" "begin 7 300 servo repeat" .mini = .ok q ∧
      p.image = [3, 4, 7, 0, 44, 1, 42, 6, 0, 0] ∧ q.FitsMicro ∧ p.Alike Eq q) ∧
    ∃ q, assemble "script" "begin 7 300 pwm repeat" .micro =
        .error ⟨⟨"script", 1, 13⟩, .miniOnly .pwm⟩ ∧
      assemble "script" "begin 7 300 pwm repeat" .mini = .ok q ∧
      q.image = [3, 4, 7, 0, 44, 1, 50, 6, 0, 0] ∧ ¬ q.FitsMicro := by
  constructor
  · obtain ⟨p, hp, himage⟩ := exists_ok_of_any
      (x := assemble "script" "begin 7 300 servo repeat" .micro)
      (q := fun p => p.image = [3, 4, 7, 0, 44, 1, 42, 6, 0, 0]) (by decide +kernel)
    obtain ⟨hmini, halike, -⟩ := micro_assembles_what_fits "script" "begin 7 300 servo repeat"
    obtain ⟨q, hq, hfits⟩ := hmini.mp ⟨p, hp⟩
    exact ⟨p, q, hp, hq, of_decide_eq_true himage, hfits, halike p q hp hq⟩
  · have herror : assemble "script" "begin 7 300 pwm repeat" .micro =
        .error ⟨⟨"script", 1, 13⟩, .miniOnly .pwm⟩ :=
      eq_error_of_rejection? (by decide +kernel)
    obtain ⟨q, hq, himage⟩ := exists_ok_of_any
      (x := assemble "script" "begin 7 300 pwm repeat" .mini)
      (q := fun q => q.image = [3, 4, 7, 0, 44, 1, 50, 6, 0, 0]) (by decide +kernel)
    refine ⟨q, herror, hq, of_decide_eq_true himage, fun hfits => ?_⟩
    obtain ⟨p, hp⟩ := (micro_assembles_what_fits "script" "begin 7 300 pwm repeat").1.mpr
      ⟨q, hq, hfits⟩
    cases hp.symm.trans herror

end ServoScript
