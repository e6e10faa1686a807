import ServoScript.Proofs.Complaints
import ServoScript.Proofs.Refusals
import ServoScript.Proofs.Subroutines

/-!
# What resolution complains about

Each pass stops at the first item that it has to complain about. Pass by pass, the complaint is the
one that is foretold from the items of the program before it was touched, so resolution ends with
just `Program.firstComplaint?` (`Program.Fresh.complaint?_complete`).
-/

namespace ServoScript

/-! ## Fresh programs -/

/-- An item that resolution has not touched yet. -/
inductive Item.Fresh : Item → Prop
  | code {head : Head} {args : List Word} {pos : Pos} : Fresh ⟨.code, head, args, pos⟩
  | label {name : String} {pos : Pos} : Fresh (.label name pos)
  | jump {op : Opcode} {name : String} {pos : Pos} : op.isJump = true →
      Fresh ⟨.jump name, .set (.op op), [], pos⟩
  | subroutine {name : String} {pos : Pos} : Fresh (.subroutine name pos)
  | call {name : String} {pos : Pos} : Fresh (.call name pos)

structure Program.Fresh (p : Program) : Prop where
  items : ∀ i ∈ p.items.toList, i.Fresh
  labels : p.labels.entries = []
  commands : p.commands.entries = []
  addresses : p.addresses.entries = []

theorem Item.Drafted.fresh {profile : Profile} {i : Item} (h : i.Drafted profile) : i.Fresh := by
  cases h with
  | opcode | run => exact .code
  | label => exact .label
  | jump | jumpIfZero => exact .jump rfl
  | subroutine => exact .subroutine
  | call => exact .call

theorem Item.Fresh.push {i : Item} (h : i.Fresh) (hrun : i.head = .run) (w : Word) :
    (i.push w).Fresh := by
  cases h with
  | code => exact .code
  | label | jump | subroutine | call => cases hrun

namespace Program

theorem Fresh.grow {p : Program} (h : p.Fresh) {nest : Nest} {new : List Item}
    (hnew : ∀ i ∈ new, i.Fresh) : (p.grow nest new).Fresh := by
  refine { h with items := fun i hi => ?_ }
  rcases List.mem_append.mp hi with hi | hi
  · exact h.items i hi
  · exact hnew i hi

theorem Fresh.growRun {p : Program} (h : p.Fresh) {front : List Item} {run : Item}
    (hitems : p.items.toList = front ++ [run]) (hrun : run.head = .run) (w : Word) :
    Program.Fresh { p with items := (front ++ [run.push w]).toArray } := by
  have hold : ∀ i ∈ front ++ [run], i.Fresh := hitems ▸ h.items
  refine { h with items := fun i hi => ?_ }
  rcases List.mem_append.mp hi with hi | hi
  · exact hold i (by simp [hi])
  · rw [List.mem_singleton.mp hi]
    exact (hold run (by simp)).push hrun w

end Program

namespace Reader

variable {t : Token} {r r' : Reader}

theorem Step.fresh (h : Step t r r') (hr : r.program.Fresh) : r'.program.Fresh := by
  cases h with
  | emit h => exact hr.grow fun i hi => (h.drafted i hi).fresh
  | firstLiteral =>
    refine hr.grow fun i hi => ?_
    rw [List.mem_singleton.mp hi]
    exact .code
  | nextLiteral _ _ hitems hrun _ => exact hr.growRun hitems hrun _
  | goto | sub => exact hr
  | target =>
    refine hr.grow fun i hi => ?_
    rw [List.mem_singleton.mp hi]
    exact .jump rfl
  | declaration =>
    refine hr.grow fun i hi => ?_
    rw [List.mem_singleton.mp hi]
    exact .subroutine

theorem Refuses.fresh {d : Diag} (h : Refuses t r d r') (hr : r.program.Fresh) :
    r'.program.Fresh := by
  cases h with
  | token => exact hr
  | literal _ _ hitems hrun _ => exact hr.growRun hitems hrun _

theorem fresh_afterLines (profile : Profile) (script : List (String × List Token)) :
    ((start profile).afterLines script).program.Fresh := by
  refine afterLines_invariant (P := fun r => r.program.Fresh) (fun _ hr => { hr with })
    Step.fresh Refuses.fresh script ⟨?_, rfl, rfl, rfl⟩
  intro i hi
  cases hi

end Reader

theorem Program.fresh_of_read {file source : String} {profile : Profile} {p : Program}
    (h : Program.read file source profile = .ok p) : p.Fresh := by
  obtain ⟨q, hreads, -, hp⟩ := reads_of_read h
  have hstart : (Reader.start profile).program.Fresh := by
    refine ⟨fun i hi => ?_, rfl, rfl, rfl⟩
    cases hi
  have hfresh : q.Fresh := hreads.invariant (P := fun r => r.program.Fresh) Reader.Step.fresh hstart
  rw [hp]
  exact { hfresh with }

/-! ## Declarations -/

namespace Program

/-- The declarations so far are those of the items before. -/
structure DeclaredBy (profile : Profile) (before : List Item) (s : Declarations) : Prop where
  names : s.1.names = markNames Role.subroutine? before
  nodup : s.1.names.Nodup
  count : s.2 = s.1.names.length
  room : profile = .micro → s.2 ≤ 128

theorem complaint?_declare {profile : Profile} {before : List Item} {s : Declarations}
    (h : DeclaredBy profile before s) (i : Item) :
    complaint? ((declare profile i).run s) = Complaint.declaration? profile before i := by
  obtain ⟨t, n⟩ := s
  rw [EStateM.run, declare, Complaint.declaration?]
  cases hrole : i.role with
  | subroutine name =>
    have hcount : t.names.length = n := h.count.symm
    simp only [← h.names, ← Symbols.contains_iff_mem_names, h.nodup.dedup, hcount]
    cases hmem : t.contains name with
    | true => rfl
    | false =>
      cases profile with
      | micro =>
        have hle : n ≤ 128 := h.room rfl
        by_cases hlt : n < 128
        · have hne : n ≠ 128 := by omega
          simp [hlt, hne, complaint?]
        · have heq : n = 128 := by omega
          simp [heq, complaint?, Profile.subroutineLimit?]
      | mini =>
        by_cases hlt : n < 128
        · simp [hlt, complaint?]
        · simp [hlt, complaint?, Profile.subroutineLimit?]
  | code | label | jump | call => rfl

theorem DeclaredBy.step {profile : Profile} {before : List Item} {s s₁ : Declarations} {i : Item}
    (h : DeclaredBy profile before s) (hi : (declare profile i).run s = .ok () s₁) :
    DeclaredBy profile (before ++ [i]) s₁ := by
  obtain ⟨t, n⟩ := s
  have hbefore : markNames Role.subroutine? (before ++ [i]) =
      t.names ++ i.role.subroutine?.toList := by
    rw [h.names, markNames_append, markNames_cons]
    simp [markNames]
  rcases declare_eq_ok.mp hi with ⟨hrole, rfl⟩ | ⟨name, hrole, hnew, hroom, rfl⟩
  · refine { h with names := ?_ }
    rw [hbefore, hrole, Option.toList_none, List.append_nil]
  · have hnames : (t.insert name (callCommand n)).names = t.names ++ [name] := by
      rw [Symbols.names_insert, if_neg hnew]
    refine ⟨?_, ?_, ?_, ?_⟩
    · rw [hnames, hbefore, hrole]
      rfl
    · rw [hnames, ← List.concat_eq_append]
      exact List.Nodup.concat hnew h.nodup
    · rw [hnames, List.length_append, ← h.count]
      rfl
    · rintro rfl
      rcases hroom with hlt | hnone
      · exact hlt
      · cases hnone

theorem complaint?_forM_declare {profile : Profile} (items : List Item) {before : List Item}
    {s : Declarations} (h : DeclaredBy profile before s) :
    complaint? ((items.forM (declare profile)).run s) =
      firstComplaint (Complaint.declaration? profile) before items := by
  induction items generalizing before s with
  | nil => rfl
  | cons i rest ih =>
    refine complaint?_bind (complaint?_declare h i) ?_
    rintro ⟨⟩ s₁ hi
    exact ih (h.step hi)

theorem complaint?_declareSubroutines {p : Program} (h : p.commands.entries = []) :
    complaint? (declareSubroutines.run p) =
      firstComplaint (Complaint.declaration? p.profile) [] p.items.toList := by
  have hnames : p.commands.names = [] := by rw [Symbols.names, h, List.map_nil]
  have hnone : DeclaredBy p.profile [] (p.commands, 0) :=
    ⟨hnames, hnames ▸ List.nodup_nil, by rw [hnames]; rfl, fun _ => Nat.zero_le _⟩
  rw [← complaint?_forM_declare p.items.toList hnone, EStateM.run, declareSubroutines]
  cases (p.items.toList.forM (declare p.profile)).run (p.commands, 0) <;> rfl

/-! ## Changes of items -/

theorem complaint?_amendFrom (change : Item → Except Diag Item) (done : Array Item)
    (before items : List Item) : complaint? (amendFrom change done items) =
      firstComplaint (fun _ i => rejection? (change i)) before items := by
  induction items generalizing done before with
  | nil => rfl
  | cons i rest ih =>
    rw [amendFrom, firstComplaint]
    cases hi : change i with
    | ok j => exact ih _ _
    | error d => rfl

theorem complaint?_amend (change : Item → Except Diag Item) (p : Program) :
    complaint? ((amend change).run p) =
      firstComplaint (fun _ i => rejection? (change i)) [] p.items.toList := by
  rw [← complaint?_amendFrom change #[] [] p.items.toList, EStateM.run, amend]
  cases amendFrom change #[] p.items.toList <;> rfl

/-! ## Addresses -/

theorem map_find?_ofItems (items : List Item) {before : List Item} {addr : Nat}
    (haddr : addr = Item.span Item.size before) :
    ((Placed.ofItems addr items).find? (65535 < ·.addr)).map
        (fun x => (⟨x.item.pos, .programTooLarge x.addr⟩ : Diag)) =
      firstComplaint (Complaint.address? Item.size) before items := by
  induction items generalizing addr before with
  | nil => rfl
  | cons i rest ih =>
    have hnext : addr + i.size = Item.span Item.size (before ++ [i]) := by
      rw [Item.span_append, haddr]
      rfl
    rw [Placed.ofItems_cons, List.find?_cons, firstComplaint, ← ih hnext, Complaint.address?,
      ← haddr]
    by_cases hlarge : 65535 < addr
    · simp [hlarge]
    · simp [hlarge]

theorem rejection?_checkedLayout (p : Program) : rejection? p.checkedLayout =
    firstComplaint (Complaint.address? Item.size) [] p.items.toList := by
  rw [← map_find?_ofItems p.items.toList (show 0 = Item.span Item.size [] from rfl),
    ← toList_layout, Array.find?_toList]
  unfold checkedLayout
  dsimp only
  cases p.layout.find? (65535 < ·.addr) <;> rfl

theorem complaint?_placeSubroutines (p : Program) : complaint? (placeSubroutines.run p) =
    firstComplaint (Complaint.address? Item.size) [] p.items.toList := by
  rw [← rejection?_checkedLayout, EStateM.run, placeSubroutines]
  cases p.checkedLayout <;> rfl

/-! ## Labels -/

/-- The labels in a table are those of the items before, each with the position of the first of its
name. -/
def LabelsOf (before : List Item) (t : Symbols (Pos × Word)) : Prop :=
  ∀ name, (t.get? name).map (·.1) = (before.find? (·.role = .label name)).map (·.pos)

theorem complaint?_defineLabel {before : List Item} {t : Symbols (Pos × Word)}
    (ht : LabelsOf before t) (x : Placed) :
    complaint? ((defineLabel x).run t) = Complaint.label? before x.item := by
  rw [EStateM.run, defineLabel, Complaint.label?]
  cases hrole : x.item.role with
  | label name =>
    have hname := ht name
    dsimp only
    cases hget : t.get? name with
    | none =>
      rw [hget, Option.map_none, eq_comm, Option.map_eq_none_iff] at hname
      rw [hname]
      rfl
    | some entry =>
      obtain ⟨first, addr⟩ := entry
      rw [hget, Option.map_some, eq_comm] at hname
      obtain ⟨i, hi, rfl⟩ := Option.map_eq_some_iff.mp hname
      rw [hi]
      rfl
  | code | jump | subroutine | call => rfl

theorem LabelsOf.step {before : List Item} {t t₁ : Symbols (Pos × Word)} {x : Placed}
    (ht : LabelsOf before t) (h : (defineLabel x).run t = .ok () t₁) :
    LabelsOf (before ++ [x.item]) t₁ := by
  intro other
  rw [List.find?_append]
  rcases defineLabel_eq_ok.mp h with ⟨hrole, rfl⟩ | ⟨name, hrole, hnew, rfl⟩
  · have hother : x.item.role ≠ .label other := by
      intro heq
      rw [heq] at hrole
      cases hrole
    simp [ht other, hother]
  · rw [Symbols.get?_insert]
    by_cases heq : other = name
    · subst heq
      have hnone := ht other
      rw [Symbols.get?_eq_none_iff.mpr hnew, Option.map_none, eq_comm,
        Option.map_eq_none_iff] at hnone
      simp [hnone, hrole]
    · have hother : x.item.role ≠ .label other := by
        intro h'
        rw [hrole] at h'
        cases h'
        exact heq rfl
      simp [heq, ht other, hother]

theorem complaint?_forM_defineLabel (items : List Item) (addr : Nat) {before : List Item}
    {t : Symbols (Pos × Word)} (ht : LabelsOf before t) :
    complaint? (((Placed.ofItems addr items).forM defineLabel).run t) =
      firstComplaint Complaint.label? before items := by
  induction items generalizing before addr t with
  | nil => rfl
  | cons i rest ih =>
    rw [Placed.ofItems_cons]
    refine complaint?_bind (complaint?_defineLabel ht ⟨addr, i⟩) ?_
    rintro ⟨⟩ t₁ h
    exact ih _ (ht.step h)

theorem complaint?_defineLabels {p : Program} (hlabels : p.labels.entries = [])
    (haddr : Addressable p.items.toList) : complaint? (defineLabels.run p) =
      firstComplaint Complaint.label? [] p.items.toList := by
  have hempty : LabelsOf [] p.labels := by
    intro name
    rw [Symbols.get?, hlabels]
    rfl
  rw [← complaint?_forM_defineLabel p.items.toList 0 hempty, EStateM.run, defineLabels,
    checkedLayout_eq_ok_iff.mpr ⟨haddr, rfl⟩]
  simp only [toList_layout]
  cases ((Placed.ofItems 0 p.items.toList).forM defineLabel).run p.labels <;> rfl

end Program

/-! ## Fresh items through the passes -/

theorem Item.settle_sameRole (i : Item) : i.SameRole i.settle := by
  unfold settle
  split <;> exact ⟨rfl, rfl⟩

theorem Item.bytes_settle (i : Item) : i.settle.bytes = i.bytes := by
  obtain ⟨role, head, args, pos⟩ := i
  cases head <;> rfl

theorem Item.Fresh.settle_eq {i : Item} (h : i.Fresh) (hrole : i.role ≠ .code) :
    i.settle = i := by
  cases h with
  | code => exact absurd rfl hrole
  | label | jump | subroutine | call => rfl

namespace Program

variable {commands : Symbols Command} {subs : List String}

theorem rejection?_resolveCall (hnames : commands.names = subs) {i : Item} (h : i.Fresh) :
    rejection? (resolveCall commands i.settle) = Complaint.call? subs i := by
  cases h with
  | @code head args pos => cases head <;> rfl
  | label | jump | subroutine => rfl
  | @call name pos =>
    rw [Item.Fresh.settle_eq .call (by simp [Item.call]), resolveCall, Complaint.call?, ← hnames]
    dsimp only [Item.call]
    cases hget : commands.get? name with
    | none =>
      rw [if_neg (Symbols.get?_eq_none_iff.mp hget)]
      rfl
    | some c =>
      rw [if_pos (Symbols.mem_names_of_get? hget)]
      rfl

theorem finalSize_of_resolveCall
    (hcommands : ∀ name c, commands.get? name = some c → c = callCommand (subs.idxOf name))
    {i j : Item} (h : i.Fresh) (hj : resolveCall commands i.settle = .ok j) :
    i.SameRole j ∧ j.size = i.finalSize subs := by
  cases h with
  | @code head args pos =>
    have hjs : j = Item.settle ⟨.code, head, args, pos⟩ := by
      cases head <;> cases hj <;> rfl
    subst hjs
    refine ⟨Item.settle_sameRole _, ?_⟩
    rw [Item.size, Item.bytes_settle]
    rfl
  | label | jump | subroutine =>
    cases hj
    exact ⟨⟨rfl, rfl⟩, rfl⟩
  | @call name pos =>
    rw [Item.Fresh.settle_eq .call (by simp [Item.call])] at hj
    rcases resolveCall_eq_ok.mp hj with ⟨hrole, -⟩ | ⟨name', c, hrole, hc, -, rfl⟩
    · exact absurd rfl (hrole name)
    · cases hrole
      refine ⟨⟨rfl, rfl⟩, ?_⟩
      rw [hcommands name c hc]
      unfold callCommand Item.finalSize
      by_cases hlt : subs.idxOf name < 128
      · simp [hlt, Item.call, Item.size, Item.bytes, Item.command?, Instruction.encode,
          Instruction.operandBytes, Command.operand]
      · simp [hlt, Item.call, Item.size, Item.bytes, Item.command?, Instruction.encode,
          Instruction.operandBytes, Command.operand, Opcode.operand, Word.bytes]

theorem rejection?_aimJump {labels : Symbols (Pos × Word)} {names : List String}
    (hnames : labels.names = names) (i : Item) :
    rejection? (aimJump labels i) = Complaint.jump? names i := by
  rw [aimJump, Complaint.jump?]
  cases hrole : i.role with
  | jump name =>
    dsimp only
    rw [← hnames]
    cases hget : labels.get? name with
    | none =>
      rw [if_neg (Symbols.get?_eq_none_iff.mp hget)]
      rfl
    | some entry =>
      rw [if_pos (Symbols.mem_names_of_get? hget)]
      rfl
  | code | label | subroutine | call => rfl

end Program

/-! ## All passes -/

namespace Program.Fresh

variable {d : Program} (h : d.Fresh)
include h

omit h in
theorem settled_sameRole (d : Program) :
    List.Forall₂ Item.SameRole d.items.toList (completeLiterals d).items.toList := by
  rw [completeLiterals, Array.toList_map, List.forall₂_map_right_iff, List.forall₂_same]
  exact fun i _ => i.settle_sameRole

theorem complaint?_declareSubroutines :
    complaint? (declareSubroutines.run (completeLiterals d)) =
      firstComplaint (Complaint.declaration? d.profile) [] d.items.toList := by
  rw [Program.complaint?_declareSubroutines (p := completeLiterals d) h.commands]
  exact (firstComplaint_congr (settled_sameRole d) .nil
    (Complaint.declaration?_congr d.profile)).symm

theorem commands_of_declareSubroutines {p : Program} {u : Unit}
    (hp : declareSubroutines.run (completeLiterals d) = .ok u p) :
    ∃ commands, p = { completeLiterals d with commands } ∧
      commands.names = markNames Role.subroutine? d.items.toList ∧
      ∀ name c, commands.get? name = some c →
        c = callCommand ((markNames Role.subroutine? d.items.toList).idxOf name) := by
  obtain ⟨commands, n, hdeclared, rfl⟩ := declareSubroutines_eq_ok.mp hp
  obtain ⟨hentries, hnodup⟩ := forM_declare hdeclared
  have hcommands : (completeLiterals d).commands.entries = [] := h.commands
  rw [hcommands, List.nil_append, ← markNames_sameRole _ (settled_sameRole d)] at hentries
  have hnames : commands.names = markNames Role.subroutine? d.items.toList := by
    rw [Symbols.names, hentries]
    apply List.ext_getElem?
    intro k
    simp [Function.comp_def]
  have hnodup : commands.names.Nodup := by
    apply hnodup
    rw [Symbols.names, hcommands]
    exact List.nodup_nil
  refine ⟨commands, rfl, hnames, fun name c hc => ?_⟩
  rw [Symbols.get?_eq_some_iff hnodup, hentries, List.mem_mapIdx] at hc
  obtain ⟨k, hk, heq⟩ := hc
  cases heq
  rw [hnames] at hnodup
  rw [hnodup.idxOf_getElem, Nat.zero_add]

theorem complaint?_resolveCalls {commands : Symbols Command}
    (hnames : commands.names = markNames Role.subroutine? d.items.toList) :
    complaint? (resolveCalls.run { completeLiterals d with commands }) =
      firstComplaint (fun _ => Complaint.call? (markNames Role.subroutine? d.items.toList)) []
        d.items.toList := by
  have hsettled : List.Forall₂ (fun i j => i.Fresh ∧ j = i.settle) d.items.toList
      (completeLiterals d).items.toList := by
    rw [completeLiterals, Array.toList_map, List.forall₂_map_right_iff, List.forall₂_same]
    exact fun i hi => ⟨h.items i hi, rfl⟩
  have hcalls := complaint?_amend (resolveCall commands) { completeLiterals d with commands }
  refine hcalls.trans (firstComplaint_congr hsettled .nil ?_).symm
  rintro - - i - - ⟨hi, rfl⟩
  exact (rejection?_resolveCall hnames hi).symm

theorem sizes_of_resolveCalls {commands : Symbols Command}
    (hcommands : ∀ name c, commands.get? name = some c →
      c = callCommand ((markNames Role.subroutine? d.items.toList).idxOf name))
    {called : List Item} (hcalled : List.Forall₂ (fun i j => resolveCall commands i = .ok j)
      (completeLiterals d).items.toList called) :
    List.Forall₂ (fun i j => i.SameRole j ∧
      j.size = i.finalSize (markNames Role.subroutine? d.items.toList)) d.items.toList called := by
  rw [completeLiterals, Array.toList_map, List.forall₂_map_left_iff] at hcalled
  refine ((List.forall₂_and_left _ _).mpr ⟨h.items, hcalled⟩).imp ?_
  rintro i j ⟨hi, hj⟩
  exact finalSize_of_resolveCall hcommands hi hj

theorem complaint?_completeCalls :
    complaint? (completeCalls.run (completeLiterals d)) = d.callComplaint? := by
  rw [callComplaint?]
  refine complaint?_bind h.complaint?_declareSubroutines ?_
  rintro ⟨⟩ p₂ h₂
  obtain ⟨commands, rfl, hnames, hcommands⟩ := h.commands_of_declareSubroutines h₂
  refine complaint?_bind (h.complaint?_resolveCalls hnames) ?_
  rintro ⟨⟩ p₃ h₃
  obtain ⟨called, hcalled, rfl⟩ := amend_eq_ok.mp h₃
  have hsizes := h.sizes_of_resolveCalls hcommands hcalled
  refine Eq.trans (complaint?_bind ?_ fun _ _ _ => rfl) Option.or_none
  rw [complaint?_placeSubroutines]
  exact (firstComplaint_congr hsizes .nil fun hb hij => Complaint.address?_congr hb hij.1).symm

/-- When the calls are resolved, every item has its final size and starts at an address of 16
bits. -/
theorem sizes_of_completeCalls {p : Program} {u : Unit}
    (hp : completeCalls.run (completeLiterals d) = .ok u p) :
    p.labels = d.labels ∧ Addressable p.items.toList ∧
      List.Forall₂ (fun i j => i.SameRole j ∧
        j.size = i.finalSize (markNames Role.subroutine? d.items.toList))
        d.items.toList p.items.toList := by
  obtain ⟨⟨⟩, p₂, h₂, hp⟩ := run_bind_eq_ok.mp hp
  obtain ⟨⟨⟩, p₃, h₃, hp⟩ := run_bind_eq_ok.mp hp
  obtain ⟨⟨⟩, p₄, h₄, hp⟩ := run_bind_eq_ok.mp hp
  obtain ⟨commands, rfl, -, hcommands⟩ := h.commands_of_declareSubroutines h₂
  obtain ⟨called, hcalled, rfl⟩ := amend_eq_ok.mp h₃
  obtain ⟨haddr, rfl⟩ := placeSubroutines_eq_ok.mp h₄
  rw [run_modify_eq_ok] at hp
  subst hp
  have hsizes := h.sizes_of_resolveCalls hcommands hcalled
  have hpassed : ∀ addresses : Symbols Word,
      List.Forall₂ Item.SameMark called (called.map (passAddress addresses)) := by
    intro addresses
    rw [List.forall₂_map_right_iff, List.forall₂_same]
    exact fun i _ => passAddress_sameMark addresses i
  rw [passAddresses, Array.toList_map]
  refine ⟨rfl, Addressable.congr haddr (hpassed _), ?_⟩
  refine forall₂_comp hsizes (hpassed _) ?_
  rintro i - j l ⟨⟨hrole, hpos⟩, hsize⟩ ⟨hrole', hpos', hsize'⟩
  exact ⟨⟨hrole.trans hrole', hpos.trans hpos'⟩, hsize'.symm.trans hsize⟩

omit h in
theorem complaint?_completeJumps {p : Program} (hlabels : p.labels.entries = [])
    (haddr : Addressable p.items.toList)
    (hroles : List.Forall₂ Item.SameRole d.items.toList p.items.toList) :
    complaint? (completeJumps.run p) = d.jumpComplaint? := by
  rw [jumpComplaint?]
  refine complaint?_bind ?_ ?_
  · rw [complaint?_defineLabels hlabels haddr]
    exact (firstComplaint_congr hroles .nil Complaint.label?_congr).symm
  · rintro ⟨⟩ p₆ h₆
    obtain ⟨-, labels, hdefined, rfl⟩ := defineLabels_eq_ok.mp h₆
    have hnames : labels.names = markNames Role.label? d.items.toList := by
      rw [Symbols.names, (forM_defineLabel hdefined).1, hlabels, List.nil_append, List.map_map]
      change (places Role.label? 0 p.items.toList).map (·.name) = _
      rw [map_name_places, markNames_sameRole _ hroles]
    refine (complaint?_amend (aimJump labels) { p with labels }).trans ?_
    refine (firstComplaint_congr hroles .nil fun _ hij => ?_).symm
    rw [rejection?_aimJump hnames, Complaint.jump?_congr _ hij]

/-- **Resolution ends with the first complaint there is, or with none.** -/
theorem complaint?_complete : complaint? (complete.run d) = d.firstComplaint? := by
  change complaint? ((completeCalls >>= fun _ => completeJumps).run (completeLiterals d)) = _
  refine complaint?_bind h.complaint?_completeCalls ?_
  rintro ⟨⟩ p hp
  obtain ⟨hlabels, haddr, hsizes⟩ := h.sizes_of_completeCalls hp
  exact complaint?_completeJumps (hlabels ▸ h.labels) haddr (hsizes.imp fun _ _ hij => hij.1)

end Program.Fresh

/-! ## Final sizes -/

theorem Settles.role_eq {p : Program} {i j : Item} (h : Settles p i j) : j.role = i.role := by
  cases h <;> rfl

namespace Resolved

variable {d p : Program} (h : Resolved d p)
include h

theorem markNames_eq (name? : Role → Option String) :
    markNames name? p.items.toList = markNames name? d.items.toList :=
  (markNames_congr name? (h.items.imp fun _ _ hij => hij.role_eq.symm)).symm

theorem idxOf_place {n : Nat} {s : Place} (hs : p.subroutinePlaces[n]? = some s) :
    (markNames Role.subroutine? p.items.toList).idxOf s.name = n := by
  have hname : (markNames Role.subroutine? p.items.toList)[n]? = some s.name := by
    rw [← map_name_places _ 0, List.getElem?_map]
    exact congrArg (Option.map (·.name)) hs
  obtain ⟨hn, hget⟩ := List.getElem?_eq_some_iff.mp hname
  rw [← hget]
  exact h.subroutines_nodup.idxOf_getElem n hn

theorem size_of_settles {i j : Item} (hij : Settles p i j) :
    j.size = i.finalSize (markNames Role.subroutine? p.items.toList) := by
  cases hij with
  | opcode | run | label | subroutine => rfl
  | @jump op name pos addr hop _ =>
    exact Item.size_push (i := ⟨.jump name, .set (.op op), [], pos⟩) rfl
      (Opcode.operand_of_isJump hop) addr
  | @direct name pos slot hcommand =>
    obtain ⟨n, s, hs, rfl, hslot⟩ := h.exists_place_of_command hcommand
    rw [callCommand_eq_sub_iff] at hslot
    have hlt : (markNames Role.subroutine? p.items.toList).idxOf s.name < 128 := by
      rw [h.idxOf_place hs, hslot]
      exact slot.isLt
    rw [Item.finalSize]
    exact (if_pos hlt).symm
  | @general name pos addr hcommand _ =>
    obtain ⟨n, s, hs, rfl, hop⟩ := h.exists_place_of_command hcommand
    have hle : ¬(markNames Role.subroutine? p.items.toList).idxOf s.name < 128 := by
      rw [h.idxOf_place hs]
      exact Nat.not_lt.mpr (callCommand_eq_op_iff.mp hop).1
    rw [Item.finalSize]
    exact (if_neg hle).symm

theorem sizes : List.Forall₂ (fun i j => j.role = i.role ∧
    j.size = i.finalSize (markNames Role.subroutine? d.items.toList))
    d.items.toList p.items.toList := by
  rw [← h.markNames_eq]
  exact h.items.imp fun _ _ hij => ⟨hij.role_eq, h.size_of_settles hij⟩

end Resolved

/-! ## The first complaint about a script -/

theorem Program.resolved_of_read {file source : String} {profile : Profile} {d p : Program}
    (h : Program.read file source profile = .ok d) (hp : Program.complete.run d = .ok () p) :
    Resolved d p :=
  resolved_of_complete (draft_of_read h) (fresh_of_read h).commands (fresh_of_read h).addresses
    (fresh_of_read h).labels hp

theorem exists_assemble_of_read {file source : String} {profile : Profile} {d : Program}
    (h : Program.read file source profile = .ok d) (hnone : d.firstComplaint? = none) :
    ∃ p, assemble file source profile = .ok p ∧ Resolved d p := by
  have hfirst := (Program.fresh_of_read h).complaint?_complete
  rw [hnone] at hfirst
  cases hrun : Program.complete.run d with
  | ok u p =>
    refine ⟨p, ?_, Program.resolved_of_read h hrun⟩
    unfold assemble
    simp only [h, hrun]
  | error e p =>
    rw [hrun] at hfirst
    cases hfirst

/-- Resolution of a script that has been read ends with the first complaint that there is about its
items, and succeeds if there is none: first about declarations of subroutines, then about calls,
about addresses, about labels and about jumps. No item is ever given a second command, and the sizes
that the addresses are foretold with are those of the resolved items. -/
theorem complete_reports_first {file source : String} {profile : Profile} {d : Program}
    (h : Program.read file source profile = .ok d) :
    complaint? (Program.complete.run d) = d.firstComplaint? ∧
      (∀ pos p, Program.complete.run d ≠ .error ⟨pos, .opcodeAlreadySet⟩ p) ∧
      ∀ p, Program.complete.run d = .ok () p →
        List.Forall₂ (fun i j => j.role = i.role ∧
          j.size = i.finalSize (markNames Role.subroutine? d.items.toList))
          d.items.toList p.items.toList := by
  have hfirst := (Program.fresh_of_read h).complaint?_complete
  refine ⟨hfirst, ?_, ?_⟩
  · intro pos p hp
    rw [hp] at hfirst
    obtain ⟨_, _, _, -, -, hgrounds⟩ := Program.exists_grounds hfirst.symm
    cases hgrounds
  · intro p hp
    exact (Program.resolved_of_read h hp).sizes

/-- Two labels of one name, a call of an undeclared name and a jump to nowhere: the call is what is
complained about. -/
theorem complete_reports_first_call :
    ∃ d, Program.read "script" "a: sub x a: b goto c" .mini = .ok d ∧
      complaint? (Program.complete.run d) = some ⟨⟨"script", 1, 13⟩, .notUnderstood "B"⟩ := by
  obtain ⟨d, hd, hq⟩ := exists_ok_of_any
    (x := Program.read "script" "a: sub x a: b goto c" .mini)
    (q := fun d => d.firstComplaint? = some ⟨⟨"script", 1, 13⟩, .notUnderstood "B"⟩)
    (by decide +kernel)
  exact ⟨d, hd, (complete_reports_first hd).1.trans (of_decide_eq_true hq)⟩

end ServoScript
