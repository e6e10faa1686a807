import ServoScript.Proofs.Verdicts

/-!
# The labels of blocks

Every block that a reader opens has a number of its own, a start label from then on and an end label
once it is closed, whatever lines the reader has refused in between (`Nest.Marked`). Jumps go to
labels of the script or to labels of blocks with numbers that are in use (`Nest.Aimed`). So when no
block is open, resolution finds nothing wrong with the labels of blocks.
-/

namespace ServoScript

/-! ## Names of labels -/

namespace Block

theorem startLabelOf_eq (id : Nat) : startLabelOf id = "block_start_" ++ toString id := rfl

theorem endLabelOf_eq (id : Nat) : endLabelOf id = "block_end_" ++ toString id := rfl

theorem ofDigitChars_toString (n : Nat) : Nat.ofDigitChars 10 (toString n).toList 0 = n := by
  rw [Nat.toString_eq_repr, Nat.toList_repr, Nat.ofDigitChars_ten_toDigits]

theorem toString_inj {a b : Nat} : toString a = toString b ↔ a = b := by
  refine ⟨fun h => ?_, congrArg toString⟩
  rw [← ofDigitChars_toString a, h, ofDigitChars_toString]

theorem startLabelOf_inj {a b : Nat} : startLabelOf a = startLabelOf b ↔ a = b := by
  rw [startLabelOf_eq, startLabelOf_eq, String.append_right_inj, toString_inj]

theorem endLabelOf_inj {a b : Nat} : endLabelOf a = endLabelOf b ↔ a = b := by
  rw [endLabelOf_eq, endLabelOf_eq, String.append_right_inj, toString_inj]

theorem startLabelOf_ne_endLabelOf (a b : Nat) : startLabelOf a ≠ endLabelOf b := by
  intro h
  have hchar := congrArg (fun s : String => s.toList[6]?) h
  simp [startLabelOf_eq, endLabelOf_eq] at hchar

def LabelName (name : String) : Prop :=
  ∃ id, name = startLabelOf id ∨ name = endLabelOf id

end Block

open Block (startLabelOf endLabelOf startLabelOf_inj endLabelOf_inj startLabelOf_ne_endLabelOf
  LabelName)

theorem Reader.not_labelName_userLabel (text : String) : ¬LabelName (userLabel text) := by
  rintro ⟨id, h | h⟩
  · have hchar := congrArg (fun s : String => s.toList[0]?) h
    simp [userLabel, Block.startLabelOf_eq] at hchar
  · have hchar := congrArg (fun s : String => s.toList[0]?) h
    simp [userLabel, Block.endLabelOf_eq] at hchar

/-! ## Marks of blocks -/

theorem Role.count_concat (roles : List Role) (role other : Role) :
    (roles ++ [role]).count other = roles.count other + if role = other then 1 else 0 := by
  rw [List.count_append, List.count_singleton]
  simp only [beq_iff_eq]

namespace Nest

variable {n : Nest} {roles : List Role}

/-- The numbers of the open blocks, innermost first. -/
def openIds (n : Nest) : List Nat := n.blocks.map (·.id)

theorem openIds_of_blocks {b : Block} {bs : List Block} (h : n.blocks = b :: bs) :
    n.openIds = b.id :: bs.map (·.id) := by
  rw [openIds, h, List.map_cons]

@[simp]
theorem openIds_enter (n : Nest) (kind : BlockKind) (pos : Pos) :
    (n.enter kind pos).openIds = n.nextId :: n.openIds := rfl

@[simp]
theorem openIds_leave (n : Nest) : n.leave.openIds = n.openIds.tail := by
  rw [openIds, leave, List.map_tail]
  rfl

@[simp]
theorem nextId_enter (n : Nest) (kind : BlockKind) (pos : Pos) :
    (n.enter kind pos).nextId = n.nextId + 1 := rfl

@[simp]
theorem nextId_leave (n : Nest) : n.leave.nextId = n.nextId := rfl

/-- The open blocks and the labels among the items of a program agree. -/
structure Marked (n : Nest) (roles : List Role) : Prop where
  /-- A block has a larger number than the blocks that it is in. -/
  sorted : n.openIds.Pairwise (· > ·)
  below : ∀ id ∈ n.openIds, id < n.nextId
  /-- Every block that has been opened has one start label. -/
  starts : ∀ id, roles.count (.label (startLabelOf id)) = if id < n.nextId then 1 else 0
  /-- Every block that has been closed has one end label. -/
  ends : ∀ id, roles.count (.label (endLabelOf id)) =
    if id < n.nextId ∧ id ∉ n.openIds then 1 else 0

/-- Jumps go to labels of the script and of blocks that have been opened. -/
def Aimed (n : Nest) (roles : List Role) : Prop :=
  ∀ name, .jump name ∈ roles → (∃ text, name = Reader.userLabel text) ∨
    ∃ id < n.nextId, name = startLabelOf id ∨ name = endLabelOf id

def Unmarked (role : Role) : Prop := ∀ name, role = .label name → ¬LabelName name

theorem Unmarked.ne_start {role : Role} (h : Unmarked role) (id : Nat) :
    role ≠ .label (startLabelOf id) := fun heq => h _ heq ⟨id, .inl rfl⟩

theorem Unmarked.ne_end {role : Role} (h : Unmarked role) (id : Nat) :
    role ≠ .label (endLabelOf id) := fun heq => h _ heq ⟨id, .inr rfl⟩

namespace Marked

theorem concat (h : n.Marked roles) {role : Role} (hrole : Unmarked role) :
    n.Marked (roles ++ [role]) where
  sorted := h.sorted
  below := h.below
  starts id := by
    rw [Role.count_concat, h.starts, if_neg (hrole.ne_start id), Nat.add_zero]
  ends id := by
    rw [Role.count_concat, h.ends, if_neg (hrole.ne_end id), Nat.add_zero]

theorem enter (h : n.Marked roles) (kind : BlockKind) (pos : Pos) :
    (n.enter kind pos).Marked (roles ++ [.label (startLabelOf n.nextId)]) where
  sorted := List.pairwise_cons.mpr ⟨h.below, h.sorted⟩
  below := by
    intro id hid
    rcases List.mem_cons.mp hid with rfl | hid
    · exact Nat.lt_succ_self _
    · exact Nat.lt_succ_of_lt (h.below id hid)
  starts id := by
    rw [Role.count_concat, h.starts, nextId_enter]
    simp only [Role.label.injEq, startLabelOf_inj]
    by_cases hlt : id < n.nextId
    · rw [if_pos hlt, if_neg (by omega), if_pos (by omega)]
    · by_cases heq : n.nextId = id
      · rw [if_neg hlt, if_pos heq, if_pos (by omega)]
      · rw [if_neg hlt, if_neg heq, if_neg (by omega)]
  ends id := by
    have hne : Role.label (startLabelOf n.nextId) ≠ .label (endLabelOf id) := by
      simpa using startLabelOf_ne_endLabelOf n.nextId id
    have hiff : (id < n.nextId + 1 ∧ id ∉ n.nextId :: n.openIds) ↔
        (id < n.nextId ∧ id ∉ n.openIds) := by
      rw [List.mem_cons]
      constructor
      · rintro ⟨hlt, hmem⟩
        exact ⟨by omega, by tauto⟩
      · rintro ⟨hlt, hmem⟩
        refine ⟨by omega, ?_⟩
        rintro (rfl | hid)
        · exact absurd hlt (Nat.lt_irrefl _)
        · exact hmem hid
    rw [Role.count_concat, h.ends, if_neg hne, Nat.add_zero]
    simp only [nextId_enter, openIds_enter, hiff]

theorem leave (h : n.Marked roles) {inner : Nat} {outer : List Nat}
    (hopen : n.openIds = inner :: outer) :
    n.leave.Marked (roles ++ [.label (endLabelOf inner)]) := by
  have htail : n.leave.openIds = outer := by rw [openIds_leave, hopen, List.tail_cons]
  have hsorted := h.sorted
  rw [hopen, List.pairwise_cons] at hsorted
  have hinner : inner < n.nextId := h.below inner (hopen ▸ List.mem_cons_self)
  have hnot : inner ∉ outer := fun hmem => Nat.lt_irrefl _ (hsorted.1 inner hmem)
  refine ⟨htail ▸ hsorted.2, fun id hid => ?_, fun id => ?_, fun id => ?_⟩
  · rw [htail] at hid
    exact h.below id (hopen ▸ List.mem_cons_of_mem _ hid)
  · have hne : Role.label (endLabelOf inner) ≠ .label (startLabelOf id) := by
      simpa using (startLabelOf_ne_endLabelOf id inner).symm
    rw [Role.count_concat, h.starts, if_neg hne, Nat.add_zero, nextId_leave]
  · rw [Role.count_concat, h.ends, nextId_leave, htail, hopen]
    simp only [Role.label.injEq, endLabelOf_inj, List.mem_cons]
    by_cases heq : inner = id
    · subst heq
      simp [hinner, hnot]
    · have hne : id ≠ inner := fun h' => heq h'.symm
      simp [heq, hne]

theorem count_le_one (h : n.Marked roles) {name : String} (hname : LabelName name) :
    roles.count (.label name) ≤ 1 := by
  obtain ⟨id, rfl | rfl⟩ := hname
  · rw [h.starts]
    split_ifs <;> omega
  · rw [h.ends]
    split_ifs <;> omega

/-- When no block is open, every block that has been opened has both its labels. -/
theorem mem_of_closed (h : n.Marked roles) (hclosed : n.blocks = []) {id : Nat}
    (hid : id < n.nextId) {name : String} (hname : name = startLabelOf id ∨ name = endLabelOf id) :
    .label name ∈ roles := by
  have hnot : id ∉ n.openIds := by
    rw [openIds, hclosed]
    exact List.not_mem_nil
  rw [← List.count_pos_iff]
  rcases hname with rfl | rfl
  · rw [h.starts, if_pos hid]
    exact Nat.one_pos
  · rw [h.ends, if_pos ⟨hid, hnot⟩]
    exact Nat.one_pos

end Marked

namespace Aimed

theorem append {n' : Nest} {new : List Role} (h : n.Aimed roles) (hle : n.nextId ≤ n'.nextId)
    (hnew : n'.Aimed new) : n'.Aimed (roles ++ new) := by
  intro name hmem
  rcases List.mem_append.mp hmem with hmem | hmem
  · rcases h name hmem with htext | ⟨id, hid, hname⟩
    · exact .inl htext
    · exact .inr ⟨id, Nat.lt_of_lt_of_le hid hle, hname⟩
  · exact hnew name hmem

end Aimed

end Nest

/-! ## What the reader keeps -/

def Program.roles (p : Program) : List Role := p.items.toList.map (·.role)

/-- The blocks of a program have the labels that they should have, and jumps go to labels that there
are or will be. -/
structure Program.Labelled (p : Program) : Prop where
  marked : p.nest.Marked p.roles
  aimed : p.nest.Aimed p.roles

namespace Program

variable {p : Program}

theorem labelled_empty (profile : Profile) : (empty profile).Labelled where
  marked := ⟨.nil, fun _ hid => absurd hid List.not_mem_nil, fun _ => rfl, fun _ => rfl⟩
  aimed _ hmem := absurd hmem List.not_mem_nil

theorem Labelled.concat (h : p.Labelled) {i : Item} (hmark : Nest.Unmarked i.role)
    (haim : p.nest.Aimed [i.role]) : (p.grow p.nest [i]).Labelled where
  marked := by
    rw [roles, toList_items_grow, List.map_append]
    exact h.marked.concat hmark
  aimed := by
    rw [roles, toList_items_grow, List.map_append]
    exact h.aimed.append (Nat.le_refl _) haim

theorem Labelled.growRun (h : p.Labelled) {front : List Item} {run : Item}
    (hitems : p.items.toList = front ++ [run]) (w : Word) :
    Program.Labelled { p with items := (front ++ [run.push w]).toArray } := by
  have hroles : (front ++ [run.push w]).map (·.role) = p.roles := by
    rw [roles, hitems, List.map_append, List.map_append]
    rfl
  refine ⟨?_, ?_⟩
  · change p.nest.Marked ((front ++ [run.push w]).map (·.role))
    exact hroles ▸ h.marked
  · change p.nest.Aimed ((front ++ [run.push w]).map (·.role))
    exact hroles ▸ h.aimed

end Program

theorem Nest.aimed_singleton {n : Nest} {role : Role} (h : ∀ name, role ≠ .jump name) :
    n.Aimed [role] := fun name hmem => absurd (List.mem_singleton.mp hmem).symm (h name)

namespace Reader

variable {t : Token} {r r' : Reader}

theorem Enacts.marked {pos : Pos} {k : Keyword} {n n' : Nest} {new : List Item} {roles : List Role}
    (h : Enacts pos k n n' new) (hm : n.Marked roles) :
    n'.Marked (roles ++ new.map (·.role)) := by
  have hjump : ∀ name, Nest.Unmarked (.jump name) := nofun
  cases h with
  | loop => exact hm.enter .loop pos
  | exit _ => exact hm.concat (hjump _)
  | @again n id q bs hblocks =>
    have hleft := (hm.concat (hjump (startLabelOf id))).leave (Nest.openIds_of_blocks hblocks)
    rwa [List.append_assoc] at hleft
  | branch =>
    have hentered := (hm.enter .branch pos).concat (hjump (endLabelOf n.nextId))
    rwa [List.append_assoc] at hentered
  | @alternative n id q bs hblocks =>
    have hleft := (hm.concat (hjump (endLabelOf n.nextId))).leave (Nest.openIds_of_blocks hblocks)
    have hentered := hleft.enter .alternative pos
    rwa [List.append_assoc, List.append_assoc] at hentered
  | close _ hblocks => exact hm.leave (Nest.openIds_of_blocks hblocks)

/-- The jump at `ELSE` goes to a label of a block that is opened by the same keyword. -/
theorem Enacts.aimed {pos : Pos} {k : Keyword} {n n' : Nest} {new : List Item} {roles : List Role}
    (h : Enacts pos k n n' new) (hm : n.Marked roles) :
    n.nextId ≤ n'.nextId ∧ n'.Aimed (new.map (·.role)) := by
  cases h with
  | loop =>
    refine ⟨Nat.le_succ _, fun name hmem => ?_⟩
    simp [Item.label] at hmem
  | close =>
    refine ⟨Nat.le_refl _, fun name hmem => ?_⟩
    simp [Item.label] at hmem
  | @exit n id q bs hblocks =>
    refine ⟨Nat.le_refl _, fun name hmem => ?_⟩
    cases List.mem_singleton.mp hmem
    exact .inr ⟨id, hm.below id (by simp [Nest.openIds_of_blocks hblocks]), .inr rfl⟩
  | @again n id q bs hblocks =>
    refine ⟨Nat.le_refl _, fun name hmem => ?_⟩
    have hname : name = startLabelOf id := by simpa [Item.jump, Item.label] using hmem
    exact .inr ⟨id, hm.below id (by simp [Nest.openIds_of_blocks hblocks]), .inl hname⟩
  | branch =>
    refine ⟨Nat.le_succ _, fun name hmem => ?_⟩
    have hname : name = endLabelOf n.nextId := by simpa [Item.jumpIfZero, Item.label] using hmem
    exact .inr ⟨n.nextId, Nat.lt_succ_self _, .inr hname⟩
  | alternative _ =>
    refine ⟨Nat.le_succ _, fun name hmem => ?_⟩
    have hname : name = endLabelOf n.nextId := by simpa [Item.jump, Item.label] using hmem
    exact .inr ⟨n.nextId, Nat.lt_succ_self _, .inr hname⟩

theorem Emits.labelled {p : Program} {nest : Nest} {new : List Item}
    (h : Emits p.profile t p.nest nest new) (hp : p.Labelled) : (p.grow nest new).Labelled := by
  cases h with
  | @label name _ =>
    refine hp.concat ?_ (Nest.aimed_singleton nofun)
    intro other heq
    cases heq
    exact not_labelName_userLabel name
  | opcode | call =>
    exact hp.concat nofun (Nest.aimed_singleton nofun)
  | block _ h =>
    obtain ⟨hle, haimed⟩ := h.aimed hp.marked
    refine ⟨?_, ?_⟩
    · rw [Program.roles, Program.toList_items_grow, List.map_append]
      exact h.marked hp.marked
    · rw [Program.roles, Program.toList_items_grow, List.map_append]
      exact hp.aimed.append hle haimed

theorem Step.labelled (h : Step t r r') (hr : r.program.Labelled) : r'.program.Labelled := by
  cases h with
  | emit h => exact h.labelled hr
  | firstLiteral | declaration =>
    exact hr.concat nofun (Nest.aimed_singleton nofun)
  | nextLiteral _ _ hitems _ _ => exact hr.growRun hitems _
  | goto | sub => exact hr
  | target =>
    refine hr.concat nofun fun name hmem => ?_
    cases List.mem_singleton.mp hmem
    exact .inl ⟨t.text, rfl⟩

theorem Refuses.labelled {d : Diag} (h : Refuses t r d r') (hr : r.program.Labelled) :
    r'.program.Labelled := by
  cases h with
  | token => exact hr
  | literal _ _ hitems _ _ => exact hr.growRun hitems _

theorem labelled_afterLines (profile : Profile) (script : List (String × List Token)) :
    ((start profile).afterLines script).program.Labelled :=
  afterLines_invariant (P := fun r => r.program.Labelled) (fun _ hr => ⟨hr.marked, hr.aimed⟩)
    Step.labelled Refuses.labelled script (Program.labelled_empty profile)

end Reader

/-! ## Block labels are never at fault -/

namespace Program

variable {p : Program} {name : String}

theorem Labelled.not_used_twice (h : p.Labelled) (hname : LabelName name) {front back : List Item}
    {i first : Item} (hitems : p.items.toList = front ++ i :: back) (hi : i.role = .label name)
    (hfirst : first ∈ front) : first.role ≠ .label name := by
  intro hrole
  have hle := h.marked.count_le_one hname
  have hpos : 0 < (front.map (·.role)).count (.label name) :=
    List.count_pos_iff.mpr (List.mem_map.mpr ⟨first, hfirst, hrole⟩)
  rw [roles, hitems, List.map_append, List.map_cons, hi, List.count_append,
    List.count_cons_self] at hle
  omega

theorem Labelled.mem_markNames_of_jump (h : p.Labelled) (hclosed : p.nest.blocks = [])
    (hname : LabelName name) {i : Item} (hi : i ∈ p.items.toList) (hjump : i.role = .jump name) :
    name ∈ markNames Role.label? p.items.toList := by
  rcases h.aimed name (List.mem_map.mpr ⟨i, hi, hjump⟩) with ⟨text, rfl⟩ | ⟨id, hid, hlabel⟩
  · exact absurd hname (Reader.not_labelName_userLabel text)
  · obtain ⟨l, hl, hrole⟩ := List.mem_map.mp (h.marked.mem_of_closed hclosed hid hlabel)
    exact List.mem_filterMap.mpr ⟨l, hl, Role.label?_eq_some.mpr hrole⟩

end Program

/-- **Labels of blocks.** After any lines, whatever was refused in them, the labels and the jumps of
blocks are in order. If the script ends there, resolution has nothing to complain about them, and
labels of the script are different from them. -/
theorem block_labels_in_order (profile : Profile) (script : List (String × List Token)) :
    let r := (Reader.start profile).afterLines script
    (r.program.nest.Marked r.program.roles ∧ r.program.nest.Aimed r.program.roles) ∧
      (∀ p, r.finish = .ok p → ∀ d p', Program.complete.run p = .error d p' →
        ∀ name, LabelName name → d.fault ≠ .labelNotFound name ∧
          ∀ first, d.fault ≠ .labelAlreadyUsed name first) ∧
      ∀ text, ¬LabelName (Reader.userLabel text) := by
  intro r
  have hlabelled : r.program.Labelled := Reader.labelled_afterLines profile script
  refine ⟨⟨hlabelled.marked, hlabelled.aimed⟩, ?_, Reader.not_labelName_userLabel⟩
  intro p hfinish d p' hcomplete name hname
  obtain ⟨hr, hclosed⟩ := Reader.finish_eq_ok.mp hfinish
  obtain rfl : r.program = p := congrArg Reader.program hr
  have hfirst := (Reader.fresh_afterLines profile script).complaint?_complete
  rw [hcomplete] at hfirst
  obtain ⟨front, i, back, hitems, -, hgrounds⟩ := Program.exists_grounds hfirst.symm
  constructor
  · intro hfault
    rw [hfault] at hgrounds
    cases hgrounds with
    | labelNotFound hjump hnone =>
      have hi : i ∈ r.program.items.toList := hitems ▸ List.mem_append_right _ List.mem_cons_self
      exact hnone (hlabelled.mem_markNames_of_jump hclosed hname hi hjump)
  · intro first hfault
    rw [hfault] at hgrounds
    generalize hpos : first = pos at hgrounds
    cases hgrounds with
    | labelUsed hrole hmem hused => exact hlabelled.not_used_twice hname hitems hrole hmem hused

end ServoScript
