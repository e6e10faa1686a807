import ServoScript.Proofs.Scripts

/-!
# The layout of a script does not matter

Two scripts with the same words in the same order are assembled alike, however their words are
spaced, broken into lines, commented, cased, and whatever the files are called
(`assemble_layout_independent`). Both are the same tokens, numbered from the left, moved to where
the words stand in the one script and in the other.
-/

namespace ServoScript

/-! ## Results that differ in positions only -/

section alike

variable (R : Pos → Pos → Prop)

structure Item.Alike (i j : Item) : Prop where
  role : i.role = j.role
  head : i.head = j.head
  args : i.args = j.args
  pos : R i.pos j.pos

/-- Programs that differ at most in the model, in source lines and, as `R` allows, in the positions
of their items. -/
structure Program.Alike (p q : Program) : Prop where
  image : p.image = q.image
  checksum : p.checksum = q.checksum
  commands : p.commands = q.commands
  addresses : p.addresses = q.addresses
  slots : p.slots = q.slots
  labelAddress? : ∀ name, p.labelAddress? name = q.labelAddress? name
  items : List.Forall₂ (Item.Alike R) p.items.toList q.items.toList

inductive Fault.Alike : Fault → Fault → Prop
  | same {fault : Fault} : (∀ name first, fault ≠ .labelAlreadyUsed name first) → Alike fault fault
  | labelAlreadyUsed {name : String} {first first' : Pos} : R first first' →
      Alike (.labelAlreadyUsed name first) (.labelAlreadyUsed name first')

structure Diag.Alike (d e : Diag) : Prop where
  pos : R d.pos e.pos
  fault : d.fault.Alike R e.fault

end alike

theorem Program.Alike.refl (p : Program) : p.Alike Eq p where
  image := rfl
  checksum := rfl
  commands := rfl
  addresses := rfl
  slots := rfl
  labelAddress? _ := rfl
  items := List.forall₂_same.mpr fun _ _ => ⟨rfl, rfl, rfl, rfl⟩

/-- The positions of the tokens that have one index in two lists. -/
def Token.Aligned (ts us : List Token) (p q : Pos) : Prop :=
  ∃ (n : Nat) (t u : Token), ts[n]? = some t ∧ us[n]? = some u ∧ p = t.pos ∧ q = u.pos

section moved

variable {R : Pos → Pos → Prop} {move move' : Pos → Pos} {lines : Array String → Array String}

theorem Item.alike_moving (i : Item) (hR : R (move i.pos) (move' i.pos)) :
    (i.rename (.moving move lines)).Alike R (i.rename (.moving move' lines)) := by
  obtain ⟨role, head, args, pos⟩ := i
  cases role <;> exact ⟨rfl, rfl, rfl, hR⟩

theorem Program.alike_moving (p : Program)
    (hR : ∀ i ∈ p.items.toList, R (move i.pos) (move' i.pos)) :
    (p.rename (.moving move lines)).Alike R (p.rename (.moving move' lines)) where
  image := (image_rename _ p).trans (image_rename _ p).symm
  checksum := (checksum_rename _ p).trans (checksum_rename _ p).symm
  commands := rfl
  addresses := rfl
  slots := (slots_rename _ p).trans (slots_rename _ p).symm
  labelAddress? name := by
    have hname : ∀ move, (p.rename (.moving move lines)).labelAddress? name =
        p.labelAddress? name := fun move => labelAddress?_rename (.moving move lines) p name
    rw [hname, hname]
  items := by
    rw [toList_items_rename, toList_items_rename, List.forall₂_map_left_iff,
      List.forall₂_map_right_iff, List.forall₂_same]
    intro i hi
    exact i.alike_moving (hR i hi)

theorem Program.Alike.of_with {p q : Program} {keep keep' : Array String} {model model' : Profile}
    (h : Alike R { p with lines := keep, profile := model }
      { q with lines := keep', profile := model' }) : p.Alike R q where
  image := h.image
  checksum := h.checksum
  commands := h.commands
  addresses := h.addresses
  slots := h.slots
  labelAddress? := h.labelAddress?
  items := h.items

theorem Diag.alike_moving {d : Diag} {places : List Pos} (hd : d.Within places)
    (hR : ∀ p ∈ places, R (move p) (move' p)) :
    (d.rename (.moving move lines)).Alike R (d.rename (.moving move' lines)) := by
  refine ⟨hR _ hd.pos, ?_⟩
  obtain ⟨pos, fault⟩ := d
  cases fault with
  | labelAlreadyUsed name first => exact .labelAlreadyUsed (hR _ (hd.first rfl))
  | _ => exact .same nofun

end moved

/-! ## Numbered tokens -/

/-- Words with their indices for columns. -/
def Token.numbered (texts : List String) : List Token :=
  texts.mapIdx fun n text => ⟨text, "", 0, n⟩

/-- Moves an index to the token that has it. -/
def Pos.ofColumn (ts : List Token) (p : Pos) : Pos := (ts[p.col]?.map (·.pos)).getD p

theorem Token.map_move_numbered (ts : List Token) :
    (numbered (ts.map (·.text))).map (Token.move (Pos.ofColumn ts)) = ts := by
  apply List.ext_getElem?
  intro n
  simp only [numbered, List.getElem?_map, List.getElem?_mapIdx]
  cases hn : ts[n]? with
  | none => rfl
  | some t => simp [Token.move, Pos.ofColumn, hn]

theorem Token.aligned_of_mem_numbered {ts us : List Token}
    (h : ts.map (·.text) = us.map (·.text)) {p : Pos}
    (hp : p ∈ (numbered (ts.map (·.text))).map (·.pos)) :
    Aligned ts us (p.ofColumn ts) (p.ofColumn us) := by
  obtain ⟨_, ht, rfl⟩ := List.mem_map.mp hp
  obtain ⟨n, hn, rfl⟩ := List.mem_mapIdx.mp ht
  have hts : n < ts.length := by simpa using hn
  have hus : n < us.length := by
    have hlength := congrArg List.length h
    simp only [List.length_map] at hlength
    omega
  refine ⟨n, ts[n], us[n], List.getElem?_eq_getElem hts, List.getElem?_eq_getElem hus, ?_, ?_⟩
  · simp [Pos.ofColumn, List.getElem?_eq_getElem hts]
  · simp [Pos.ofColumn, List.getElem?_eq_getElem hus]

/-- **Only the words of a script matter.** Two scripts with the same words are both assembled, into
programs with the same image, tables and instructions, or both refused for the same reason, with
positions that belong to corresponding words. -/
theorem assemble_layout_independent {file file' source source' : String} (profile : Profile)
    (h : (Source.script file source).map (·.text) = (Source.script file' source').map (·.text)) :
    (∃ p p', assemble file source profile = .ok p ∧ assemble file' source' profile = .ok p' ∧
      p.Alike (Token.Aligned (Source.script file source) (Source.script file' source')) p') ∨
    ∃ d d', assemble file source profile = .error d ∧ assemble file' source' profile = .error d' ∧
      d.Alike (Token.Aligned (Source.script file source) (Source.script file' source')) d' := by
  have hnumbered := Token.map_move_numbered (Source.script file source)
  have hnumbered' := Token.map_move_numbered (Source.script file' source')
  rw [← h] at hnumbered'
  -- one run on numbered words stands behind both
  cases hrun : assembleTokens profile
      (Token.numbered ((Source.script file source).map (·.text))) with
  | ok q =>
    obtain ⟨p, hp, hpq⟩ := exists_assemble_of_ok hnumbered.symm hrun
    obtain ⟨p', hp', hpq'⟩ := exists_assemble_of_ok hnumbered'.symm hrun
    have halike : Program.Alike
        (Token.Aligned (Source.script file source) (Source.script file' source'))
        { p with lines := #[] } { p' with lines := #[] } := by
      rw [hpq, hpq']
      apply q.alike_moving
      intro i hi
      exact Token.aligned_of_mem_numbered h (Program.pos_mem_of_assembleTokens hrun hi)
    exact .inl ⟨p, p', hp, hp', halike.of_with⟩
  | error e =>
    refine .inr ⟨_, _, assemble_of_error hnumbered.symm hrun,
      assemble_of_error hnumbered'.symm hrun, ?_⟩
    apply Diag.alike_moving (Diag.within_of_assembleTokens hrun)
    intro p hp
    exact Token.aligned_of_mem_numbered h hp

/-- A loop with a call, once in a line and once with a comment, other cases and line ends. -/
theorem assemble_layout_independent_loop :
    (Source.script "a" "sub go 1 300 servo begin go repeat").map (·.text) =
      (Source.script "b" "SUB\tGo # runs\r\n1\n  300 Servo\r\nBEGIN go\nrepeat").map (·.text) ∧
    ∃ p p', assemble "a" "sub go 1 300 servo begin go repeat" .mini = .ok p ∧
      assemble "b" "SUB\tGo # runs\r\n1\n  300 Servo\r\nBEGIN go\nrepeat" .mini = .ok p' ∧
      (p.image = [3, 4, 1, 0, 44, 1, 42, 128, 6, 7, 0] ∧
        p.items.toList.map (·.pos) = [⟨"a", 1, 5⟩, ⟨"a", 1, 8⟩, ⟨"a", 1, 14⟩, ⟨"a", 1, 20⟩,
          ⟨"a", 1, 26⟩, ⟨"a", 1, 29⟩, ⟨"a", 1, 29⟩]) ∧
      (p'.image = [3, 4, 1, 0, 44, 1, 42, 128, 6, 7, 0] ∧
        p'.items.toList.map (·.pos) = [⟨"b", 1, 5⟩, ⟨"b", 2, 1⟩, ⟨"b", 3, 7⟩, ⟨"b", 4, 1⟩,
          ⟨"b", 4, 7⟩, ⟨"b", 5, 1⟩, ⟨"b", 5, 1⟩]) ∧
      p.Alike (Token.Aligned (Source.script "a" "sub go 1 300 servo begin go repeat")
        (Source.script "b" "SUB\tGo # runs\r\n1\n  300 Servo\r\nBEGIN go\nrepeat")) p' := by
  have hwords : (Source.script "a" "sub go 1 300 servo begin go repeat").map (·.text) =
      (Source.script "b" "SUB\tGo # runs\r\n1\n  300 Servo\r\nBEGIN go\nrepeat").map (·.text) := by
    decide +kernel
  obtain ⟨p, hp, hplace⟩ := exists_ok_of_any
    (x := assemble "a" "sub go 1 300 servo begin go repeat" .mini)
    (q := fun p => p.image = [3, 4, 1, 0, 44, 1, 42, 128, 6, 7, 0] ∧
      p.items.toList.map (·.pos) = [⟨"a", 1, 5⟩, ⟨"a", 1, 8⟩, ⟨"a", 1, 14⟩, ⟨"a", 1, 20⟩,
        ⟨"a", 1, 26⟩, ⟨"a", 1, 29⟩, ⟨"a", 1, 29⟩]) (by decide +kernel)
  obtain ⟨p', hp', hplace'⟩ := exists_ok_of_any
    (x := assemble "b" "SUB\tGo # runs\r\n1\n  300 Servo\r\nBEGIN go\nrepeat" .mini)
    (q := fun p => p.image = [3, 4, 1, 0, 44, 1, 42, 128, 6, 7, 0] ∧
      p.items.toList.map (·.pos) = [⟨"b", 1, 5⟩, ⟨"b", 2, 1⟩, ⟨"b", 3, 7⟩, ⟨"b", 4, 1⟩,
        ⟨"b", 4, 7⟩, ⟨"b", 5, 1⟩, ⟨"b", 5, 1⟩]) (by decide +kernel)
  refine ⟨hwords, p, p', hp, hp', of_decide_eq_true hplace, of_decide_eq_true hplace', ?_⟩
  obtain ⟨r, r', hr, hr', halike⟩ | ⟨d, -, hd, -⟩ := assemble_layout_independent .mini hwords
  · cases hp.symm.trans hr
    cases hp'.symm.trans hr'
    exact halike
  · cases hp.symm.trans hd

end ServoScript
