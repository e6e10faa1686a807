import ServoScript.Proofs.Scripts

/-!
# Labels and subroutines have name spaces of their own

Labels may be renamed among themselves, and subroutines among themselves, however the new names of
the ones relate to those of the others: resolution gives the same image, checksum and slots, and
tables with the new names in place of the old ones, or it complains about the same item in the same
way (`complete_respects_names`). A new program of items that have just been made is all that is
asked for; the items need not come from a script.
-/

namespace ServoScript

/-- New names for labels and for subroutines. Everything stays where it is. -/
def Renaming.naming {label subroutine : String → String} (hlabel : Function.Injective label)
    (hsubroutine : Function.Injective subroutine) : Renaming where
  label := label
  subroutine := subroutine
  pos := id
  lines := id
  label_injective := hlabel
  subroutine_injective := hsubroutine

/-! ## New programs -/

namespace Program

def ofItems (profile : Profile) (items : List Item) : Program := items.foldl push (empty profile)

theorem foldl_push (items : List Item) (p : Program) :
    items.foldl push p = { p with items := p.items ++ items } := by
  induction items generalizing p with
  | nil => simp
  | cons i rest ih => simp [ih, push]

theorem ofItems_eq (profile : Profile) (items : List Item) :
    ofItems profile items = { profile, items := items.toArray } := by
  rw [ofItems, foldl_push]
  simp [empty]

theorem fresh_ofItems (profile : Profile) {items : List Item} (h : ∀ i ∈ items, i.Fresh) :
    (ofItems profile items).Fresh := by
  rw [ofItems_eq]
  exact ⟨h, rfl, rfl, rfl⟩

theorem ofItems_rename {ρ : Renaming} (h : ρ.lines #[] = #[]) (profile : Profile)
    (items : List Item) :
    (ofItems profile items).rename ρ = ofItems profile (items.map (·.rename ρ)) := by
  rw [ofItems_eq, ofItems_eq]
  simp [rename, renameLabels, Symbols.map, Nest.rename, h]

end Program

/-! ## Programs with other names -/

/-- One program is another with other names for its labels and its subroutines. -/
structure Program.Renamed (label subroutine : String → String) (p q : Program) : Prop where
  image : q.image = p.image
  checksum : q.checksum = p.checksum
  slots : q.slots = p.slots
  commands : q.commands.entries = p.commands.entries.map fun e => (subroutine e.1, e.2)
  addresses : q.addresses.entries = p.addresses.entries.map fun e => (subroutine e.1, e.2)
  labels : q.labels.entries = p.labels.entries.map fun e => (label e.1, e.2)
  labelAddress? : ∀ name, q.labelAddress? (label name) = p.labelAddress? name

theorem Program.renamed_naming {label subroutine : String → String}
    (hlabel : Function.Injective label) (hsubroutine : Function.Injective subroutine)
    (p : Program) : p.Renamed label subroutine (p.rename (.naming hlabel hsubroutine)) where
  image := image_rename _ p
  checksum := checksum_rename _ p
  slots := slots_rename _ p
  commands := rfl
  addresses := rfl
  labels := rfl
  labelAddress? name := labelAddress?_rename (.naming hlabel hsubroutine) p name

/-- **Names matter only as far as they are equal, and only among labels or among subroutines.**
Resolving a program whose labels and subroutines have been renamed succeeds with the renamed result,
or fails at the same place with the same fault, renamed. -/
theorem complete_respects_names (profile : Profile) {items : List Item}
    (hitems : ∀ i ∈ items, i.Fresh) {label subroutine : String → String}
    (hlabel : Function.Injective label) (hsubroutine : Function.Injective subroutine) :
    let ρ := Renaming.naming hlabel hsubroutine
    let p := Program.ofItems profile items
    let q := Program.ofItems profile (items.map (·.rename ρ))
    (∃ p' q', Program.complete.run p = .ok () p' ∧ Program.complete.run q = .ok () q' ∧
      p'.Renamed label subroutine q') ∨
    ∃ d p' q', Program.complete.run p = .error d p' ∧
      Program.complete.run q = .error ⟨d.pos, d.fault.rename ρ⟩ q' := by
  intro ρ p q
  have htidy : p.Tidy := (Program.fresh_ofItems profile hitems).tidy
  have hq : p.rename ρ = q := Program.ofItems_rename rfl profile items
  have hrun := Program.complete_rename ρ htidy
  rw [hq] at hrun
  cases hp : Program.complete.run p with
  | ok u p' =>
    rw [hp] at hrun
    exact .inl ⟨p', p'.rename ρ, rfl, hrun, p'.renamed_naming hlabel hsubroutine⟩
  | error d p' =>
    rw [hp] at hrun
    exact .inr ⟨d, p', p'.rename ρ, rfl, hrun⟩

/-- A label and a subroutine of one name, with the jump to the one and the call of the other. -/
def homonyms : List Item :=
  let pos : Pos := ⟨"script", 1, 1⟩
  [.subroutine "go" pos, .label "go" pos, .call "go" pos, .jump "go" pos]

theorem injective_append (start : String) : Function.Injective (start ++ ·) :=
  fun _ _ => (String.append_right_inj start).mp

theorem complete_respects_names_homonyms :
    let ρ := Renaming.naming (injective_append "to_") Function.injective_id
    ∃ p' q', Program.complete.run (.ofItems .micro homonyms) = .ok () p' ∧
      Program.complete.run (.ofItems .micro (homonyms.map (·.rename ρ))) = .ok () q' ∧
      (p'.image = [0x80, 6, 0, 0] ∧ p'.commands.entries = [("go", .sub 0)] ∧
        p'.labels.entries = [("go", ⟨"script", 1, 1⟩, 0)]) ∧
      (q'.image = [0x80, 6, 0, 0] ∧ q'.commands.entries = [("go", .sub 0)] ∧
        q'.labels.entries = [("to_go", ⟨"script", 1, 1⟩, 0)]) ∧
      p'.Renamed ("to_" ++ ·) id q' := by
  intro ρ
  have hfresh : ∀ i ∈ homonyms, i.Fresh := by
    intro i hi
    simp only [homonyms, List.mem_cons, List.not_mem_nil, or_false] at hi
    rcases hi with rfl | rfl | rfl | rfl
    exacts [.subroutine, .label, .call, .jump rfl]
  obtain ⟨p, hp, htables⟩ := exists_ok_of_any (x := resolve (.ok (.ofItems .micro homonyms)))
    (q := fun p => p.image = [0x80, 6, 0, 0] ∧ p.commands.entries = [("go", .sub 0)] ∧
      p.labels.entries = [("go", ⟨"script", 1, 1⟩, 0)]) (by decide +kernel)
  obtain ⟨himage, hcommands, hlabels⟩ := of_decide_eq_true htables
  obtain ⟨p', q', hp', hq', hrenamed⟩ | ⟨d, p', q', hp', -⟩ := complete_respects_names .micro hfresh
    (injective_append "to_") Function.injective_id
  · simp only [resolve, hp', Except.ok.injEq] at hp
    subst hp
    refine ⟨p', q', hp', hq', ⟨himage, hcommands, hlabels⟩, ⟨?_, ?_, ?_⟩, hrenamed⟩
    · rw [hrenamed.image, himage]
    · rw [hrenamed.commands, hcommands]
      rfl
    · rw [hrenamed.labels, hlabels]
      rfl
  · simp only [resolve, hp'] at hp
    cases hp

end ServoScript
