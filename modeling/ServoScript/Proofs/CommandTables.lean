import ServoScript.Proofs.Operations

/-!
# The command table

Subroutines are numbered from 0 every time that the calls are resolved, while the table of their
commands stays as it was left. The numbers fit the table all the same: either there is nothing in it
yet, or the first subroutine of the program is, and nothing more is declared. So in every state that
a program can be brought into, its table has the first subroutines of the program, each with the
command of its number (`command_table_in_every_state`).
-/

namespace ServoScript

/-! ## Numbers and commands -/

theorem callCode_cases (n : Nat) : callCode n = 54 ∨ 128 ≤ callCode n ∧ callCode n - 128 < 128 := by
  unfold callCode
  split <;> omega

theorem callCode_inj {m n : Nat} (hslot : 128 ≤ callCode m) (h : callCode m = callCode n) :
    m = n := by
  unfold callCode at h hslot
  by_cases hm : m < 128
  · rw [if_pos hm] at h
    split at h <;> omega
  · rw [if_neg hm] at hslot
    omega

namespace Program

/-- The names of a table have the commands of their numbers, and the model has room for them. -/
structure Numbered (profile : Profile) (t : Symbols Command) : Prop where
  entries : t.entries = t.names.mapIdx fun n name => (name, callCommand n)
  nodup : t.names.Nodup
  room : profile = .micro → t.names.length ≤ 128

variable {profile : Profile} {t : Symbols Command} {p q : Program}

theorem Numbered.insert (h : Numbered profile t) {name : String} (hnew : name ∉ t.names)
    (hroom : t.names.length < 128 ∨ profile.subroutineLimit? = none) :
    Numbered profile (t.insert name (callCommand t.names.length)) := by
  have hnames : (t.insert name (callCommand t.names.length)).names = t.names ++ [name] := by
    rw [Symbols.names_insert, if_neg hnew]
  refine ⟨?_, ?_, ?_⟩
  · rw [Symbols.entries_insert_of_notMem _ hnew, hnames, List.mapIdx_append, ← h.entries]
    simp
  · rw [hnames, ← List.concat_eq_append]
    exact h.nodup.concat hnew
  · rintro rfl
    rw [hnames, List.length_append]
    rcases hroom with hlt | hnone
    · exact hlt
    · cases hnone

theorem numbered_declare (profile : Profile) (i : Item) :
    Triple (fun s : Declarations => Numbered profile s.1 ∧ s.2 = s.1.names.length)
      (declare profile i) (fun s => Numbered profile s.1 ∧ s.2 = s.1.names.length)
      (fun s => Numbered profile s.1 ∧ s.2 = s.1.names.length) where
  ok {s} _ s' hs h := by
    obtain ⟨t, n⟩ := s
    obtain ⟨hnumbered, hcount⟩ := hs
    dsimp only at hnumbered hcount
    subst hcount
    rcases declare_eq_ok.mp h with ⟨-, rfl⟩ | ⟨name, -, hnew, hroom, rfl⟩
    · exact ⟨hnumbered, rfl⟩
    · refine ⟨hnumbered.insert hnew hroom, ?_⟩
      rw [Symbols.names_insert, if_neg hnew, List.length_append, List.length_singleton]
  error hs h := declare_eq_error h ▸ hs

/-- Where the first subroutine of the items is in the table, nothing is declared. -/
theorem forM_declare_of_begins (profile : Profile) (n : Nat) {items : List Item}
    (hne : t.names ≠ []) (hbegins : t.names <+: markNames Role.subroutine? items) :
    ∃ d, (items.forM (declare profile)).run (t, n) = .error d (t, n) := by
  induction items with
  | nil => exact absurd (List.prefix_nil.mp hbegins) hne
  | cons i rest ih =>
    rw [markNames_cons] at hbegins
    cases hname : i.role.subroutine? with
    | none =>
      rw [hname] at hbegins
      obtain ⟨d, hd⟩ := ih hbegins
      have hi : (declare profile i).run (t, n) = .ok () (t, n) :=
        declare_eq_ok.mpr (.inl ⟨hname, rfl⟩)
      exact ⟨d, run_bind_eq_error.mpr (.inr ⟨(), _, hi, hd⟩)⟩
    | some name =>
      rw [hname, Option.toList_some, List.singleton_append] at hbegins
      obtain ⟨first, names, hnames⟩ := List.exists_cons_of_ne_nil hne
      -- the table and the items begin with the same name
      have hfirst : first = name := (List.cons_prefix_cons.mp (hnames ▸ hbegins)).1
      have hmem : name ∈ t.names := hnames ▸ hfirst ▸ List.mem_cons_self
      cases hi : (declare profile i).run (t, n) with
      | ok u s =>
        rcases declare_eq_ok.mp hi with ⟨hnone, -⟩ | ⟨other, hrole, hnew, -, -⟩
        · rw [hname] at hnone
          cases hnone
        · rw [hrole] at hname
          cases hname
          exact absurd hmem hnew
      | error d s =>
        cases declare_eq_error hi
        exact ⟨d, run_bind_eq_error.mpr (.inl hi)⟩

/-! ## The tables of a program -/

/-- The tables follow the items, the commands are numbered as the model has room for them, and only
subroutines with commands have addresses. -/
structure Registered (profile : Profile) (p : Program) : Prop extends p.InOrder where
  profile_eq : p.profile = profile
  numbered : Numbered profile p.commands
  placed : ∀ name ∈ p.addresses.names, name ∈ p.commands.names

structure Declared (profile : Profile) (p : Program) : Prop extends p.Registered profile where
  all : ∀ name ∈ markNames Role.subroutine? p.items.toList, name ∈ p.commands.names

theorem Registered.numbered_zero (hp : p.Registered profile) (hnil : p.commands.names = []) :
    Numbered profile p.commands ∧ 0 = p.commands.names.length :=
  ⟨hp.numbered, by rw [hnil, List.length_nil]⟩

theorem Registered.addresses_eq_nil (hp : p.Registered profile) (hnil : p.commands.names = []) :
    p.addresses.names = [] := by
  refine List.eq_nil_iff_forall_not_mem.mpr fun name hname => ?_
  have hmem := hp.placed name hname
  rw [hnil] at hmem
  cases hmem

theorem registered_declareSubroutines :
    Triple (Registered profile) declareSubroutines (Declared profile) (Registered profile) where
  ok {p} _ _ hp h := by
    have horder := inOrder_declareSubroutines.ok hp.toInOrder h
    have hnil := commands_eq_nil_of_declareSubroutines hp.toInOrder h
    obtain ⟨commands, n, hrun, rfl⟩ := declareSubroutines_eq_ok.mp h
    rw [hp.profile_eq] at hrun
    obtain ⟨hnumbered, -⟩ := (Triple.forM (numbered_declare profile) p.items.toList).ok
      (hp.numbered_zero hnil) hrun
    obtain ⟨hnames, -⟩ := (tabulates_declare profile).forM_ok hrun
    refine ⟨⟨horder, hp.profile_eq, hnumbered, ?_⟩, fun name hname => ?_⟩
    · rw [hp.addresses_eq_nil hnil]
      exact List.forall_mem_nil _
    · dsimp only at hnames
      rw [hnames, hnil]
      exact hname
  error {p} _ _ hp h := by
    have horder := inOrder_declareSubroutines.error hp.toInOrder h
    obtain ⟨commands, n, hrun, rfl⟩ := declareSubroutines_eq_error h
    rw [hp.profile_eq] at hrun
    by_cases hnil : p.commands.names = []
    · obtain ⟨hnumbered, -⟩ := (Triple.forM (numbered_declare profile) p.items.toList).error
        (hp.numbered_zero hnil) hrun
      refine ⟨horder, hp.profile_eq, hnumbered, ?_⟩
      rw [hp.addresses_eq_nil hnil]
      exact List.forall_mem_nil _
    · -- the first subroutine is refused at once
      obtain ⟨d, hd⟩ := forM_declare_of_begins profile 0 hnil hp.commands
      rw [hrun] at hd
      cases hd
      exact hp

theorem Registered.amended (h : p.Registered profile) {items : Array Item}
    (hsame : List.Forall₂ Item.SameRole p.items.toList items.toList) :
    Registered profile { p with items } :=
  ⟨h.toInOrder.amended hsame, h.profile_eq, h.numbered, h.placed⟩

theorem Declared.amended (h : p.Declared profile) {items : Array Item}
    (hsame : List.Forall₂ Item.SameRole p.items.toList items.toList) :
    Declared profile { p with items } :=
  ⟨h.toRegistered.amended hsame, markNames_sameRole _ hsame ▸ h.all⟩

theorem registered_resolveCalls :
    Triple (Declared profile) resolveCalls (Declared profile) (Registered profile) where
  ok hp h := by
    obtain ⟨items, hsame, rfl⟩ := (amended_sameRole sameRole_of_resolveCall _).ok rfl h
    exact hp.amended hsame
  error hp h := by
    obtain ⟨items, hsame, rfl⟩ := (amended_sameRole sameRole_of_resolveCall _).error rfl h
    exact hp.toRegistered.amended hsame

theorem names_foldl_enterAddress {items : List Item} {names : List String} {addr : Nat}
    {t : Symbols Word} (ht : ∀ name ∈ t.names, name ∈ names)
    (hitems : ∀ name ∈ markNames Role.subroutine? items, name ∈ names) :
    ∀ name ∈ ((Placed.ofItems addr items).foldl enterAddress t).names, name ∈ names := by
  induction items generalizing addr t with
  | nil => exact ht
  | cons i rest ih =>
    rw [Placed.ofItems_cons, List.foldl_cons, enterAddress_eq]
    rw [markNames_cons, List.forall_mem_append] at hitems
    refine ih ?_ hitems.2
    cases hname : i.role.subroutine? with
    | none => exact ht
    | some marker =>
      have hmarker : marker ∈ names := hitems.1 marker (by simp [hname])
      intro name hmem
      rw [Symbols.names_insert] at hmem
      split at hmem
      · exact ht name hmem
      · rcases List.mem_append.mp hmem with hold | hnew
        · exact ht name hold
        · rwa [List.mem_singleton.mp hnew]

theorem registered_placeSubroutines :
    Triple (Declared profile) placeSubroutines (Registered profile) (Registered profile) where
  ok hp h := by
    obtain ⟨-, rfl⟩ := placeSubroutines_eq_ok.mp h
    exact ⟨⟨hp.commands, hp.labels⟩, hp.profile_eq, hp.numbered,
      names_foldl_enterAddress hp.placed hp.all⟩
  error hp h := placeSubroutines_eq_error h ▸ hp.toRegistered

theorem Registered.passAddresses (h : p.Registered profile) :
    (passAddresses p).Registered profile :=
  ⟨h.toInOrder.passAddresses, h.profile_eq, h.numbered, h.placed⟩

theorem registered_completeCalls :
    Triple (Registered profile) completeCalls (Registered profile) (Registered profile) :=
  registered_declareSubroutines.bind fun _ => registered_resolveCalls.bind fun _ =>
    registered_placeSubroutines.bind fun _ => .modify fun _ hp => hp.passAddresses

theorem registered_defineLabels :
    Triple (Registered profile) defineLabels (Registered profile) (Registered profile) where
  ok hp h := by
    have horder := inOrder_defineLabels.ok hp.toInOrder h
    obtain ⟨-, labels, -, rfl⟩ := defineLabels_eq_ok.mp h
    exact ⟨horder, hp.profile_eq, hp.numbered, hp.placed⟩
  error hp h := by
    have horder := inOrder_defineLabels.error hp.toInOrder h
    rcases defineLabels_eq_error h with rfl | ⟨labels, -, rfl⟩
    · exact hp
    · exact ⟨horder, hp.profile_eq, hp.numbered, hp.placed⟩

theorem registered_aimJumps :
    Triple (Registered profile) aimJumps (Registered profile) (Registered profile) where
  ok hp h := by
    obtain ⟨items, hsame, rfl⟩ := (amended_sameRole sameRole_of_aimJump _).ok rfl h
    exact hp.amended hsame
  error hp h := by
    obtain ⟨items, hsame, rfl⟩ := (amended_sameRole sameRole_of_aimJump _).error rfl h
    exact hp.amended hsame

theorem Registered.writes {Allowed : Item → Prop} (hp : p.Registered profile)
    (h : p.Writes Allowed q) : q.Registered profile := by
  have horder := hp.toInOrder.writes h
  cases h with
  | items => exact ⟨horder, hp.profile_eq, hp.numbered, hp.placed⟩
  | value => exact ⟨horder, hp.profile_eq, hp.numbered, hp.placed⟩

/-- Whatever is pushed, and whatever fails, the tables stay as they should be. -/
theorem invariant_registered (Allowed : Item → Prop) (profile : Profile) :
    Invariant Allowed (Registered profile) where
  writes hp h := hp.writes h
  literals _ hp := ⟨hp.toInOrder.completeLiterals, hp.profile_eq, hp.numbered, hp.placed⟩
  calls := registered_completeCalls
  jumps := registered_defineLabels.bind fun _ => registered_aimJumps

theorem registered_empty (profile : Profile) : (empty profile).Registered profile := by
  refine ⟨⟨List.nil_prefix, List.nil_prefix⟩, rfl, ⟨rfl, List.nodup_nil, ?_⟩, ?_⟩
  · exact fun _ => Nat.zero_le _
  · intro name hname
    cases hname

theorem registered_performAll (profile : Profile) (ops : List Operation) :
    ((empty profile).performAll ops).Registered profile :=
  (invariant_registered (fun _ => True) profile).performAll (fun _ _ => trivial)
    (registered_empty profile) fun _ _ => trivial

/-! ## What is read off the table -/

theorem Numbered.exists_number (h : Numbered profile t) {e : String × Command}
    (he : e ∈ t.entries) : ∃ n, t.names[n]? = some e.1 ∧ e.2 = callCommand n := by
  obtain ⟨n, hn⟩ := List.mem_iff_getElem?.mp he
  rw [h.entries, List.getElem?_mapIdx] at hn
  obtain ⟨name, hname, rfl⟩ := Option.map_eq_some_iff.mp hn
  exact ⟨n, hname, rfl⟩

theorem Numbered.map_byte (h : Numbered profile t) :
    t.entries.map (fun e => (e.1, e.2.byte.toNat)) =
      t.names.mapIdx fun n name => (name, callCode n) := by
  rw [h.entries]
  apply List.ext_getElem?
  intro n
  simp [toNat_byte_callCommand, Function.comp_def]

theorem Numbered.slot_of_ne_call (h : Numbered profile t) {e : String × Command}
    (he : e ∈ t.entries) (hcall : e.2.byte ≠ Opcode.call.code) :
    128 ≤ e.2.byte.toNat ∧ e.2.byte.toNat - 128 < 128 := by
  obtain ⟨n, -, hn⟩ := h.exists_number he
  rw [hn, ne_eq, ← UInt8.toNat_inj, toNat_byte_callCommand] at hcall
  rw [hn, toNat_byte_callCommand]
  exact (callCode_cases n).resolve_left hcall

/-- No two subroutines share a slot. -/
theorem Numbered.eq_of_byte_eq (h : Numbered profile t) {e e' : String × Command}
    (he : e ∈ t.entries) (he' : e' ∈ t.entries) (hslot : 128 ≤ e.2.byte.toNat)
    (hsame : e.2.byte = e'.2.byte) : e = e' := by
  obtain ⟨n, hname, hn⟩ := h.exists_number he
  obtain ⟨n', hname', hn'⟩ := h.exists_number he'
  rw [hn, hn', ← UInt8.toNat_inj, toNat_byte_callCommand, toNat_byte_callCommand] at hsame
  rw [hn, toNat_byte_callCommand] at hslot
  obtain rfl := callCode_inj hslot hsame
  exact Prod.ext (Option.some.inj (hname.symm.trans hname')) (hn.trans hn'.symm)

theorem Registered.entries_eq (h : p.Registered profile) :
    p.commands.entries = callEntries 0 (p.subroutinePlaces.take p.commands.size) ∧
      p.commands.names = (p.subroutinePlaces.take p.commands.size).map (·.name) := by
  have hsize : p.commands.size = p.commands.names.length := by
    rw [Symbols.names, List.length_map, Symbols.size]
  have hnames : p.commands.names = (p.subroutinePlaces.take p.commands.size).map (·.name) := by
    rw [List.map_take, subroutinePlaces, map_name_places, hsize]
    exact List.prefix_iff_eq_take.mp h.commands
  refine ⟨?_, hnames⟩
  rw [h.numbered.entries, hnames, callEntries]
  apply List.ext_getElem?
  intro n
  simp only [List.getElem?_mapIdx, List.getElem?_map, Option.map_map, Function.comp_def,
    Nat.zero_add]

theorem Registered.get_slots (h : p.Registered profile) (k : Fin 128) :
    p.slots.get k = (p.commands.names[k.val]?.map p.addressOf).getD 0 := by
  obtain ⟨hentries, hnames⟩ := h.entries_eq
  have hget := getElem_foldl_enterSlot p (p.subroutinePlaces.take p.commands.size) 0
    (Vector.replicate 128 0) k.isLt
  rw [← hentries, if_pos (Nat.zero_le _), Nat.sub_zero, Vector.getElem_replicate] at hget
  rw [hnames, List.getElem?_map, Option.map_map]
  exact hget

end Program

namespace Listing

theorem map_slot?_callEntries (n : Nat) (subs : List Place) :
    ((callEntries n subs).filterMap slot?).map (fun s => (s.2, s.1.val)) =
      ((subs.map (·.name)).take (128 - n)).zipIdx n := by
  induction subs generalizing n with
  | nil => simp [callEntries]
  | cons s rest ih =>
    by_cases hn : n < 128
    · obtain ⟨hslot, -⟩ := slot?_callCommand hn s.name
      have hroom : 128 - n = 128 - (n + 1) + 1 := by omega
      rw [callEntries_cons, List.filterMap_cons_some hslot, List.map_cons, ih, hroom, List.map_cons,
        List.take_succ_cons, List.zipIdx_cons]
    · have hle := Nat.not_lt.mp hn
      rw [filterMap_slot?_of_le hle, Nat.sub_eq_zero_of_le hle, List.take_zero]
      rfl

theorem filterMap_general?_callEntries (n : Nat) (subs : List Place) :
    (callEntries n subs).filterMap general? = (subs.map (·.name)).drop (128 - n) := by
  induction subs generalizing n with
  | nil => simp [callEntries]
  | cons s rest ih =>
    rw [callEntries_cons, List.map_cons]
    by_cases hn : n < 128
    · obtain ⟨-, hgeneral⟩ := slot?_callCommand hn s.name
      have hroom : 128 - n = 128 - (n + 1) + 1 := by omega
      rw [List.filterMap_cons_none hgeneral, ih, hroom, List.drop_succ_cons]
    · have hle := Nat.not_lt.mp hn
      obtain ⟨-, hgeneral⟩ := general?_callCommand hle s.name
      rw [List.filterMap_cons_some hgeneral, ih, Nat.sub_eq_zero_of_le hle,
        Nat.sub_eq_zero_of_le (by omega), List.drop_zero, List.drop_zero]

end Listing

/-- **The command table in every state.** Whatever is done with a program, in whatever order and
whichever operations fail: the names in the command table are those of the first subroutines of the
program, all distinct, with 128 and the numbers after it for commands and 54 from the 129th on,
which only the larger model has; and whoever has an address is in the command table. So a command
other than 54 is 128 or more and leads to one of 128 slots, which no other subroutine shares; slot
`k` holds the address of subroutine `k`; and the listing has the first 128 subroutines by slot and
the others by address. -/
theorem command_table_in_every_state (profile : Profile) (ops : List Operation) :
    let p := (Program.empty profile).performAll ops
    let subroutines := markNames Role.subroutine? p.items.toList
    (∃ k ≤ subroutines.length, p.commands.entries.map (fun e => (e.1, e.2.byte.toNat)) =
      (subroutines.take k).mapIdx (fun n name => (name, callCode n)) ∧
        (profile = .micro → k ≤ 128)) ∧
    p.commands.names.Nodup ∧
    (∀ name ∈ p.addresses.names, name ∈ p.commands.names) ∧
    (∀ e ∈ p.commands.entries, e.2.byte ≠ Opcode.call.code →
      128 ≤ e.2.byte.toNat ∧ e.2.byte.toNat - 128 < 128) ∧
    (∀ e ∈ p.commands.entries, ∀ e' ∈ p.commands.entries, 128 ≤ e.2.byte.toNat →
      e.2.byte = e'.2.byte → e = e') ∧
    (∀ k : Fin 128, p.slots.get k = (p.commands.names[k.val]?.map p.addressOf).getD 0) ∧
    (Listing.direct p).map (fun s => (s.2, s.1.val)) = (p.commands.names.take 128).zipIdx ∧
    Listing.byAddress p = p.commands.names.drop 128 := by
  intro p subroutines
  have hp : p.Registered profile := Program.registered_performAll profile ops
  obtain ⟨hentries, hnames⟩ := hp.entries_eq
  have hlength : p.commands.names.length ≤ subroutines.length := hp.commands.length_le
  refine ⟨⟨p.commands.names.length, hlength, ?_, hp.numbered.room⟩, hp.numbered.nodup, hp.placed,
    fun e he hcall => hp.numbered.slot_of_ne_call he hcall,
    fun e he e' he' hslot hsame => hp.numbered.eq_of_byte_eq he he' hslot hsame,
    hp.get_slots, ?_, ?_⟩
  · rw [← List.prefix_iff_eq_take.mp hp.commands]
    exact hp.numbered.map_byte
  · rw [Listing.direct_eq, hentries, Listing.map_slot?_callEntries, hnames]
  · rw [Listing.byAddress_eq, hentries, Listing.filterMap_general?_callEntries, hnames]

end ServoScript
