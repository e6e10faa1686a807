import ServoScript.Assembly
import ServoScript.Proofs.Drafts
import ServoScript.Proofs.Passes

/-!
# Resolved programs

Everything that is known of an assembled program, in terms of that program alone: what each item of
the script has become (`Settles`), and that the three tables list the markers of the finished
program, in order and with their final addresses (`Resolved`). No later module looks into a pass.
-/

namespace ServoScript

open Program

/-- What an item of a draft has become in the program `p`. -/
inductive Settles (p : Program) : Item → Item → Prop
  | opcode {op : Opcode} {pos : Pos} : op.Writable p.profile →
      Settles p (.ofOpcode op pos) (.ofOpcode op pos)
  | run {words : List Word} {pos : Pos} : words ≠ [] →
      Item.exceededLimit? p.profile words.length = none →
      Settles p ⟨.code, .run, words, pos⟩ ⟨.code, .set (.op (Item.literalOpcode words)), words, pos⟩
  | label {name : String} {pos : Pos} : Settles p (.label name pos) (.label name pos)
  | subroutine {name : String} {pos : Pos} :
      Settles p (.subroutine name pos) (.subroutine name pos)
  | jump {op : Opcode} {name : String} {pos : Pos} {addr : Word} : op.isJump = true →
      p.labelAddress? name = some addr →
      Settles p ⟨.jump name, .set (.op op), [], pos⟩ ⟨.jump name, .set (.op op), [addr], pos⟩
  | direct {name : String} {pos : Pos} {slot : Fin 128} :
      p.commands.get? name = some (.sub slot) →
      Settles p (.call name pos) ⟨.call name, .set (.sub slot), [], pos⟩
  | general {name : String} {pos : Pos} {addr : Word} :
      p.commands.get? name = some (.op .call) → p.addresses.get? name = some addr →
      Settles p (.call name pos) ⟨.call name, .set (.op .call), [addr], pos⟩

/-- `p` is the draft `d`, resolved. -/
structure Resolved (d p : Program) : Prop where
  profile : p.profile = d.profile
  items : List.Forall₂ (Settles p) d.items.toList p.items.toList
  /-- The subroutines in order of declaration, the first 128 with commands of their own. -/
  commands : p.commands.entries = (markNames Role.subroutine? p.items.toList).mapIdx
    fun n name => (name, callCommand n)
  addresses : p.addresses.entries =
    p.subroutinePlaces.map fun x => (x.name, UInt16.ofNat x.addr)
  labels : p.labels.entries = p.labelPlaces.map fun x => (x.name, x.pos, UInt16.ofNat x.addr)
  subroutines_nodup : (markNames Role.subroutine? p.items.toList).Nodup
  labels_nodup : (markNames Role.label? p.items.toList).Nodup
  addressable : Addressable p.items.toList

/-! ## One item through all passes -/

theorem settles_jump {p : Program} {name : String} {op : Opcode} {pos : Pos} {j l : Item}
    (hop : op.isJump = true)
    (hcall : resolveCall p.commands ⟨.jump name, .set (.op op), [], pos⟩ = .ok j)
    (haim : aimJump p.labels (passAddress p.addresses j) = .ok l) :
    Settles p ⟨.jump name, .set (.op op), [], pos⟩ l ∧
      Item.SameMark (passAddress p.addresses j) l := by
  cases hcall
  have hpass : passAddress p.addresses ⟨.jump name, .set (.op op), [], pos⟩ =
      ⟨.jump name, .set (.op op), [], pos⟩ := by
    have hne : op ≠ .call := by
      rintro rfl
      cases hop
    simp [passAddress, Item.command?, hne]
  rw [hpass] at haim ⊢
  rcases aimJump_eq_ok.mp haim with ⟨hrole, -⟩ | ⟨name', q, addr, hrole, hlabel, rfl⟩
  · exact absurd rfl (hrole name)
  · cases hrole
    have hword : (Command.op op).operand = .word := Opcode.operand_of_isJump hop
    refine ⟨.jump hop ?_, rfl, rfl, (Item.size_push rfl hword addr).symm⟩
    rw [labelAddress?, hlabel, Option.map_some]

theorem settles_of_passes {p : Program} {i j l : Item} (hd : i.Drafted p.profile)
    (hcall : resolveCall p.commands i.settle = .ok j)
    (haim : aimJump p.labels (passAddress p.addresses j) = .ok l)
    (hcommands : ∀ name c, p.commands.get? name = some c →
      (∃ slot, c = .sub slot) ∨ c = .op .call ∧ ∃ addr, p.addresses.get? name = some addr) :
    Settles p i l ∧ Item.SameMark (passAddress p.addresses j) l := by
  cases hd with
  | @opcode op pos hop =>
    cases hcall
    have hpass : passAddress p.addresses (.ofOpcode op pos) = .ofOpcode op pos := by
      simp [passAddress, Item.ofOpcode, Item.command?, hop.2.2.1]
    rw [show (Item.ofOpcode op pos).settle = .ofOpcode op pos from rfl, hpass] at haim ⊢
    cases haim
    exact ⟨.opcode hop, rfl, rfl, rfl⟩
  | @run words pos hne hlimit =>
    cases hcall
    have hpass : passAddress p.addresses
        ⟨.code, .set (.op (Item.literalOpcode words)), words, pos⟩ =
          ⟨.code, .set (.op (Item.literalOpcode words)), words, pos⟩ := by
      simp [passAddress, Role.name?]
    rw [show Item.settle ⟨.code, .run, words, pos⟩ =
      ⟨.code, .set (.op (Item.literalOpcode words)), words, pos⟩ from rfl, hpass] at haim ⊢
    cases haim
    exact ⟨.run hne hlimit, rfl, rfl, rfl⟩
  | @label name pos =>
    cases hcall
    cases haim
    exact ⟨.label, rfl, rfl, rfl⟩
  | @subroutine name pos =>
    cases hcall
    cases haim
    exact ⟨.subroutine, rfl, rfl, rfl⟩
  | jump => exact settles_jump rfl hcall haim
  | jumpIfZero => exact settles_jump rfl hcall haim
  | @call name pos =>
    rcases resolveCall_eq_ok.mp hcall with ⟨hrole, -⟩ | ⟨name', c, hrole, hc, -, rfl⟩
    · exact absurd rfl (hrole name)
    · cases hrole
      rcases hcommands name c hc with ⟨slot, rfl⟩ | ⟨rfl, addr, haddr⟩
      · cases haim
        exact ⟨.direct hc, rfl, rfl, rfl⟩
      · have hpass : passAddress p.addresses ⟨.call name, .set (.op .call), [], pos⟩ =
            ⟨.call name, .set (.op .call), [addr], pos⟩ := by
          simp [passAddress, Item.command?, Role.name?, haddr, Item.push]
        change aimJump p.labels (passAddress p.addresses ⟨.call name, _, [], pos⟩) = _ at haim
        change _ ∧ Item.SameMark (passAddress p.addresses ⟨.call name, _, [], pos⟩) _
        rw [hpass] at haim ⊢
        cases haim
        exact ⟨.general hc haddr, rfl, rfl, rfl⟩

/-! ## The tables -/

namespace Program.Stages

variable {d p : Program} (st : Stages d p)

theorem called_sameMark_passed : List.Forall₂ Item.SameMark st.called st.passed := by
  rw [st.passed_eq, List.forall₂_map_right_iff, List.forall₂_same]
  exact fun i _ => passAddress_sameMark st.addresses i

theorem commands_entries (hd : d.commands.entries = []) :
    st.commands.entries = (markNames Role.subroutine? st.called).mapIdx
        (fun n name => (name, callCommand n)) ∧ st.commands.names.Nodup := by
  obtain ⟨hentries, hnodup⟩ := forM_declare st.declared
  have hnames : markNames Role.subroutine? (d.items.toList.map Item.settle) =
      markNames Role.subroutine? st.called := by
    refine markNames_congr _ (st.resolved.imp fun i j hij => ?_)
    rcases resolveCall_eq_ok.mp hij with ⟨-, rfl⟩ | ⟨_, _, -, -, -, rfl⟩ <;> rfl
  rw [hd, List.nil_append, hnames] at hentries
  refine ⟨by simpa using hentries, hnodup ?_⟩
  rw [Symbols.names, hd]
  exact List.nodup_nil

theorem names_commands (hd : d.commands.entries = []) :
    st.commands.names = markNames Role.subroutine? st.called := by
  rw [Symbols.names, (st.commands_entries hd).1]
  apply List.ext_getElem?
  intro n
  simp [Function.comp_def]

theorem addresses_entries (hc : d.commands.entries = []) (ha : d.addresses.entries = []) :
    st.addresses.entries = (places Role.subroutine? 0 st.called).map
      fun x => (x.name, UInt16.ofNat x.addr) := by
  have hnames : d.addresses.names = [] := by rw [Symbols.names, ha, List.map_nil]
  rw [st.addresses_eq, foldl_enterAddress, ha, List.nil_append]
  rw [hnames, List.nil_append, ← st.names_commands hc]
  exact (st.commands_entries hc).2

theorem commands_cases (hc : d.commands.entries = []) (ha : d.addresses.entries = [])
    {name : String} {c : Command} (h : st.commands.get? name = some c) :
    (∃ slot, c = .sub slot) ∨ c = .op .call ∧ ∃ addr, st.addresses.get? name = some addr := by
  obtain ⟨hentries, hnodup⟩ := st.commands_entries hc
  have hmem := (Symbols.get?_eq_some_iff hnodup).mp h
  rw [hentries, List.mem_mapIdx] at hmem
  obtain ⟨n, hn, heq⟩ := hmem
  cases heq
  unfold callCommand
  by_cases hlt : n < 128
  · exact .inl ⟨⟨n, hlt⟩, dif_pos hlt⟩
  · refine .inr ⟨dif_neg hlt, ?_⟩
    rw [← Option.isSome_iff_exists, Option.isSome_iff_ne_none, Ne, Symbols.get?_eq_none_iff,
      not_not, Symbols.names, st.addresses_entries hc ha, List.map_map]
    change _ ∈ (places Role.subroutine? 0 st.called).map (·.name)
    rw [map_name_places]
    exact List.getElem_mem hn

end Program.Stages

/-- **Resolution.** A draft that is completed without a complaint is resolved. -/
theorem resolved_of_complete {d p : Program} (hd : d.Draft) (hc : d.commands.entries = [])
    (ha : d.addresses.entries = []) (hl : d.labels.entries = [])
    (h : complete.run d = .ok () p) : Resolved d p := by
  obtain ⟨st⟩ := stages_of_complete h
  have hcommands : p.commands = st.commands := congrArg Program.commands st.result
  have haddresses : p.addresses = st.addresses := congrArg Program.addresses st.result
  have hlabels : p.labels = st.labels := congrArg Program.labels st.result
  have hitems : p.items.toList = st.aimed := congrArg (·.items.toList) st.result
  have hprofile : p.profile = d.profile := (congrArg Program.profile st.result).trans rfl
  -- every item of the draft, followed through the passes
  have hresolved := List.forall₂_map_left_iff.mp st.resolved
  have haims : List.Forall₂ (fun j l => aimJump st.labels (passAddress st.addresses j) = .ok l)
      st.called st.aimed :=
    List.forall₂_map_left_iff.mp (st.passed_eq ▸ st.aims)
  have hone : ∀ i ∈ d.items.toList, ∀ j l, resolveCall st.commands i.settle = .ok j →
      aimJump st.labels (passAddress st.addresses j) = .ok l →
      Settles p i l ∧ Item.SameMark (passAddress st.addresses j) l := by
    intro i hi j l hcall haim
    rw [← hcommands] at hcall
    rw [← hlabels, ← haddresses] at haim
    rw [← haddresses]
    refine settles_of_passes (hprofile ▸ hd i hi) hcall haim fun name c hget => ?_
    rw [hcommands] at hget
    rw [haddresses]
    exact st.commands_cases hc ha hget
  have hsettles : List.Forall₂ (Settles p) d.items.toList st.aimed :=
    forall₂_comp hresolved haims fun i hi j l hcall haim => (hone i hi j l hcall haim).1
  -- the items where the tables were filled lie where the finished ones lie
  have hpassed : List.Forall₂ Item.SameMark st.passed st.aimed := by
    rw [st.passed_eq, List.forall₂_map_left_iff]
    have hfrom : ∀ j ∈ st.called, ∃ i ∈ d.items.toList, resolveCall st.commands i.settle = .ok j :=
      exists_of_forall₂ hresolved
    refine ((List.forall₂_and_left _ _).mpr ⟨hfrom, haims⟩).imp ?_
    rintro j l ⟨⟨i, hi, hcall⟩, haim⟩
    exact (hone i hi j l hcall haim).2
  have hcalled : List.Forall₂ Item.SameMark st.called st.aimed :=
    forall₂_comp st.called_sameMark_passed hpassed
      fun _ _ _ _ h h' => ⟨h.1.trans h'.1, h.2.1.trans h'.2.1, h.2.2.trans h'.2.2⟩
  have hnames : markNames Role.subroutine? st.called = markNames Role.subroutine? st.aimed :=
    markNames_congr _ (hcalled.imp fun _ _ h => h.1)
  obtain ⟨hentries, hnodup⟩ := st.commands_entries hc
  obtain ⟨hlabelEntries, hlabelNodup⟩ := forM_defineLabel st.defined
  rw [hl, List.nil_append, places_congr _ hpassed] at hlabelEntries
  exact {
    profile := hprofile
    items := hitems ▸ hsettles
    commands := by rw [hcommands, hentries, hnames, hitems]
    addresses := by
      rw [haddresses, st.addresses_entries hc ha, places_congr _ hcalled, subroutinePlaces, hitems]
    labels := by rw [hlabels, hlabelEntries, labelPlaces, hitems]
    subroutines_nodup := by
      rw [hitems, ← hnames, ← st.names_commands hc]
      exact hnodup
    labels_nodup := by
      have hn := hlabelNodup (by rw [Symbols.names, hl]; exact List.nodup_nil)
      rw [Symbols.names, hlabelEntries, List.map_map] at hn
      rw [hitems, ← map_name_places _ 0]
      exact hn
    addressable := hitems ▸ st.addressable.congr hpassed }

/-- **Assembly.** An assembled program is what the tokens of its script are read into, resolved. -/
theorem resolved_of_assemble {file source : String} {profile : Profile} {p : Program}
    (h : assemble file source profile = .ok p) :
    ∃ d, Reader.Reads (Source.script file source) (.start profile) ⟨d, .nothing⟩ ∧
      d.nest.blocks = [] ∧ d.profile = profile ∧ Resolved d p := by
  unfold assemble at h
  split at h
  · cases h
  · rename_i read hread
    split at h
    · rename_i q hcomplete
      cases h
      obtain ⟨d, hreads, hblocks, hlines⟩ := reads_of_read hread
      obtain ⟨hprofile, hlabels, hcommands, haddresses⟩ := hreads.frame
      have hdraft : d.Draft := hreads.draft (fun i hi => by cases hi)
      rw [hlines] at hcomplete
      have hres := resolved_of_complete (d := { d with lines := read.lines }) hdraft
        (by rw [hcommands]; rfl) (by rw [haddresses]; rfl) (by rw [hlabels]; rfl) hcomplete
      exact ⟨d, hreads, hblocks, hprofile, { hres with profile := hres.profile }⟩
    · cases h

namespace Resolved

variable {d p : Program} (h : Resolved d p)
include h

theorem exists_settles {i : Item} (hi : i ∈ p.items.toList) : ∃ j, Settles p j i := by
  obtain ⟨j, -, hj⟩ := exists_of_forall₂ h.items i hi
  exact ⟨j, hj⟩

theorem toNat_ofNat_bytesBefore {n : Nat} (hn : n < p.items.toList.length) :
    (UInt16.ofNat (p.bytesBefore n)).toNat = p.bytesBefore n :=
  UInt16.toNat_ofNat_of_lt' (Nat.lt_succ_of_le (h.addressable n hn))

/-- **The address of a label** is the number of bytes before it. -/
theorem labelAddress?_eq {n : Nat} {i : Item} {name : String} (hi : p.items.toList[n]? = some i)
    (hrole : i.role = .label name) :
    p.labelAddress? name = some (UInt16.ofNat (p.bytesBefore n)) := by
  have hplace : (⟨name, i.pos, p.bytesBefore n⟩ : Place) ∈ p.labelPlaces := by
    refine (mem_places _).mpr ⟨n, i, hi, Role.label?_eq_some.mpr hrole, rfl, ?_⟩
    rw [Nat.zero_add]
    rfl
  have hnodup : p.labels.names.Nodup := by
    rw [Symbols.names, h.labels, List.map_map]
    change (p.labelPlaces.map (·.name)).Nodup
    rw [labelPlaces, map_name_places]
    exact h.labels_nodup
  have hget : p.labels.get? name = some (i.pos, UInt16.ofNat (p.bytesBefore n)) := by
    rw [Symbols.get?_eq_some_iff hnodup, h.labels]
    exact List.mem_map.mpr ⟨_, hplace, rfl⟩
  rw [labelAddress?, hget, Option.map_some]

end Resolved

end ServoScript
