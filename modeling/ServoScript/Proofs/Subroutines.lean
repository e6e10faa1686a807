import ServoScript.Listing
import ServoScript.Manifest
import ServoScript.Proofs.Resolved

/-!
# Subroutines

All that is said about the subroutines of an assembled program agrees: the two tables, the slots of
the controller, the calls in the image, the manifest and the listing all follow from the markers of
the finished program, in order (`subroutines_agree`).
-/

namespace ServoScript

open Program

/-! ## Commands in order of declaration -/

theorem callCommand_eq_sub_iff {n : Nat} {slot : Fin 128} :
    callCommand n = .sub slot ↔ n = slot := by
  unfold callCommand
  constructor
  · intro h
    split at h
    · cases h
      rfl
    · cases h
  · rintro rfl
    rw [dif_pos slot.isLt]

theorem callCommand_eq_op_iff {n : Nat} {op : Opcode} :
    callCommand n = .op op ↔ 128 ≤ n ∧ op = .call := by
  unfold callCommand
  constructor
  · intro h
    split at h
    · cases h
    · rename_i hn
      cases h
      exact ⟨Nat.not_lt.mp hn, rfl⟩
  · rintro ⟨hn, rfl⟩
    rw [dif_neg (Nat.not_lt.mpr hn)]

/-- The number of the command that calls the `n`-th subroutine, counted from 0. -/
def callCode (n : Nat) : Nat := if n < 128 then 128 + n else 54

theorem toNat_byte_callCommand (n : Nat) : (callCommand n).byte.toNat = callCode n := by
  unfold callCommand callCode
  by_cases hn : n < 128
  · rw [dif_pos hn, if_pos hn, Command.toNat_byte_sub]
    rfl
  · rw [dif_neg hn, if_neg hn]
    rfl

/-- The table of commands of some subroutines, of which the first is the `n`-th of the script. -/
def callEntries (n : Nat) (subs : List Place) : List (String × Command) :=
  subs.mapIdx fun i s => (s.name, callCommand (n + i))

theorem callEntries_cons (n : Nat) (s : Place) (rest : List Place) :
    callEntries n (s :: rest) = (s.name, callCommand n) :: callEntries (n + 1) rest := by
  simp [callEntries, List.mapIdx_cons, Nat.add_assoc, Nat.add_comm 1]

theorem mem_callEntries {n : Nat} {subs : List Place} {name : String} {c : Command} :
    (name, c) ∈ callEntries n subs ↔
      ∃ i s, subs[i]? = some s ∧ s.name = name ∧ callCommand (n + i) = c := by
  rw [callEntries, List.mem_iff_getElem?]
  refine exists_congr fun i => ?_
  rw [List.getElem?_mapIdx]
  cases subs[i]? <;> simp

namespace Resolved

variable {d p : Program} (h : Resolved d p)
include h

theorem commands_entries : p.commands.entries = callEntries 0 p.subroutinePlaces := by
  rw [h.commands, ← map_name_places Role.subroutine? 0, ← subroutinePlaces]
  apply List.ext_getElem?
  intro n
  simp [callEntries, Function.comp_def]

theorem names_subroutinePlaces_nodup : (p.subroutinePlaces.map (·.name)).Nodup := by
  rw [subroutinePlaces, map_name_places]
  exact h.subroutines_nodup

theorem commands_nodup : p.commands.names.Nodup := by
  have hnames : p.commands.names = p.subroutinePlaces.map (·.name) := by
    rw [Symbols.names, h.commands_entries]
    apply List.ext_getElem?
    intro n
    simp [callEntries, Function.comp_def]
  rw [hnames]
  exact h.names_subroutinePlaces_nodup

theorem addresses_nodup : p.addresses.names.Nodup := by
  rw [Symbols.names, h.addresses, List.map_map]
  exact h.names_subroutinePlaces_nodup

theorem addr_le {s : Place} (hs : s ∈ p.subroutinePlaces) : s.addr ≤ 65535 := by
  obtain ⟨n, i, hi, -, -, haddr⟩ := (mem_places _).mp hs
  have hle := h.addressable n (List.getElem?_eq_some_iff.mp hi).1
  omega

theorem toNat_ofNat_place {s : Place} (hs : s ∈ p.subroutinePlaces) :
    (UInt16.ofNat s.addr).toNat = s.addr :=
  UInt16.toNat_ofNat_of_lt' (Nat.lt_succ_of_le (h.addr_le hs))

theorem addresses_get? {s : Place} (hs : s ∈ p.subroutinePlaces) :
    p.addresses.get? s.name = some (UInt16.ofNat s.addr) := by
  rw [Symbols.get?_eq_some_iff h.addresses_nodup, h.addresses]
  exact List.mem_map.mpr ⟨s, hs, rfl⟩

theorem toNat_addressOf {s : Place} (hs : s ∈ p.subroutinePlaces) :
    (p.addressOf s.name).toNat = s.addr := by
  rw [addressOf, h.addresses_get? hs, Option.getD_some, h.toNat_ofNat_place hs]

theorem exists_place_of_command {name : String} {c : Command}
    (hc : p.commands.get? name = some c) :
    ∃ i s, p.subroutinePlaces[i]? = some s ∧ s.name = name ∧ callCommand i = c := by
  rw [Symbols.get?_eq_some_iff h.commands_nodup, h.commands_entries, mem_callEntries] at hc
  simpa only [Nat.zero_add] using hc

end Resolved

/-! ## The slots of the controller -/

/-- Subroutines from the `n`-th on fill the slots from `n` on and leave the others alone. -/
theorem getElem_foldl_enterSlot (p : Program) (subs : List Place) (n : Nat)
    (table : Vector Word 128) {k : Nat} (hk : k < 128) :
    ((callEntries n subs).foldl p.enterSlot table)[k] =
      if n ≤ k then (subs[k - n]?.map (p.addressOf ·.name)).getD table[k] else table[k] := by
  induction subs generalizing n table with
  | nil => simp [callEntries]
  | cons s rest ih =>
    rw [callEntries_cons, List.foldl_cons, ih]
    by_cases hn : n < 128
    · have hstep : p.enterSlot table (s.name, callCommand n) =
          table.set n (p.addressOf s.name) := by
        have hcommand : callCommand n = .sub ⟨n, hn⟩ := callCommand_eq_sub_iff.mpr rfl
        rw [hcommand, enterSlot]
      rw [hstep, Vector.getElem_set]
      rcases Nat.lt_trichotomy n k with hlt | rfl | hgt
      · obtain ⟨m, rfl⟩ := Nat.exists_eq_add_of_lt hlt
        have hm : n + m + 1 - n = (n + m + 1 - (n + 1)) + 1 := by omega
        rw [if_pos (by omega), if_neg (by omega), if_pos (by omega), hm, List.getElem?_cons_succ]
      · rw [if_neg (by omega), if_pos rfl, if_pos (Nat.le_refl n), Nat.sub_self,
          List.getElem?_cons_zero, Option.map_some, Option.getD_some]
      · rw [if_neg (by omega), if_neg (by omega), if_neg (by omega)]
    · have hstep : p.enterSlot table (s.name, callCommand n) = table := by
        rw [callCommand_eq_op_iff.mpr ⟨Nat.not_lt.mp hn, rfl⟩, enterSlot]
      rw [hstep, if_neg (by omega), if_neg (by omega)]

/-! ## Calls -/

/-- What a call of the `n`-th subroutine puts into the image. -/
def Place.callBytes (n : Nat) (s : Place) : List Byte :=
  if n < 128 then [UInt8.ofNat (128 + n)]
  else [54, UInt8.ofNat (s.addr % 256), UInt8.ofNat (s.addr / 256)]

namespace Resolved

variable {d p : Program} (h : Resolved d p)
include h

theorem toNat_slots (k : Fin 128) :
    (p.slots.get k).toNat = (p.subroutinePlaces[k.val]?.map (·.addr)).getD 0 := by
  have hslots : p.slots =
      (callEntries 0 p.subroutinePlaces).foldl p.enterSlot (Vector.replicate 128 0) := by
    rw [slots, h.commands_entries]
  have hget := getElem_foldl_enterSlot p p.subroutinePlaces 0 (Vector.replicate 128 0) k.isLt
  rw [← hslots, if_pos (Nat.zero_le _), Nat.sub_zero, Vector.getElem_replicate] at hget
  change p.slots[k.val].toNat = _
  rw [hget]
  cases hs : p.subroutinePlaces[k.val]? with
  | none => rfl
  | some s => exact h.toNat_addressOf (List.mem_of_getElem? hs)

theorem call_bytes {c : Item} {name : String} (hc : c ∈ p.items.toList)
    (hrole : c.role = .call name) :
    ∃ (n : Nat) (s : Place), p.subroutinePlaces[n]? = some s ∧ s.name = name ∧
      c.bytes = s.callBytes n := by
  obtain ⟨j, hj⟩ := h.exists_settles hc
  cases hj with
  | @direct _ pos slot hcommand =>
    cases hrole
    obtain ⟨n, s, hs, hname, hslot⟩ := h.exists_place_of_command hcommand
    rw [callCommand_eq_sub_iff] at hslot
    subst hslot
    refine ⟨slot, s, hs, hname, ?_⟩
    rw [Place.callBytes, if_pos slot.isLt]
    rfl
  | @general _ pos addr hcommand haddr =>
    cases hrole
    obtain ⟨n, s, hs, rfl, hop⟩ := h.exists_place_of_command hcommand
    obtain ⟨hn, -⟩ := callCommand_eq_op_iff.mp hop
    have hmem := List.mem_of_getElem? hs
    have heq : addr = UInt16.ofNat s.addr := by
      rw [h.addresses_get? hmem] at haddr
      exact (Option.some.inj haddr).symm
    refine ⟨n, s, hs, rfl, ?_⟩
    rw [Place.callBytes, if_neg (Nat.not_lt.mpr hn), ← Word.bytes_ofNat (h.addr_le hmem), ← heq]
    rfl
  | opcode | run | label | subroutine | jump => cases hrole

end Resolved

/-! ## The manifest and the listing -/

namespace Listing

def slot? : String × Command → Option (Fin 128 × String)
  | (name, .sub slot) => some (slot, name)
  | (_, .op _) => none

def general? : String × Command → Option String
  | (_, .sub _) => none
  | (name, .op _) => some name

theorem direct_eq (p : Program) : direct p = p.commands.entries.filterMap slot? := by
  refine congrArg (p.commands.entries.filterMap ·) (funext fun ⟨name, command⟩ => ?_)
  cases command <;> rfl

theorem byAddress_eq (p : Program) : byAddress p = p.commands.entries.filterMap general? := by
  refine congrArg (p.commands.entries.filterMap ·) (funext fun ⟨name, command⟩ => ?_)
  cases command <;> rfl

def subroutineLine (n : Nat) (s : Place) : String :=
  if n < 128 then s!"{Text.hex 2 n}  {Text.decimal 3 n}     {Text.hex 4 s.addr}    {s.name}\n"
  else s!"--  ---     {Text.hex 4 s.addr}    {s.name}\n"

theorem slot?_callCommand {n : Nat} (hn : n < 128) (name : String) :
    slot? (name, callCommand n) = some (⟨n, hn⟩, name) ∧ general? (name, callCommand n) = none := by
  have hcommand : callCommand n = .sub ⟨n, hn⟩ := callCommand_eq_sub_iff.mpr rfl
  rw [hcommand]
  exact ⟨rfl, rfl⟩

theorem general?_callCommand {n : Nat} (hn : 128 ≤ n) (name : String) :
    slot? (name, callCommand n) = none ∧ general? (name, callCommand n) = some name := by
  rw [callCommand_eq_op_iff.mpr ⟨hn, rfl⟩]
  exact ⟨rfl, rfl⟩

theorem filterMap_slot?_of_le {n : Nat} (hn : 128 ≤ n) (subs : List Place) :
    (callEntries n subs).filterMap slot? = [] := by
  induction subs generalizing n with
  | nil => rfl
  | cons s rest ih =>
    rw [callEntries_cons, List.filterMap_cons_none (general?_callCommand hn s.name).1,
      ih (by omega)]

theorem slots_sorted (n : Nat) (subs : List Place) :
    ((callEntries n subs).filterMap slot?).Pairwise fun a b => decide (a.1 ≤ b.1) = true := by
  have hslot : ∀ {k : Nat} {s : Place} {b : Fin 128 × String},
      slot? (s.name, callCommand k) = some b → k = b.1 := by
    intro k s b hb
    by_cases hk : k < 128
    · rw [(slot?_callCommand hk s.name).1] at hb
      cases hb
      rfl
    · rw [(general?_callCommand (Nat.not_lt.mp hk) s.name).1] at hb
      cases hb
  rw [List.pairwise_filterMap, List.pairwise_iff_getElem]
  intro i j hi hj hij a ha b hb
  simp only [callEntries, List.getElem_mapIdx] at ha hb
  have ha := hslot ha
  have hb := hslot hb
  rw [decide_eq_true_eq, Fin.le_def]
  omega

/-- The lines about subroutines with slots, and then those about the others, are the lines about all
of them in order. -/
theorem map_render (p : Program) (n : Nat) (subs : List Place)
    (haddr : ∀ s ∈ subs, (p.addressOf s.name).toNat = s.addr) :
    ((callEntries n subs).filterMap slot?).map (renderDirect p) ++
        ((callEntries n subs).filterMap general?).map (renderByAddress p) =
      subs.mapIdx fun i s => subroutineLine (n + i) s := by
  induction subs generalizing n with
  | nil => rfl
  | cons s rest ih =>
    have hs := haddr s List.mem_cons_self
    have ih := ih (n + 1) fun s hs => haddr s (List.mem_cons_of_mem _ hs)
    have hrest : (rest.mapIdx fun i s => subroutineLine (n + (i + 1)) s) =
        rest.mapIdx fun i s => subroutineLine (n + 1 + i) s := by
      simp only [Nat.add_assoc, Nat.add_comm 1]
    rw [callEntries_cons, List.mapIdx_cons, hrest, ← ih]
    by_cases hn : n < 128
    · obtain ⟨hslot, hgeneral⟩ := slot?_callCommand hn s.name
      have hline : renderDirect p (⟨n, hn⟩, s.name) = subroutineLine n s := by
        rw [subroutineLine, if_pos hn, renderDirect, hs]
      rw [List.filterMap_cons_some hslot, List.filterMap_cons_none hgeneral, List.map_cons, hline,
        List.cons_append, Nat.add_zero n]
    · have hle := Nat.not_lt.mp hn
      obtain ⟨hslot, hgeneral⟩ := general?_callCommand hle s.name
      have hline : renderByAddress p s.name = subroutineLine n s := by
        rw [subroutineLine, if_neg hn, renderByAddress, hs]
      rw [List.filterMap_cons_none hslot, List.filterMap_cons_some hgeneral, List.map_cons, hline,
        filterMap_slot?_of_le (by omega), List.map_nil, List.nil_append, List.nil_append,
        Nat.add_zero n]

end Listing

namespace Resolved

variable {d p : Program} (h : Resolved d p)
include h

theorem listing_subroutines :
    Listing.subroutines p = p.subroutinePlaces.mapIdx Listing.subroutineLine := by
  have hlines := Listing.map_render p 0 p.subroutinePlaces fun s hs => h.toNat_addressOf hs
  simp only [Nat.zero_add] at hlines
  rw [Listing.subroutines, Listing.direct_eq, Listing.byAddress_eq, h.commands_entries,
    List.mergeSort_of_pairwise (Listing.slots_sorted 0 _), hlines]

theorem manifest_subroutines :
    p.manifest.subroutines.map (fun e => (e.name, e.command.toNat, e.address.toNat)) =
      p.subroutinePlaces.mapIdx fun n s => (s.name, callCode n, s.addr) := by
  rw [manifest, h.commands_entries]
  apply List.ext_getElem?
  intro n
  cases hs : p.subroutinePlaces[n]? with
  | none => simp [callEntries, hs]
  | some s =>
    have haddr := h.toNat_addressOf (List.mem_of_getElem? hs)
    simp [callEntries, hs, haddr, toNat_byte_callCommand]

end Resolved

/-- **Subroutines agree.** Let the markers of the program be numbered from 0. Their names are
distinct; the two tables give for each, in order, its command and the number of bytes before it; the
slots of the controller hold the addresses of the first 128 and 0 elsewhere; every call has the
bytes for the subroutine that it names; and the manifest and the listing give each subroutine once,
in order, with the same command and address. -/
theorem subroutines_agree {file source : String} {profile : Profile} {p : Program}
    (h : assemble file source profile = .ok p) :
    (p.subroutinePlaces.map (·.name)).Nodup ∧
    p.commands.entries.map (fun e => (e.1, e.2.byte.toNat)) =
      p.subroutinePlaces.mapIdx (fun n s => (s.name, callCode n)) ∧
    p.addresses.entries.map (fun e => (e.1, e.2.toNat)) =
      p.subroutinePlaces.map (fun s => (s.name, s.addr)) ∧
    (∀ k : Fin 128, (p.slots.get k).toNat = (p.subroutinePlaces[k.val]?.map (·.addr)).getD 0) ∧
    (∀ c ∈ p.items.toList, ∀ name, c.role = .call name →
      ∃ (n : Nat) (s : Place), p.subroutinePlaces[n]? = some s ∧ s.name = name ∧
        c.bytes = s.callBytes n) ∧
    p.manifest.subroutines.map (fun e => (e.name, e.command.toNat, e.address.toNat)) =
      p.subroutinePlaces.mapIdx (fun n s => (s.name, callCode n, s.addr)) ∧
    p.listing = String.join ((Listing.rows p).map Listing.Row.render) ++
      "\nSubroutines:\nHex Decimal Address Name\n" ++
        String.join (p.subroutinePlaces.mapIdx Listing.subroutineLine) := by
  obtain ⟨d, -, -, -, hres⟩ := resolved_of_assemble h
  refine ⟨hres.names_subroutinePlaces_nodup, ?_, ?_, hres.toNat_slots,
    fun c hc name hrole => hres.call_bytes hc hrole, hres.manifest_subroutines, ?_⟩
  · rw [hres.commands_entries]
    apply List.ext_getElem?
    intro n
    simp [callEntries, toNat_byte_callCommand, Function.comp_def]
  · rw [hres.addresses, List.map_map]
    refine List.map_congr_left fun s hs => ?_
    exact congrArg (s.name, ·) (hres.toNat_ofNat_place hs)
  · rw [listing, hres.listing_subroutines]

/-- Two subroutines that call each other, the first before the second is declared. -/
theorem subroutines_agree_mutual :
    ∃ p c, assemble "script" "sub a 300 b return sub b 1 a return" .micro = .ok p ∧
      c ∈ p.items.toList ∧ c.role = .call "B" ∧
        ∃ (n : Nat) (s : Place), p.subroutinePlaces[n]? = some s ∧ s.name = "B" ∧
          c.bytes = s.callBytes n := by
  obtain ⟨p, hp, hq⟩ := exists_ok_of_any
    (x := assemble "script" "sub a 300 b return sub b 1 a return" .micro)
    (q := fun p => p.items.toList.any (·.role = .call "B")) (by decide +kernel)
  obtain ⟨c, hc, hrole⟩ := List.any_eq_true.mp hq
  have hrole := of_decide_eq_true hrole
  obtain ⟨-, -, -, -, hcalls, -⟩ := subroutines_agree hp
  exact ⟨p, c, hp, hc, hrole, hcalls c hc _ hrole⟩

end ServoScript
