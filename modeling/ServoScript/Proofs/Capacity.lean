import Mathlib.Data.List.TakeWhile
import ServoScript.Proofs.Disassembly
import ServoScript.Proofs.Verdicts
import ServoScript.Proofs.Words

/-!
# How large an image can be

Every item of a program starts at an address of 16 bits, but the last one may reach beyond that. The
size of an image is known from the script (`Resolved.length_image`), so an image of more than 64 KiB
can be exhibited: a long row of commands and a literal (`assemble_longScript`).
-/

namespace ServoScript

/-! ## Sizes -/

theorem Item.length_flatMap_bytes (items : List Item) :
    (items.flatMap Item.bytes).length = span size items := by
  induction items with
  | nil => rfl
  | cons i rest ih => rw [List.flatMap_cons, List.length_append, ih, span, size]

/-- The size of the image is known before anything is resolved. -/
theorem Resolved.length_image {d p : Program} (h : Resolved d p) : p.image.length =
    Item.span (Item.finalSize (markNames Role.subroutine? d.items.toList)) d.items.toList := by
  rw [Program.image, Item.length_flatMap_bytes]
  exact (Item.span_congr (h.sizes.imp fun _ _ hij => hij.2)).symm

theorem Instruction.length_operandBytes_le (operand : Operand) {args : List Word}
    (h : args ≠ []) : (operandBytes operand args).length ≤ 1 + 2 * args.length := by
  have hpos : 0 < args.length := List.length_pos_of_ne_nil h
  cases operand with
  | none | byte => simp [operandBytes]
  | word =>
    simp only [operandBytes, Word.bytes, List.length_cons, List.length_nil]
    omega
  | byteRun =>
    simp only [operandBytes, List.length_cons, List.length_map]
    omega
  | wordRun =>
    simp only [operandBytes, List.length_cons, Word.length_flatMap_bytes]
    omega

theorem Settles.size_le {p : Program} {i j : Item} (h : Settles p i j) :
    j.size ≤ 2 + 2 * p.profile.longestRun := by
  have hlong : 32 ≤ p.profile.longestRun := by cases p.profile <;> simp [Profile.longestRun]
  cases h with
  | @opcode op pos hop =>
    have hsize : (Item.ofOpcode op pos).size = 1 := by
      simp [Item.size, Item.bytes, Item.ofOpcode, Item.command?, Instruction.encode,
        Command.operand, hop.operand_eq, Instruction.operandBytes]
    omega
  | @run words pos hne hlimit =>
    have hwords := Item.exceededLimit?_eq_none_iff.mp hlimit
    have hoperand := Instruction.length_operandBytes_le (Item.literalOpcode words).operand hne
    change (Instruction.operandBytes (Item.literalOpcode words).operand words).length + 1 ≤ _
    omega
  | label | subroutine => exact Nat.zero_le _
  | @jump op name pos addr hop _ =>
    have hsize : Item.size ⟨.jump name, .set (.op op), [addr], pos⟩ = 3 := by
      simp [Item.size, Item.bytes, Item.command?, Instruction.encode, Command.operand,
        Opcode.operand_of_isJump hop, Instruction.operandBytes, Word.bytes]
    omega
  | @direct name pos slot _ =>
    have hsize : Item.size ⟨.call name, .set (.sub slot), [], pos⟩ = 1 := rfl
    omega
  | @general name pos addr _ _ =>
    have hsize : Item.size ⟨.call name, .set (.op .call), [addr], pos⟩ = 3 := rfl
    omega

/-! ## A long script -/

/-- So many commands of one byte, and a literal of three. -/
def longScript (n : Nat) : String :=
  String.ofList ((List.replicate n "quit ".toList).flatten ++ "1000".toList)

theorem toList_longScript_succ (n : Nat) :
    (longScript (n + 1)).toList = "quit".toList ++ ' ' :: (longScript n).toList := by
  simp [longScript, List.replicate_succ]

theorem mem_longScript {n : Nat} {c : Char} (h : c ∈ (longScript n).toList) :
    c ∈ "quit 1000".toList := by
  have hword : ∀ c ∈ "quit ".toList, c ∈ "quit 1000".toList := by simp
  have hnumber : ∀ c ∈ "1000".toList, c ∈ "quit 1000".toList := by simp
  rw [longScript, String.toList_ofList, List.mem_append, List.mem_flatten] at h
  rcases h with ⟨w, hw, hc⟩ | hc
  · rw [List.eq_of_mem_replicate hw] at hc
    exact hword c hc
  · exact hnumber c hc

theorem pieces_longScript (n : Nat) : Text.pieces Source.isSeparator (longScript n).toList =
    List.replicate n "quit".toList ++ ["1000".toList] := by
  induction n with
  | zero => rfl
  | succ n ih =>
    have hword : ∀ c ∈ "quit".toList, Source.isSeparator c = false := by simp [Source.isSeparator]
    rw [toList_longScript_succ, Text.pieces_append hword rfl, ih, List.replicate_succ,
      List.cons_append]

theorem map_text_longScript (file : String) (n : Nat) :
    (Source.script file (longScript n)).map (·.text) = List.replicate n "QUIT" ++ ["1000"] := by
  have hfeed : '\n' ∉ (longScript n).toList := fun h => absurd (mem_longScript h) (by simp)
  have hreturn : (longScript n).toList.getLast? ≠ some '\r' :=
    fun h => absurd (mem_longScript (List.mem_of_getLast? h)) (by simp)
  have hcode : Source.code (longScript n).toList = (longScript n).toList := by
    rw [Source.code, List.takeWhile_eq_self_iff]
    intro c hc
    have hne : ∀ c ∈ "quit 1000".toList, decide (c ≠ '#') = true := by simp
    exact hne c (mem_longScript hc)
  rw [Source.script_of_line file hfeed hreturn, Source.map_text_lineTokens, hcode,
    pieces_longScript, List.filter_append, List.filter_replicate_of_pos (by decide),
    List.map_append, List.map_replicate]
  rfl

def quits (ts : List Token) : List Item := ts.map fun t => .ofOpcode .quit t.pos

theorem Reader.reads_quits (ts : List Token) (h : ∀ t ∈ ts, t.text = "QUIT") (p : Program) :
    Reads ts ⟨p, .nothing⟩ ⟨p.grow p.nest (quits ts), .nothing⟩ := by
  have hkind : TokenKind.classify "QUIT" = .op .quit := by decide +kernel
  have hwritable : Opcode.quit.Writable p.profile := ⟨rfl, rfl, nofun, by cases p.profile <;> rfl⟩
  induction ts generalizing p with
  | nil =>
    rw [reads_nil]
    simp [Program.grow, quits]
  | cons t ts ih =>
    have ht : t.kind = .op .quit := by rw [Token.kind, h t List.mem_cons_self, hkind]
    refine reads_cons.mpr ⟨_, .emit (.opcode ht hwritable), ?_⟩
    have hrest := ih (fun u hu => h u (List.mem_cons_of_mem _ hu))
      (p.grow p.nest [.ofOpcode .quit t.pos]) hwritable
    rw [Program.grow_grow] at hrest
    exact hrest

theorem Program.openRun?_eq_none {p : Program} (h : ∀ i ∈ p.items.toList, i.head ≠ .run) :
    p.openRun? = none := by
  rw [Option.eq_none_iff_forall_ne_some]
  intro run hrun
  obtain ⟨hhead, front, hitems⟩ := openRun?_eq_some_iff.mp hrun
  exact h run (by simp [hitems]) hhead

theorem Program.read_longScript (file : String) (n : Nat) :
    ∃ d ts pos, Program.read file (longScript n) .micro = .ok d ∧ List.length ts = n ∧
      d.items.toList = quits ts ++ [(Item.emptyRun pos).push 1000] := by
  have htexts := map_text_longScript file n
  obtain ⟨ts, us, hscript, hts, hus⟩ := List.map_eq_append_iff.mp htexts
  obtain ⟨t, rfl, ht⟩ := List.map_eq_singleton_iff.mp hus
  have hquits : ∀ u ∈ ts, u.text = "QUIT" := by
    intro u hu
    have hmem : u.text ∈ List.replicate n "QUIT" := hts ▸ List.mem_map_of_mem hu
    exact List.eq_of_mem_replicate hmem
  have hlength : ts.length = n := by
    rw [← List.length_map (·.text), hts, List.length_replicate]
  -- the number starts a run, since all items before it are commands
  have hnumber : t.kind = .number := by
    rw [Token.kind, ht]
    decide +kernel
  have hvalue : Number.read t.text = .ok 1000 := by
    rw [ht]
    decide +kernel
  have hrow := Reader.reads_quits ts hquits (.empty .micro)
  have hopen : ((empty .micro).grow (empty .micro).nest (quits ts)).openRun? = none := by
    refine openRun?_eq_none fun i hi => ?_
    obtain ⟨u, -, rfl⟩ := List.mem_map.mp hi
    exact nofun
  have hlast := Reader.reads_singleton.mpr (.firstLiteral hnumber hvalue hopen)
  have hreads : Reader.Reads (Source.script file (longScript n)) (.start .micro) _ :=
    hscript ▸ Reader.reads_append.mpr ⟨_, hrow, hlast⟩
  obtain ⟨d, hd⟩ := exists_read_iff.mpr ⟨_, hreads, rfl⟩
  obtain ⟨q, hreads', -, hq⟩ := reads_of_read hd
  have heq : q = _ := congrArg Reader.program (hreads'.unique hreads)
  refine ⟨d, ts, t.pos, hd, hlength, ?_⟩
  rw [hq, heq]
  rfl

theorem span_quits (subs : List String) (ts : List Token) :
    Item.span (Item.finalSize subs) (quits ts) = ts.length := by
  induction ts with
  | nil => rfl
  | cons t ts ih =>
    change 1 + Item.span (Item.finalSize subs) (quits ts) = ts.length + 1
    rw [ih, Nat.add_comm]

theorem assemble_longScript (file : String) {n : Nat} (hn : n ≤ 65535) :
    ∃ p, assemble file (longScript n) .micro = .ok p ∧ p.image.length = n + 3 := by
  obtain ⟨d, ts, pos, hd, hlength, hitems⟩ := Program.read_longScript file n
  have hnone : d.firstComplaint? = none := by
    rw [Option.eq_none_iff_forall_ne_some]
    intro e he
    obtain ⟨front, i, back, hsplit, -, hgrounds⟩ := Program.exists_grounds he
    rw [hitems] at hsplit
    have hcode : i.role = .code := by
      have hi : i ∈ quits ts ++ [(Item.emptyRun pos).push 1000] := by simp [hsplit]
      rcases List.mem_append.mp hi with hi | hi
      · obtain ⟨t, -, rfl⟩ := List.mem_map.mp hi
        rfl
      · rw [List.mem_singleton.mp hi]
        rfl
    -- the items before an item are commands, and there are not too many
    have hfront : quits ts = front ++ (i :: back).dropLast := by
      have hdrop := congrArg List.dropLast hsplit
      rwa [List.dropLast_concat, List.dropLast_append_of_ne_nil (List.cons_ne_nil _ _)] at hdrop
    have hspan := span_quits (markNames Role.subroutine? d.items.toList) ts
    rw [hfront, Item.span_append] at hspan
    generalize e.fault = fault at hgrounds
    cases hgrounds with
    | tooLarge hlarge haddr => omega
    | redefined hrole | tooMany hrole | notUnderstood hrole | labelUsed hrole
    | labelNotFound hrole => cases hcode.symm.trans hrole
  obtain ⟨p, hp, hresolved⟩ := exists_assemble_of_read hd hnone
  refine ⟨p, hp, ?_⟩
  rw [hresolved.length_image, hitems, Item.span_append, span_quits, hlength]
  rfl

/-! ## The size of an image -/

/-- An image has more than 64 KiB exactly if its last item starts in the first 65536 bytes and
reaches beyond them, and it is then larger by less than a run of literals. -/
theorem image_over_64KiB_iff {file source : String} {profile : Profile} {p : Program}
    (h : assemble file source profile = .ok p) :
    (65536 < p.image.length ↔ ∃ front last, p.items.toList = front ++ [last] ∧
        (front.flatMap Item.bytes).length ≤ 65535 ∧
        65536 < (front.flatMap Item.bytes).length + last.size) ∧
      p.image.length ≤ 65537 + 2 * profile.longestRun := by
  obtain ⟨d, -, -, rfl, hresolved⟩ := resolved_of_assemble h
  rcases List.eq_nil_or_concat p.items.toList with hitems | ⟨front, last, hitems⟩
  · have hlength : p.image.length = 0 := by rw [Program.image, hitems]; rfl
    simp [hlength, hitems]
  · rw [List.concat_eq_append] at hitems
    have hlength : p.image.length = (front.flatMap Item.bytes).length + last.size := by
      rw [Program.image, hitems, List.flatMap_append, List.length_append, List.flatMap_singleton,
        Item.size]
    have hstart : (front.flatMap Item.bytes).length ≤ 65535 := by
      have haddr := hresolved.addressable front.length (by simp [hitems])
      rwa [hitems, List.take_left] at haddr
    obtain ⟨i, hi⟩ := hresolved.exists_settles (i := last) (by simp [hitems])
    have hsize := hi.size_le
    rw [hresolved.profile] at hsize
    refine ⟨⟨fun hlarge => ⟨front, last, hitems, hstart, by omega⟩, ?_⟩, by omega⟩
    rintro ⟨front', last', hitems', -, hlarge⟩
    rw [hitems, List.append_singleton_inj] at hitems'
    obtain ⟨rfl, rfl⟩ := hitems'
    omega

theorem image_over_64KiB_iff_longScript :
    ∃ p, assemble "script" (longScript 65535) .micro = .ok p ∧
      ∃ front last, p.items.toList = front ++ [last] ∧
        (front.flatMap Item.bytes).length ≤ 65535 ∧
        65536 < (front.flatMap Item.bytes).length + last.size := by
  obtain ⟨p, hp, hlength⟩ := assemble_longScript "script" (Nat.le_refl 65535)
  exact ⟨p, hp, (image_over_64KiB_iff hp).1.mp (by omega)⟩

/-- An image of more than 64 KiB, although every item starts where it may. -/
theorem image_over_64KiB_longScript :
    ∃ p, assemble "script" (longScript 65535) .micro = .ok p ∧ 65536 < p.image.length := by
  obtain ⟨p, hp, hlength⟩ := assemble_longScript "script" (Nat.le_refl 65535)
  exact ⟨p, hp, by omega⟩

end ServoScript
