import ServoScript.Dump
import ServoScript.Proofs.Disassembly
import ServoScript.Proofs.SourceLines

/-!
# Dumps show the source

A dump goes through the image instruction by instruction and looks for the item of each in the
layout of the program. The two agree: where an instruction starts, the item that is found is the one
that has put it there (`Program.itemAt?_eq`), so every row of the dump of an assembled program shows
the line that the instruction comes from (`dump_shows_source`).
-/

namespace ServoScript

open Program

/-! ## Items at addresses -/

namespace Program

variable {p : Program} {m n : Nat} {i j : Item}

theorem index_unique_of_bytesBefore (hm : p.items.toList[m]? = some i) (hi : i.bytes ≠ [])
    (hn : p.items.toList[n]? = some j) (hj : j.bytes ≠ []) (h : p.bytesBefore m = p.bytesBefore n) :
    m = n := by
  have hipos := List.length_pos_of_ne_nil hi
  have hjpos := List.length_pos_of_ne_nil hj
  rcases Nat.lt_trichotomy m n with hlt | heq | hlt
  · have hle := bytesBefore_add_length_le hm hlt
    omega
  · exact heq
  · have hle := bytesBefore_add_length_le hn hlt
    omega

theorem itemAt?_eq (hi : p.items.toList[n]? = some i) (hbytes : i.bytes ≠ []) {pc : Word}
    (hpc : pc.toNat = p.bytesBefore n) : p.itemAt? pc = some i := by
  have hplaced : p.layout.toList[n]? = some ⟨p.bytesBefore n, i⟩ := by
    rw [getElem?_layout, hi, Option.map_some]
  obtain ⟨hn, hget⟩ := List.getElem?_eq_some_iff.mp hplaced
  have hfind : p.layout.toList.find? (fun x => pc.toNat ≤ x.addr && x.item.size ≠ 0) =
      some ⟨p.bytesBefore n, i⟩ := by
    rw [List.find?_eq_some_iff_getElem]
    refine ⟨?_, n, hn, hget, fun m hm => ?_⟩
    · simpa [hpc, Item.size] using hbytes
    · -- an item before it starts at a smaller address or has no bytes
      have hm' : p.layout.toList[m]? = some p.layout.toList[m] := List.getElem?_eq_getElem _
      rw [getElem?_layout] at hm'
      obtain ⟨j, hj, hplace⟩ := Option.map_eq_some_iff.mp hm'
      have hle := bytesBefore_add_length_le hj hm
      rw [← hplace, Bool.not_eq_true', Bool.and_eq_false_iff]
      by_cases hzero : j.bytes.length = 0
      · right
        simp [Item.size, hzero]
      · left
        rw [decide_eq_false_iff_not]
        show ¬pc.toNat ≤ p.bytesBefore m
        omega
  rw [itemAt?, Placed.firstFrom?, ← Array.find?_toList, hfind]
  rfl

theorem take_drop_image (hi : p.items.toList[n]? = some i) :
    (p.image.drop (p.bytesBefore n)).take i.size = i.bytes := by
  obtain ⟨hn, rfl⟩ := List.getElem?_eq_some_iff.mp hi
  have himage : p.image = (p.items.toList.take n).flatMap Item.bytes ++
      (p.items.toList[n].bytes ++ (p.items.toList.drop (n + 1)).flatMap Item.bytes) := by
    rw [← List.flatMap_cons, ← List.drop_eq_getElem_cons hn, ← List.flatMap_append,
      List.take_append_drop, image]
  rw [himage, bytesBefore, List.drop_left, Item.size, List.take_left]

end Program

/-! ## Rows and their items -/

theorem Resolved.exists_item {d p : Program} (h : Resolved d p) {rows : List Image.Row}
    (hrows : Image.disassemble p.image = .ok rows) {r : Image.Row} (hr : r ∈ rows) :
    ∃ n i, p.items.toList[n]? = some i ∧ i.instruction? = some r.instruction ∧
      r.pc.toNat = p.bytesBefore n := by
  rw [h.disassemble_eq] at hrows
  cases hrows
  obtain ⟨x, hx, hrow⟩ := List.mem_filterMap.mp hr
  obtain ⟨c, hc, rfl⟩ := Option.map_eq_some_iff.mp hrow
  rw [← toList_layout, Array.mem_toList_iff, mem_layout] at hx
  obtain ⟨n, hn, haddr⟩ := hx
  refine ⟨n, x.item, hn, hc, ?_⟩
  rw [haddr]
  exact h.toNat_ofNat_bytesBefore (List.getElem?_eq_some_iff.mp hn).1

theorem Dump.row_eq {file source line : String} {p : Program} {r : Image.Row} {i : Item}
    (hlines : p.lines.toList = Source.lines source) (hi : p.itemAt? r.pc = some i)
    (hline : Source.WordAt file source i.pos line) :
    Dump.row p p.layout r = "[" ++ Text.hex 4 r.pc.toNat ++ "] | " ++ r.instruction.paint ++ " | " ++
      (Text.alignRight 4 (toString i.pos.line) ++ ": " ++ Text.trim line) ++ "\n" := by
  have hsource : sourceOf p i =
      Text.alignRight 4 (toString i.pos.line) ++ ": " ++ Text.trim line := by
    rw [sourceOf, hline.line?_eq hlines]
    rfl
  rw [itemAt?] at hi
  rw [row, hi]
  dsimp only
  rw [hsource]
  rfl

/-- **Dumps show the source.** The image of an assembled program is disassembled, and each row of
the dump belongs to one item of the program: the only one with bytes that starts at the row's
address. That is the item which is found there, its bytes are those of the image from there on, and
the row shows the number and the text of the line on which it stands. -/
theorem dump_shows_source {file source : String} {profile : Profile} {p : Program}
    (h : assemble file source profile = .ok p) :
    ∃ rows, Image.disassemble p.image = .ok rows ∧
      p.dump = Dump.frame ++ String.join (rows.map (Dump.row p p.layout)) ++ Dump.frame ∧
      ∀ r ∈ rows, ∃ n i line, p.items.toList[n]? = some i ∧ p.itemAt? r.pc = some i ∧
        (i.instruction? = some r.instruction ∧ r.pc.toNat = p.bytesBefore n ∧
          i.bytes = (p.image.drop r.pc.toNat).take r.instruction.size) ∧
        (∀ m j, p.items.toList[m]? = some j → j.bytes ≠ [] →
          p.bytesBefore m = r.pc.toNat → m = n) ∧
        1 ≤ i.pos.line ∧ (Source.lines source)[i.pos.line - 1]? = some line ∧
        Dump.row p p.layout r = "[" ++ Text.hex 4 r.pc.toNat ++ "] | " ++ r.instruction.paint ++
          " | " ++ (Text.alignRight 4 (toString i.pos.line) ++ ": " ++ Text.trim line) ++ "\n" := by
  obtain ⟨d, -, -, -, hres⟩ := resolved_of_assemble h
  refine ⟨_, hres.disassemble_eq, by rw [dump, hres.disassemble_eq], ?_⟩
  intro r hr
  obtain ⟨n, i, hi, hc, hpc⟩ := hres.exists_item hres.disassemble_eq hr
  have hbytes : i.bytes ≠ [] := by simp [Item.bytes_eq_nil_iff, hc]
  obtain ⟨line, hline⟩ := exists_wordAt_of_assemble h (List.mem_of_getElem? hi)
  have hfound := itemAt?_eq hi hbytes hpc
  refine ⟨n, i, line, hi, hfound, ⟨hc, hpc, ?_⟩, ?_, hline.bounds.1, hline.text, ?_⟩
  · rw [hpc, ← Item.size_of_some hc, take_drop_image hi]
  · intro m j hj hjbytes haddr
    exact index_unique_of_bytesBefore hj hjbytes hi hbytes (haddr.trans hpc)
  · exact Dump.row_eq (lines_of_assemble h) hfound hline

/-- Markers before instructions, an instruction of two lines and lines with blanks around them. -/
theorem dump_shows_source_indented :
    ∃ p rows, assemble "script" "sub go top:\n  7 \n\t1000 servo\t\n go goto top" .mini = .ok p ∧
      Image.disassemble p.image = .ok rows ∧
      rows.map (·.pc.toNat) = [0, 6, 7, 8] ∧
      (∀ r ∈ rows, ∃ i, p.itemAt? r.pc = some i ∧
        i.bytes = (p.image.drop r.pc.toNat).take r.instruction.size) := by
  obtain ⟨p, hp, hq⟩ := exists_ok_of_any
    (x := assemble "script" "sub go top:\n  7 \n\t1000 servo\t\n go goto top" .mini)
    (q := fun p => (Image.disassemble p.image).toOption.any fun rows =>
      rows.map (·.pc.toNat) = [0, 6, 7, 8]) (by decide +kernel)
  obtain ⟨rows, hrows, hpcs⟩ := exists_ok_of_any hq
  obtain ⟨rows', hrows', -, hall⟩ := dump_shows_source hp
  cases hrows.symm.trans hrows'
  refine ⟨p, rows, hp, hrows, of_decide_eq_true hpcs, fun r hr => ?_⟩
  obtain ⟨n, i, line, -, hfound, ⟨-, -, hbytes⟩, -⟩ := hall r hr
  exact ⟨i, hfound, hbytes⟩

end ServoScript
