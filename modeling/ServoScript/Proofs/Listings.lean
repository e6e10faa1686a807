import Mathlib.Data.List.TakeWhile
import ServoScript.Proofs.SourceLines

/-!
# Listings account for the image

A listing is written in one walk over the lines with one cursor in the items, which moves on as long
as items stand on the line at hand. Since the items come in the order of the lines, the cursor takes
all items of a line at that line (`Cursor.line_from`), so the rows are those of `rowsFrom`, which
looks the items of each line up, and no byte is lost or listed twice (`listing_accounts_for_image`).
-/

namespace ServoScript

namespace Listing

/-! ## Items of a line -/

/-- In the order of lines, what is left at a line is what stands on it and then what stands on later
ones. -/
theorem filter_from {items : List Item}
    (h : items.Pairwise fun i j => i.pos.line ≤ j.pos.line) (n : Nat) :
    items.filter (n ≤ ·.pos.line) =
      items.filter (·.pos.line = n) ++ items.filter (n + 1 ≤ ·.pos.line) := by
  induction items with
  | nil => rfl
  | cons i rest ih =>
    obtain ⟨hfirst, hrest⟩ := List.pairwise_cons.mp h
    have ih := ih hrest
    rcases Nat.lt_trichotomy i.pos.line n with hlt | heq | hgt
    · rw [List.filter_cons_of_neg (by simpa using hlt), ih,
        List.filter_cons_of_neg (by simpa using Nat.ne_of_lt hlt),
        List.filter_cons_of_neg (by simp only [decide_eq_true_eq]; omega)]
    · rw [List.filter_cons_of_pos (by simp [heq]), ih, List.filter_cons_of_pos (by simp [heq]),
        List.filter_cons_of_neg (by simp [heq]), List.cons_append]
    · -- nothing after this item stands on the line
      have hnone : rest.filter (·.pos.line = n) = [] := by
        rw [List.filter_eq_nil_iff]
        intro j hj
        have hle := hfirst j hj
        simp only [decide_eq_true_eq]
        omega
      rw [List.filter_cons_of_pos (by simp only [decide_eq_true_eq]; omega), ih, hnone,
        List.filter_cons_of_neg (by simpa using Nat.ne_of_gt hgt), hnone,
        List.filter_cons_of_pos (by simp only [decide_eq_true_eq]; omega), List.nil_append,
        List.nil_append]

def lineBytes (items : List Item) (n : Nat) : List Byte :=
  (items.filter (·.pos.line = n)).flatMap Item.bytes

/-- Rows for source lines of which the first is line `n`. -/
def rowsFrom (items : List Item) (addr n : Nat) : List String → List Row
  | [] => []
  | source :: rest =>
    ⟨addr, lineBytes items n, source⟩ ::
      rowsFrom items (addr + (lineBytes items n).length) (n + 1) rest

/-! ## The walk -/

theorem Cursor.line_from {items : List Item}
    (h : items.Pairwise fun i j => i.pos.line ≤ j.pos.line) (n addr : Nat) (done : Array Row)
    (source : String) :
    Cursor.line ⟨items.filter (n ≤ ·.pos.line), addr, done⟩ (source, n) =
      ⟨items.filter (n + 1 ≤ ·.pos.line), addr + (lineBytes items n).length,
        done.push ⟨addr, lineBytes items n, source⟩⟩ := by
  have hon : ∀ i ∈ items.filter (·.pos.line = n), (i.pos.line == n) = true := by
    intro i hi
    simpa using (List.mem_filter.mp hi).2
  have hlater : ∀ i ∈ items.filter (n + 1 ≤ ·.pos.line), ¬(i.pos.line == n) = true := by
    intro i hi
    have hlt := of_decide_eq_true (List.mem_filter.mp hi).2
    rw [beq_iff_eq]
    omega
  have htake : (items.filter (n + 1 ≤ ·.pos.line)).takeWhile (·.pos.line == n) = [] :=
    List.takeWhile_eq_nil_iff.mpr fun _ => hlater _ (List.get_mem _ _)
  have hdrop : (items.filter (n + 1 ≤ ·.pos.line)).dropWhile (·.pos.line == n) =
      items.filter (n + 1 ≤ ·.pos.line) :=
    List.dropWhile_eq_self_iff.mpr fun _ => hlater _ (List.get_mem _ _)
  simp only [Cursor.line]
  rw [filter_from h, List.takeWhile_append_of_pos hon, List.dropWhile_append_of_pos hon, htake,
    hdrop, List.append_nil, lineBytes]

theorem foldl_line {items : List Item}
    (h : items.Pairwise fun i j => i.pos.line ≤ j.pos.line) (sources : List String)
    (n addr : Nat) (done : Array Row) :
    ((sources.zipIdx n).foldl Cursor.line
        ⟨items.filter (n ≤ ·.pos.line), addr, done⟩).rows.toList =
      done.toList ++ rowsFrom items addr n sources := by
  induction sources generalizing n addr done with
  | nil => simp [rowsFrom]
  | cons source rest ih =>
    rw [List.zipIdx_cons, List.foldl_cons, Cursor.line_from h, ih, rowsFrom, Array.toList_push,
      List.append_assoc, List.singleton_append]

theorem filter_from_first {p : Program} (h : p.OnLines) :
    p.items.toList.filter (1 ≤ ·.pos.line) = p.items.toList := by
  rw [List.filter_eq_self]
  intro i hi
  simpa using (h.bounds i hi).1

/-- **The walk finds every row.** -/
theorem rows_eq {p : Program} (h : p.OnLines) :
    rows p = rowsFrom p.items.toList 0 1 p.lines.toList := by
  have hwalk := foldl_line h.sorted p.lines.toList 1 0 #[]
  rw [filter_from_first h] at hwalk
  rw [rows, hwalk]
  rfl

/-! ## Rows -/

theorem map_source_rowsFrom (items : List Item) (sources : List String) (addr n : Nat) :
    (rowsFrom items addr n sources).map (·.source) = sources := by
  induction sources generalizing addr n with
  | nil => rfl
  | cons source rest ih => rw [rowsFrom, List.map_cons, ih]

theorem getElem?_rowsFrom {items : List Item} {sources : List String} {addr n k : Nat} {row : Row}
    (h : (rowsFrom items addr n sources)[k]? = some row) :
    row.bytes = lineBytes items (n + k) ∧
      row.addr = addr + (((rowsFrom items addr n sources).take k).flatMap (·.bytes)).length := by
  induction sources generalizing addr n k with
  | nil => cases h
  | cons source rest ih =>
    cases k with
    | zero =>
      cases h
      exact ⟨rfl, rfl⟩
    | succ k =>
      rw [rowsFrom, List.getElem?_cons_succ] at h
      obtain ⟨hbytes, haddr⟩ := ih h
      refine ⟨by rw [hbytes, Nat.add_assoc, Nat.add_comm 1], ?_⟩
      rw [haddr, rowsFrom, List.take_succ_cons, List.flatMap_cons, List.length_append,
        Nat.add_assoc]

theorem flatMap_bytes_rowsFrom {items : List Item}
    (h : items.Pairwise fun i j => i.pos.line ≤ j.pos.line) (sources : List String)
    (addr n : Nat) :
    (items.filter (n ≤ ·.pos.line)).flatMap Item.bytes =
      (rowsFrom items addr n sources).flatMap (·.bytes) ++
        (items.filter (n + sources.length ≤ ·.pos.line)).flatMap Item.bytes := by
  induction sources generalizing addr n with
  | nil => rfl
  | cons source rest ih =>
    have hlater := ih (addr + (lineBytes items n).length) (n + 1)
    rw [filter_from h, List.flatMap_append, hlater, rowsFrom, List.flatMap_cons,
      List.append_assoc, List.length_cons, Nat.add_assoc, Nat.add_comm 1, lineBytes]

theorem flatMap_bytes_rows {p : Program} (h : p.OnLines) :
    (rows p).flatMap (·.bytes) = p.image := by
  have hlast : p.items.toList.filter (1 + p.lines.toList.length ≤ ·.pos.line) = [] := by
    rw [List.filter_eq_nil_iff]
    intro i hi
    have hle := (h.bounds i hi).2
    simp only [Array.length_toList, decide_eq_true_eq]
    omega
  have hall := flatMap_bytes_rowsFrom h.sorted p.lines.toList 0 1
  rw [filter_from_first h, hlast, List.flatMap_nil, List.append_nil, ← rows_eq h] at hall
  exact hall.symm

/-! ## Hexadecimal fields -/

def hexDigit (n : Nat) : Char := "0123456789ABCDEF".toList.getD n ' '

def hexPair (b : Byte) : List Char := [hexDigit (b.toNat / 16), hexDigit (b.toNat % 16)]

theorem toList_hex_byte (b : Byte) : (Text.hex 2 b.toNat).toList = hexPair b := by
  have hall : ∀ n < 256, ((Nat.toDigits 16 n).map Char.toUpper).leftpad 2 '0' =
      [hexDigit (n / 16), hexDigit (n % 16)] := by decide +kernel
  rw [Text.hex, String.toList_ofList]
  exact hall b.toNat b.toNat_lt

theorem toList_hexBytes (bytes : List Byte) :
    (hexBytes bytes).toList = bytes.flatMap hexPair := by
  rw [hexBytes, String.toList_join, List.flatMap_map]
  exact congrArg (bytes.flatMap ·) (funext toList_hex_byte)

theorem hexBytes_flatMap (rows : List Row) :
    hexBytes (rows.flatMap (·.bytes)) = String.join (rows.map fun r => hexBytes r.bytes) := by
  apply String.toList_inj.mp
  rw [toList_hexBytes, String.toList_join, List.flatMap_map, List.flatMap_assoc]
  simp only [toList_hexBytes]

theorem length_hexBytes (bytes : List Byte) :
    (hexBytes bytes).toList.length = 2 * bytes.length := by
  rw [toList_hexBytes]
  induction bytes with
  | nil => rfl
  | cons b rest ih =>
    rw [List.flatMap_cons, List.length_append, ih, List.length_cons, hexPair]
    simp only [List.length_cons, List.length_nil]
    omega

theorem Row.render_eq (r : Row) :
    r.render = Text.hex 4 r.addr ++ ": " ++
      (hexBytes r.bytes ++ Text.blanks (20 - 2 * r.bytes.length)) ++ " -- " ++ r.source ++ "\n" := by
  have hfield : Text.alignLeft 20 (hexBytes r.bytes) =
      hexBytes r.bytes ++ Text.blanks (20 - 2 * r.bytes.length) := by
    apply String.toList_inj.mp
    rw [Text.alignLeft, Text.blanks, List.rightpad, length_hexBytes, String.toList_append,
      String.toList_ofList, String.toList_ofList]
  rw [← hfield]
  rfl

end Listing

/-- **The listing accounts for the image.** It has one row for each line of the script, in order. The
row of a line gives the bytes of exactly the items that stand on that line, two upper-case digits
each, and the number of bytes in the rows before it. All rows together give the image, and the table
of subroutines comes after them. -/
theorem listing_accounts_for_image {file source : String} {profile : Profile} {p : Program}
    (h : assemble file source profile = .ok p) :
    p.listing = String.join ((Listing.rows p).map Listing.Row.render) ++
      ("\nSubroutines:\nHex Decimal Address Name\n" ++ String.join (Listing.subroutines p)) ∧
    (Listing.rows p).map (·.source) = Source.lines source ∧
    (∀ (n : Nat) (row : Listing.Row), (Listing.rows p)[n]? = some row →
      row.bytes = (p.items.toList.filter (·.pos.line = n + 1)).flatMap Item.bytes ∧
      row.addr = (((Listing.rows p).take n).flatMap (·.bytes)).length ∧
      row.render = Text.hex 4 row.addr ++ ": " ++
        (Listing.hexBytes row.bytes ++ Text.blanks (20 - 2 * row.bytes.length)) ++ " -- " ++
          row.source ++ "\n" ∧
      (Listing.hexBytes row.bytes).toList = row.bytes.flatMap Listing.hexPair) ∧
    (Listing.rows p).flatMap (·.bytes) = p.image ∧
    String.join ((Listing.rows p).map fun row => Listing.hexBytes row.bytes) =
      Listing.hexBytes p.image := by
  have hlines := onLines_of_assemble h
  refine ⟨by rw [Program.listing, String.append_assoc], ?_, ?_,
    Listing.flatMap_bytes_rows hlines, ?_⟩
  · rw [Listing.rows_eq hlines, Listing.map_source_rowsFrom, lines_of_assemble h]
  · intro n row hrow
    rw [Listing.rows_eq hlines] at hrow ⊢
    obtain ⟨hbytes, haddr⟩ := Listing.getElem?_rowsFrom hrow
    rw [Nat.add_comm 1] at hbytes
    rw [Nat.zero_add] at haddr
    exact ⟨hbytes, haddr, row.render_eq, Listing.toList_hexBytes row.bytes⟩
  · rw [← Listing.hexBytes_flatMap, Listing.flatMap_bytes_rows hlines]

/-- A run of literals and a name after `GOTO` that go on in the next line, a line without items, and
a keyword that is a jump and two labels. -/
theorem listing_accounts_for_image_broken :
    ∃ p, assemble "script" "if 1\n300 servo goto\nout # out:\n\nelse quit endif out:" .micro = .ok p ∧
      (Listing.rows p).map (fun row => (row.addr, Listing.hexBytes row.bytes)) =
        [(0, "071000030401002C01"), (9, "2A"), (10, "061100"), (13, ""), (13, "06110000")] ∧
      String.join ((Listing.rows p).map fun row => Listing.hexBytes row.bytes) =
        Listing.hexBytes p.image := by
  obtain ⟨p, hp, hq⟩ := exists_ok_of_any
    (x := assemble "script" "if 1\n300 servo goto\nout # out:\n\nelse quit endif out:" .micro)
    (q := fun p => (Listing.rows p).map (fun row => (row.addr, Listing.hexBytes row.bytes)) =
      [(0, "071000030401002C01"), (9, "2A"), (10, "061100"), (13, ""), (13, "06110000")])
    (by decide +kernel)
  exact ⟨p, hp, of_decide_eq_true hq, (listing_accounts_for_image hp).2.2.2.2⟩

end ServoScript
