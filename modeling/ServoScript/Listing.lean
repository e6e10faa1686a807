import ServoScript.Layout

/-!
# Listings

The source lines, each with its address and the bytes that it stands for, and below them the table
of subroutines.
-/

namespace ServoScript

namespace Listing

/-- A source line, the address of its first byte and its bytes. -/
structure Row where
  addr : Nat
  bytes : List Byte
  source : String

def hexBytes (bytes : List Byte) : String :=
  String.join (bytes.map fun b => Text.hex 2 b.toNat)

def Row.render (r : Row) : String :=
  s!"{Text.hex 4 r.addr}: {Text.alignLeft 20 (hexBytes r.bytes)} -- {r.source}\n"

/-- The items that are not listed yet, the next address and the rows so far. -/
structure Cursor where
  rest : List Item
  addr : Nat := 0
  rows : Array Row := #[]

/-- Lists one line: the next items as long as they stand on it. -/
def Cursor.line (c : Cursor) (line : String × Nat) : Cursor :=
  let onLine := fun (i : Item) => i.pos.line == line.2
  let bytes := (c.rest.takeWhile onLine).flatMap Item.bytes
  { rest := c.rest.dropWhile onLine
    addr := c.addr + bytes.length
    rows := c.rows.push ⟨c.addr, bytes, line.1⟩ }

/-- One row for each source line. -/
def rows (p : Program) : List Row :=
  ((p.lines.toList.zipIdx 1).foldl Cursor.line { rest := p.items.toList }).rows.toList

/-! ## The table of subroutines -/

/-- The subroutines with a slot of their own. -/
def direct (p : Program) : List (Fin 128 × String) :=
  p.commands.entries.filterMap fun (name, command) =>
    match command with
    | .sub slot => some (slot, name)
    | .op _ => none

/-- The subroutines that are called by address. -/
def byAddress (p : Program) : List String :=
  p.commands.entries.filterMap fun (name, command) =>
    match command with
    | .sub _ => none
    | .op _ => some name

def renderDirect (p : Program) (s : Fin 128 × String) : String :=
  let slot := s.1.val
  s!"{Text.hex 2 slot}  {Text.decimal 3 slot}     {Text.hex 4 (p.addressOf s.2).toNat}    {s.2}\n"

def renderByAddress (p : Program) (name : String) : String :=
  s!"--  ---     {Text.hex 4 (p.addressOf name).toNat}    {name}\n"

/-- Direct subroutines by slot, then the others in order of declaration. -/
def subroutines (p : Program) : List String :=
  ((direct p).mergeSort fun a b => a.1 ≤ b.1).map (renderDirect p) ++
    (byAddress p).map (renderByAddress p)

end Listing

def Program.listing (p : Program) : String :=
  String.join ((Listing.rows p).map Listing.Row.render) ++
    "\nSubroutines:\nHex Decimal Address Name\n" ++ String.join (Listing.subroutines p)

end ServoScript
