import ServoScript.Checksum
import ServoScript.Program

/-!
# Layout

Where the items of a program lie in its image, and the image itself. An item's address is the number
of bytes of the items before it.
-/

namespace ServoScript

/-- An item and its address. -/
structure Placed where
  addr : Nat
  item : Item

/-- The address after an item, and the items placed so far. -/
def Placed.step (s : Nat × Array Placed) (i : Item) : Nat × Array Placed :=
  (s.1 + i.size, s.2.push ⟨s.1, i⟩)

/-- The first item at or after an address that has bytes. -/
def Placed.firstFrom? (layout : Array Placed) (pc : Word) : Option Item :=
  (layout.find? fun x => pc.toNat ≤ x.addr && x.item.size ≠ 0).map (·.item)

/-- The sum of the sizes of some items. -/
def Item.totalSize : List Item → Nat
  | [] => 0
  | i :: rest => i.size + totalSize rest

/-- The items of a list, each at the sum of the sizes of those before it. -/
def Placed.ofItems (addr : Nat) (items : List Item) : List Placed :=
  items.mapIdx fun n i => ⟨addr + Item.totalSize (items.take n), i⟩

theorem Placed.ofItems_cons (addr : Nat) (i : Item) (rest : List Item) :
    ofItems addr (i :: rest) = ⟨addr, i⟩ :: ofItems (addr + i.size) rest := by
  simp [ofItems, Item.totalSize, List.mapIdx_cons, Nat.add_assoc]

/-- Placing items one after the other puts each where `ofItems` says. -/
theorem Placed.foldl_step (items : List Item) (addr : Nat) (done : Array Placed) :
    (items.foldl Placed.step (addr, done)).2.toList = done.toList ++ ofItems addr items := by
  induction items generalizing addr done with
  | nil => simp [ofItems]
  | cons i rest ih => simp [Placed.step, ih, ofItems_cons]

namespace Program

def layout (p : Program) : Array Placed := (p.items.foldl Placed.step (0, #[])).2

theorem toList_layout (p : Program) : p.layout.toList = Placed.ofItems 0 p.items.toList := by
  rw [layout, ← Array.foldl_toList, Placed.foldl_step]
  rfl

/-- The layout, if every item starts at an address of 16 bits. -/
def checkedLayout (p : Program) : Except Diag (Array Placed) :=
  let layout := p.layout
  match layout.find? (65535 < ·.addr) with
  | some x => .error ⟨x.item.pos, .programTooLarge x.addr⟩
  | none => .ok layout

def image (p : Program) : List Byte := p.items.toList.flatMap Item.bytes

/-- The item that `Placed.firstFrom?` finds in the program's own layout. -/
def itemAt? (p : Program) (pc : Word) : Option Item := Placed.firstFrom? p.layout pc

/-! ## The subroutine table -/

/-- The address of a subroutine; 0 while it has none. -/
def addressOf (p : Program) (name : String) : Word := (p.addresses.get? name).getD 0

/-- Enters the address of a subroutine into its slot, if it has one. -/
def enterSlot (p : Program) (table : Vector Word 128) (e : String × Command) : Vector Word 128 :=
  match e.2 with
  | .sub slot => table.set slot (p.addressOf e.1)
  | .op _ => table

/-- The controller's table of addresses by slot. Unused slots hold 0. -/
def slots (p : Program) : Vector Word 128 :=
  p.commands.entries.foldl p.enterSlot (Vector.replicate 128 0)

/-- The checksum covers the subroutine table and then the image. -/
def checksum (p : Program) : Word :=
  Checksum.checksum (p.slots.toList.flatMap Word.bytes ++ p.image)

end Program

end ServoScript
