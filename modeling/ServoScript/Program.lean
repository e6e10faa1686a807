import ServoScript.Item
import ServoScript.Symbols

/-!
# Programs

The items of a script in order, with the source lines, the open blocks and the symbol tables that
are filled when the program is resolved. An operation that fails keeps what it has already done, so
operations return the program in either case.
-/

namespace ServoScript

structure Program where
  profile : Profile
  lines : Array String := #[]
  items : Array Item := #[]
  nest : Nest := {}
  /-- Where each label was defined, and its address. -/
  labels : Symbols (Pos × Word) := {}
  /-- The command that calls each subroutine. -/
  commands : Symbols Command := {}
  /-- The address of each subroutine. -/
  addresses : Symbols Word := {}

namespace Program

/-- A change of a program that may be cut short by a diagnostic. -/
abbrev Action := EStateM Diag Program

def empty (profile : Profile) : Program := { profile }

def addLine (p : Program) (line : String) : Program := { p with lines := p.lines.push line }

def push (p : Program) (i : Item) : Program := { p with items := p.items.push i }

/-- The source line of a number counted from 1. -/
def line? (p : Program) (n : Nat) : Option String :=
  match n with
  | 0 => none
  | n + 1 => p.lines[n]?

/-- The first label of a name. -/
def findLabel? (p : Program) (name : String) : Option Item :=
  p.items.find? (·.role = .label name)

def labelAddress? (p : Program) (name : String) : Option Word := (p.labels.get? name).map (·.2)

/-! ## Literals -/

/-- Replaces the last item. -/
def replaceLast (p : Program) (i : Item) : Program := { p with items := p.items.pop.push i }

/-- The run at the end of the program, if it ends with one. -/
def openRun? (p : Program) : Option Item := p.items.back?.filter Item.isRun

/-- Extends the run at the end of the program or starts one. A run that grows too long is at fault
itself, and keeps the value; a new one is not added unless it is sound. -/
def addLiteral (w : Word) (pos : Pos) : Action Unit := fun p =>
  match p.openRun? with
  | some run =>
    match (Item.pushLiteral p.profile w).run run with
    | .ok _ run => .ok () (p.replaceLast run)
    | .error f run => .error ⟨run.pos, f⟩ (p.replaceLast run)
  | none =>
    match (Item.pushLiteral p.profile w).run (.emptyRun pos) with
    | .ok _ run => .ok () (p.push run)
    | .error f _ => .error ⟨pos, f⟩ p

/-! ## Blocks -/

/-- Opens a block and places its start label. -/
def openBlock (p : Program) (kind : BlockKind) (pos : Pos) : Program :=
  let block := p.nest.next kind pos
  { p with nest := p.nest.enter kind pos, items := p.items.push (.label block.startLabel pos) }

/-- Closes the innermost block, if there is one, and places its end label. -/
def closeBlock (p : Program) (pos : Pos) : Program :=
  match p.nest.innermost? with
  | some block =>
    { p with nest := p.nest.leave, items := p.items.push (.label block.endLabel pos) }
  | none => p

end Program

end ServoScript
