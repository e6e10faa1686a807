import ServoScript.Layout

/-!
# Resolution

Three passes turn the items of a program into an image: runs of literals get their commands, calls
get theirs from the subroutines in order of declaration, and jumps get the addresses of their
labels. Each pass stops at the first item that it has to complain about and keeps what it has done
by then.
-/

namespace ServoScript.Program

/-- Changes items from the left. An item that is refused and all after it stay as they are. -/
def amendFrom (change : Item → Except Diag Item) :
    Array Item → List Item → EStateM.Result Diag (Array Item) Unit
  | done, [] => .ok () done
  | done, i :: rest =>
    match change i with
    | .ok i => amendFrom change (done.push i) rest
    | .error d => .error d (done ++ (i :: rest))

def amend (change : Item → Except Diag Item) : Action Unit := fun p =>
  match amendFrom change #[] p.items.toList with
  | .ok _ items => .ok () { p with items }
  | .error d items => .error d { p with items }

/-! ## Literals -/

def completeLiterals (p : Program) : Program := { p with items := p.items.map Item.settle }

/-! ## Calls -/

/-- The command table and the number of subroutines in it that were declared by this pass. -/
abbrev Declarations := Symbols Command × Nat

/-- Enters a subroutine in the command table. The first 128 get a command of their own, the others
share the general call if the model has one. -/
def declare (profile : Profile) (i : Item) : EStateM Diag Declarations Unit := fun (table, count) =>
  match i.role with
  | .subroutine name =>
    if table.contains name then .error ⟨i.pos, .subroutineRedefined name⟩ (table, count)
    else if h : count < 128 then .ok () (table.insert name (.sub ⟨count, h⟩), count + 1)
    else
      match profile.subroutineLimit? with
      | some limit => .error ⟨i.pos, .tooManySubroutines limit profile⟩ (table, count)
      | none => .ok () (table.insert name (.op .call), count + 1)
  | _ => .ok () (table, count)

def declareSubroutines : Action Unit := fun p =>
  match (p.items.toList.forM (declare p.profile)).run (p.commands, 0) with
  | .ok _ (commands, _) => .ok () { p with commands }
  | .error d (commands, _) => .error d { p with commands }

/-- Gives a call the command of its subroutine. -/
def resolveCall (commands : Symbols Command) (i : Item) : Except Diag Item :=
  match i.role with
  | .call name =>
    match commands.get? name with
    | none => .error ⟨i.pos, .notUnderstood name⟩
    | some c => (i.setCommand c).mapError (⟨i.pos, ·⟩)
  | _ => .ok i

def resolveCalls : Action Unit := fun p => (amend (resolveCall p.commands)).run p

def enterAddress (table : Symbols Word) (x : Placed) : Symbols Word :=
  match x.item.role with
  | .subroutine name => table.insert name (UInt16.ofNat x.addr)
  | _ => table

/-- Notes the addresses of the subroutines, now that all sizes are final. -/
def placeSubroutines : Action Unit := fun p =>
  match p.checkedLayout with
  | .ok layout => .ok () { p with addresses := layout.foldl enterAddress p.addresses }
  | .error d => .error d p

/-- A general call carries the address of its subroutine. -/
def passAddress (addresses : Symbols Word) (i : Item) : Item :=
  if i.command? = some (.op .call) then
    match i.role.name?.bind addresses.get? with
    | some addr => i.push addr
    | none => i
  else i

def passAddresses (p : Program) : Program :=
  { p with items := p.items.map (passAddress p.addresses) }

def completeCalls : Action Unit := do
  declareSubroutines
  resolveCalls
  placeSubroutines
  modify passAddresses

/-! ## Jumps -/

/-- Enters a label with its address, in place of an earlier one of its name. -/
def defineLabel (x : Placed) : EStateM Diag (Symbols (Pos × Word)) Unit := fun labels =>
  match x.item.role with
  | .label name =>
    let defined := labels.insert name (x.item.pos, UInt16.ofNat x.addr)
    match labels.get? name with
    | some (first, _) => .error ⟨x.item.pos, .labelAlreadyUsed name first⟩ defined
    | none => .ok () defined
  | _ => .ok () labels

def defineLabels : Action Unit := fun p =>
  match p.checkedLayout with
  | .error d => .error d p
  | .ok layout =>
    match (layout.toList.forM defineLabel).run p.labels with
    | .ok _ labels => .ok () { p with labels }
    | .error d labels => .error d { p with labels }

/-- Gives a jump the address of its label. -/
def aimJump (labels : Symbols (Pos × Word)) (i : Item) : Except Diag Item :=
  match i.role with
  | .jump name =>
    match labels.get? name with
    | none => .error ⟨i.pos, .labelNotFound name⟩
    | some (_, addr) => .ok (i.push addr)
  | _ => .ok i

def aimJumps : Action Unit := fun p => (amend (aimJump p.labels)).run p

def completeJumps : Action Unit := do
  defineLabels
  aimJumps

/-! ## All passes -/

/-- Literals come first, because calls need their sizes, and jumps last, because they need those of
the calls. -/
def complete : Action Unit := do
  modify completeLiterals
  completeCalls
  completeJumps

end ServoScript.Program
