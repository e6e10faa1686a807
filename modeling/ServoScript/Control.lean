import ServoScript.Program

/-!
# Structured control flow

The block keywords become labels and jumps over them. A loop jumps back to its start label at
`REPEAT` and out past it at `WHILE`; a branch jumps to its end label when its condition is zero; an
alternative is skipped by a jump at the end of the branch before it.
-/

namespace ServoScript.Program

def beginLoop (pos : Pos) : Action Unit := modify (·.openBlock .loop pos)

/-- Leaves the innermost loop if the condition is zero. -/
def whileInLoop (pos : Pos) : Action Unit := fun p =>
  match p.nest.innermost? with
  | some ⟨.loop, id, _⟩ => .ok () (p.push (.jumpIfZero (Block.endLabelOf id) pos))
  | _ => .error ⟨pos, .whileOutsideBegin⟩ p

def repeatLoop (pos : Pos) : Action Unit := fun p =>
  match p.nest.innermost? with
  | some ⟨.loop, id, _⟩ =>
    .ok () ((p.push (.jump (Block.startLabelOf id) pos)).closeBlock pos)
  | _ => .error ⟨pos, .repeatWithoutBegin⟩ p

def beginBranch (pos : Pos) : Action Unit := fun p =>
  let skip := Item.jumpIfZero p.nest.nextEndLabel pos
  .ok () ((p.openBlock .branch pos).push skip)

/-- Ends a branch and starts its alternative. The jump over the alternative goes to the end of the
block that is about to be opened. -/
def beginAlternative (pos : Pos) : Action Unit := fun p =>
  match p.nest.innermostKind? with
  | some .branch =>
    let skip := Item.jump p.nest.nextEndLabel pos
    .ok () (((p.push skip).closeBlock pos).openBlock .alternative pos)
  | _ => .error ⟨pos, .elseWithoutIf⟩ p

def endBranch (pos : Pos) : Action Unit := fun p =>
  match p.nest.innermostKind? with
  | some .branch | some .alternative => .ok () (p.closeBlock pos)
  | _ => .error ⟨pos, .endifWithoutIf⟩ p

end ServoScript.Program
