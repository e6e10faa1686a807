import ServoScript.Keyword
import ServoScript.Position

/-!
# Blocks

The control structures that are open at some point of a script. Every block gets the next free
number, and the numbers give the blocks' start and end labels their names.
-/

namespace ServoScript

/-- A loop runs from `BEGIN` to `REPEAT`, a branch from `IF` to `ELSE` or `ENDIF`, and an
alternative from `ELSE` to `ENDIF`. -/
inductive BlockKind where
  | loop
  | branch
  | alternative
  deriving DecidableEq

/-- The keyword that opens a block of this kind. -/
def BlockKind.keyword : BlockKind → Keyword
  | .loop => .BEGIN
  | .branch => .IF
  | .alternative => .ELSE

/-- An open control structure; `pos` is where its keyword stands. -/
structure Block where
  kind : BlockKind
  id : Nat
  pos : Pos
  deriving DecidableEq

namespace Block

def startLabelOf (id : Nat) : String := s!"block_start_{id}"

def endLabelOf (id : Nat) : String := s!"block_end_{id}"

def startLabel (b : Block) : String := startLabelOf b.id

def endLabel (b : Block) : String := endLabelOf b.id

end Block

/-- The open blocks, innermost first, and the number of the next block. -/
structure Nest where
  blocks : List Block := []
  nextId : Nat := 0
  deriving DecidableEq

namespace Nest

def innermost? (n : Nest) : Option Block := n.blocks.head?

def innermostKind? (n : Nest) : Option BlockKind := n.innermost?.map (·.kind)

/-- The block that `enter` opens. -/
def next (n : Nest) (kind : BlockKind) (pos : Pos) : Block := ⟨kind, n.nextId, pos⟩

def enter (n : Nest) (kind : BlockKind) (pos : Pos) : Nest :=
  { blocks := n.next kind pos :: n.blocks, nextId := n.nextId + 1 }

/-- Closes the innermost block; numbers are not used again. -/
def leave (n : Nest) : Nest := { n with blocks := n.blocks.tail }

/-- The end label of the block that will be opened next. -/
def nextEndLabel (n : Nest) : String := Block.endLabelOf n.nextId

end Nest

end ServoScript
