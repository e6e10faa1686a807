import ServoScript.Image
import ServoScript.Layout
import ServoScript.Text.Mark
import ServoScript.Text.WhiteSpace

/-!
# Dumps

The image of a program, disassembled, each instruction beside the source line that it comes from.
-/

namespace ServoScript

open Text (marked hex alignLeft alignRight)

/-- An instruction in colours: opcodes red, subroutine commands green, arguments yellow. -/
def Instruction.paint (i : Instruction) : String :=
  let color :=
    match i.command with
    | .op _ => .red
    | .sub _ => .green
  marked [color] (alignLeft 18 i.command.name) ++
    " ".intercalate (i.args.map fun w => marked [.yellow] ("0x" ++ hex 4 w.toNat))

namespace Dump

def frame : String := "-------+----------------------------+-------------------------------\n"

/-- The line on which an item stands, with its number. -/
def sourceOf (p : Program) (i : Item) : String :=
  match p.line? i.pos.line with
  | some line => s!"{alignRight 4 (toString i.pos.line)}: {Text.trim line}"
  | none => ""

/-- One row of the dump; `layout` is that of the program. -/
def row (p : Program) (layout : Array Placed) (r : Image.Row) : String :=
  let source :=
    match Placed.firstFrom? layout r.pc with
    | some i => sourceOf p i
    | none => ""
  s!"[{hex 4 r.pc.toNat}] | {r.instruction.paint} | {source}\n"

end Dump

def Program.dump (p : Program) : String :=
  match Image.disassemble p.image with
  | .error f => marked [.red, .bold] "Cannot disassemble" ++ s!": {f.message}\n"
  | .ok rows =>
    let layout := p.layout
    Dump.frame ++ String.join (rows.map (Dump.row p layout)) ++ Dump.frame

end ServoScript
