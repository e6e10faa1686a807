import ServoScript.Control
import ServoScript.Source

/-!
# Reading scripts

The reader takes tokens one at a time and extends a program. `GOTO` and `SUB` take the next token
as a name, whatever it looks like and on whatever line it stands. A token that is refused leaves the
reader ready for the next one.
-/

namespace ServoScript

/-- The keyword that waits for a name, and its position. -/
inductive Pending where
  | nothing
  | goto (pos : Pos)
  | sub (pos : Pos)
  deriving DecidableEq

structure Reader where
  program : Program
  pending : Pending := .nothing

namespace Reader

abbrev Action := EStateM Diag Reader

def start (profile : Profile) : Reader := { program := .empty profile }

/-- Labels of the script have names of their own, apart from those of blocks. -/
def userLabel (name : String) : String := "USER_" ++ name

/-- Changes the program. -/
def act (action : Program.Action Unit) : Action Unit := fun ⟨program, pending⟩ =>
  match action.run program with
  | .ok _ program => .ok () ⟨program, pending⟩
  | .error d program => .error d ⟨program, pending⟩

def emit (i : Item) : Action Unit := act (modify (·.push i))

def await (pending : Pending) : Action Unit := modify ({ · with pending })

/-- An opcode that a script may write out. -/
def opcode (op : Opcode) (pos : Pos) : Action Unit := fun r =>
  if op.isLiteral then .error ⟨pos, .literalCommand⟩ r
  else if op.isJump then .error ⟨pos, .jumpCommand⟩ r
  else if op = .call then .error ⟨pos, .callCommand⟩ r
  else if r.program.profile.supports op then (emit (.ofOpcode op pos)).run r
  else .error ⟨pos, .miniOnly op⟩ r

def keyword (k : Keyword) (pos : Pos) : Action Unit :=
  match k with
  | .GOTO => await (.goto pos)
  | .SUB => await (.sub pos)
  | .BEGIN => act (Program.beginLoop pos)
  | .WHILE => act (Program.whileInLoop pos)
  | .REPEAT => act (Program.repeatLoop pos)
  | .IF => act (Program.beginBranch pos)
  | .ELSE => act (Program.beginAlternative pos)
  | .ENDIF => act (Program.endBranch pos)

/-- A token when no name is awaited. -/
def ordinary (t : Token) : Action Unit :=
  match t.kind with
  | .number =>
    match Number.read t.text with
    | .ok w => act (Program.addLiteral w t.pos)
    | .error f => throw ⟨t.pos, f⟩
  | .keyword k => keyword k t.pos
  | .label name => emit (.label (userLabel name) t.pos)
  | .op op => opcode op t.pos
  | .plain => emit (.call t.text t.pos)

/-- A token as the name of a subroutine that is declared here. -/
def declaration (t : Token) : Action Unit :=
  match t.kind with
  | .number => throw ⟨t.pos, .subroutineLooksNumeric t.text⟩
  | .op _ => throw ⟨t.pos, .subroutineIsCommand t.text⟩
  | .keyword _ => throw ⟨t.pos, .subroutineIsKeyword t.text⟩
  | .label _ | .plain => emit (.subroutine t.text t.pos)

/-- Takes the next token. -/
def token (t : Token) : Action Unit := fun ⟨program, pending⟩ =>
  match pending with
  | .nothing => (ordinary t).run ⟨program, .nothing⟩
  | .goto _ => (emit (.jump (userLabel t.text) t.pos)).run ⟨program, .nothing⟩
  | .sub _ => (declaration t).run ⟨program, .nothing⟩

/-- Takes a line with its tokens. After a refused token the rest of the line is skipped. -/
def line (raw : String) (tokens : List Token) : Action Unit := do
  act (modify (·.addLine raw))
  tokens.forM token

/-- Takes lines until a token is refused. -/
def lines (script : List (String × List Token)) : Action Unit :=
  script.forM fun (raw, tokens) => line raw tokens

/-- The program of a script that ends here. -/
def finish (r : Reader) : Except Diag Program :=
  match r.pending with
  | .goto pos => .error ⟨pos, .missingName .GOTO⟩
  | .sub pos => .error ⟨pos, .missingName .SUB⟩
  | .nothing =>
    match r.program.nest.innermost? with
    | some block => .error ⟨block.pos, .blockNeverClosed block.kind⟩
    | none => .ok r.program

end Reader

/-- Reads a whole script; the program is not resolved. -/
def Program.read (file source : String) (profile : Profile) : Except Diag Program :=
  match (Reader.lines (Source.tokens file source)).run (Reader.start profile) with
  | .ok _ r => r.finish
  | .error d _ => .error d

end ServoScript
