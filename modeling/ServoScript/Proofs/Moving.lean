import ServoScript.Proofs.Refusals
import ServoScript.Proofs.Renaming

/-!
# Tokens that stand elsewhere

Reading commutes with a change of positions: tokens that have been moved, given to a reader whose
positions have been moved, lead to the moved reader or to the moved complaint
(`Reader.tokens_moving`). The source lines kept by a reader may change along.
-/

namespace ServoScript

/-- Moves all positions and leaves names as they are. -/
def Renaming.moving (move : Pos → Pos) (lines : Array String → Array String) : Renaming where
  label := id
  subroutine := id
  pos := move
  lines := lines
  label_injective := Function.injective_id
  subroutine_injective := Function.injective_id

def Token.move (move : Pos → Pos) (t : Token) : Token := { t with pos := move t.pos }

def Pending.rename (ρ : Renaming) : Pending → Pending
  | .nothing => .nothing
  | .goto pos => .goto (ρ.pos pos)
  | .sub pos => .sub (ρ.pos pos)

def Reader.rename (ρ : Renaming) (r : Reader) : Reader :=
  ⟨r.program.rename ρ, r.pending.rename ρ⟩

/-! ## Programs that are moved -/

namespace Program

section rename

variable (ρ : Renaming) (p : Program)

theorem push_rename (i : Item) : (p.rename ρ).push (i.rename ρ) = (p.push i).rename ρ := by
  simp [push, rename]

theorem replaceLast_rename (i : Item) :
    (p.rename ρ).replaceLast (i.rename ρ) = (p.replaceLast i).rename ρ := by
  simp [replaceLast, rename]

theorem openRun?_rename : (p.rename ρ).openRun? = p.openRun?.map (·.rename ρ) := by
  rw [openRun?, openRun?, rename, Array.back?_map]
  cases p.items.back? with
  | none => rfl
  | some i =>
    simp only [Option.map_some, Option.filter_some]
    change (if i.isRun then _ else _) = _
    split <;> rfl

theorem innermost?_rename :
    (p.rename ρ).nest.innermost? = p.nest.innermost?.map (·.rename ρ) := by
  rw [Nest.innermost?, Nest.innermost?, ← List.head?_map]
  rfl

theorem innermostKind?_rename : (p.rename ρ).nest.innermostKind? = p.nest.innermostKind? := by
  rw [Nest.innermostKind?, innermost?_rename, Option.map_map, Nest.innermostKind?]
  rfl

theorem run_addLiteral (w : Word) (pos : Pos) : (addLiteral w pos).run p =
    match p.openRun? with
    | some run =>
      match Item.exceededLimit? p.profile (run.args.length + 1) with
      | some limit => .error ⟨run.pos, .tooManyLiterals limit⟩ (p.replaceLast (run.push w))
      | none => .ok () (p.replaceLast (run.push w))
    | none => .ok () (p.push ((Item.emptyRun pos).push w)) := by
  rw [EStateM.run, addLiteral]
  cases p.openRun? with
  | none =>
    have hlimit : Item.exceededLimit? p.profile ((Item.emptyRun pos).args.length + 1) = none :=
      exceededLimit?_one p.profile
    simp only [EStateM.run, Item.pushLiteral, hlimit]
  | some run =>
    simp only [EStateM.run, Item.pushLiteral]
    cases Item.exceededLimit? p.profile (run.args.length + 1) <;> rfl

theorem addLiteral_rename (w : Word) (pos : Pos) : (addLiteral w (ρ.pos pos)).run (p.rename ρ) =
    carry (·.rename ρ) (·.rename ρ) ((addLiteral w pos).run p) := by
  rw [run_addLiteral, run_addLiteral, openRun?_rename]
  cases p.openRun? with
  | none => exact congrArg (EStateM.Result.ok ()) (push_rename ρ p ((Item.emptyRun pos).push w))
  | some run =>
    have hlast := replaceLast_rename ρ p (run.push w)
    change (match Item.exceededLimit? p.profile (run.args.length + 1) with
      | some limit => EStateM.Result.error _ _ | none => _) = _
    dsimp only
    cases Item.exceededLimit? p.profile (run.args.length + 1) with
    | none => exact congrArg (EStateM.Result.ok ()) hlast
    | some limit =>
      exact congrArg (EStateM.Result.error (⟨ρ.pos run.pos, .tooManyLiterals limit⟩ : Diag)) hlast

end rename

variable (move : Pos → Pos) (lines : Array String → Array String) (p : Program) (pos : Pos)

theorem openBlock_moving (kind : BlockKind) :
    (p.rename (.moving move lines)).openBlock kind (move pos) =
      (p.openBlock kind pos).rename (.moving move lines) :=
  congrArg
    (fun q : Program => { q with nest := (p.nest.enter kind pos).rename (.moving move lines) })
    (push_rename (.moving move lines) p (.label (Block.startLabelOf p.nest.nextId) pos))

theorem closeBlock_moving : (p.rename (.moving move lines)).closeBlock (move pos) =
    (p.closeBlock pos).rename (.moving move lines) := by
  unfold closeBlock
  rw [innermost?_rename]
  cases p.nest.innermost? with
  | none => rfl
  | some b =>
    have hnest : (p.rename (.moving move lines)).nest.leave =
        p.nest.leave.rename (.moving move lines) := by
      simp [rename, Nest.leave, Nest.rename]
    have hpush := push_rename (.moving move lines) p (.label b.endLabel pos)
    simp only [Option.map_some, hnest]
    exact congrArg (fun q : Program =>
      { q with nest := p.nest.leave.rename (.moving move lines) }) hpush

theorem beginLoop_moving : (beginLoop (move pos)).run (p.rename (.moving move lines)) =
    carry (·.rename (.moving move lines)) (·.rename (.moving move lines))
      ((beginLoop pos).run p) :=
  congrArg (EStateM.Result.ok ()) (openBlock_moving move lines p pos .loop)

theorem whileInLoop_moving : (whileInLoop (move pos)).run (p.rename (.moving move lines)) =
    carry (·.rename (.moving move lines)) (·.rename (.moving move lines))
      ((whileInLoop pos).run p) := by
  rw [EStateM.run, whileInLoop, EStateM.run, whileInLoop, innermost?_rename]
  cases p.nest.innermost? with
  | none => rfl
  | some b =>
    obtain ⟨kind, id, q⟩ := b
    cases kind with
    | loop =>
      exact congrArg (EStateM.Result.ok ())
        (push_rename (.moving move lines) p (.jumpIfZero (Block.endLabelOf id) pos))
    | branch | alternative => rfl

theorem repeatLoop_moving : (repeatLoop (move pos)).run (p.rename (.moving move lines)) =
    carry (·.rename (.moving move lines)) (·.rename (.moving move lines))
      ((repeatLoop pos).run p) := by
  rw [EStateM.run, repeatLoop, EStateM.run, repeatLoop, innermost?_rename]
  cases p.nest.innermost? with
  | none => rfl
  | some b =>
    obtain ⟨kind, id, q⟩ := b
    cases kind with
    | loop =>
      have hpush := push_rename (.moving move lines) p (.jump (Block.startLabelOf id) pos)
      have hclose := closeBlock_moving move lines (p.push (.jump (Block.startLabelOf id) pos)) pos
      rw [← hpush] at hclose
      exact congrArg (EStateM.Result.ok ()) hclose
    | branch | alternative => rfl

theorem beginBranch_moving : (beginBranch (move pos)).run (p.rename (.moving move lines)) =
    carry (·.rename (.moving move lines)) (·.rename (.moving move lines))
      ((beginBranch pos).run p) := by
  have hpush := push_rename (.moving move lines) (p.openBlock .branch pos)
    (.jumpIfZero p.nest.nextEndLabel pos)
  rw [← openBlock_moving] at hpush
  exact congrArg (EStateM.Result.ok ()) hpush

theorem beginAlternative_moving :
    (beginAlternative (move pos)).run (p.rename (.moving move lines)) =
      carry (·.rename (.moving move lines)) (·.rename (.moving move lines))
        ((beginAlternative pos).run p) := by
  rw [EStateM.run, beginAlternative, EStateM.run, beginAlternative, innermostKind?_rename]
  cases p.nest.innermostKind? with
  | none => rfl
  | some kind =>
    cases kind with
    | branch =>
      have hopen := openBlock_moving move lines
        ((p.push (.jump p.nest.nextEndLabel pos)).closeBlock pos) pos .alternative
      rw [← closeBlock_moving, ← push_rename] at hopen
      exact congrArg (EStateM.Result.ok ()) hopen
    | loop | alternative => rfl

theorem endBranch_moving : (endBranch (move pos)).run (p.rename (.moving move lines)) =
    carry (·.rename (.moving move lines)) (·.rename (.moving move lines))
      ((endBranch pos).run p) := by
  have hclose := closeBlock_moving move lines p pos
  rw [EStateM.run, endBranch, EStateM.run, endBranch, innermostKind?_rename]
  cases p.nest.innermostKind? with
  | none => rfl
  | some kind =>
    cases kind with
    | loop => rfl
    | branch | alternative => exact congrArg (EStateM.Result.ok ()) hclose

end Program

/-! ## Tokens that are moved -/

namespace Reader

variable (move : Pos → Pos) (lines : Array String → Array String) (r : Reader) (t : Token)

theorem run_act (action : Program.Action Unit) : (act action).run r =
    carry id (fun p => ⟨p, r.pending⟩) (action.run r.program) := by
  rw [EStateM.run, act]
  cases action.run r.program <;> rfl

theorem act_rename {ρ : Renaming} {action action' : Program.Action Unit} {r : Reader}
    (h : action'.run (r.program.rename ρ) =
      carry (·.rename ρ) (·.rename ρ) (action.run r.program)) :
    (act action').run (r.rename ρ) = carry (·.rename ρ) (·.rename ρ) ((act action).run r) := by
  rw [run_act, run_act, carry_carry]
  refine (congrArg (carry id _) h).trans ?_
  rw [carry_carry]
  rfl

theorem emit_rename (ρ : Renaming) (i : Item) : (emit (i.rename ρ)).run (r.rename ρ) =
    carry (·.rename ρ) (·.rename ρ) ((emit i).run r) :=
  act_rename (congrArg (EStateM.Result.ok ()) (Program.push_rename ρ r.program i))

theorem opcode_rename (ρ : Renaming) (op : Opcode) (pos : Pos) :
    (opcode op (ρ.pos pos)).run (r.rename ρ) =
      carry (·.rename ρ) (·.rename ρ) ((opcode op pos).run r) := by
  unfold opcode
  simp only [EStateM.run]
  change (if _ then _ else if _ then _ else if _ then _ else
    if r.program.profile.supports op then _ else _) = _
  split_ifs
  · rfl
  · rfl
  · rfl
  · exact emit_rename r ρ (.ofOpcode op pos)
  · rfl

theorem keyword_moving (k : Keyword) (pos : Pos) :
    (keyword k (move pos)).run (r.rename (.moving move lines)) =
      carry (·.rename (.moving move lines)) (·.rename (.moving move lines))
        ((keyword k pos).run r) := by
  cases k with
  | GOTO | SUB => rfl
  | BEGIN => exact act_rename (Program.beginLoop_moving move lines r.program pos)
  | WHILE => exact act_rename (Program.whileInLoop_moving move lines r.program pos)
  | REPEAT => exact act_rename (Program.repeatLoop_moving move lines r.program pos)
  | IF => exact act_rename (Program.beginBranch_moving move lines r.program pos)
  | ELSE => exact act_rename (Program.beginAlternative_moving move lines r.program pos)
  | ENDIF => exact act_rename (Program.endBranch_moving move lines r.program pos)

theorem ordinary_moving : (ordinary (t.move move)).run (r.rename (.moving move lines)) =
    carry (·.rename (.moving move lines)) (·.rename (.moving move lines))
      ((ordinary t).run r) := by
  unfold ordinary
  rw [show (t.move move).kind = t.kind from rfl, show (t.move move).text = t.text from rfl]
  cases t.kind with
  | number =>
    cases hread : Number.read t.text with
    | ok w => exact act_rename (Program.addLiteral_rename (.moving move lines) r.program w t.pos)
    | error f => cases Number.refused_of_read hread <;> rfl
  | keyword k => exact keyword_moving move lines r k t.pos
  | label name => exact emit_rename r (.moving move lines) (.label (userLabel name) t.pos)
  | op op => exact opcode_rename r (.moving move lines) op t.pos
  | plain => exact emit_rename r (.moving move lines) (.call t.text t.pos)

theorem declaration_moving : (declaration (t.move move)).run (r.rename (.moving move lines)) =
    carry (·.rename (.moving move lines)) (·.rename (.moving move lines))
      ((declaration t).run r) := by
  unfold declaration
  rw [show (t.move move).kind = t.kind from rfl, show (t.move move).text = t.text from rfl]
  cases t.kind with
  | number | op | keyword => rfl
  | label | plain => exact emit_rename r (.moving move lines) (.subroutine t.text t.pos)

theorem token_moving : (token (t.move move)).run (r.rename (.moving move lines)) =
    carry (·.rename (.moving move lines)) (·.rename (.moving move lines)) ((token t).run r) := by
  obtain ⟨p, pending⟩ := r
  cases pending with
  | nothing => exact ordinary_moving move lines ⟨p, .nothing⟩ t
  | goto pos =>
    exact emit_rename ⟨p, .nothing⟩ (.moving move lines) (.jump (userLabel t.text) t.pos)
  | sub pos => exact declaration_moving move lines ⟨p, .nothing⟩ t

theorem tokens_moving (ts : List Token) :
    ((ts.map (Token.move move)).forM token).run (r.rename (.moving move lines)) =
      carry (·.rename (.moving move lines)) (·.rename (.moving move lines))
        ((ts.forM token).run r) :=
  forM_carry (fun t r => token_moving move lines r t) ts r

end Reader

def renameResult (ρ : Renaming) (x : Except Diag Program) : Except Diag Program :=
  (x.map (·.rename ρ)).mapError (·.rename ρ)

theorem Reader.finish_rename (ρ : Renaming) (r : Reader) :
    (r.rename ρ).finish = renameResult ρ r.finish := by
  obtain ⟨p, pending⟩ := r
  cases pending with
  | goto | sub => rfl
  | nothing =>
    unfold finish
    dsimp only [Reader.rename, Pending.rename]
    rw [Program.innermost?_rename]
    cases p.nest.innermost? <;> rfl

end ServoScript
