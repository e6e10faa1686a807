import ServoScript.Proofs.Moving
import ServoScript.Proofs.Verdicts

/-!
# Scripts are assembled as their tokens

Apart from the source lines that a program keeps, a script is assembled as the list of its tokens
(`assemble_forgetting`), and of their positions nothing is used but to hand them on
(`assembleTokens_moving`). So a position in a program or in a complaint is always that of a token
(`Program.pos_mem_of_assembleTokens`, `Diag.within_of_assembleTokens`): a position that is not could
be moved, and the result with it, while the tokens stay.
-/

namespace ServoScript

/-! ## Scripts as tokens -/

/-- What has been read when there is nothing more to read. -/
def Reader.conclude : EStateM.Result Diag Reader Unit → Except Diag Program
  | .ok _ r => r.finish
  | .error d _ => .error d

theorem Reader.conclude_rename (ρ : Renaming) (x : EStateM.Result Diag Reader Unit) :
    conclude (carry (·.rename ρ) (·.rename ρ) x) = renameResult ρ (conclude x) := by
  cases x with
  | ok u r => exact finish_rename ρ r
  | error d r => rfl

/-- Reads tokens that stand on no line. -/
def Program.ofTokens (profile : Profile) (ts : List Token) : Except Diag Program :=
  Reader.conclude ((ts.forM Reader.token).run (.start profile))

theorem Program.read_eq_conclude (file source : String) (profile : Profile) :
    Program.read file source profile =
      Reader.conclude ((Reader.lines (Source.tokens file source)).run (.start profile)) := by
  unfold read
  cases (Reader.lines (Source.tokens file source)).run (.start profile) <;> rfl

def resolve (x : Except Diag Program) : Except Diag Program :=
  match x with
  | .error d => .error d
  | .ok p =>
    match Program.complete.run p with
    | .ok _ p => .ok p
    | .error d _ => .error d

def assembleTokens (profile : Profile) (ts : List Token) : Except Diag Program :=
  resolve (Program.ofTokens profile ts)

theorem assembleTokens_eq_ok {profile : Profile} {ts : List Token} {p : Program} :
    assembleTokens profile ts = .ok p ↔
      ∃ d, Program.ofTokens profile ts = .ok d ∧ Program.complete.run d = .ok () p := by
  unfold assembleTokens resolve
  cases Program.ofTokens profile ts with
  | error e => simp
  | ok d =>
    dsimp only
    cases hrun : Program.complete.run d <;> simp [hrun]

theorem assembleTokens_eq_error {profile : Profile} {ts : List Token} {d : Diag} :
    assembleTokens profile ts = .error d ↔
      Program.ofTokens profile ts = .error d ∨
        ∃ p q, Program.ofTokens profile ts = .ok p ∧ Program.complete.run p = .error d q := by
  unfold assembleTokens resolve
  cases Program.ofTokens profile ts with
  | error e => simp
  | ok p =>
    dsimp only
    cases hrun : Program.complete.run p <;> simp [hrun]

theorem assemble_eq_resolve (file source : String) (profile : Profile) :
    assemble file source profile = resolve (Program.read file source profile) := rfl

theorem resolve_rename (ρ : Renaming) {x : Except Diag Program} (h : ∀ p, x = .ok p → p.Tidy) :
    resolve (renameResult ρ x) = renameResult ρ (resolve x) := by
  cases x with
  | error d => rfl
  | ok p =>
    have hcomplete := Program.complete_rename ρ (h p rfl)
    change (match Program.complete.run (p.rename ρ) with | .ok _ p => _ | .error d _ => _) = _
    rw [hcomplete]
    unfold resolve
    dsimp only
    cases Program.complete.run p <;> rfl

/-! ## Nothing but the texts and positions of tokens -/

theorem Program.ofTokens_eq_ok {profile : Profile} {ts : List Token} {p : Program} :
    ofTokens profile ts = .ok p ↔
      Reader.Reads ts (.start profile) ⟨p, .nothing⟩ ∧ p.nest.blocks = [] := by
  unfold ofTokens Reader.Reads
  cases (ts.forM Reader.token).run (.start profile) with
  | error d r => exact ⟨nofun, nofun⟩
  | ok u r =>
    refine (Reader.finish_eq_ok (r := r)).trans (and_congr_left fun _ => ?_)
    exact ⟨fun h => congrArg (EStateM.Result.ok ()) h, fun h => (EStateM.Result.ok.inj h).2⟩

theorem Program.fresh_of_ofTokens {profile : Profile} {ts : List Token} {p : Program}
    (h : Program.ofTokens profile ts = .ok p) : p.Fresh := by
  have hstart : (Reader.start profile).program.Fresh := by
    refine ⟨fun i hi => ?_, rfl, rfl, rfl⟩
    cases hi
  exact (ofTokens_eq_ok.mp h).1.invariant (P := fun r => r.program.Fresh) Reader.Step.fresh hstart

theorem Program.Fresh.tidy {p : Program} (h : p.Fresh) : p.Tidy := by
  intro i hi name hrole
  cases h.items i hi with
  | code | subroutine | call => rcases hrole with hrole | hrole <;> cases hrole
  | label => exact nofun
  | jump hop =>
    intro hcall
    cases hcall
    cases hop

theorem Reader.start_rename {ρ : Renaming} (h : ρ.lines #[] = #[]) (profile : Profile) :
    (start profile).rename ρ = start profile := by
  simp [start, Reader.rename, Program.rename, Program.empty, Program.renameLabels, Symbols.map,
    Nest.rename, Pending.rename, h]

/-- Tokens that stand elsewhere are assembled into the same program, moved. -/
theorem assembleTokens_moving (move : Pos → Pos) (profile : Profile) (ts : List Token) :
    assembleTokens profile (ts.map (Token.move move)) =
      renameResult (.moving move id) (assembleTokens profile ts) := by
  have hread : Program.ofTokens profile (ts.map (Token.move move)) =
      renameResult (.moving move id) (Program.ofTokens profile ts) := by
    have hrun := Reader.tokens_moving move id (.start profile) ts
    rw [Reader.start_rename rfl] at hrun
    rw [Program.ofTokens, hrun, Reader.conclude_rename, Program.ofTokens]
  have htidy : ∀ p, Program.ofTokens profile ts = .ok p → p.Tidy :=
    fun p hp => (Program.fresh_of_ofTokens hp).tidy
  rw [assembleTokens, hread, resolve_rename _ htidy, assembleTokens]

/-! ## Lines -/

section lines

variable (lines : Array String → Array String)

theorem Symbols.map_id {α : Type} (t : Symbols α) : t.map id id = t := by
  obtain ⟨entries⟩ := t
  exact congrArg Symbols.mk (List.map_id entries)

theorem Program.rename_moving_id (p : Program) :
    p.rename (.moving id lines) = { p with lines := lines p.lines } := by
  have hitem : Item.rename (.moving id lines) = id := by
    funext i
    obtain ⟨role, head, args, pos⟩ := i
    cases role <;> rfl
  have hitems : p.items.map (Item.rename (.moving id lines)) = p.items := by
    rw [hitem, Array.map_id]
  have hnest : p.nest.rename (.moving id lines) = p.nest :=
    congrArg (fun blocks => { p.nest with blocks }) (List.map_id p.nest.blocks)
  have hlabels : renameLabels (.moving id lines) p.labels = p.labels := Symbols.map_id p.labels
  have hcommands : p.commands.map id id = p.commands := Symbols.map_id p.commands
  have haddresses : p.addresses.map id id = p.addresses := Symbols.map_id p.addresses
  simp only [rename, hitems, hnest, hlabels]
  simp only [Renaming.moving, hcommands, haddresses]

theorem Reader.rename_moving_id (r : Reader) :
    r.rename (.moving id lines) = r.withLines (lines r.program.lines) := by
  obtain ⟨p, pending⟩ := r
  have hpending : pending.rename (.moving id lines) = pending := by cases pending <;> rfl
  rw [Reader.rename, Program.rename_moving_id, hpending, withLines]

theorem Diag.rename_moving_id (d : Diag) : d.rename (.moving id lines) = d := by
  obtain ⟨pos, fault⟩ := d
  cases fault <;> rfl

end lines

namespace Reader

theorem run_withLines (ts : List Token) (r : Reader) (lines : Array String) :
    (ts.forM token).run (r.withLines lines) =
      carry id (·.withLines lines) ((ts.forM token).run r) := by
  have hrun := tokens_moving id (fun _ => lines) r ts
  have htokens : ts.map (Token.move id) = ts := List.map_id ts
  rw [htokens, rename_moving_id] at hrun
  rw [hrun]
  cases (ts.forM token).run r with
  | ok u r' => exact congrArg (EStateM.Result.ok u) (rename_moving_id _ r')
  | error d r' =>
    exact congrArg₂ EStateM.Result.error (d.rename_moving_id _) (rename_moving_id _ r')

theorem run_lines (script : List (String × List Token)) (r : Reader) (lines : Array String) :
    carry id (·.withLines lines) ((Reader.lines script).run r) =
      carry id (·.withLines lines) (((script.flatMap (·.2)).forM token).run r) := by
  induction script generalizing r with
  | nil => rfl
  | cons first rest ih =>
    obtain ⟨raw, ts⟩ := first
    have hline : (line raw ts).run r =
        carry id (·.withLines (r.program.lines.push raw)) ((ts.forM token).run r) := by
      rw [run_line, run_withLines]
    have htokens : ((ts ++ rest.flatMap (·.2)).forM token) =
        ts.forM token >>= fun _ => (rest.flatMap (·.2)).forM token := List.forM_append
    rw [List.flatMap_cons, htokens]
    change carry id _ (EStateM.bind (line raw ts) (fun _ => Reader.lines rest) r) =
      carry id _ (EStateM.bind (ts.forM token) (fun _ => (rest.flatMap (·.2)).forM token) r)
    change line raw ts r = carry id _ (ts.forM token r) at hline
    rw [EStateM.bind, EStateM.bind, hline]
    cases ts.forM token r with
    | error d r₁ => rfl
    | ok u r₁ =>
      -- the rest is read from a reader that has kept one line more
      refine (ih _).trans ?_
      rw [run_withLines, carry_carry]
      rfl

end Reader

def Renaming.forgetting : Renaming := .moving id fun _ => #[]

theorem Reader.carry_forgetting (x : EStateM.Result Diag Reader Unit) :
    carry (·.rename .forgetting) (·.rename .forgetting) x = carry id (·.withLines #[]) x := by
  cases x with
  | ok u r => exact congrArg (EStateM.Result.ok u) (rename_moving_id _ r)
  | error d r => exact congrArg₂ EStateM.Result.error (d.rename_moving_id _) (rename_moving_id _ r)

theorem Program.read_forgetting (file source : String) (profile : Profile) :
    renameResult .forgetting (Program.read file source profile) =
      renameResult .forgetting (Program.ofTokens profile (Source.script file source)) := by
  have hlines := Reader.run_lines (Source.tokens file source) (.start profile) #[]
  rw [← Reader.carry_forgetting, ← Reader.carry_forgetting] at hlines
  rw [read_eq_conclude, ofTokens, ← Reader.conclude_rename, ← Reader.conclude_rename, hlines]
  rfl

/-- **A script is assembled as its tokens**, and it only matters for positions where they stand. -/
theorem assemble_forgetting {file source : String} (profile : Profile) {move : Pos → Pos}
    {ts : List Token} (h : Source.script file source = ts.map (Token.move move)) :
    renameResult .forgetting (assemble file source profile) =
      renameResult (.moving move fun _ => #[]) (assembleTokens profile ts) := by
  have hread : ∀ p, Program.read file source profile = .ok p → p.Tidy :=
    fun p hp => (Program.fresh_of_read hp).tidy
  have htokens : ∀ p, Program.ofTokens profile (Source.script file source) = .ok p → p.Tidy :=
    fun p hp => (Program.fresh_of_ofTokens hp).tidy
  rw [assemble_eq_resolve, ← resolve_rename _ hread, Program.read_forgetting,
    resolve_rename _ htokens, h]
  change renameResult _ (assembleTokens profile (ts.map _)) = _
  rw [assembleTokens_moving]
  cases assembleTokens profile ts with
  | ok p => exact congrArg Except.ok (Program.rename_moving_id _ _)
  | error d => exact congrArg Except.error (Diag.rename_moving_id _ _)

theorem assembleTokens_of_ok {file source : String} {profile : Profile} {move : Pos → Pos}
    {ts : List Token} {p : Program} (h : Source.script file source = ts.map (Token.move move))
    (hp : assemble file source profile = .ok p) :
    ∃ q, assembleTokens profile ts = .ok q ∧
      { p with lines := #[] } = q.rename (.moving move fun _ => #[]) := by
  have heq := assemble_forgetting profile h
  rw [hp] at heq
  cases hts : assembleTokens profile ts with
  | ok q =>
    rw [hts] at heq
    exact ⟨q, rfl, (p.rename_moving_id _).symm.trans (Except.ok.inj heq)⟩
  | error d =>
    rw [hts] at heq
    cases heq

theorem assembleTokens_of_error {file source : String} {profile : Profile} {move : Pos → Pos}
    {ts : List Token} {d : Diag} (h : Source.script file source = ts.map (Token.move move))
    (hd : assemble file source profile = .error d) :
    ∃ e, assembleTokens profile ts = .error e ∧ d = e.rename (.moving move fun _ => #[]) := by
  have heq := assemble_forgetting profile h
  rw [hd] at heq
  cases hts : assembleTokens profile ts with
  | error e =>
    rw [hts] at heq
    exact ⟨e, rfl, (d.rename_moving_id _).symm.trans (Except.error.inj heq)⟩
  | ok q =>
    rw [hts] at heq
    cases heq

theorem exists_assemble_of_ok {file source : String} {profile : Profile} {move : Pos → Pos}
    {ts : List Token} {q : Program} (h : Source.script file source = ts.map (Token.move move))
    (hq : assembleTokens profile ts = .ok q) :
    ∃ p, assemble file source profile = .ok p ∧
      { p with lines := #[] } = q.rename (.moving move fun _ => #[]) := by
  cases hp : assemble file source profile with
  | ok p =>
    obtain ⟨q', hq', heq⟩ := assembleTokens_of_ok h hp
    cases hq.symm.trans hq'
    exact ⟨p, rfl, heq⟩
  | error d =>
    obtain ⟨e, he, -⟩ := assembleTokens_of_error h hp
    cases hq.symm.trans he

theorem assemble_of_error {file source : String} {profile : Profile} {move : Pos → Pos}
    {ts : List Token} {e : Diag} (h : Source.script file source = ts.map (Token.move move))
    (he : assembleTokens profile ts = .error e) :
    assemble file source profile = .error (e.rename (.moving move fun _ => #[])) := by
  cases hp : assemble file source profile with
  | ok p =>
    obtain ⟨q, hq, -⟩ := assembleTokens_of_ok h hp
    cases hq.symm.trans he
  | error d =>
    obtain ⟨e', he', rfl⟩ := assembleTokens_of_error h hp
    cases he.symm.trans he'
    rfl

theorem map_move_id (ts : List Token) : ts = ts.map (Token.move id) := (List.map_id ts).symm

theorem assembleTokens_script_of_error {file source : String} {profile : Profile} {d : Diag}
    (h : assemble file source profile = .error d) :
    assembleTokens profile (Source.script file source) = .error d := by
  obtain ⟨e, he, rfl⟩ := assembleTokens_of_error (map_move_id _) h
  rw [Diag.rename_moving_id]
  exact he

theorem assembleTokens_script_of_ok {file source : String} {profile : Profile} {p : Program}
    (h : assemble file source profile = .ok p) :
    ∃ q, assembleTokens profile (Source.script file source) = .ok q ∧
      { p with lines := #[] } = { q with lines := #[] } := by
  obtain ⟨q, hq, heq⟩ := assembleTokens_of_ok (map_move_id _) h
  exact ⟨q, hq, heq.trans (q.rename_moving_id _)⟩

theorem exists_assemble_of_assembleTokens {file source : String} {profile : Profile} {q : Program}
    (h : assembleTokens profile (Source.script file source) = .ok q) :
    ∃ p, assemble file source profile = .ok p ∧
      { p with lines := #[] } = { q with lines := #[] } := by
  obtain ⟨p, hp, heq⟩ := exists_assemble_of_ok (map_move_id _) h
  exact ⟨p, hp, heq.trans (q.rename_moving_id _)⟩

/-! ## Positions are those of tokens -/

/-- The positions in a complaint are among some positions. -/
structure Diag.Within (d : Diag) (places : List Pos) : Prop where
  pos : d.pos ∈ places
  first : ∀ {name : String} {first : Pos}, d.fault = .labelAlreadyUsed name first → first ∈ places

/-- Moves every position but some to the next line. -/
def Pos.moveUnless (places : List Pos) (p : Pos) : Pos :=
  if p ∈ places then p else { p with line := p.line + 1 }

theorem Pos.moveUnless_eq_self_iff {places : List Pos} {p : Pos} :
    p.moveUnless places = p ↔ p ∈ places := by
  unfold moveUnless
  split
  · simpa
  · rename_i h
    refine iff_of_false (fun heq => ?_) h
    have hline : p.line + 1 = p.line := congrArg Pos.line heq
    omega

def Renaming.pinning (places : List Pos) : Renaming := .moving (Pos.moveUnless places) id

/-- Tokens stay where they are while every other position is moved. -/
theorem renameResult_pinning (profile : Profile) (ts : List Token) :
    renameResult (.pinning (ts.map (·.pos))) (assembleTokens profile ts) =
      assembleTokens profile ts := by
  have htoken : ∀ t ∈ ts, t.move (Pos.moveUnless (ts.map (·.pos))) = id t := by
    intro t ht
    rw [Token.move, Pos.moveUnless_eq_self_iff.mpr (List.mem_map_of_mem ht), id]
  rw [Renaming.pinning, ← assembleTokens_moving, List.map_congr_left htoken, List.map_id]

theorem Program.pos_mem_of_assembleTokens {profile : Profile} {ts : List Token} {p : Program}
    (h : assembleTokens profile ts = .ok p) {i : Item} (hi : i ∈ p.items.toList) :
    i.pos ∈ ts.map (·.pos) := by
  have heq := renameResult_pinning profile ts
  rw [h] at heq
  have hp : p.rename (.pinning (ts.map (·.pos))) = p := Except.ok.inj heq
  have hitems : (p.rename (.pinning (ts.map (·.pos)))).items.toList = p.items.toList.map id := by
    rw [hp, List.map_id]
  rw [toList_items_rename, List.map_inj_left] at hitems
  exact Pos.moveUnless_eq_self_iff.mp (congrArg Item.pos (hitems i hi))

theorem Diag.within_of_assembleTokens {profile : Profile} {ts : List Token} {d : Diag}
    (h : assembleTokens profile ts = .error d) : d.Within (ts.map (·.pos)) := by
  have heq := renameResult_pinning profile ts
  rw [h] at heq
  have hd : d.rename (.pinning (ts.map (·.pos))) = d := Except.error.inj heq
  refine ⟨Pos.moveUnless_eq_self_iff.mp (congrArg Diag.pos hd), fun {name first} hfault => ?_⟩
  have hmoved : d.fault.rename (.pinning (ts.map (·.pos))) = d.fault := congrArg Diag.fault hd
  rw [hfault] at hmoved
  exact Pos.moveUnless_eq_self_iff.mp (Fault.labelAlreadyUsed.inj hmoved).2

end ServoScript
