import ServoScript.Proofs.BlockLabels
import ServoScript.Proofs.Columns
import ServoScript.Proofs.Scripts
import ServoScript.Session

/-!
# Diagnostics point at words

A complaint about a script stands at the first character of a word of it, in the very line that is
shown with the complaint (`diagnostics_point_at_words`). Where a label is used twice, the complaint
stands at the second use and tells of the first: what is read later stands later in the script
(`Reader.Reads.ordered`), except for the items of one token, which differ in what they stand for.
-/

namespace ServoScript

/-! ## Items in the order of the script -/

def Program.marks (p : Program) : List (Role × Pos) := p.items.toList.map fun i => (i.role, i.pos)

/-- What stands for the same thing stands in order. -/
def Program.Ordered (p : Program) : Prop :=
  p.marks.Pairwise fun a b => a.1 = b.1 → a.2.Before b.2

theorem Program.marks_grow (p : Program) (nest : Nest) (new : List Item) :
    (p.grow nest new).marks = p.marks ++ new.map fun i => (i.role, i.pos) := by
  rw [marks, toList_items_grow, List.map_append, marks]

theorem Program.Ordered.before {p : Program} (h : p.Ordered) {front back : List Item} {i j : Item}
    (hitems : p.items.toList = front ++ j :: back) (hi : i ∈ front) (hrole : i.role = j.role) :
    i.pos.Before j.pos := by
  rw [Ordered, marks, hitems, List.map_append, List.pairwise_append] at h
  exact h.2.2 _ (List.mem_map_of_mem hi) _ (List.mem_map_of_mem List.mem_cons_self) hrole

namespace Reader

variable {t : Token} {r r' : Reader}

theorem Enacts.marks {pos : Pos} {k : Keyword} {n n' : Nest} {new : List Item}
    (h : Enacts pos k n n' new) :
    ∃ roles : List Role, new.map (fun i => (i.role, i.pos)) = roles.map (·, pos) ∧
      roles.Nodup := by
  cases h with
  | loop | exit | close => exact ⟨[_], rfl, List.nodup_singleton _⟩
  | again => exact ⟨[.jump _, .label _], rfl, by simp⟩
  | branch => exact ⟨[.label _, .jump _], rfl, by simp⟩
  | alternative =>
    refine ⟨[.jump _, .label _, .label _], rfl, ?_⟩
    simp [(Block.startLabelOf_ne_endLabelOf _ _).symm]

theorem Step.marks (h : Step t r r') :
    ∃ roles : List Role, r'.program.marks = r.program.marks ++ roles.map (·, t.pos) ∧
      roles.Nodup := by
  cases h with
  | @emit p nest new h =>
    rw [Program.marks_grow]
    cases h with
    | label | opcode | call => exact ⟨[_], rfl, List.nodup_singleton _⟩
    | block _ h =>
      obtain ⟨roles, hroles, hnodup⟩ := h.marks
      exact ⟨roles, by rw [hroles], hnodup⟩
  | @firstLiteral p | @target p | @declaration p =>
    rw [Program.marks_grow]
    exact ⟨[_], rfl, List.nodup_singleton _⟩
  | @nextLiteral p w front run _ _ hitems =>
    refine ⟨[], ?_, List.nodup_nil⟩
    rw [Program.marks, Program.marks, hitems]
    simp [Item.push]
  | goto | sub => exact ⟨[], (List.append_nil _).symm, List.nodup_nil⟩

/-- Tokens are read into items that are in any relation that holds between what two tokens stand for,
and between different things that stand at one place. -/
theorem Reads.pairwise_marks {R : Role × Pos → Role × Pos → Prop}
    (hsame : ∀ (pos : Pos) {a b : Role}, a ≠ b → R (a, pos) (b, pos)) {ts : List Token}
    (h : Reads ts r r') (hts : ts.Pairwise fun t u => ∀ a b, R (a, t.pos) (b, u.pos))
    (hr : r.program.marks.Pairwise R)
    (hbefore : ∀ m ∈ r.program.marks, ∀ t ∈ ts, ∀ role, R m (role, t.pos)) :
    r'.program.marks.Pairwise R := by
  induction ts generalizing r with
  | nil =>
    rw [reads_nil.mp h]
    exact hr
  | cons t ts ih =>
    obtain ⟨r₁, ht, hrest⟩ := reads_cons.mp h
    obtain ⟨htail, hts⟩ := List.pairwise_cons.mp hts
    obtain ⟨roles, hmarks, hnodup⟩ := ht.marks
    refine ih hrest hts ?_ ?_
    · rw [hmarks, List.pairwise_append, List.pairwise_map]
      refine ⟨hr, hnodup.imp fun hne => hsame t.pos hne, fun m hm n hn => ?_⟩
      obtain ⟨role, -, rfl⟩ := List.mem_map.mp hn
      exact hbefore m hm t List.mem_cons_self role
    · intro m hm u hu role
      rw [hmarks, List.mem_append] at hm
      rcases hm with hm | hm
      · exact hbefore m hm u (List.mem_cons_of_mem t hu) role
      · obtain ⟨role', -, rfl⟩ := List.mem_map.mp hm
        exact htail u hu role' role

theorem Reads.ordered {ts : List Token} (h : Reads ts r r')
    (hts : ts.Pairwise fun t u => t.pos.Before u.pos) (hr : r.program.Ordered)
    (hbefore : ∀ m ∈ r.program.marks, ∀ t ∈ ts, m.2.Before t.pos) : r'.program.Ordered :=
  h.pairwise_marks (fun _ _ _ hne heq => absurd heq hne) (hts.imp fun htu _ _ _ => htu) hr
    fun m hm t ht _ _ => hbefore m hm t ht

end Reader

/-! ## Faults of tokens -/

theorem Program.ofTokens_ne_labelAlreadyUsed {profile : Profile} {ts : List Token} {d : Diag}
    (h : ofTokens profile ts = .error d) (name : String) (first : Pos) :
    d.fault ≠ .labelAlreadyUsed name first := by
  unfold ofTokens at h
  cases hrun : (ts.forM Reader.token).run (.start profile) with
  | error e r =>
    rw [hrun] at h
    cases h
    obtain ⟨_, t, _, r₁, -, -, ht⟩ := forM_eq_error.mp hrun
    cases Reader.refuses_of_token ht with
    | token hfault => exact hfault.ne_labelAlreadyUsed name first
    | literal => exact nofun
  | ok u r =>
    rw [hrun] at h
    obtain ⟨p, pending⟩ := r
    unfold Reader.conclude Reader.finish at h
    cases pending with
    | goto | sub =>
      cases h
      exact nofun
    | nothing =>
      dsimp only at h
      split at h <;> cases h
      exact nofun

theorem Diag.first_before {profile : Profile} {ts : List Token} {d : Diag}
    (hts : ts.Pairwise fun t u => t.pos.Before u.pos) (h : assembleTokens profile ts = .error d)
    {name : String} {first : Pos} (hfault : d.fault = .labelAlreadyUsed name first) :
    first.Before d.pos := by
  rcases assembleTokens_eq_error.mp h with hread | ⟨p, q, hp, hrun⟩
  · exact absurd hfault (Program.ofTokens_ne_labelAlreadyUsed hread name first)
  · have hordered : p.Ordered :=
      (Program.ofTokens_eq_ok.mp hp).1.ordered hts .nil (fun _ hm => by cases hm)
    have hfirst := (Program.fresh_of_ofTokens hp).complaint?_complete
    rw [hrun] at hfirst
    obtain ⟨front, i, back, hitems, hpos, hgrounds⟩ := Program.exists_grounds hfirst.symm
    rw [hfault] at hgrounds
    cases hgrounds with
    | labelUsed hrole hmem hused =>
      rw [hpos]
      exact hordered.before hitems hmem (hused.trans hrole.symm)

/-! ## Places in the text -/

/-- A position is that of a token of a script and of a word in the text of a line. -/
structure Source.WordAt (file source : String) (p : Pos) (line : String) : Prop where
  token : ∃ t ∈ script file source, t.pos = p
  file : p.file = file
  bounds : 1 ≤ p.line ∧ p.line ≤ (lines source).length
  text : (lines source)[p.line - 1]? = some line
  word : StartsWord line.toList p.col

theorem Source.exists_wordAt {file source : String} {p : Pos}
    (h : p ∈ (script file source).map (·.pos)) : ∃ line, WordAt file source p line := by
  obtain ⟨t, ht, rfl⟩ := List.mem_map.mp h
  obtain ⟨n, line, hline, hfile, hrow, hword⟩ := exists_line_of_mem_script ht
  have hn := (List.getElem?_eq_some_iff.mp hline).1
  refine ⟨line, ⟨t, ht, rfl⟩, hfile, ?_, ?_, hword⟩
  · omega
  · rw [hrow]
    exact hline

theorem Source.WordAt.sourceLine_eq {file source line : String} {d : Diag}
    (h : WordAt file source d.pos line) : d.sourceLine (lines source).toArray = line := by
  have hline := h.text
  have hpos := h.bounds.1
  unfold Diag.sourceLine
  cases hrow : d.pos.line with
  | zero => omega
  | succ n =>
    rw [hrow, Nat.add_sub_cancel] at hline
    dsimp only
    rw [List.getElem?_toArray, hline, Option.getD_some]

/-! ## Sessions -/

namespace Console

variable {α : Type} (c : Console)

theorem run_say_bind (s : String) (k : Unit → StateM Console α) :
    (Host.say s >>= k).run c = (k ()).run { c with output := c.output ++ s } := rfl

theorem run_readText_bind (path : String) (k : Except FileFault String → StateM Console α) :
    (Host.readText path >>= k).run c = (k (c.files.readText path)).run c := rfl

end Console

theorem Session.run_of_error {o : Options} {console : Console} {source : String} {d : Diag}
    (hsource : console.files.readText o.input = .ok source)
    (h : assemble o.input source o.profile = .error d) :
    ∃ opening, (Session.run o : StateM Console UInt32).run console =
      (1, { console with output := opening ++ d.report (Source.lines source).toArray }) := by
  refine ⟨console.output ++ banner ++ s!"1. Read Source\n  < {o.input}\n" ++
    s!"2. Compile ({o.profile.name} Maestro)\n", ?_⟩
  rw [Session.run, Console.run_say_bind, Console.run_say_bind, Console.run_readText_bind, hsource]
  dsimp only
  rw [Console.run_say_bind, h]
  rfl

/-- **Every complaint points at a word.** It stands at a token of the script, which starts at the
first character of a word in the line that the complaint is shown with. A label that is used twice
is complained about where it is used again, with the earlier place. -/
theorem diagnostics_point_at_words {file source : String} {profile : Profile} {d : Diag}
    (h : assemble file source profile = .error d) :
    (∃ line, Source.WordAt file source d.pos line ∧
      d.sourceLine (Source.lines source).toArray = line) ∧
    (Source.tokens file source).map (·.1) = Source.lines source ∧
    (∀ (o : Options) (console : Console), o.input = file → o.profile = profile →
      console.files.readText file = .ok source →
      ∃ opening, (Session.run o : StateM Console UInt32).run console =
        (1, { console with output := opening ++ d.report (Source.lines source).toArray })) ∧
    ∀ name first, d.fault = .labelAlreadyUsed name first →
      (∃ line, Source.WordAt file source first line) ∧ first.Before d.pos := by
  have htokens := assembleTokens_script_of_error h
  have hwithin := Diag.within_of_assembleTokens htokens
  refine ⟨?_, Source.map_fst_tokens file source, ?_, ?_⟩
  · obtain ⟨line, hline⟩ := Source.exists_wordAt hwithin.pos
    exact ⟨line, hline, hline.sourceLine_eq⟩
  · rintro o console rfl rfl hsource
    exact Session.run_of_error hsource h
  · intro name first hfault
    exact ⟨Source.exists_wordAt (hwithin.first hfault),
      Diag.first_before (Source.pairwise_script file source) htokens hfault⟩

/-- The second of two labels, after a comment and a jump to the first one. -/
theorem diagnostics_point_at_words_label :
    assemble "script" "a: 1 # a:\r\n\tgoto a\n B: a:" .mini =
        .error ⟨⟨"script", 3, 5⟩, .labelAlreadyUsed "USER_A" ⟨"script", 1, 1⟩⟩ ∧
      (∃ line, Source.WordAt "script" "a: 1 # a:\r\n\tgoto a\n B: a:" ⟨"script", 3, 5⟩ line) ∧
      (∃ line, Source.WordAt "script" "a: 1 # a:\r\n\tgoto a\n B: a:" ⟨"script", 1, 1⟩ line) ∧
      Pos.Before ⟨"script", 1, 1⟩ ⟨"script", 3, 5⟩ := by
  have hd : assemble "script" "a: 1 # a:\r\n\tgoto a\n B: a:" .mini =
      .error ⟨⟨"script", 3, 5⟩, .labelAlreadyUsed "USER_A" ⟨"script", 1, 1⟩⟩ :=
    eq_error_of_rejection? (by decide +kernel)
  obtain ⟨⟨line, hline, -⟩, -, -, hlabel⟩ := diagnostics_point_at_words hd
  obtain ⟨hfirst, hbefore⟩ := hlabel _ _ rfl
  exact ⟨hd, ⟨line, hline⟩, hfirst, hbefore⟩

end ServoScript
