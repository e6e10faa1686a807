import ServoScript.Proofs.Diagnostics

/-!
# The lines of a program

An assembled program keeps the lines of its script, and its items come in the order of the lines and
stand on lines that there are (`onLines_of_assemble`). One keyword can be several items, a run of
literals and the name after `GOTO` or `SUB` can be on later lines than what they belong to: still an
item stands where its own first word stands, and words come in order.
-/

namespace ServoScript

/-! ## Lines are kept -/

namespace Reader

variable {t : Token} {r r' : Reader}

theorem Step.lines_eq (h : Step t r r') : r'.program.lines = r.program.lines := by
  cases h <;> rfl

theorem Reads.lines_eq {ts : List Token} (h : Reads ts r r') :
    r'.program.lines = r.program.lines :=
  h.invariant (P := fun x => x.program.lines = r.program.lines)
    (fun hstep hlines => hstep.lines_eq.trans hlines) rfl

theorem lines_of_lines {script : List (String × List Token)} {u : Unit}
    (h : (Reader.lines script).run r = .ok u r') :
    r'.program.lines.toList = r.program.lines.toList ++ script.map (·.1) := by
  induction script generalizing r with
  | nil =>
    rw [Reader.lines, forM_nil_eq_ok] at h
    rw [h, List.map_nil, List.append_nil]
  | cons first rest ih =>
    obtain ⟨raw, ts⟩ := first
    rw [Reader.lines, forM_cons_eq_ok] at h
    obtain ⟨r₁, hline, hrest⟩ := h
    rw [run_line] at hline
    have hfirst : r₁.program.lines = r.program.lines.push raw := Reads.lines_eq hline
    rw [ih hrest, hfirst, Array.toList_push, List.append_assoc]
    rfl

end Reader

theorem Program.lines_of_read {file source : String} {profile : Profile} {p : Program}
    (h : Program.read file source profile = .ok p) : p.lines.toList = Source.lines source := by
  unfold read at h
  split at h
  · rename_i r hr
    obtain ⟨rfl, -⟩ := Reader.finish_eq_ok.mp h
    have hlines := Reader.lines_of_lines hr
    rw [Source.map_fst_tokens] at hlines
    exact hlines
  · cases h

/-- **A program keeps the lines of its script.** -/
theorem lines_of_assemble {file source : String} {profile : Profile} {p : Program}
    (h : assemble file source profile = .ok p) : p.lines.toList = Source.lines source := by
  unfold assemble at h
  split at h
  · cases h
  · rename_i d hread
    split at h
    · rename_i q hcomplete
      cases h
      obtain ⟨st⟩ := Program.stages_of_complete hcomplete
      rw [← Program.lines_of_read hread, st.result]
    · cases h

/-! ## Items on lines -/

theorem Settles.pos_eq {p : Program} {i j : Item} (h : Settles p i j) : j.pos = i.pos := by
  cases h <;> rfl

theorem Resolved.marks_eq {d p : Program} (h : Resolved d p) : p.marks = d.marks := by
  symm
  rw [Program.marks, Program.marks, ← List.forall₂_eq_eq_eq, List.forall₂_map_left_iff,
    List.forall₂_map_right_iff]
  exact h.items.imp fun i j hij => by rw [hij.role_eq, hij.pos_eq]

/-- The items of a program come in the order of its lines and stand on some of them. -/
structure Program.OnLines (p : Program) : Prop where
  sorted : p.items.toList.Pairwise fun i j => i.pos.line ≤ j.pos.line
  bounds : ∀ i ∈ p.items.toList, 1 ≤ i.pos.line ∧ i.pos.line ≤ p.lines.size

theorem exists_wordAt_of_assemble {file source : String} {profile : Profile} {p : Program}
    (h : assemble file source profile = .ok p) {i : Item} (hi : i ∈ p.items.toList) :
    ∃ line, Source.WordAt file source i.pos line := by
  obtain ⟨q, hq, heq⟩ := assembleTokens_script_of_ok h
  have hitems := congrArg (·.items.toList) heq
  exact Source.exists_wordAt (Program.pos_mem_of_assembleTokens hq (hitems ▸ hi))

theorem Source.WordAt.line?_eq {file source line : String} {pos : Pos} {p : Program}
    (h : WordAt file source pos line) (hlines : p.lines.toList = lines source) :
    p.line? pos.line = some line := by
  have htext := h.text
  have hpos := h.bounds.1
  unfold Program.line?
  cases hrow : pos.line with
  | zero => omega
  | succ n =>
    rw [hrow, Nat.add_sub_cancel, ← hlines] at htext
    rw [← htext, Array.getElem?_toList]

theorem Program.sorted_of_assemble {file source : String} {profile : Profile} {p : Program}
    (h : assemble file source profile = .ok p) :
    p.items.toList.Pairwise fun i j => i.pos.line ≤ j.pos.line := by
  obtain ⟨d, hreads, -, -, hres⟩ := resolved_of_assemble h
  have hwords : (Source.script file source).Pairwise fun t u => t.pos.line ≤ u.pos.line := by
    apply (Source.pairwise_script file source).imp
    rintro t u (hlt | ⟨heq, -⟩)
    · exact Nat.le_of_lt hlt
    · exact Nat.le_of_eq heq
  have hmarks : d.marks.Pairwise fun a b => a.2.line ≤ b.2.line :=
    hreads.pairwise_marks (fun _ _ _ _ => Nat.le_refl _) (hwords.imp fun htu _ _ => htu) .nil
      fun _ hm => by cases hm
  rw [← hres.marks_eq, marks, List.pairwise_map] at hmarks
  exact hmarks

theorem onLines_of_assemble {file source : String} {profile : Profile} {p : Program}
    (h : assemble file source profile = .ok p) : p.OnLines where
  sorted := Program.sorted_of_assemble h
  bounds i hi := by
    obtain ⟨line, hline⟩ := exists_wordAt_of_assemble h hi
    have hsize : p.lines.size = (Source.lines source).length := by
      rw [← lines_of_assemble h, Array.length_toList]
    rw [hsize]
    exact hline.bounds

end ServoScript
