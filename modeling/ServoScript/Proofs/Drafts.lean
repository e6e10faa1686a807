import ServoScript.Proofs.Reading

/-!
# Drafts

The items of a script as they are read, before anything is resolved: which items there can be
(`Item.Drafted`), and that an item stays as it is and where it is once it has been read, except for
a run of literals, which may still grow (`Reader.Reads.keeps`).
-/

namespace ServoScript

def Profile.longestRun : Profile → Nat
  | .micro => 32
  | .mini => 126

theorem Item.exceededLimit?_eq_none_iff {profile : Profile} {length : Nat} :
    exceededLimit? profile length = none ↔ length ≤ profile.longestRun := by
  have hceiling : (if 126 < length then some 126 else none) = none ↔ length ≤ 126 := by simp
  cases profile with
  | micro =>
    by_cases h : 32 < length
    · have hfilter : (some 32).filter (· < length) = some 32 := by simp [h]
      simp only [exceededLimit?, Profile.literalLimit?, hfilter, Profile.longestRun, reduceCtorEq,
        false_iff]
      omega
    · have hfilter : (some 32).filter (· < length) = none := by simpa using h
      simp only [exceededLimit?, Profile.literalLimit?, hfilter, Profile.longestRun]
      exact hceiling.trans (by omega)
  | mini => exact hceiling

/-- The items that a script for a model can be read into. -/
inductive Item.Drafted (profile : Profile) : Item → Prop
  | opcode {op : Opcode} {pos : Pos} : op.Writable profile → Drafted profile (.ofOpcode op pos)
  | run {words : List Word} {pos : Pos} : words ≠ [] →
      exceededLimit? profile words.length = none →
      Drafted profile { role := .code, head := .run, args := words, pos }
  | label {name : String} {pos : Pos} : Drafted profile (.label name pos)
  | jump {name : String} {pos : Pos} : Drafted profile (.jump name pos)
  | jumpIfZero {name : String} {pos : Pos} : Drafted profile (.jumpIfZero name pos)
  | subroutine {name : String} {pos : Pos} : Drafted profile (.subroutine name pos)
  | call {name : String} {pos : Pos} : Drafted profile (.call name pos)

def Program.Draft (p : Program) : Prop := ∀ i ∈ p.items.toList, i.Drafted p.profile

theorem Program.Draft.grow {p : Program} (h : p.Draft) {nest : Nest} {new : List Item}
    (hnew : ∀ i ∈ new, i.Drafted p.profile) : (p.grow nest new).Draft := by
  intro i hi
  rw [toList_items_grow, List.mem_append] at hi
  rcases hi with hi | hi
  · exact h i hi
  · exact hnew i hi

theorem Item.Drafted.push {profile : Profile} {i : Item} (h : i.Drafted profile)
    (hrun : i.head = .run) (hlimit : exceededLimit? profile (i.args.length + 1) = none) (w : Word) :
    (i.push w).Drafted profile := by
  cases h with
  | run hne _ =>
    refine .run (by simp) ?_
    rw [List.length_append]
    exact hlimit
  | opcode => cases hrun
  | label => cases hrun
  | jump => cases hrun
  | jumpIfZero => cases hrun
  | subroutine => cases hrun
  | call => cases hrun

namespace Reader

variable {t : Token} {ts : List Token} {r r' : Reader}

theorem Enacts.drafted {profile : Profile} {pos : Pos} {k : Keyword} {n n' : Nest}
    {new : List Item} (h : Enacts pos k n n' new) : ∀ i ∈ new, i.Drafted profile := by
  cases h with
  | loop | close =>
    intro i hi
    rw [List.mem_singleton.mp hi]
    exact .label
  | exit =>
    intro i hi
    rw [List.mem_singleton.mp hi]
    exact .jumpIfZero
  | again =>
    simp only [List.forall_mem_cons]
    exact ⟨.jump, .label, by simp⟩
  | branch =>
    simp only [List.forall_mem_cons]
    exact ⟨.label, .jumpIfZero, by simp⟩
  | alternative =>
    simp only [List.forall_mem_cons]
    exact ⟨.jump, .label, .label, by simp⟩

theorem Emits.drafted {profile : Profile} {n n' : Nest} {new : List Item}
    (h : Emits profile t n n' new) : ∀ i ∈ new, i.Drafted profile := by
  cases h with
  | label =>
    intro i hi
    rw [List.mem_singleton.mp hi]
    exact .label
  | opcode _ hop =>
    intro i hi
    rw [List.mem_singleton.mp hi]
    exact .opcode hop
  | call =>
    intro i hi
    rw [List.mem_singleton.mp hi]
    exact .call
  | block _ h => exact h.drafted

theorem Step.draft (h : Step t r r') (hr : r.program.Draft) : r'.program.Draft := by
  cases h with
  | emit h => exact hr.grow h.drafted
  | @firstLiteral p w _ _ _ =>
    refine hr.grow fun i hi => ?_
    rw [List.mem_singleton.mp hi]
    exact .run (by simp [Item.emptyRun]) (Program.exceededLimit?_one p.profile)
  | @nextLiteral p w front run _ _ hitems hrun hlimit =>
    have hold : ∀ i ∈ front ++ [run], i.Drafted p.profile := hitems ▸ hr
    intro i hi
    rcases List.mem_append.mp hi with hi | hi
    · exact hold i (by simp [hi])
    · rw [List.mem_singleton.mp hi]
      exact (hold run (by simp)).push hrun hlimit w
  | goto => exact hr
  | sub => exact hr
  | target =>
    refine hr.grow fun i hi => ?_
    rw [List.mem_singleton.mp hi]
    exact .jump
  | declaration =>
    refine hr.grow fun i hi => ?_
    rw [List.mem_singleton.mp hi]
    exact .subroutine

theorem Reads.draft (h : Reads ts r r') (hr : r.program.Draft) : r'.program.Draft :=
  h.invariant (P := fun x => x.program.Draft) Step.draft hr

end Reader

theorem Program.draft_of_read {file source : String} {profile : Profile} {p : Program}
    (h : Program.read file source profile = .ok p) : p.Draft := by
  obtain ⟨q, hreads, -, hp⟩ := reads_of_read h
  rw [hp]
  exact hreads.draft fun i hi => by cases hi

/-! ## Items stay -/

namespace Reader

variable {t : Token} {ts : List Token} {r r' : Reader}

/-- The items of `xs` are found again in `ys`, at the same indices. The last of them may be a run of
literals that has grown. -/
def Keeps (xs ys : List Item) : Prop :=
  xs.length ≤ ys.length ∧
    ∀ (n : Nat) (i : Item), xs[n]? = some i → i.head ≠ .run → ys[n]? = some i

theorem Keeps.refl (xs : List Item) : Keeps xs xs := ⟨Nat.le_refl _, fun _ _ h _ => h⟩

theorem Keeps.trans {xs ys zs : List Item} (h : Keeps xs ys) (h' : Keeps ys zs) : Keeps xs zs :=
  ⟨Nat.le_trans h.1 h'.1, fun n i hi hrun => h'.2 n i (h.2 n i hi hrun) hrun⟩

theorem Keeps.append (xs new : List Item) : Keeps xs (xs ++ new) := by
  refine ⟨by simp, fun n i hi _ => ?_⟩
  rw [List.getElem?_append_left (List.getElem?_eq_some_iff.mp hi).1]
  exact hi

theorem Step.keeps (h : Step t r r') : Keeps r.program.items.toList r'.program.items.toList := by
  cases h with
  | emit | firstLiteral | target | declaration => exact Keeps.append _ _
  | @nextLiteral p w front run _ _ hitems hrun _ =>
    change Keeps p.items.toList (front ++ [run.push w])
    rw [hitems]
    refine ⟨by simp, fun n i hi hhead => ?_⟩
    by_cases hn : n < front.length
    · rw [List.getElem?_append_left hn] at hi ⊢
      exact hi
    · -- the only item that changes is the run at the end
      have hlt := (List.getElem?_eq_some_iff.mp hi).1
      rw [List.length_append, List.length_singleton] at hlt
      have hn' : n = front.length := by omega
      rw [hn', List.getElem?_concat_length] at hi
      cases hi
      exact absurd hrun hhead
  | goto => exact Keeps.refl _
  | sub => exact Keeps.refl _

theorem Reads.keeps (h : Reads ts r r') :
    Keeps r.program.items.toList r'.program.items.toList :=
  h.invariant (P := fun x => Keeps r.program.items.toList x.program.items.toList)
    (fun hstep hkeeps => hkeeps.trans hstep.keeps) (Keeps.refl _)

end Reader

end ServoScript
