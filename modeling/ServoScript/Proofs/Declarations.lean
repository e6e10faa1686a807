import ServoScript.Proofs.Language
import ServoScript.Proofs.Verdicts

/-!
# Names that are declared and called

What can follow `SUB` is a name in any other place too, unless it ends with a colon and is a label
there (`Token.kind_eq_plain_iff`). A script that is read has a marker for each name that it declares
and a call for each name that stands for itself (`Reader.Reads.exists_marker`,
`Reader.Reads.exists_call`), and resolution brings the two together (`Resolved.call_of_marker`).
-/

namespace ServoScript

/-! ## Names and labels -/

theorem TokenKind.getLast?_of_classify {text name : String}
    (h : classify text = .label name) : text.toList.getLast? = some ':' := by
  unfold classify at h
  split at h
  · cases h
  · unfold labelName? at h
    by_cases hcolon : text.toList.getLast? = some ':'
    · exact hcolon
    · rw [if_neg hcolon] at h
      unfold ofWord at h
      dsimp only at h
      split at h
      · cases h
      · split at h <;> cases h

theorem TokenKind.classify_ne_plain {text : String} (h : text.toList.getLast? = some ':') :
    classify text ≠ .plain := by
  unfold classify labelName?
  rw [if_pos h]
  split <;> simp

/-- Of the words that a subroutine can be named by, those that end with a colon are labels. -/
theorem Token.kind_eq_plain_iff {t : Token} (h : t.kind.IsName) :
    t.kind = .plain ↔ t.text.toList.getLast? ≠ some ':' := by
  constructor
  · intro hplain hcolon
    exact TokenKind.classify_ne_plain hcolon hplain
  · intro hcolon
    rcases TokenKind.isName_iff.mp h with ⟨name, hlabel⟩ | hplain
    · exact absurd (TokenKind.getLast?_of_classify hlabel) hcolon
    · exact hplain

/-! ## Markers and calls of a script -/

/-- A token of a script is read as the name of a subroutine that is declared there. -/
def DeclaredAt (script : List Token) (n : Nat) (t : Token) : Prop :=
  ∃ keyword, OrdinaryAt script n keyword ∧ keyword.kind = .keyword .SUB ∧
    script[n + 1]? = some t

namespace Reader

variable {t : Token} {r : Reader}

theorem isName_of_token {p : Program} {pos : Pos} {u : Unit}
    (h : (token t).run ⟨p, .sub pos⟩ = .ok u r) : t.kind.IsName :=
  exists_step_iff.mp ⟨r, token_eq_ok_iff.mp h⟩

theorem token_of_plain (ht : t.kind = .plain) (p : Program) :
    (token t).run ⟨p, .nothing⟩ = .ok () ⟨p.push (.call t.text t.pos), .nothing⟩ := by
  rw [token_eq_ok_iff, Program.push_eq_grow]
  exact .emit (.call ht)

namespace Reads

variable {profile : Profile} {script : List Token} {n : Nat}
  (h : Reads script (.start profile) r)
include h

theorem exists_item (nest : Nest) {i : Item} (hi : i.head ≠ .run)
    (hprogram : (after profile (script.take (n + 1))).program =
      (after profile (script.take n)).program.grow nest [i]) :
    ∃ j : Nat, r.program.items.toList[j]? = some i := by
  have hkeeps := (h.reads_take (n + 1)).2.keeps
  rw [hprogram, Program.toList_items_grow] at hkeeps
  exact ⟨_, hkeeps.2 _ i (List.getElem?_concat_length ..) hi⟩

theorem exists_marker (ht : DeclaredAt script n t) :
    ∃ i : Nat, r.program.items.toList[i]? = some (.subroutine t.text t.pos) := by
  obtain ⟨keyword, hkeyword, hkind, hname⟩ := ht
  obtain ⟨pos, hpos⟩ := h.pending_of_sub hkeyword hkind
  have hstep := h.step_at hname
  refine h.exists_item (n := n + 1) (after profile (script.take (n + 1))).program.nest nofun ?_
  generalize after profile (script.take (n + 1)) = r₁ at hpos hstep
  generalize after profile (script.take (n + 1 + 1)) = r₂ at hstep
  cases hstep with
  | declaration => rfl
  | emit | firstLiteral | nextLiteral | goto | sub | target => cases hpos

theorem exists_call (ht : OrdinaryAt script n t) (hplain : t.kind = .plain) :
    ∃ j : Nat, r.program.items.toList[j]? = some (.call t.text t.pos) := by
  obtain ⟨p, hp, -, -⟩ := h.accepts_at ht
  have hstep := (token_eq_ok_iff (u := ())).mpr (h.step_at ht.1)
  rw [hp, token_of_plain hplain, Program.push_eq_grow] at hstep
  refine h.exists_item (n := n) p.nest nofun ?_
  rw [hp]
  exact (congrArg Reader.program (EStateM.Result.ok.inj hstep).2).symm

end Reads

end Reader

/-! ## Calls and their markers -/

namespace Resolved

variable {d p : Program} (h : Resolved d p)
include h

theorem getElem?_settles {n : Nat} {i : Item} (hi : d.items.toList[n]? = some i) :
    ∃ j, p.items.toList[n]? = some j ∧ Settles p i j := by
  obtain ⟨hn, rfl⟩ := List.getElem?_eq_some_iff.mp hi
  have hn' : n < p.items.toList.length := h.items.length_eq ▸ hn
  exact ⟨_, List.getElem?_eq_getElem hn', h.items.get hn hn'⟩

theorem place_unique {s s' : Place} (hs : s ∈ p.subroutinePlaces) (hs' : s' ∈ p.subroutinePlaces)
    (hname : s.name = s'.name) : s = s' :=
  List.inj_on_of_nodup_map h.names_subroutinePlaces_nodup hs hs' hname

/-- **A call leads to its marker.** -/
theorem call_of_marker {m n : Nat} {name : String} {pos pos' : Pos}
    (hmarker : d.items.toList[m]? = some (.subroutine name pos))
    (hcall : d.items.toList[n]? = some (.call name pos')) :
    ∃ (k : Nat) (c : Item), p.subroutinePlaces[k]? = some ⟨name, pos, p.bytesBefore m⟩ ∧
      p.items.toList[n]? = some c ∧ c.role = .call name ∧
      c.bytes = Place.callBytes k ⟨name, pos, p.bytesBefore m⟩ := by
  obtain ⟨i, hi, hmarks⟩ := h.getElem?_settles hmarker
  obtain ⟨c, hc, hcalls⟩ := h.getElem?_settles hcall
  have hplace : (⟨name, pos, p.bytesBefore m⟩ : Place) ∈ p.subroutinePlaces := by
    cases hmarks with
    | subroutine =>
      refine (mem_places _).mpr ⟨m, _, hi, rfl, rfl, ?_⟩
      rw [Nat.zero_add]
      rfl
  obtain ⟨k, s, hs, hname, hbytes⟩ := h.call_bytes (List.mem_of_getElem? hc) hcalls.role_eq
  have heq := h.place_unique (List.mem_of_getElem? hs) hplace hname
  subst heq
  exact ⟨k, c, hs, hc, hcalls.role_eq, hbytes⟩

end Resolved

theorem Program.fault_ne_notUnderstood {d q : Program} (hd : d.Fresh) {n : Nat} {name : String}
    {pos : Pos} (h : d.items.toList[n]? = some (.subroutine name pos)) {e : Diag}
    (hrun : complete.run d = .error e q) : e.fault ≠ .notUnderstood name := by
  intro hfault
  have hmem : name ∈ markNames Role.subroutine? d.items.toList :=
    List.mem_filterMap.mpr ⟨_, List.mem_of_getElem? h, rfl⟩
  have hfirst := hd.complaint?_complete
  rw [hrun] at hfirst
  obtain ⟨_, _, _, -, -, hgrounds⟩ := exists_grounds hfirst.symm
  rw [hfault] at hgrounds
  cases hgrounds with
  | notUnderstood _ hnot => exact hnot hmem

/-- **What can be declared can be called**, if it does not end with a colon. A word that is accepted
after `SUB` is a call of that very name wherever it stands for itself. In a script that declares it,
each such call resolves to the subroutine that is declared: it is never complained about as not
understood, and in the resolved program it has the bytes that call the marker of the declaration. -/
theorem declared_subroutine_callable {t : Token} (hcolon : t.text.toList.getLast? ≠ some ':')
    {p : Program} {pos : Pos} {r : Reader} (h : (Reader.token t).run ⟨p, .sub pos⟩ = .ok () r) :
    (∀ (q : Program) (u : Token), u.text = t.text →
      (Reader.token u).run ⟨q, .nothing⟩ = .ok () ⟨q.push (.call t.text u.pos), .nothing⟩) ∧
    ∀ (file source : String) (profile : Profile) (m n : Nat) (u : Token) (d : Program),
      DeclaredAt (Source.script file source) m t → OrdinaryAt (Source.script file source) n u →
      u.text = t.text → Program.read file source profile = .ok d →
      ∃ i j : Nat, d.items.toList[i]? = some (.subroutine t.text t.pos) ∧
        d.items.toList[j]? = some (.call t.text u.pos) ∧
        (∀ e q, Program.complete.run d = .error e q → e.fault ≠ .notUnderstood t.text) ∧
        ∀ a, Program.complete.run d = .ok () a →
          ∃ (k : Nat) (c : Item), a.subroutinePlaces[k]? = some ⟨t.text, t.pos, a.bytesBefore i⟩ ∧
            a.items.toList[j]? = some c ∧ c.role = .call t.text ∧
            c.bytes = Place.callBytes k ⟨t.text, t.pos, a.bytesBefore i⟩ := by
  have hplain : ∀ u : Token, u.text = t.text → u.kind = .plain := by
    intro u hu
    rw [Token.kind, hu]
    exact (Token.kind_eq_plain_iff (Reader.isName_of_token h)).mpr hcolon
  refine ⟨fun q u hu => hu ▸ Reader.token_of_plain (hplain u hu) q, ?_⟩
  intro file source profile m n u d hdeclared hu hname hread
  obtain ⟨q, hreads, -, hd⟩ := Program.reads_of_read hread
  obtain ⟨i, hi⟩ := hreads.exists_marker hdeclared
  obtain ⟨j, hj⟩ := hreads.exists_call hu (hplain u hname)
  have hitems : d.items = q.items := by rw [hd]
  rw [← hitems] at hi hj
  rw [hname] at hj
  refine ⟨i, j, hi, hj, fun e q' hrun => ?_, fun a ha => ?_⟩
  · exact Program.fault_ne_notUnderstood (Program.fresh_of_read hread) hi hrun
  · exact (Program.resolved_of_read hread ha).call_of_marker hi hj

/-- A name with a colon inside it, which is called before it is declared. -/
theorem declared_subroutine_callable_colon :
    ∃ (d a : Program) (i j k : Nat) (c : Item),
      Program.read "script" "go:on 300 sub go:on return" .micro = .ok d ∧
      d.items.toList[i]? = some (.subroutine "GO:ON" ⟨"script", 1, 15⟩) ∧
      d.items.toList[j]? = some (.call "GO:ON" ⟨"script", 1, 1⟩) ∧
      Program.complete.run d = .ok () a ∧
      a.subroutinePlaces[k]? = some ⟨"GO:ON", ⟨"script", 1, 15⟩, a.bytesBefore i⟩ ∧
      a.items.toList[j]? = some c ∧
      c.bytes = Place.callBytes k ⟨"GO:ON", ⟨"script", 1, 15⟩, a.bytesBefore i⟩ := by
  let t : Token := ⟨"GO:ON", ⟨"script", 1, 15⟩⟩
  let u : Token := ⟨"GO:ON", ⟨"script", 1, 1⟩⟩
  let keyword : Token := ⟨"SUB", ⟨"script", 1, 11⟩⟩
  have haccepted : (Reader.token t).run ⟨.empty .micro, .sub keyword.pos⟩ = .ok () _ :=
    Reader.token_eq_ok_iff.mpr (.declaration (.inr (by decide +kernel)))
  have hdeclared : DeclaredAt (Source.script "script" "go:on 300 sub go:on return") 2 t :=
    ⟨keyword, ⟨by decide +kernel, by decide +kernel⟩, by decide +kernel, by decide +kernel⟩
  have hu : OrdinaryAt (Source.script "script" "go:on 300 sub go:on return") 0 u :=
    ⟨by decide +kernel, by decide +kernel⟩
  obtain ⟨d, hd, hq⟩ := exists_ok_of_any
    (x := Program.read "script" "go:on 300 sub go:on return" .micro)
    (q := fun d => (complaint? (Program.complete.run d)).isNone) (by decide +kernel)
  obtain ⟨i, j, hi, hj, -, hcalls⟩ := (declared_subroutine_callable (t := t) (by decide)
    haccepted).2 _ _ _ _ _ u d hdeclared hu rfl hd
  cases hrun : Program.complete.run d with
  | error e q =>
    rw [hrun] at hq
    cases hq
  | ok v a =>
    obtain ⟨k, c, hk, hc, -, hbytes⟩ := hcalls a hrun
    exact ⟨d, a, i, j, k, c, hd, hi, hj, hrun, hk, hc, hbytes⟩

/-- A name that ends with a colon can be declared, but where it stands for itself it is a label, and
no call comes of it. -/
theorem declared_label_not_callable :
    let t : Token := ⟨"FOO:", ⟨"script", 1, 5⟩⟩
    let p : Program := .empty .mini
    (∃ r, (Reader.token t).run ⟨p, .sub t.pos⟩ = .ok () r) ∧
    (Reader.token t).run ⟨p, .nothing⟩ ≠ .ok () ⟨p.push (.call t.text t.pos), .nothing⟩ ∧
    ∃ a, assemble "script" "sub foo: foo:" .mini = .ok a ∧ a.commands.names = ["FOO:"] ∧
      ∀ c ∈ a.items.toList, ∀ name, c.role ≠ .call name := by
  intro t p
  have hkind : t.kind = .label "FOO" := by decide +kernel
  refine ⟨⟨_, Reader.token_eq_ok_iff.mpr (.declaration (.inl ⟨_, hkind⟩))⟩, ?_, ?_⟩
  · intro hcall
    have hlabel := (Reader.token_eq_ok_iff (u := ())).mpr (.emit (p := p) (.label hkind))
    rw [hcall] at hlabel
    have hitems := congrArg (·.program.items.toList) (EStateM.Result.ok.inj hlabel).2
    cases hitems
  · obtain ⟨a, ha, hq⟩ := exists_ok_of_any (x := assemble "script" "sub foo: foo:" .mini)
      (q := fun a => a.commands.names = ["FOO:"] ∧
        a.items.toList.map (·.role) = [.subroutine "FOO:", .label "USER_FOO"]) (by decide +kernel)
    obtain ⟨hnames, hroles⟩ := of_decide_eq_true hq
    refine ⟨a, ha, hnames, fun c hc name hrole => ?_⟩
    have hmem : c.role ∈ a.items.toList.map (·.role) := List.mem_map_of_mem hc
    rw [hroles, hrole] at hmem
    simp at hmem

end ServoScript
