import Mathlib.Data.List.Forall2
import ServoScript.Symbols

/-!
# Runs of actions and entries of tables

* `run_bind_eq_ok`, `forM_cons_eq_ok`, `forM_append_eq_ok`: an action made of parts succeeds when
  its parts do, one after the other; `run_bind_eq_error`, `forM_eq_error`: it fails with the first
  part that fails.
* `Symbols.entries_insert_of_notMem`, `Symbols.get?_eq_some_iff`: a table to which only new names
  are added is the list of its entries.
-/

namespace ServoScript

/-! ## Actions -/

section actions

variable {ε σ α β : Type}

theorem run_bind_eq_ok {x : EStateM ε σ α} {f : α → EStateM ε σ β} {s s₂ : σ} {b : β} :
    (x >>= f).run s = .ok b s₂ ↔ ∃ a s₁, x.run s = .ok a s₁ ∧ (f a).run s₁ = .ok b s₂ := by
  change EStateM.bind x f s = _ ↔ ∃ a s₁, x s = _ ∧ f a s₁ = _
  unfold EStateM.bind
  cases h : x s with
  | ok a s₁ => simp
  | error e s₁ => simp

theorem run_bind_eq_error {x : EStateM ε σ α} {f : α → EStateM ε σ β} {s s₂ : σ} {e : ε} :
    (x >>= f).run s = .error e s₂ ↔
      x.run s = .error e s₂ ∨ ∃ a s₁, x.run s = .ok a s₁ ∧ (f a).run s₁ = .error e s₂ := by
  change EStateM.bind x f s = _ ↔ x s = _ ∨ ∃ a s₁, x s = _ ∧ f a s₁ = _
  unfold EStateM.bind
  cases h : x s with
  | ok a s₁ => simp
  | error e s₁ => simp

theorem run_modify_eq_ok {f : σ → σ} {s s₁ : σ} {u : PUnit} :
    (modify f : EStateM ε σ PUnit).run s = .ok u s₁ ↔ s₁ = f s := by
  change EStateM.Result.ok () (f s) = .ok u s₁ ↔ _
  simp [eq_comm]

variable {f : α → EStateM ε σ PUnit}

theorem forM_nil_eq_ok {s s₁ : σ} {u : PUnit} :
    (([] : List α).forM f).run s = .ok u s₁ ↔ s₁ = s := by
  change EStateM.Result.ok () s = .ok u s₁ ↔ _
  simp [eq_comm]

theorem forM_cons_eq_ok {a : α} {as : List α} {s s₂ : σ} {u : PUnit} :
    ((a :: as).forM f).run s = .ok u s₂ ↔
      ∃ s₁, (f a).run s = .ok ⟨⟩ s₁ ∧ (as.forM f).run s₁ = .ok u s₂ := by
  change (f a >>= fun _ => as.forM f).run s = _ ↔ _
  rw [run_bind_eq_ok]
  constructor
  · rintro ⟨⟨⟩, s₁, ha, has⟩
    exact ⟨s₁, ha, has⟩
  · rintro ⟨s₁, ha, has⟩
    exact ⟨⟨⟩, s₁, ha, has⟩

theorem forM_append_eq_ok {as bs : List α} {s s₂ : σ} {u : PUnit} :
    ((as ++ bs).forM f).run s = .ok u s₂ ↔
      ∃ s₁, (as.forM f).run s = .ok ⟨⟩ s₁ ∧ (bs.forM f).run s₁ = .ok u s₂ := by
  induction as generalizing s with
  | nil => simp
  | cons a as ih =>
    rw [List.cons_append, forM_cons_eq_ok]
    constructor
    · rintro ⟨s₁, ha, hrest⟩
      obtain ⟨s₃, has, hbs⟩ := ih.mp hrest
      exact ⟨s₃, forM_cons_eq_ok.mpr ⟨s₁, ha, has⟩, hbs⟩
    · rintro ⟨s₃, hfront, hbs⟩
      obtain ⟨s₁, ha, has⟩ := forM_cons_eq_ok.mp hfront
      exact ⟨s₁, ha, ih.mpr ⟨s₃, has, hbs⟩⟩

theorem forM_eq_error {as : List α} {s s' : σ} {e : ε} :
    (as.forM f).run s = .error e s' ↔
      ∃ front a back s₁, as = front ++ a :: back ∧ (front.forM f).run s = .ok ⟨⟩ s₁ ∧
        (f a).run s₁ = .error e s' := by
  induction as generalizing s with
  | nil =>
    constructor
    · intro h
      cases h
    · rintro ⟨front, a, back, s₁, heq, -⟩
      simp at heq
  | cons a as ih =>
    have hcons : ((a :: as).forM f).run s = .error e s' ↔ (f a).run s = .error e s' ∨
        ∃ u s₁, (f a).run s = .ok u s₁ ∧ (as.forM f).run s₁ = .error e s' := run_bind_eq_error
    rw [hcons]
    constructor
    · rintro (ha | ⟨⟨⟩, s₁, ha, has⟩)
      · exact ⟨[], a, as, s, rfl, forM_nil_eq_ok.mpr rfl, ha⟩
      · obtain ⟨front, b, back, s₂, rfl, hfront, hb⟩ := ih.mp has
        exact ⟨a :: front, b, back, s₂, rfl, forM_cons_eq_ok.mpr ⟨s₁, ha, hfront⟩, hb⟩
    · rintro ⟨front, b, back, s₂, heq, hfront, hb⟩
      cases front with
      | nil =>
        cases heq
        cases forM_nil_eq_ok.mp hfront
        exact .inl hb
      | cons c front =>
        cases heq
        obtain ⟨s₁, hc, hrest⟩ := forM_cons_eq_ok.mp hfront
        exact .inr ⟨⟨⟩, s₁, hc, ih.mpr ⟨front, b, back, s₂, rfl, hrest, hb⟩⟩

end actions

/-- A result can be looked into by evaluation. -/
theorem exists_ok_of_any {ε α : Type} {x : Except ε α} {q : α → Bool}
    (h : x.toOption.any q = true) : ∃ a, x = .ok a ∧ q a = true := by
  cases x with
  | ok a => exact ⟨a, rfl, h⟩
  | error e => cases h

theorem forall₂_comp {α β γ : Type} {R : α → β → Prop} {S : β → γ → Prop} {T : α → γ → Prop}
    {xs : List α} {ys : List β} {zs : List γ} (hR : List.Forall₂ R xs ys)
    (hS : List.Forall₂ S ys zs) (h : ∀ x ∈ xs, ∀ y z, R x y → S y z → T x z) :
    List.Forall₂ T xs zs := by
  induction hR generalizing zs with
  | nil =>
    cases hS
    exact .nil
  | cons hxy _ ih =>
    cases hS with
    | cons hyz hrest =>
      exact .cons (h _ (by simp) _ _ hxy hyz) (ih hrest fun x hx => h x (by simp [hx]))

theorem exists_of_forall₂ {α β : Type} {R : α → β → Prop} {xs : List α} {ys : List β}
    (h : List.Forall₂ R xs ys) : ∀ y ∈ ys, ∃ x ∈ xs, R x y := by
  induction h with
  | nil => simp
  | cons hxy _ ih =>
    intro y hy
    rcases List.mem_cons.mp hy with rfl | hy
    · exact ⟨_, by simp, hxy⟩
    · obtain ⟨x, hx, hR⟩ := ih y hy
      exact ⟨x, by simp [hx], hR⟩

theorem forall₂_concat_left {α β : Type} {R : α → β → Prop} {xs : List α} {a : α} {zs : List β}
    (h : List.Forall₂ R (xs ++ [a]) zs) :
    ∃ ys b, zs = ys ++ [b] ∧ List.Forall₂ R xs ys ∧ R a b := by
  have hreverse := List.forall₂_reverse_iff.mpr h
  rw [List.reverse_append, List.reverse_singleton, List.singleton_append,
    List.forall₂_cons_left_iff] at hreverse
  obtain ⟨b, ys, hab, hxs, hzs⟩ := hreverse
  refine ⟨ys.reverse, b, ?_, ?_, hab⟩
  · rw [← List.reverse_reverse zs, hzs, List.reverse_cons]
  · rw [← List.forall₂_reverse_iff, List.reverse_reverse]
    exact hxs

/-! ## Tables -/

namespace Symbols

variable {α : Type}

theorem entries_insert_of_notMem {t : Symbols α} {name : String} (value : α)
    (h : name ∉ t.names) : (t.insert name value).entries = t.entries ++ [(name, value)] := by
  obtain ⟨entries⟩ := t
  change enter name value entries = entries ++ _
  change name ∉ entries.map _ at h
  induction entries with
  | nil => rfl
  | cons e rest ih =>
    rw [List.map_cons, List.mem_cons, not_or] at h
    rw [enter, if_neg fun he => h.1 he.symm, ih h.2, List.cons_append]

theorem get?_eq_none_iff {t : Symbols α} {name : String} :
    t.get? name = none ↔ name ∉ t.names := by
  rw [← contains_iff_mem_names, contains]
  simp

theorem mem_names_of_get? {t : Symbols α} {name : String} {value : α}
    (h : t.get? name = some value) : name ∈ t.names := by
  by_contra hnot
  rw [get?_eq_none_iff.mpr hnot] at h
  cases h

theorem get?_eq_some_iff {t : Symbols α} (h : t.names.Nodup) {name : String} {value : α} :
    t.get? name = some value ↔ (name, value) ∈ t.entries := by
  obtain ⟨entries⟩ := t
  change entries.lookup name = some value ↔ (name, value) ∈ entries
  change (entries.map _).Nodup at h
  induction entries with
  | nil => simp
  | cons e rest ih =>
    obtain ⟨key, v⟩ := e
    rw [List.map_cons, List.nodup_cons] at h
    rw [List.lookup_cons, List.mem_cons]
    by_cases hk : name = key
    · subst hk
      have hrest : (name, value) ∉ rest := fun hm =>
        h.1 (List.mem_map.mpr ⟨_, hm, rfl⟩)
      simp [hrest, eq_comm]
    · simp [beq_eq_false_iff_ne.mpr hk, hk, ih h.2]

end Symbols

end ServoScript
