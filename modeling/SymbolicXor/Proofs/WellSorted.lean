import SymbolicXor.Proofs.SubstitutionAlgebra

/-!
# Sorts and well-sorted substitutions

Sorts form a forest: whatever a sort conforms to lies on one path upwards. A substitution is
well-sorted if every variable accepts the term that it is bound to. Instances under well-sorted
substitutions are accepted wherever the terms are, so well-sorted substitutions compose.
-/

namespace SymbolicXor

namespace TermSort

theorem conformsTo_iff {s t : TermSort} : s.conformsTo t = true ↔ s = t ∨ t ∈ s.ancestors := by
  simp [conformsTo, isBelow]

theorem conformsTo_self (s : TermSort) : s.conformsTo s = true := conformsTo_iff.2 (Or.inl rfl)

/-- A sort conforms to the sorts that its parent conforms to. -/
theorem conformsTo_sub {n : Name} {p t : TermSort} :
    (sub n p).conformsTo t = true ↔ sub n p = t ∨ p.conformsTo t = true := by
  rw [conformsTo_iff, conformsTo_iff, ancestors, List.mem_cons, @eq_comm _ p t]

theorem conformsTo_root {n : Name} {t : TermSort} :
    (root n).conformsTo t = true ↔ root n = t := by
  rw [conformsTo_iff, ancestors]
  simp

theorem conformsTo_trans {s t u : TermSort} (hst : s.conformsTo t = true)
    (htu : t.conformsTo u = true) : s.conformsTo u = true := by
  induction s with
  | root n => rwa [conformsTo_root.1 hst]
  | sub n p ih =>
    rcases conformsTo_sub.1 hst with rfl | hpt
    · exact htu
    · exact conformsTo_sub.2 (Or.inr (ih hpt))

/-- Two sorts to which one sort conforms are comparable. -/
theorem conformsTo_or_conformsTo {s t u : TermSort} (hst : s.conformsTo t = true)
    (hsu : s.conformsTo u = true) : t.conformsTo u = true ∨ u.conformsTo t = true := by
  induction s with
  | root n =>
    rw [← conformsTo_root.1 hst, ← conformsTo_root.1 hsu]
    exact Or.inl (conformsTo_self _)
  | sub n p ih =>
    rcases conformsTo_sub.1 hst with rfl | hpt
    · exact Or.inl hsu
    · rcases conformsTo_sub.1 hsu with rfl | hpu
      · exact Or.inr hst
      · exact ih hpt hpu

end TermSort

namespace Variable

variable {v w : Variable} {t : Term}

/-- A sorted variable accepts the terms whose sort conforms to its own. -/
theorem accepts_iff : v.accepts t = true ↔
    ∀ s, v.sort = some s → ∃ r, t.sort = some r ∧ r.conformsTo s = true := by
  simp only [accepts, TermSort.admits]
  cases v.sort <;> cases t.sort <;> simp

theorem accepts_of_unsorted (h : v.sort = none) (t : Term) : v.accepts t = true := by
  simp [accepts, h]

/-- A variable accepts the terms of its own sort. -/
theorem accepts_of_sort_eq (h : t.sort = v.sort) : v.accepts t = true :=
  accepts_iff.2 fun s hs => ⟨s, h.trans hs, s.conformsTo_self⟩

theorem accepts_self (v : Variable) : v.accepts (.var v) = true := accepts_of_sort_eq rfl

/-- A variable that accepts another one accepts the terms that the other accepts. -/
theorem accepts_trans (h : v.accepts (.var w) = true) (ht : w.accepts t = true) :
    v.accepts t = true := by
  rw [accepts_iff] at *
  intro s hs
  obtain ⟨r, hr, hrs⟩ := h s hs
  obtain ⟨q, hq, hqr⟩ := ht r hr
  exact ⟨q, hq, TermSort.conformsTo_trans hqr hrs⟩

/-- Of two variables that accept one term, one accepts the other. -/
theorem accepts_or_accepts (hv : v.accepts t = true) (hw : w.accepts t = true) :
    v.accepts (.var w) = true ∨ w.accepts (.var v) = true := by
  cases hvs : v.sort with
  | none => exact Or.inl (accepts_of_unsorted hvs _)
  | some s =>
    cases hws : w.sort with
    | none => exact Or.inr (accepts_of_unsorted hws _)
    | some r =>
      obtain ⟨q, hq, hqs⟩ := accepts_iff.1 hv s hvs
      obtain ⟨q', hq', hqr⟩ := accepts_iff.1 hw r hws
      rw [hq, Option.some.injEq] at hq'
      rcases TermSort.conformsTo_or_conformsTo hqs (hq' ▸ hqr) with hsr | hrs
      · refine Or.inr (accepts_iff.2 fun u hu => ⟨s, hvs, ?_⟩)
        rw [hws, Option.some.injEq] at hu
        exact hu ▸ hsr
      · refine Or.inl (accepts_iff.2 fun u hu => ⟨r, hws, ?_⟩)
        rw [hvs, Option.some.injEq] at hu
        exact hu ▸ hrs

end Variable

namespace Substitution

open Term

variable {σ θ : Substitution} {v : Variable} {t : Term}

/-- Every bound variable accepts the term to which it is bound. -/
def WellSorted (σ : Substitution) : Prop := ∀ v ∈ σ.domain, v.accepts (σ.lookup v) = true

instance (σ : Substitution) : Decidable σ.WellSorted :=
  inferInstanceAs (Decidable (∀ v ∈ σ.domain, _))

theorem WellSorted.lookup (h : σ.WellSorted) (v : Variable) : v.accepts (σ.lookup v) = true := by
  by_cases hv : v ∈ σ.domain
  · exact h v hv
  · rw [lookup_of_not_mem_domain hv]
    exact v.accepts_self

/-- A variable accepts the term that stands for it. -/
def AcceptedAt (σ : Substitution) (v : Variable) : Prop := v.accepts (σ.lookup v) = true

theorem wellSorted_empty : (∅ : Substitution).WellSorted := fun _ h => absurd h List.not_mem_nil

theorem wellSorted_single (h : v.accepts t = true) : (single v t).WellSorted := by
  intro w hw
  rw [mem_domain_single] at hw
  rw [hw, lookup_single, if_pos rfl]
  exact h

/-- A constant or an application keeps its sort in every instance. -/
theorem sort_apply_of_rigid (hs : t.isSum = false) (hv : t.isVar = false) :
    (θ.apply t).sort = t.sort := by
  cases t with
  | var w => simp [isVar] at hv
  | const c => rfl
  | app f ts => rw [apply_app, Term.sort, Term.sort]
  | sum ts => simp [isSum] at hs

/-- A sorted term is a variable or keeps its sort in every instance. -/
theorem sort_apply (h : t.sort ≠ none) (hv : t.isVar = false) : (θ.apply t).sort = t.sort := by
  refine sort_apply_of_rigid ?_ hv
  cases t with
  | sum ts => exact absurd rfl h
  | _ => rfl

/-- A variable accepts the instances of a constant or an application exactly if it accepts the term
itself. -/
theorem accepts_apply_of_rigid (hs : t.isSum = false) (hvar : t.isVar = false) :
    v.accepts (θ.apply t) = v.accepts t := by
  simp only [Variable.accepts, TermSort.admits, sort_apply_of_rigid hs hvar]

/-- A variable that accepts a term accepts its well-sorted instances. -/
theorem accepts_apply (hθ : θ.WellSorted) (h : v.accepts t = true) :
    v.accepts (θ.apply t) = true := by
  by_cases hvar : t.isVar = true
  · cases t with
    | var w => exact Variable.accepts_trans h (hθ.lookup w)
    | _ => simp [isVar] at hvar
  · rw [Bool.not_eq_true] at hvar
    rw [Variable.accepts_iff] at *
    intro s hs
    obtain ⟨r, hr, hrs⟩ := h s hs
    exact ⟨r, by rw [sort_apply (by simp [hr]) hvar, hr], hrs⟩

/-- Well-sorted substitutions compose. -/
theorem WellSorted.compose (hσ : σ.WellSorted) (hθ : θ.WellSorted) : (σ.compose θ).WellSorted := by
  intro v _
  rw [lookup_compose]
  exact accepts_apply hθ (hσ.lookup v)

end Substitution

end SymbolicXor
