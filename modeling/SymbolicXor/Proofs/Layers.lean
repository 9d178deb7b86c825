import SymbolicXor.Proofs.SubstitutionAlgebra

/-!
# Terms in two layers

Purification leaves terms in two layers: a sum at the top, and summands without sums. Such terms
are closed under exclusive or, under bindings to terms without sums, and under bindings of
variables that occur at the top only.
-/

namespace SymbolicXor

namespace Term

/-- No sum occurs below a function symbol. -/
def Layered (t : Term) : Prop := ∀ a ∈ t.summands, a.SumFree

/-- A canonical term that respects arities and has no sum below a function symbol. -/
structure WellLayered (t : Term) : Prop where
  /-- It is canonical. -/
  canonical : t.Canonical
  /-- Its applications have as many arguments as their symbols ask for. -/
  arity : t.RespectsArity
  /-- Its summands have no sums. -/
  layered : t.Layered

theorem layered_of_sumFree {t : Term} (h : t.SumFree) : t.Layered := by
  rcases eq_zero_or_atomic_or_sum t with rfl | ht | ⟨ts, rfl⟩
  · simp [Layered]
  · simpa [Layered, summands_of_atomic ht] using h
  · exact absurd h (not_sumFree_sum ts)

/-- A layered term that is not a sum itself has no sums. -/
theorem Layered.sumFree {t : Term} (h : t.Layered) (hs : t.isSum = false) : t.SumFree := by
  rcases eq_zero_or_atomic_or_sum t with rfl | ht | ⟨ts, rfl⟩
  · exact sumFree_const _
  · exact h t (by simp [summands_of_atomic ht])
  · simp [isSum] at hs

theorem wellLayered_of_sumFree {t : Term} (hc : t.Canonical) (ha : t.RespectsArity)
    (hs : t.SumFree) : t.WellLayered := ⟨hc, ha, layered_of_sumFree hs⟩

theorem wellLayered_var (v : Variable) : (var v).WellLayered :=
  wellLayered_of_sumFree (canonical_var v) (respectsArity_var v) (sumFree_var v)

theorem wellLayered_const (c : Constant) : (const c).WellLayered :=
  wellLayered_of_sumFree (canonical_const c) (respectsArity_const c) (sumFree_const c)

/-- A summand of a layered term is layered, and has no sums at all. -/
theorem WellLayered.summand {t a : Term} (h : t.WellLayered) (ha : a ∈ t.summands) :
    a.WellLayered :=
  wellLayered_of_sumFree (canonical_of_mem_summands h.canonical ha) (h.arity.summands a ha)
    (h.layered a ha)

theorem layered_xor {ts : List Term} (hc : ∀ t ∈ ts, t.Canonical) (h : ∀ t ∈ ts, t.Layered) :
    (xor ts).Layered := by
  intro a ha
  obtain ⟨t, ht, hat⟩ := exists_of_mem_summands_xor hc ha
  exact h t ht a hat

theorem WellLayered.xor {ts : List Term} (h : ∀ t ∈ ts, t.WellLayered) :
    (xor ts).WellLayered :=
  have hc : ∀ t ∈ ts, t.Canonical := fun t ht => (h t ht).canonical
  ⟨canonical_xor hc, respectsArity_xor fun t ht => (h t ht).arity,
    layered_xor hc fun t ht => (h t ht).layered⟩

theorem varsInArgumentsAll_eq_flatMap (ts : List Term) :
    varsInArgumentsAll ts = ts.flatMap varsInArguments := by
  induction ts with
  | nil => rfl
  | cons t ts ih => rw [varsInArgumentsAll, ih, List.flatMap_cons]

/-- Below a function symbol are the variables of the summands that are not variables. -/
theorem mem_varsInArguments {t : Term} (h : t.Canonical) {v : Variable} :
    v ∈ t.varsInArguments ↔ ∃ a ∈ t.summands, a.isVar = false ∧ v ∈ a.vars := by
  have atomic {a : Term} (ha : a.Atomic) :
      v ∈ a.varsInArguments ↔ a.isVar = false ∧ v ∈ a.vars := by
    cases a with
    | sum ts => exact absurd ha.2 (by simp [isSum])
    | _ => simp [varsInArguments, isVar]
  rcases eq_zero_or_atomic_or_sum t with rfl | ht | ⟨ts, rfl⟩
  · simp [zero, varsInArguments, summands]
  · simp [summands_of_atomic ht, atomic ht]
  · rw [varsInArguments, varsInArgumentsAll_eq_flatMap, List.mem_flatMap]
    refine exists_congr fun a => and_congr_right fun ha => atomic ?_
    exact ((canonical_sum ts).1 h).1.2.2 a ha

end Term

namespace Substitution

open Term

variable {σ : Substitution} {t : Term}

/-- An instance is the sum of the instances of the summands. -/
theorem apply_eq_xor_summands (hσ : σ.Into Canonical) (ht : t.Canonical) :
    σ.apply t = xor (t.summands.map σ.apply) := by
  rw [← apply_xor hσ fun a ha => canonical_of_mem_summands ht ha, xor_summands ht]

/-- A term is well-layered after a substitution if its summands are. -/
theorem wellLayered_apply_of_summands (hσ : σ.Into Canonical) (ht : t.Canonical)
    (h : ∀ a ∈ t.summands, (σ.apply a).WellLayered) : (σ.apply t).WellLayered := by
  rw [apply_eq_xor_summands hσ ht]
  refine WellLayered.xor ?_
  rw [List.forall_mem_map]
  exact h

/-- Bindings to terms without sums keep the layers. -/
theorem wellLayered_apply (hσ : σ.Into Canonical) (har : σ.Into RespectsArity)
    (hs : σ.Into SumFree) (ht : t.WellLayered) : (σ.apply t).WellLayered := by
  refine wellLayered_apply_of_summands hσ ht.canonical fun a ha => ?_
  have hal := ht.summand ha
  exact wellLayered_of_sumFree (canonical_apply hσ a) (respectsArity_apply har hal.arity)
    (sumFree_apply hs (ht.layered a ha))

/-- Binding a variable that occurs at the top only keeps the layers. -/
theorem wellLayered_apply_single {v : Variable} {u : Term} (hu : u.WellLayered)
    (ht : t.WellLayered) (hv : v ∉ t.varsInArguments) : ((single v u).apply t).WellLayered := by
  refine wellLayered_apply_of_summands (into_single hu.canonical) ht.canonical fun a ha => ?_
  have hal := ht.summand ha
  by_cases hvar : a.isVar = true
  · cases a with
    | var w =>
      rw [apply_var, lookup_single]
      split
      · exact hu
      · exact wellLayered_var w
    | _ => simp [isVar] at hvar
  · rw [Bool.not_eq_true] at hvar
    rw [apply_eq_self hal.canonical]
    · exact hal
    · intro w hw
      rw [lookup_single, if_neg]
      rintro rfl
      exact hv ((mem_varsInArguments ht.canonical).2 ⟨a, ha, hvar, hw⟩)

end Substitution

end SymbolicXor
