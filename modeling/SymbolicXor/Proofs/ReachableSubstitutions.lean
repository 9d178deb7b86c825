import SymbolicXor.Proofs.SortedCollisions

/-!
# Substitutions that can be reached

A substitution is made by adding, replacing, removing and restricting bindings, by composing, and by
the searches. All of these keep the bindings well-sorted. A binding is checked for the sort of its
term and not for what stands inside, so instances are well-sorted where the bound terms are.
-/

namespace SymbolicXor

open Term Substitution

namespace Substitution

variable {P : Term → Prop} {σ τ : Substitution} {v : Variable} {t : Term}

/-- The substitutions that sequences of operations lead to, of which the terms, equations and
constraints that are given have a property. -/
inductive Reachable (P : Term → Prop) : Substitution → Prop
  /-- No variable is bound. -/
  | empty : Reachable P ∅
  /-- A single variable is bound. -/
  | singleton {v : Variable} {t : Term} {τ : Substitution} (ht : P t)
      (h : Substitution.singleton v t = .ok τ) : Reachable P τ
  /-- One more variable is bound. -/
  | add {σ τ : Substitution} {v : Variable} {t : Term} (hσ : Reachable P σ) (ht : P t)
      (h : σ.add v t = .ok τ) : Reachable P τ
  /-- A variable is bound anew. -/
  | replace {σ τ : Substitution} {v : Variable} {t : Term} (hσ : Reachable P σ) (ht : P t)
      (h : σ.replace v t = .ok τ) : Reachable P τ
  /-- A variable is unbound. -/
  | erase {σ : Substitution} (hσ : Reachable P σ) (v : Variable) : Reachable P (σ.erase v)
  /-- Only some variables are kept. -/
  | restrict {σ : Substitution} (hσ : Reachable P σ) (vs : List Variable) :
      Reachable P (σ.restrict vs)
  /-- Two substitutions are composed. -/
  | compose {σ θ : Substitution} (hσ : Reachable P σ) (hθ : Reachable P θ) :
      Reachable P (σ.compose θ)
  /-- Equations are unified syntactically. -/
  | unify {es : List Equation} {σ : Substitution} (hes : ∀ e ∈ es, e.Both P)
      (h : Unification.unify es = .ok σ) : Reachable P σ
  /-- Equations are unified modulo exclusive or. -/
  | unifyModulo {es : List Equation} {maxSteps : Nat} {σ : Substitution}
      (hes : ∀ e ∈ es, e.Both P) (h : σ ∈ (xorUnify es maxSteps).solutions) : Reachable P σ
  /-- An adversary unifies equations. -/
  | attack {a : Adversary} {es : List Equation} {constraints : Constraints} {maxSteps : Nat}
      {σ : Substitution} (hes : ∀ e ∈ es, e.Both P)
      (hC : ∀ v ts, constraints.get? v = some ts → ∀ t ∈ ts, P t)
      (h : σ ∈ (a.unify es constraints maxSteps).solutions) : Reachable P σ
  /-- A collision is found. -/
  | collision {outputs : List Term} {constraints : Constraints} {maxSteps : Nat}
      {σ : Substitution} (hC : ∀ v ts, constraints.get? v = some ts → ∀ t ∈ ts, P t)
      (h : σ ∈ (collisions outputs constraints maxSteps).solutions) : Reachable P σ

/-- Every operation keeps the bindings well-sorted, and the bound terms as the given ones are. -/
theorem Reachable.fits (hP : Invariant P)
    (hcollision : ∀ (outputs : List Term) (constraints : Constraints) (maxSteps : Nat),
      (∀ v ts, constraints.get? v = some ts → ∀ t ∈ ts, P t) →
        ∀ σ ∈ (collisions outputs constraints maxSteps).solutions, σ.Into P)
    (h : σ.Reachable P) : σ.Fits P := by
  induction h with
  | empty => exact fits_empty
  | singleton ht h => exact fits_empty.add ht h
  | add _ ht h ih => exact ih.add ht h
  | replace _ ht h ih => exact ih.replace ht h
  | erase _ v ih => exact ih.filterKeys _
  | restrict _ vs ih => exact ih.filterKeys _
  | compose _ _ ihσ ihθ =>
    obtain ⟨hσ, hσP⟩ := fits_iff.1 ihσ
    obtain ⟨hθ, hθP⟩ := fits_iff.1 ihθ
    exact fits_iff.2 ⟨hσ.compose hθ, hP.compose hσP hθ hθP⟩
  | unify hes h => exact fits_iff.2 (hP.unify hes h)
  | unifyModulo hes h => exact fits_iff.2 (hP.xorUnifyWith hes h)
  | attack hes hC h => exact fits_iff.2 (hP.adversaryUnify hes hC h)
  | collision hC h =>
    exact fits_iff.2 ⟨(fits_of_mem_collisions h).1, hcollision _ _ _ hC _ h⟩

/-- A substitution that is reached from well-sorted terms is well-sorted and binds well-sorted
terms. -/
theorem Reachable.fits_wellSorted (h : σ.Reachable Term.WellSorted) : σ.Fits Term.WellSorted :=
  h.fits invariant_wellSorted fun _ _ _ hC _ hσ => (fits_of_mem_collisions hσ).2 hC

/-- A well-sorted substitution is made of its bindings, added in order. -/
theorem WellSorted.ofBindings_entries (h : σ.WellSorted) :
    ofBindings σ.bindings.entries = .ok σ := by
  have hfits : σ.Fits fun _ => True := fits_iff.2 ⟨h, fun _ _ => trivial⟩
  have hacc : ∀ e ∈ σ.bindings.entries, e.1.accepts e.2 = true :=
    fun e he => (hfits e.1 e.2 (FinMap.get?_eq_some_iff.2 he)).1
  have hfree : ∀ e ∈ σ.bindings.entries, (∅ : Substitution).get? e.1 = none := fun _ _ => rfl
  obtain ⟨τ, hτ⟩ := exists_foldlM_add σ.bindings.nodup_keys hacc hfree
  have hget (v : Variable) : τ.bindings.get? v = σ.bindings.get? v := by
    obtain ⟨hbound, hunbound⟩ := get?_foldlM_add σ.bindings.nodup_keys hτ v
    cases hv : σ.bindings.get? v with
    | some t => exact hbound t (FinMap.get?_eq_some_iff.1 hv)
    | none =>
      refine hunbound fun t ht => ?_
      rw [FinMap.get?_eq_some_iff.2 ht] at hv
      cases hv
  have heq : τ = σ := congrArg Substitution.mk (FinMap.ext_get? hget)
  exact heq ▸ hτ

/-- A well-sorted substitution is reached by adding bindings. -/
theorem WellSorted.reachable (h : σ.WellSorted) : σ.Reachable fun _ => True :=
  foldlM_add_induction (fun _ hσ => .add hσ trivial) .empty h.ofBindings_entries

/-- The substitutions that operations and searches lead to are exactly the well-sorted ones. A
well-sorted substitution gives a term with a sort a conforming sort, and a well-sorted term an
instance in which only applications inside bound terms may be ill-sorted; so the instance is
well-sorted if these terms are, as they are if nothing but well-sorted terms was given. -/
theorem sorts_preserved (σ : Substitution) :
    ((σ.Reachable fun _ => True) ↔ σ.WellSorted) ∧
    (σ.WellSorted → ∀ t : Term, t.WellSorted →
      ((σ.apply t).Everywhere fun s => s.HeadWellSorted ∨ ∃ v ∈ t.vars, s ∈ (σ.lookup v).subterms) ∧
      ((∀ v ∈ t.vars, (σ.lookup v).WellSorted) → (σ.apply t).WellSorted) ∧
      ∀ s, t.sort = some s → ∃ r, (σ.apply t).sort = some r ∧ r.conformsTo s = true) ∧
    (σ.Reachable Term.WellSorted → σ.Into Term.WellSorted ∧
      ∀ t : Term, t.WellSorted → (σ.apply t).WellSorted) := by
  refine ⟨⟨fun h => ?_, WellSorted.reachable⟩, fun hσ t ht => ?_, fun h => ?_⟩
  · exact (fits_iff.1 (h.fits invariant_true fun _ _ _ _ _ _ _ _ => trivial)).1
  · exact ⟨everywhere_apply hσ ht, wellSorted_apply hσ ht, fun s => exists_sort_apply hσ⟩
  · obtain ⟨hσ, hbound⟩ := fits_iff.1 h.fits_wellSorted
    exact ⟨hbound, fun t ht => wellSorted_apply hσ ht fun v _ => hbound.lookup wellSorted_var v⟩

open Sample.Sorted

/-- A symbol that asks for an argument of the sort and gives a term of it. -/
def successor : FunctionSymbol :=
  { symbol := ⟨"succ", by decide⟩, arity := 1, domain := .uniform Sample.Sorted.sort,
    range := some Sample.Sorted.sort }

theorem sorts_preserved_successor :
    (single x (.app successor [a])).WellSorted ∧ (Term.app successor [.var x]).WellSorted ∧
      ((single x (.app successor [a])).apply (.app successor [.var x])).WellSorted ∧
      (∃ r, ((single x (.app successor [a])).apply (.app successor [.var x])).sort = some r ∧
        r.conformsTo Sample.Sorted.sort = true) ∧
      ¬ (Term.app successor [.sum [a, b]]).WellSorted := by
  have hσ : (single x (.app successor [a])).WellSorted := by decide
  have ht : (Term.app successor [.var x]).WellSorted := by decide
  have hbound : ∀ v ∈ (Term.app successor [.var x]).vars,
      ((single x (.app successor [a])).lookup v).WellSorted := by decide
  obtain ⟨_, hinst, hsort⟩ := (sorts_preserved (single x (.app successor [a]))).2.1 hσ _ ht
  exact ⟨hσ, ht, hinst hbound, hsort Sample.Sorted.sort rfl, by decide⟩

/-- An unsorted variable accepts an application whose argument has no sort, and then a variable
alone has an ill-sorted instance. -/
theorem not_wellSorted_apply_sumBelow :
    let t : Term := .app successor [.sum [a, b]]
    Substitution.singleton Sample.x t = .ok (single Sample.x t) ∧
      (single Sample.x t).WellSorted ∧ (single Sample.x t).Into Canonical ∧
      (Term.var Sample.x).WellSorted ∧ (Term.var Sample.x).Canonical ∧
      ¬ ((single Sample.x t).apply (.var Sample.x)).WellSorted := by decide

end Substitution

end SymbolicXor
