import SymbolicXor.Proofs.Samples
import SymbolicXor.Proofs.SearchInvariants

/-!
# Solved forms

Along the search for unifiers modulo exclusive or, a variable that was bound occurs neither in the
equations that remain nor in the terms that are bound, and every rule binds other variables. So what
is found is in solved form, and applying it twice is applying it once.
-/

namespace SymbolicXor

open Term Substitution

variable {es : List Equation} {σ : Substitution}

/-- Unifiers modulo exclusive or are in solved form: they pass the test for idempotence, no bound
variable occurs in a term of the range, none in the term to which it is bound itself, and an
instance of a term stays as it is under them. -/
theorem xorUnify_solvedForm (hc : ∀ e ∈ es, e.Both Canonical) (ha : ∀ e ∈ es, e.Both RespectsArity)
    {maxSteps : Nat} (h : σ ∈ (xorUnify es maxSteps).solutions) :
    σ.isIdempotent = true ∧ (∀ v ∈ σ.domain, ∀ t ∈ σ.range, v ∉ t.vars) ∧
      (∀ v t, σ.get? v = some t → v ∉ t.vars) ∧ ∀ t, σ.apply (σ.apply t) = σ.apply t := by
  obtain ⟨hcan, _, hform⟩ := wellFormed_of_mem_xorUnifyWith hc ha h
  exact ⟨isIdempotent_eq_true.2 hform, hform, fun _ _ => hform.not_mem_vars,
    (hform.absorbs hcan).apply hcan hcan⟩

open Sample

/-- An equation between applications binds a variable that occurs in a sum of another equation. -/
def linkedPair : List Equation :=
  [⟨.app f [.var x], .app f [.app g [.var y]]⟩, ⟨.var z, .sum [.var x, a]⟩]

/-- The variables bound as both equations ask for. -/
def linked : Substitution :=
  ⟨⟨[(x, .app g [.var y]), (z, .sum [a, .app g [.var y]])], by decide⟩⟩

theorem xorUnify_solvedForm_linkedPair :
    (∀ e ∈ linkedPair, e.Both Canonical) ∧ (∀ e ∈ linkedPair, e.Both RespectsArity) ∧
      linked ∈ (xorUnify linkedPair 100).solutions ∧ linked.isIdempotent = true ∧
      linked.apply (linked.apply (.sum [.var z, a])) = .app g [.var y] := by
  have hc : ∀ e ∈ linkedPair, e.Both Canonical := by decide
  have ha : ∀ e ∈ linkedPair, e.Both RespectsArity := by decide
  have hfound : (xorUnify linkedPair 100).solutions = [linked] := by cbv
  have hmem : linked ∈ (xorUnify linkedPair 100).solutions := hfound ▸ List.mem_singleton_self _
  obtain ⟨hidem, _, _, happly⟩ := xorUnify_solvedForm hc ha hmem
  refine ⟨hc, ha, hmem, hidem, ?_⟩
  rw [happly]
  decide

end SymbolicXor
