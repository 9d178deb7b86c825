import SymbolicXor.Proofs.CompleteSearch

/-!
# Well-sorted solutions

Over sorted variables an exhaustive search may find nothing although there is a well-sorted
solution. It solves an equation for a variable only if the variable accepts the sum of the others,
and no other rule gives a variable the value of one summand among several. Solutions are missed in
this way only: every well-sorted solution that the search did not find follows it to a state that
was given up, in which a sorted variable holds up a sum of three or more.
-/

namespace SymbolicXor

open Term Substitution XorUnification Purifier

/-- The search for unifiers of a problem leads to a state, and has nothing to go on with there. -/
def GivesUp (es : List Equation) (s : State) : Prop :=
  Search.Leads State.expand { equations := (purify es (.forEquations es)).1 } s ∧
    s.expand = .branches []

/-- If an exhaustive search found nothing, every well-sorted solution extends to the new names in
such a way that it follows the search to a state that was given up and is held up. So if no state
that was given up is held up, there is no well-sorted solution. -/
theorem xorUnify_misses_only_heldUp {es : List Equation} (hc : ∀ e ∈ es, e.Both Canonical)
    (ha : ∀ e ∈ es, e.Both RespectsArity) {maxSteps : Nat}
    (h : xorUnify es maxSteps = .noUnifier) :
    (∀ θ : Substitution, θ.Into Canonical → θ.WellSorted → θ.Solves es →
      ∃ (s : State) (ρ : Substitution), GivesUp es s ∧ s.normalized.HeldUp ∧
        AgreeOn (.forEquations es) θ ρ ∧ s.Followed ρ) ∧
      ((∀ s, GivesUp es s → ¬ s.normalized.HeldUp) →
        ∀ θ : Substitution, θ.Into Canonical → θ.WellSorted → ¬ θ.Solves es) := by
  have hex : (xorUnify es maxSteps).isExhaustive = true := h ▸ rfl
  have hmissed (θ : Substitution) (hθ : θ.Into Canonical) (hsorts : θ.WellSorted)
      (hsolves : θ.Solves es) : ∃ (s : State) (ρ : Substitution), GivesUp es s ∧
        s.normalized.HeldUp ∧ AgreeOn (.forEquations es) θ ρ ∧ s.Followed ρ := by
    obtain ⟨ρ, _, hagree, ⟨σ, hσ, _⟩ | ⟨s, hs, hexp, hfollowed, hup⟩⟩ :=
      exists_absorbed_or_heldUp hc ha (fun e he v hv => symbol_mem_forEquations he hv) hex hθ
        (fun _ _ v _ => hsorts.lookup v) hsolves
    · have hnone : σ ∈ (xorUnify es maxSteps).solutions := hσ
      rw [h] at hnone
      cases hnone
    · exact ⟨s, ρ, ⟨hs, hexp⟩, hup, hagree, hfollowed⟩
  refine ⟨hmissed, fun hup θ hθ hsorts hsolves => ?_⟩
  obtain ⟨s, _, hs, hheld, _⟩ := hmissed θ hθ hsorts hsolves
  exact hup s hs hheld

open Sample.Sorted

/-- Two variables are to be two constants, all of one sort. -/
def sortedPair : List Equation := [⟨.sum [.var x, .var y], .sum [a, b]⟩]

/-- The variables bound in one of the two ways. -/
def sortedChoice : Substitution := ⟨⟨[(x, a), (y, b)], by decide⟩⟩

theorem xorUnify_misses_only_heldUp_sortedPair :
    ((∀ e ∈ sortedPair, e.Both Canonical) ∧ (∀ e ∈ sortedPair, e.Both RespectsArity) ∧
      xorUnify sortedPair 100 = .noUnifier ∧ sortedChoice.Into Canonical ∧
      sortedChoice.WellSorted ∧ sortedChoice.Solves sortedPair) ∧
    ∃ (s : State) (ρ : Substitution), GivesUp sortedPair s ∧ s.normalized.HeldUp ∧
      AgreeOn (.forEquations sortedPair) sortedChoice ρ ∧ s.Followed ρ := by
  have hc : ∀ e ∈ sortedPair, e.Both Canonical := by decide
  have ha : ∀ e ∈ sortedPair, e.Both RespectsArity := by decide
  have hnone : xorUnify sortedPair 100 = .noUnifier := by decide +kernel
  have hθ : sortedChoice.Into Canonical := by decide
  have hsorts : sortedChoice.WellSorted := by decide
  have hsolves : sortedChoice.Solves sortedPair := by decide
  exact ⟨⟨hc, ha, hnone, hθ, hsorts, hsolves⟩,
    (xorUnify_misses_only_heldUp hc ha hnone).1 sortedChoice hθ hsorts hsolves⟩

/-- Nothing is found for the two variables, though they have well-sorted values. -/
theorem xorUnify_misses_sortedPair :
    ((∀ e ∈ sortedPair, e.Both Canonical) ∧ (∀ e ∈ sortedPair, e.Both RespectsArity) ∧
      ∃ e ∈ sortedPair, ∃ v ∈ e.vars, v.sort ≠ none) ∧
    xorUnify sortedPair 100 = .noUnifier ∧
      ∃ θ : Substitution, θ.Into Canonical ∧ θ.WellSorted ∧ θ.Solves sortedPair := by
  exact ⟨⟨by decide, by decide, by decide⟩, by decide +kernel, sortedChoice, by decide, by decide,
    by decide⟩

end SymbolicXor
