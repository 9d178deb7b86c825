import SymbolicXor.Proofs.RuleInstances

/-!
# Syntactic matches are found

If all sums in the hypothesis of a rule are ground, the rule applies wherever the hypothesis has a
well-sorted instance. Renaming and freezing never fail, and they turn the match into a well-sorted
unifier of the renamed hypothesis and the frozen term. The sums of both are ground, so syntactic
unification decides, and a unifier excludes that it loses a clash.
-/

namespace SymbolicXor

open Term Substitution

namespace Rule

variable {r : Rule} {s t : Term} {p : Position} {ρ : Substitution}

/-- Where the hypothesis has a well-sorted instance, syntactic unification finds a match, and the
match solves the equation. -/
theorem exists_match_of_instance (hr : r.hypothesis.Canonical) (hground : r.hypothesis.SumsGround)
    (hρ : ρ.Into Canonical) (hsorted : ρ.WellSorted) (h : ρ.apply r.hypothesis = s) :
    ∃ m : r.Match s, Unification.unify m.equations = .ok m.unifier ∧
      Unification.LosesNoClash m.equations := by
  obtain ⟨r', hr'⟩ := r.exists_renamedApart s
  obtain ⟨ν, f, hν, rfl⟩ := exists_renames hr'
  set r' : Rule := ⟨ν.apply r.hypothesis, ν.apply r.conclusion⟩
  obtain ⟨frozen, φ, hfrozen, _, hφ⟩ :=
    Frozen.exists_freezeApart s (s.constants.map Constant.symbol ++ r'.constantNames)
  obtain ⟨θ, hθ, hsolves, hθsorted⟩ := exists_solves_of_instance hν hφ hρ h
  have hcanonical : ∀ e ∈ [Equation.mk r'.hypothesis frozen.term], e.Both Canonical :=
    List.forall_mem_singleton.2 ⟨canonical_apply (hν.into canonical_var) _, hφ.canonical_term⟩
  have hsums : ∀ e ∈ [Equation.mk r'.hypothesis frozen.term], e.Both SumsGround :=
    List.forall_mem_singleton.2 ⟨sumsGround_apply (hν.into sumsGround_var) hr hground,
      sumsGround_of_vars_eq_nil hφ.vars_term⟩
  obtain ⟨σ, hσ⟩ := Unification.exists_unify_of_solves hcanonical hsums
    (fun v _ => (hθsorted hsorted).lookup v) hθ hsolves
  have hfound : matching? r'.hypothesis frozen.term = some σ := by
    rw [matching?, Unification.unifyTerms, hσ]
  exact ⟨⟨r', frozen, σ, hr', hfrozen, hfound⟩, hσ,
    Unification.losesNoClash_of_solves hcanonical hθ hsolves⟩

/-- A match at the subterm at a position is a way to apply the rule there. -/
theorem Match.exists_applyAt (m : r.Match s) (hs : t.subtermAt p = .ok s) :
    ∃ u, r.applyAt t p = .ok (some u) ∧ t.replaceAt p m.result = .ok u := by
  obtain ⟨u, hu⟩ := exists_replaceAt m.result hs
  have hroot : r.applyAtRoot s = .ok (some m.result) :=
    applyAtRoot_eq_ok_some.2 ⟨m.renamed, m.frozen, m.unifier, m.renames, m.freezes, m.found, rfl⟩
  exact ⟨u, applyAt_eq_ok_some.2 ⟨s, m.result, hs, hroot, hu⟩, hu⟩

/-- A rule whose hypothesis has ground sums only applies wherever the hypothesis has a well-sorted
instance. Unless a variable of the subterm is spelled like zero, the subterm is then replaced by the
instance of the conclusion under a substitution that takes the hypothesis to the subterm. -/
theorem applyAt_of_instance (hr : r.hypothesis.Canonical) (hr' : r.hypothesis.RespectsArity)
    (hground : r.hypothesis.SumsGround) (ht : t.Canonical) (ht' : t.RespectsArity)
    (hs : t.subtermAt p = .ok s) (hρ : ρ.Into Canonical) (hsorted : ρ.WellSorted)
    (h : ρ.apply r.hypothesis = s) :
    ∃ u, r.applyAt t p = .ok (some u) ∧
      (Variable.likeZero ∉ s.vars → ∃ ρ' : Substitution, ρ'.Into Canonical ∧ ρ'.WellSorted ∧
        ρ'.apply r.hypothesis = s ∧ t.replaceAt p (ρ'.apply r.conclusion) = .ok u) := by
  obtain ⟨m, hunify, hclash⟩ := exists_match_of_instance hr hground hρ hsorted h
  obtain ⟨u, happly, hreplace⟩ := m.exists_applyAt hs
  refine ⟨u, happly, fun hz => ?_⟩
  obtain ⟨ρ', hρ'⟩ := m.exists_instantiates hz
  have hsolves : m.unifier.Solves m.equations := Unification.unify_solves m.both_canonical
    (m.both_respectsArity hr' (everywhere_subtermAt ht' hs)) hunify hclash
  have hmatches := hρ'.hypothesis_eq hz (everywhere_subtermAt ht hs) hsolves
  exact ⟨ρ', hρ'.canonical, hρ'.wellSorted, hmatches, hρ'.conclusion ▸ hreplace⟩

end Rule

namespace Rule

open Sample

/-- A pair with a constant sum becomes its first part. -/
def keepingFirst : Rule := ⟨.app p [.var x, .sum [a, b]], .var x⟩

/-- A pair with a constant sum below a symbol, whose first part is a sum with the variable of the
rule. -/
def openPair : Term := .app f [.app p [.sum [.var x, a], .sum [a, b]]]

theorem applyAt_of_instance_openPair :
    keepingFirst.hypothesis.Canonical ∧ keepingFirst.hypothesis.RespectsArity ∧
      keepingFirst.hypothesis.SumsGround ∧ openPair.Canonical ∧ openPair.RespectsArity ∧
      openPair.subtermAt ⟨[1]⟩ = .ok (.app p [.sum [.var x, a], .sum [a, b]]) ∧
      (single x (.sum [.var x, a])).Into Canonical ∧
      (single x (.sum [.var x, a])).WellSorted ∧
      (single x (.sum [.var x, a])).apply keepingFirst.hypothesis =
        .app p [.sum [.var x, a], .sum [a, b]] ∧
      ∃ u, keepingFirst.applyAt openPair ⟨[1]⟩ = .ok (some u) ∧
        ∃ ρ : Substitution,
          ρ.apply keepingFirst.hypothesis = .app p [.sum [.var x, a], .sum [a, b]] ∧
          openPair.replaceAt ⟨[1]⟩ (ρ.apply keepingFirst.conclusion) = .ok u := by
  have hr : keepingFirst.hypothesis.Canonical := by decide
  have hr' : keepingFirst.hypothesis.RespectsArity := by decide
  have hground : keepingFirst.hypothesis.SumsGround := by decide
  have ht : openPair.Canonical := by decide
  have ht' : openPair.RespectsArity := by decide
  have hs : openPair.subtermAt ⟨[1]⟩ = .ok (.app p [.sum [.var x, a], .sum [a, b]]) := by rfl
  have hρ : (single x (.sum [.var x, a])).Into Canonical := by decide
  have hsorted : (single x (.sum [.var x, a])).WellSorted := by decide
  have h : (single x (.sum [.var x, a])).apply keepingFirst.hypothesis =
      .app p [.sum [.var x, a], .sum [a, b]] := by decide
  refine ⟨hr, hr', hground, ht, ht', hs, hρ, hsorted, h, ?_⟩
  obtain ⟨u, happly, hinstance⟩ := applyAt_of_instance hr hr' hground ht ht' hs hρ hsorted h
  obtain ⟨ρ, _, _, hhypothesis, hreplace⟩ := hinstance (by decide)
  exact ⟨u, happly, ρ, hhypothesis, hreplace⟩

end Rule

end SymbolicXor
