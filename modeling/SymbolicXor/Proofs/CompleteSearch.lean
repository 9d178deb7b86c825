import SymbolicXor.Proofs.FollowingSolutions

/-!
# Completeness of unification modulo exclusive or

If the search ends within its budget, it has missed no solution: over variables without sorts, every
solution of the equations is an instance of one of the unifiers that were found. In particular, if
none was found, there is no solution.
-/

namespace SymbolicXor

open Term Substitution XorUnification Purifier

section Completeness

variable {es : List Equation} {fresh : FreshNames} {budget : Budget} {θ : Substitution}

/-- The generator for a problem reserves the names of its variables. -/
theorem symbol_mem_forEquations {e : Equation} (he : e ∈ es) {v : Variable} (hv : v ∈ e.vars) :
    v.symbol ∈ (FreshNames.forEquations es).reserved := by
  refine List.mem_append_left _ (List.mem_flatMap.2 ⟨e, he, List.mem_append.2 ?_⟩)
  exact (List.mem_append.1 hv).imp symbol_mem_symbols symbol_mem_symbols

/-- For every solution to whose values the variables of the equations are open, an exhaustive search
finds a unifier that an extension of the solution to new names absorbs; or an extension follows it
to a state that is given up and held up. -/
theorem exists_absorbed_or_heldUp (hc : ∀ e ∈ es, e.Both Canonical)
    (ha : ∀ e ∈ es, e.Both RespectsArity)
    (hres : ∀ e ∈ es, ∀ v ∈ e.vars, v.symbol ∈ fresh.reserved)
    (hex : (xorUnifyWith es fresh budget).1.outcome.isExhaustive = true)
    (hθ : θ.Into Canonical) (hsorts : ∀ e ∈ es, ∀ v ∈ e.vars, θ.AcceptedAt v)
    (h : θ.Solves es) :
    ∃ ρ : Substitution, ρ.Into Canonical ∧ AgreeOn fresh θ ρ ∧
      ((∃ σ ∈ (xorUnifyWith es fresh budget).1.outcome.solutions, ρ.Absorbs σ) ∨
        ∃ s : State, Search.Leads State.expand { equations := (purify es fresh).1 } s ∧
          s.expand = .branches [] ∧ s.Followed ρ ∧ s.normalized.HeldUp) := by
  -- A variable of the purified equations is one of the problem, or new and without a sort.
  have hkind : Kind fun g v => v.symbol ∈ g.reserved ∧
      (v.sort = none ∨ ∃ e ∈ es, v ∈ e.vars) := kind_among fun _ => Or.inl
  have hs : Speaks (fun g v => v.symbol ∈ g.reserved ∧ (v.sort = none ∨ ∃ e ∈ es, v ∈ e.vars))
      fresh es := fun e he v hv => ⟨hres e he v hv, Or.inr ⟨e, he, hv⟩⟩
  obtain ⟨ρ, hρ, hsolves, hoff⟩ := exists_solves_purify hc hres hθ h
  have hagree := agreeOn_purifier hc hoff
  have hwf := wellFormed_of_leads_purify hkind hc ha hs .refl
  have haccepted {v : Variable} (hv : v.sort = none ∨ ∃ e ∈ es, v ∈ e.vars) :
      ρ.AcceptedAt v := by
    rcases hv with hsort | ⟨e, he, hve⟩
    · exact Variable.accepts_of_unsorted hsort _
    · rw [AcceptedAt, hagree v (hres e he v hve)]
      exact hsorts e he v hve
  have hstart : State.Followed ρ { equations := (purify es fresh).1 } := by
    refine ⟨hwf.mono fun v hv => ?_, hsolves, absorbs_empty ρ,
      fun _ hd => absurd hd List.not_mem_nil⟩
    exact haccepted hv.2
  exact ⟨ρ, hρ, hagree, hstart.exists_absorbed hρ hex⟩

/-- An exhaustive search over variables without sorts finds, for every solution, a unifier that an
extension of the solution to new names absorbs. -/
theorem exists_absorbed_of_exhaustive (hc : ∀ e ∈ es, e.Both Canonical)
    (ha : ∀ e ∈ es, e.Both RespectsArity)
    (hv : Speaks (fun g v => v.symbol ∈ g.reserved ∧ v.sort = none) fresh es)
    (hex : (xorUnifyWith es fresh budget).1.outcome.isExhaustive = true)
    (hθ : θ.Into Canonical) (h : θ.Solves es) :
    ∃ σ ∈ (xorUnifyWith es fresh budget).1.outcome.solutions, ∃ ρ : Substitution,
      ρ.Into Canonical ∧ AgreeOn fresh θ ρ ∧ ρ.Absorbs σ := by
  obtain ⟨ρ, hρ, hagree, ⟨σ, hσ, habs⟩ | ⟨s, hs, _, _, hup⟩⟩ := exists_absorbed_or_heldUp hc ha
    (fun e he v hve => (hv e he v hve).1) hex hθ
    (fun e he v hve => Variable.accepts_of_unsorted (hv e he v hve).2 _) h
  · exact ⟨σ, hσ, ρ, hρ, hagree, habs⟩
  -- Over variables without sorts no state is held up.
  · have hwf := (wellFormed_of_leads_purify kind_unsorted hc ha hv hs).normalized
    exact absurd hup (hwf.mono fun _ hq => hq.2).not_heldUp

/-- If the search is exhaustive and no variable has a sort, every solution of the equations is an
instance of a unifier that was found; and if none was found, there is no solution. -/
theorem xorUnify_complete (hc : ∀ e ∈ es, e.Both Canonical) (ha : ∀ e ∈ es, e.Both RespectsArity)
    (hv : ∀ e ∈ es, ∀ v ∈ e.vars, v.sort = none) {maxSteps : Nat}
    (hex : (xorUnify es maxSteps).isExhaustive = true) :
    (∀ θ : Substitution, θ.Into Canonical → θ.Solves es →
      ∃ σ ∈ (xorUnify es maxSteps).solutions, ∃ ρ : Substitution, ρ.Into Canonical ∧
        ∀ e ∈ es, ∀ x ∈ e.vars, ρ.apply (σ.apply (.var x)) = θ.apply (.var x)) ∧
      (xorUnify es maxSteps = .noUnifier →
        ∀ θ : Substitution, θ.Into Canonical → ¬ θ.Solves es) := by
  have hfactor (θ : Substitution) (hθ : θ.Into Canonical) (h : θ.Solves es) :
      ∃ σ ∈ (xorUnify es maxSteps).solutions, ∃ ρ : Substitution, ρ.Into Canonical ∧
        ∀ e ∈ es, ∀ x ∈ e.vars, ρ.apply (σ.apply (.var x)) = θ.apply (.var x) := by
    obtain ⟨σ, hσ, ρ, hρ, hagree, habs⟩ := exists_absorbed_of_exhaustive hc ha
      (fun e he v hve => ⟨symbol_mem_forEquations he hve, hv e he v hve⟩) hex hθ h
    refine ⟨σ, hσ, ρ, hρ, fun e he x hx => ?_⟩
    rw [apply_var, apply_var, habs x, hagree x (symbol_mem_forEquations he hx)]
  refine ⟨hfactor, fun hnone θ hθ h => ?_⟩
  obtain ⟨σ, hσ, _⟩ := hfactor θ hθ h
  rw [hnone] at hσ
  cases hσ

open Sample

/-- Two applications with variables are to be two others, in one order or the other. -/
def unorderedPair : List Equation :=
  [⟨.sum [.app f [.var x], .app f [.var y]], .sum [.app f [a], .app f [b]]⟩]

/-- The variables bound in the order opposite to that in which the search tries them. -/
def exchanged : Substitution := ⟨⟨[(x, b), (y, a)], by decide⟩⟩

theorem xorUnify_complete_unorderedPair :
    (∀ e ∈ unorderedPair, e.Both Canonical) ∧ (∀ e ∈ unorderedPair, e.Both RespectsArity) ∧
      (∀ e ∈ unorderedPair, ∀ v ∈ e.vars, v.sort = none) ∧
      (xorUnify unorderedPair 100).isExhaustive = true ∧ exchanged.Into Canonical ∧
      exchanged.Solves unorderedPair ∧
      ∃ σ ∈ (xorUnify unorderedPair 100).solutions, ∃ ρ : Substitution, ρ.Into Canonical ∧
        ∀ e ∈ unorderedPair, ∀ v ∈ e.vars,
          ρ.apply (σ.apply (.var v)) = exchanged.apply (.var v) := by
  have hc : ∀ e ∈ unorderedPair, e.Both Canonical := by decide
  have ha : ∀ e ∈ unorderedPair, e.Both RespectsArity := by decide
  have hv : ∀ e ∈ unorderedPair, ∀ v ∈ e.vars, v.sort = none := by decide
  have hex : (xorUnify unorderedPair 100).isExhaustive = true := by cbv
  have hθ : exchanged.Into Canonical := by decide
  have h : exchanged.Solves unorderedPair := by decide
  exact ⟨hc, ha, hv, hex, hθ, h, (xorUnify_complete hc ha hv hex).1 exchanged hθ h⟩

end Completeness

end SymbolicXor
