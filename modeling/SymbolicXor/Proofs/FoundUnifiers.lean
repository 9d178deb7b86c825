import SymbolicXor.Proofs.Samples
import SymbolicXor.Proofs.StruckSummands

/-!
# Found unifiers

The search for unifiers modulo exclusive or may find a substitution that does not solve the
equations, because the unification of two summands may overlook that their symbols clash. The
substitution solves the equations exactly if the pairs that were struck out on the way cancel.
-/

namespace SymbolicXor

open Term Substitution XorUnification

variable {es : List Equation} {fresh : FreshNames} {budget : Budget} {σ : Substitution}

/-- A branch of the search for unifiers of a problem ends, with its lines, at a substitution. -/
def FoundAlong (es : List Equation) (fresh : FreshNames) (σ : Substitution) (lines : List Line) :
    Prop :=
  ∃ s : State, Branch (purify es fresh).1 s lines ∧ s.equations = [] ∧ s.substitution = σ

theorem exists_foundAlong (h : σ ∈ (xorUnifyWith es fresh budget).1.outcome.solutions) :
    ∃ lines, FoundAlong es fresh σ lines := by
  obtain ⟨s, hs, hnil, heq⟩ := exists_leads_of_mem_xorUnifyWith h
  obtain ⟨lines, hb⟩ := exists_branch hs
  exact ⟨lines, s, hb, hnil, heq.symm⟩

section FoundAlong

variable {lines : List Line} (hc : ∀ e ∈ es, e.Both Canonical)
  (ha : ∀ e ∈ es, e.Both RespectsArity) (h : FoundAlong es fresh σ lines)

include hc ha h

/-- A substitution that absorbs a unifier that is found solves the equations and the definitions of
the new names exactly if in every line the pairs that were struck out cancel. -/
theorem FoundAlong.solves_iff_of_absorbs {θ : Substitution} (hθ : θ.Into Canonical)
    (habs : θ.Absorbs σ) : (θ.Solves es ∧ θ.Solves (nameDefinitions es fresh)) ↔
      ∀ l ∈ lines, l.owed θ = zero := by
  obtain ⟨s, hb, hnil, rfl⟩ := h
  rw [← hb.solves_iff (wellFormed_purify hc ha fresh) hnil hθ habs]
  exact (solves_purify hc hθ).symm

/-- A substitution that absorbs the unifier solves the equations if every struck pair is
unifiable. -/
theorem FoundAlong.solves_of_absorbs {θ : Substitution} (hθ : θ.Into Canonical)
    (habs : θ.Absorbs σ) (hu : ∀ l ∈ lines, ∀ p ∈ l.struck,
      ∃ ρ : Substitution, ρ.Into Canonical ∧ ρ.apply p.1 = ρ.apply p.2) : θ.Solves es := by
  have howed : ∀ l ∈ lines, l.owed θ = zero := by
    obtain ⟨s, hb, _, rfl⟩ := h
    exact hb.owed_eq_zero (wellFormed_purify hc ha fresh) hθ habs hu
  exact ((h.solves_iff_of_absorbs hc ha hθ habs).2 howed).1

/-- A unifier that is found is canonical and absorbs itself. -/
theorem FoundAlong.absorbs_self : σ.Into Canonical ∧ σ.Absorbs σ := by
  obtain ⟨s, hb, _, rfl⟩ := h
  have hend := (wellFormed_purify hc ha fresh).leads hb.leads
  exact ⟨hend.canonical, hend.solvedForm.absorbs hend.canonical⟩

/-- A unifier that is found solves the equations and the definitions of the new names exactly if in
every line the pairs that were struck out cancel. -/
theorem FoundAlong.solves_iff :
    (σ.Solves es ∧ σ.Solves (nameDefinitions es fresh)) ↔ ∀ l ∈ lines, l.owed σ = zero :=
  have hself := h.absorbs_self hc ha
  h.solves_iff_of_absorbs hc ha hself.1 hself.2

/-- A unifier that is found solves the equations if every pair that was struck out is unifiable. -/
theorem FoundAlong.solves_of_unifiable (hu : ∀ l ∈ lines, ∀ p ∈ l.struck,
    ∃ ρ : Substitution, ρ.Into Canonical ∧ ρ.apply p.1 = ρ.apply p.2) : σ.Solves es :=
  have hself := h.absorbs_self hc ha
  h.solves_of_absorbs hc ha hself.1 hself.2 hu

end FoundAlong

/-- Every unifier that is found ends a branch; and whichever branch it ends, it solves the equations
and the definitions of the new names exactly if in every line the pairs that were struck out cancel.
It solves the equations if each of these pairs is unifiable. -/
theorem xorUnify_solves_iff_owed (hc : ∀ e ∈ es, e.Both Canonical)
    (ha : ∀ e ∈ es, e.Both RespectsArity) {maxSteps : Nat}
    (h : σ ∈ (xorUnify es maxSteps).solutions) :
    (∃ lines, FoundAlong es (.forEquations es) σ lines) ∧
      ∀ lines, FoundAlong es (.forEquations es) σ lines →
        ((σ.Solves es ∧ σ.Solves (nameDefinitions es (.forEquations es))) ↔
          ∀ l ∈ lines, l.owed σ = zero) ∧
        ((∀ l ∈ lines, ∀ p ∈ l.struck,
            ∃ ρ : Substitution, ρ.Into Canonical ∧ ρ.apply p.1 = ρ.apply p.2) →
          σ.Solves es) :=
  ⟨exists_foundAlong h, fun _ hlines =>
    ⟨hlines.solves_iff hc ha, hlines.solves_of_unifiable hc ha⟩⟩

open Sample

/-- Two pairs of applications that unify. -/
def matchedSum : List Equation :=
  [⟨.sum [.app p [.var x, .var x], .app p [a, a], .app q [.var z], .app q [b]], zero⟩]

/-- The variables bound as the two pairs ask for. -/
def matched : Substitution := ⟨⟨[(x, a), (z, b)], by decide⟩⟩

theorem xorUnify_solves_iff_owed_matchedSum :
    (∀ e ∈ matchedSum, e.Both Canonical) ∧ (∀ e ∈ matchedSum, e.Both RespectsArity) ∧
      matched ∈ (xorUnify matchedSum 100).solutions ∧ matched.Solves matchedSum ∧
      ∃ lines, FoundAlong matchedSum (.forEquations matchedSum) matched lines ∧
        ∀ l ∈ lines, l.owed matched = zero := by
  have hc : ∀ e ∈ matchedSum, e.Both Canonical := by decide
  have ha : ∀ e ∈ matchedSum, e.Both RespectsArity := by decide
  have hfound : (xorUnify matchedSum 100).solutions = [matched] := by cbv
  have hmem : matched ∈ (xorUnify matchedSum 100).solutions :=
    hfound ▸ List.mem_singleton_self _
  have hsolves : matched.Solves matchedSum := by decide
  have hnames : matched.Solves (nameDefinitions matchedSum (.forEquations matchedSum)) := by
    have hnil : nameDefinitions matchedSum (.forEquations matchedSum) = [] := by cbv
    rw [hnil]
    exact fun _ he => absurd he List.not_mem_nil
  obtain ⟨⟨lines, hlines⟩, hall⟩ := xorUnify_solves_iff_owed hc ha hmem
  exact ⟨hc, ha, hmem, hsolves, lines, hlines, (hall lines hlines).1.1 ⟨hsolves, hnames⟩⟩

/-- Two applications that do not unify, though their first arguments could be made equal, in a sum
with two that do. -/
def mixedSum : List Equation :=
  [⟨.sum [.app p [.var x, .var x], .app p [.app f [a], .app g [a]], .app q [.var z], .app q [b]],
    zero⟩]

/-- The applications that do not unify are struck out, and a unifier is found. -/
theorem xorUnify_mixedSum : ∃ σ : Substitution,
    (∀ e ∈ mixedSum, e.Both Canonical) ∧ (∀ e ∈ mixedSum, e.Both RespectsArity) ∧
      σ ∈ (xorUnify mixedSum 100).solutions ∧ ¬ σ.Solves mixedSum := by
  have hfound : (xorUnify mixedSum 100).solutions =
      [⟨⟨[(x, .app f [a]), (z, b)], by decide⟩⟩] := by cbv
  refine ⟨⟨⟨[(x, .app f [a]), (z, b)], by decide⟩⟩, by decide, by decide, ?_, by decide⟩
  rw [hfound]
  exact List.mem_singleton_self _

end SymbolicXor
