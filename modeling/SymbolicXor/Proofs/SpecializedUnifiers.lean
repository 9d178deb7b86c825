import SymbolicXor.Proofs.Decisions
import SymbolicXor.Proofs.FoundUnifiers

/-!
# Attacks as special unifiers

Whatever decisions an adversary makes, the unifier that it brings about is an instance of one of the
unifiers from which it started: every decision composes the unifier, and the terms that the
decisions make up, with one more substitution. So it solves the equations under the same condition
as the unifier from which it started, read under the instance: the summands that were struck out on
the way to that unifier must cancel.
-/

namespace SymbolicXor

open Term Substitution XorUnification

namespace Adversary

section Specialized

variable {a : Adversary} {es : List Equation} {constraints : Constraints}
  {σ σ₀ Θ : Substitution} {s t : State}

/-- A state that specializes the constraints, with a unifier that is a given one under the
substitution that the decisions make up. -/
structure Descends (constraints : Constraints) (σ₀ : Substitution) (s : State)
    (Θ : Substitution) : Prop extends Specializes constraints s Θ where
  /-- The unifier is the given one under the substitution. -/
  lookup_first : ∀ v, s.substitution.lookup v = Θ.apply (σ₀.lookup v)

section Descends

variable (hC : ∀ v ts, constraints.get? v = some ts → ∀ c ∈ ts, Built c)

include hC

/-- One decision leads from a state that descends from a unifier to another. -/
theorem Descends.decides (h : Descends constraints σ₀ s Θ) (ht : a.Decides s t) :
    ∃ Θ', Descends constraints σ₀ t Θ' := by
  cases ht with
  | refuse hd =>
    obtain ⟨hs, hfirst⟩ := h
    exact ⟨Θ, ⟨hs.1, hs.2, hs.3, hs.4, hs.5, hs.6⟩, hfirst⟩
  | @instantiate lhs θ fresh budget hd hθ =>
    obtain ⟨hcan, har⟩ := h.wellFormed_of_decision? hC hd hθ
    refine ⟨Θ.compose θ, h.toSpecializes.instantiate hcan har, fun v => ?_⟩
    calc (s.instantiate θ).substitution.lookup v
        = θ.apply (s.substitution.lookup v) := lookup_compose _ _ v
      _ = θ.apply (Θ.apply (σ₀.lookup v)) := by rw [h.lookup_first]
      _ = (Θ.compose θ).apply (σ₀.lookup v) :=
          (apply_compose h.canonical_decided hcan _).symm

/-- A run of decisions composes with the unifiers of the decisions. -/
theorem Descends.reached (h : Descends constraints σ₀ s Θ)
    (ht : Relation.ReflTransGen a.Decides s t) : ∃ Θ', Descends constraints σ₀ t Θ' := by
  induction ht with
  | refl => exact ⟨Θ, h⟩
  | tail _ hstep ih =>
    obtain ⟨Θ', h'⟩ := ih
    exact h'.decides hC hstep

end Descends

/-- An instance of a substitution that absorbs itself absorbs it too. -/
theorem absorbs_of_apply_eq {θ : Substitution} (hσ₀ : σ₀.Into Canonical)
    (hidem : σ₀.Absorbs σ₀) (h : ∀ t : Term, t.Canonical → σ.apply t = θ.apply (σ₀.apply t)) :
    σ.Absorbs σ₀ := by
  intro v
  calc σ.apply (σ₀.lookup v)
      = θ.apply (σ₀.apply (σ₀.lookup v)) := h _ (hσ₀.lookup canonical_var v)
    _ = θ.apply (σ₀.lookup v) := by rw [hidem v]
    _ = σ.lookup v := (h (.var v) (canonical_var v)).symm

section Found

variable (hc : ∀ e ∈ es, e.Both Canonical) (ha : ∀ e ∈ es, e.Both RespectsArity)

include hc ha

/-- Every state that decisions lead to descends from the unifier from which they started. -/
theorem exists_descends (hC : ∀ v ts, constraints.get? v = some ts → ∀ c ∈ ts, Built c)
    {fresh : FreshNames} {budget : Budget}
    (h : σ₀ ∈ (xorUnifyWith es fresh budget).1.outcome.solutions)
    (ht : Relation.ReflTransGen a.Decides { substitution := σ₀, constraints } t) :
    ∃ Θ, Descends constraints σ₀ t Θ := by
  have hσ₀ : σ₀.Into Canonical := (wellFormed_of_mem_xorUnifyWith hc ha h).1
  have hstart : Descends constraints σ₀ { substitution := σ₀, constraints } ∅ :=
    ⟨(Decisions.start (a := a) h).specializes hc ha hC,
      fun v => (apply_eq_self (hσ₀.lookup canonical_var v) fun _ _ => rfl).symm⟩
  exact hstart.reached hC ht

/-- A unifier that is found is an instance of one from which the repair started. -/
theorem exists_instance (hC : ∀ v ts, constraints.get? v = some ts → ∀ c ∈ ts, Built c)
    {maxSteps : Nat} (h : σ ∈ (a.unify es constraints maxSteps).solutions) :
    ∃ σ₀ ∈ (xorUnifyWith es (freshNames es constraints)
        { remaining := maxSteps }).1.outcome.solutions,
      ∃ θ : Substitution, σ.Into Canonical ∧ θ.Into Canonical ∧
        ∀ t : Term, t.Canonical → σ.apply t = θ.apply (σ₀.apply t) := by
  obtain ⟨σ₀, hfirst, t, hreached, _, rfl⟩ := exists_reached h
  have hσ₀ : σ₀.Into Canonical := (wellFormed_of_mem_xorUnifyWith hc ha hfirst).1
  obtain ⟨Θ, hΘ⟩ := exists_descends hc ha hC hfirst hreached
  refine ⟨σ₀, hfirst, Θ, hΘ.canonical, hΘ.canonical_decided, fun u _ => ?_⟩
  exact apply_eq_apply_apply hσ₀ hΘ.canonical_decided fun v _ => hΘ.lookup_first v

/-- Every attack is an instance of a unifier that was found for the equations alone. It solves the
equations if that one does; and along whichever branch that one was found, the attack solves the
equations and the definitions of the new names exactly if in every line the pairs that were struck
out cancel under it. It solves the equations if each of these pairs is unifiable. -/
theorem unify_specializes (hC : ∀ ts ∈ constraints.values, ∀ c ∈ ts, c.Canonical ∧ c.RespectsArity)
    {maxSteps : Nat} (h : σ ∈ (a.unify es constraints maxSteps).solutions) :
    ∃ σ₀ ∈ (xorUnifyWith es (freshNames es constraints)
        { remaining := maxSteps }).1.outcome.solutions,
      (∃ θ : Substitution, θ.Into Canonical ∧
        ∀ t : Term, t.Canonical → σ.apply t = θ.apply (σ₀.apply t)) ∧
      (σ₀.Solves es → σ.Solves es) ∧
      (∃ lines, FoundAlong es (freshNames es constraints) σ₀ lines) ∧
      ∀ lines, FoundAlong es (freshNames es constraints) σ₀ lines →
        ((σ.Solves es ∧ σ.Solves (nameDefinitions es (freshNames es constraints))) ↔
          ∀ l ∈ lines, l.owed σ = zero) ∧
        ((∀ l ∈ lines, ∀ p ∈ l.struck,
            ∃ ρ : Substitution, ρ.Into Canonical ∧ ρ.apply p.1 = ρ.apply p.2) →
          σ.Solves es) := by
  obtain ⟨σ₀, hfirst, θ, hσ, hθ, hinstance⟩ :=
    exists_instance hc ha (fun v ts hts => hC ts (FinMap.mem_values.2 ⟨v, hts⟩)) h
  refine ⟨σ₀, hfirst, ⟨θ, hθ, hinstance⟩, fun hsolves e he => ?_, exists_foundAlong hfirst,
    fun lines hlines => ?_⟩
  · rw [hinstance _ (hc e he).1, hinstance _ (hc e he).2, hsolves e he]
  · obtain ⟨hσ₀, hidem⟩ := hlines.absorbs_self hc ha
    have habs : σ.Absorbs σ₀ := absorbs_of_apply_eq hσ₀ hidem hinstance
    exact ⟨hlines.solves_iff_of_absorbs hc ha hσ habs, hlines.solves_of_absorbs hc ha hσ habs⟩

end Found

end Specialized

open Sample

/-- Two pairs of applications that unify, with a variable that is left open. -/
def openPairs : List Equation :=
  [⟨.sum [.app p [.var x, .var x], .app p [.var y, .var y], .app q [.var z],
    .app q [.app f [.var y]]], zero⟩]

/-- The application to a constant is known when `z` is chosen. -/
def knownAtZ : Constraints := ⟨[(z, [.app f [a]])], by decide⟩

/-- The variables bound as the two pairs and the adversary ask for. -/
def decidedPairs : Substitution := ⟨⟨[(x, a), (y, a), (z, .app f [a])], by decide⟩⟩

theorem unify_specializes_openPairs :
    ((∀ e ∈ openPairs, e.Both Canonical) ∧ (∀ e ∈ openPairs, e.Both RespectsArity) ∧
      (∀ ts ∈ knownAtZ.values, ∀ c ∈ ts, c.Canonical ∧ c.RespectsArity) ∧
      decidedPairs ∈ (unify {} openPairs knownAtZ 100).solutions ∧
      decidedPairs.Solves openPairs) ∧
    ∃ σ₀ ∈ (xorUnifyWith openPairs (freshNames openPairs knownAtZ)
        { remaining := 100 }).1.outcome.solutions,
      (∃ θ : Substitution, θ.Into Canonical ∧
        ∀ t : Term, t.Canonical → decidedPairs.apply t = θ.apply (σ₀.apply t)) ∧
      ∃ lines, FoundAlong openPairs (freshNames openPairs knownAtZ) σ₀ lines ∧
        ∀ l ∈ lines, l.owed decidedPairs = zero := by
  have hc : ∀ e ∈ openPairs, e.Both Canonical := by decide
  have ha : ∀ e ∈ openPairs, e.Both RespectsArity := by decide
  have hC : ∀ ts ∈ knownAtZ.values, ∀ c ∈ ts, c.Canonical ∧ c.RespectsArity := by decide
  have hfound : (unify {} openPairs knownAtZ 100).solutions = [decidedPairs] := by cbv
  have hmem : decidedPairs ∈ (unify {} openPairs knownAtZ 100).solutions :=
    hfound ▸ List.mem_singleton_self _
  have hsolves : decidedPairs.Solves openPairs := by decide
  have hnames : decidedPairs.Solves
      (nameDefinitions openPairs (freshNames openPairs knownAtZ)) := by
    have hnil : nameDefinitions openPairs (freshNames openPairs knownAtZ) = [] := by cbv
    rw [hnil]
    exact fun _ he => absurd he List.not_mem_nil
  obtain ⟨σ₀, hσ₀, hinstance, _, ⟨lines, hlines⟩, hall⟩ := unify_specializes hc ha hC hmem
  exact ⟨⟨hc, ha, hC, hmem, hsolves⟩, σ₀, hσ₀, hinstance, lines, hlines,
    (hall lines hlines).1.1 ⟨hsolves, hnames⟩⟩

/-- Without constraints the attacks are the unifiers found for the equations, and these may not
solve them. -/
theorem unify_mixedSum : ∃ σ : Substitution,
    (∀ e ∈ mixedSum, e.Both Canonical) ∧ (∀ e ∈ mixedSum, e.Both RespectsArity) ∧
      σ ∈ (unify {} mixedSum ∅ 100).solutions ∧ ¬ σ.Solves mixedSum := by
  have hfound : (unify {} mixedSum ∅ 100).solutions =
      [⟨⟨[(x, .app f [a]), (z, b)], by decide⟩⟩] := by cbv
  refine ⟨⟨⟨[(x, .app f [a]), (z, b)], by decide⟩⟩, by decide, by decide, ?_, by decide⟩
  rw [hfound]
  exact List.mem_singleton_self _

end Adversary

end SymbolicXor
