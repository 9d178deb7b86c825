import SymbolicXor.Proofs.CompleteSearch
import SymbolicXor.Proofs.RepairSteps

/-!
# Following a solution through decisions

Over variables without sorts, a solution of the equations goes on with one task after every
decision: it makes the decision if the left side vanishes under it, and refuses it otherwise. Where
the decision is made, unification finds a unifier that the solution absorbs, extended to the names
that are new by then. So if the repair ends within its budget, either it finds something that the
solution absorbs, or the solution has gone on to a task that the repair drops: one with bad subterms
and without a decision left.
-/

namespace SymbolicXor

open Term Substitution Purifier

namespace Adversary

/-- The generator for a problem reserves the names of the equations, of the constrained variables
and of the known terms. -/
theorem mem_reserved_freshNames {es : List Equation} {constraints : Constraints} {n : Name} :
    n ∈ (freshNames es constraints).reserved ↔ n ∈ (FreshNames.forEquations es).reserved ∨
      ∃ e ∈ constraints.entries, n = e.1.symbol ∨ ∃ c ∈ e.2, n ∈ c.symbols := by
  have hentry (g : FreshNames) (e : Variable × List Term) (n : Name) :
      n ∈ (e.2.foldl FreshNames.avoidTerm (g.avoid [e.1.symbol])).reserved ↔
        n ∈ g.reserved ∨ n = e.1.symbol ∨ ∃ c ∈ e.2, n ∈ c.symbols := by
    rw [FreshNames.mem_reserved_foldl _ FreshNames.mem_reserved_avoidTerm, FreshNames.avoid,
      List.mem_append, List.mem_singleton, or_comm (a := n = e.1.symbol), or_assoc]
  exact FreshNames.mem_reserved_foldl _ hentry _ n

theorem symbol_mem_freshNames_of_get? {es : List Equation} {constraints : Constraints}
    {v : Variable} {ts : List Term} (h : constraints.get? v = some ts) :
    v.symbol ∈ (freshNames es constraints).reserved :=
  mem_reserved_freshNames.2 (Or.inr ⟨_, FinMap.get?_eq_some_iff.1 h, Or.inl rfl⟩)

/-- A variable without a sort whose name is reserved. -/
def Plain (g : FreshNames) (v : Variable) : Prop := v.symbol ∈ g.reserved ∧ v.sort = none

theorem Plain.keep {g g' : FreshNames} (hg : g.reserved ⊆ g'.reserved) {v : Variable}
    (h : Plain g v) : Plain g' v := ⟨hg h.1, h.2⟩

/-- A substitution agrees with a solution on the names of the problem, and goes on with a task: it
absorbs the unifier and those of the decisions, and no refused left side vanishes under it. All
variables are without sorts and have reserved names. -/
structure Follows (es : List Equation) (constraints : Constraints) (θ : Substitution)
    (g : FreshNames) (s : State) (Θ ρ : Substitution) : Prop where
  /-- The task comes from a first unifier and the constraints by the decisions. -/
  specializes : Specializes constraints s Θ
  /-- The names of the problem are reserved. -/
  reserved : (freshNames es constraints).reserved ⊆ g.reserved
  /-- The unifier speaks of plain variables. -/
  scope : s.substitution.Over (Plain g)
  /-- The unifiers of the decisions speak of plain variables. -/
  scope_decided : Θ.Over (Plain g)
  /-- The substitution is canonical. -/
  canonical : ρ.Into Canonical
  /-- It agrees with the solution. -/
  agrees : AgreeOn (freshNames es constraints) θ ρ
  /-- It absorbs the unifier. -/
  absorbs : ρ.Absorbs s.substitution
  /-- It absorbs the unifiers of the decisions. -/
  absorbs_decided : ρ.Absorbs Θ
  /-- The left sides that were refused are canonical, over plain variables. -/
  built : ∀ r ∈ s.refused, r.Canonical ∧ ∀ v ∈ r.vars, Plain g v
  /-- They do not vanish. -/
  refutes : ∀ r ∈ s.refused, ρ.apply r ≠ zero

section Follows

variable {a : Adversary} {es : List Equation} {constraints : Constraints}
  {θ Θ ρ : Substitution} {g g' : FreshNames} {s : State} {lhs : Term}

/-- More names may be reserved. -/
theorem Follows.keep (h : Follows es constraints θ g s Θ ρ) (hg : g.reserved ⊆ g'.reserved) :
    Follows es constraints θ g' s Θ ρ where
  specializes := h.specializes
  reserved := List.Subset.trans h.reserved hg
  scope := h.scope.mono fun _ => Plain.keep hg
  scope_decided := h.scope_decided.mono fun _ => Plain.keep hg
  canonical := h.canonical
  agrees := h.agrees
  absorbs := h.absorbs
  absorbs_decided := h.absorbs_decided
  built r hr := ⟨(h.built r hr).1, fun v hv => ((h.built r hr).2 v hv).keep hg⟩
  refutes := h.refutes

theorem Follows.self (h : Follows es constraints θ g s Θ ρ) :
    Follows es constraints ρ g s Θ ρ :=
  { h with agrees := fun _ _ => rfl }

/-- A substitution that agrees on the reserved names goes on with the same task. -/
theorem Follows.of_agree (h : Follows es constraints θ g s Θ ρ) {ρ' : Substitution}
    (hρ' : ρ'.Into Canonical) (hagree : AgreeOn g ρ ρ') :
    Follows es constraints θ g s Θ ρ' where
  specializes := h.specializes
  reserved := h.reserved
  scope := h.scope
  scope_decided := h.scope_decided
  canonical := hρ'
  agrees v hv := (hagree v (h.reserved hv)).trans (h.agrees v hv)
  absorbs := h.absorbs.of_agree h.scope fun v hv => hagree v hv.1
  absorbs_decided := h.absorbs_decided.of_agree h.scope_decided fun v hv => hagree v hv.1
  built := h.built
  refutes r hr := by
    rw [hagree.apply fun v hv => ((h.built r hr).2 v hv).1]
    exact h.refutes r hr

/-- A decision that does not vanish may be refused. -/
theorem Follows.refuse (h : Follows es constraints θ g s Θ ρ)
    (hlhs : lhs.Canonical ∧ ∀ v ∈ lhs.vars, Plain g v) (hne : ρ.apply lhs ≠ zero) :
    Follows es constraints θ g (s.refuse lhs) Θ ρ where
  specializes := h.specializes.refuse lhs
  reserved := h.reserved
  scope := h.scope
  scope_decided := h.scope_decided
  canonical := h.canonical
  agrees := h.agrees
  absorbs := h.absorbs
  absorbs_decided := h.absorbs_decided
  built := List.forall_mem_append.2 ⟨h.built, List.forall_mem_singleton.2 hlhs⟩
  refutes := List.forall_mem_append.2 ⟨h.refutes, List.forall_mem_singleton.2 hne⟩

section Decided

variable (hC : ∀ v ts, constraints.get? v = some ts → ∀ c ∈ ts, Built c)

include hC

/-- A unifier of a decision that is absorbed may be applied. -/
theorem Follows.instantiate (h : Follows es constraints θ g s Θ ρ) {δ : Substitution}
    {fresh : FreshNames} {budget : Budget}
    (hd : s.decision? a (a.badSubterms s.constraints s.substitution) = some lhs)
    (hδ : δ ∈ (xorUnifyWith [⟨lhs, .zero⟩] fresh budget).1.outcome.solutions)
    (hover : δ.Over (Plain g)) (habs : ρ.Absorbs δ) :
    Follows es constraints θ g (s.instantiate δ) (Θ.compose δ) ρ := by
  obtain ⟨hcan, har⟩ := h.specializes.wellFormed_of_decision? hC hd hδ
  refine ⟨h.specializes.instantiate hcan har, h.reserved, h.scope.compose hover,
    h.scope_decided.compose hover, h.canonical, h.agrees,
    h.absorbs.compose habs hcan h.canonical,
    h.absorbs_decided.compose habs hcan h.canonical,
    List.forall_mem_map.2 fun r hr => ?_, List.forall_mem_map.2 fun r hr => ?_⟩
  · exact ⟨canonical_apply hcan r, hover.vars_apply (h.built r hr).2⟩
  · rw [habs.apply hcan h.canonical]
    exact h.refutes r hr

variable (hplain : ∀ v ts, constraints.get? v = some ts →
  ∀ c ∈ ts, ∀ w ∈ c.vars, Plain (freshNames es constraints) w)

include hplain

/-- The next decision is well-formed, over plain variables. -/
theorem Follows.built_of_decision? (h : Follows es constraints θ g s Θ ρ)
    (hd : s.decision? a (a.badSubterms s.constraints s.substitution) = some lhs) :
    Built lhs ∧ ∀ v ∈ lhs.vars, Plain g v := by
  have hspec := h.specializes
  refine ⟨hspec.built_of_decision? hC hd,
    (hereditary_vars (Plain g)).decision? h.scope.range (fun v ts hts c hmem => ?_) hd⟩
  rw [hspec.constraints] at hts
  obtain ⟨ts', hts', rfl⟩ := Option.map_eq_some_iff.1 hts
  obtain ⟨c', hc', rfl⟩ := List.mem_map.1 hmem
  exact h.scope_decided.vars_apply fun w hw => (hplain v ts' hts' c' hc' w hw).keep h.reserved

/-- The solution makes a decision that vanishes under it and refuses another one. -/
theorem Follows.decided {budget : Budget} (h : Follows es constraints θ g s Θ ρ)
    (hd : s.decision? a (a.badSubterms s.constraints s.substitution) = some lhs)
    (hex : (xorUnifyWith [⟨lhs, .zero⟩] g budget).1.outcome.isExhaustive = true) :
    (∃ δ ∈ (xorUnifyWith [⟨lhs, .zero⟩] g budget).1.outcome.solutions, ∃ ρ',
        Follows es constraints θ (xorUnifyWith [⟨lhs, .zero⟩] g budget).2 (s.instantiate δ)
          (Θ.compose δ) ρ') ∨
      ∃ ρ', Follows es constraints θ (xorUnifyWith [⟨lhs, .zero⟩] g budget).2
        (s.refuse lhs) Θ ρ' := by
  obtain ⟨hbuilt, hvars⟩ := h.built_of_decision? hC hplain hd
  have hreserved := reserved_xorUnifyWith [⟨lhs, .zero⟩] g budget
  by_cases hzero : ρ.apply lhs = zero
  · have hcan : ∀ e ∈ [Equation.mk lhs zero], e.Both Canonical :=
      List.forall_mem_singleton.2 ⟨hbuilt.1, canonical_zero⟩
    have har : ∀ e ∈ [Equation.mk lhs zero], e.Both RespectsArity :=
      List.forall_mem_singleton.2 ⟨hbuilt.2, respectsArity_const _⟩
    have hspeaks : Speaks Plain g [⟨lhs, zero⟩] := by
      refine List.forall_mem_singleton.2 fun v hv => hvars v ?_
      simpa [Equation.vars, zero] using hv
    obtain ⟨δ, hδ, ρ', hρ', hagree, habs⟩ := exists_absorbed_of_exhaustive hcan har hspeaks hex
      h.canonical (List.forall_mem_singleton.2 hzero)
    have hover : δ.Over (Plain (xorUnifyWith [⟨lhs, .zero⟩] g budget).2) :=
      over_of_mem_xorUnifyWith kind_unsorted hcan har hspeaks hδ
    have hnext := (h.of_agree hρ' hagree).keep hreserved
    exact Or.inl ⟨δ, hδ, ρ', hnext.instantiate hC hd hδ hover habs⟩
  · exact Or.inr ⟨ρ, (h.refuse ⟨hbuilt.1, hvars⟩ hzero).keep hreserved⟩

/-- The repair pursues the unifiers that extensions of a solution absorb. -/
theorem pursues_follows (a : Adversary) (θ : Substitution) :
    a.Pursues (fun g t => ∃ ρ, Follows es constraints θ g t.state t.decided ρ) fun σ =>
      ∃ ρ : Substitution, ρ.Into Canonical ∧ AgreeOn (freshNames es constraints) θ ρ ∧
        ρ.Absorbs σ where
  solved := fun ⟨ρ, h⟩ _ => ⟨ρ, h.canonical, h.agrees, h.absorbs⟩
  keep := fun ⟨ρ, h⟩ hg => ⟨ρ, h.keep hg⟩
  decided := fun ⟨_, h⟩ hd hex => h.decided hC hplain hd hex

variable (hc : ∀ e ∈ es, e.Both Canonical) (ha : ∀ e ∈ es, e.Both RespectsArity)
  (hv : ∀ e ∈ es, ∀ v ∈ e.vars, Plain (freshNames es constraints) v)

include hc ha hv

omit hplain in
/-- The solution goes on with one of the first unifiers. -/
theorem exists_follows_start {budget : Budget}
    (hex : (xorUnifyWith es (freshNames es constraints) budget).1.outcome.isExhaustive = true)
    (hθ : θ.Into Canonical) (hsolves : θ.Solves es) :
    ∃ σ ∈ (xorUnifyWith es (freshNames es constraints) budget).1.outcome.solutions, ∃ ρ,
      Follows es constraints θ (xorUnifyWith es (freshNames es constraints) budget).2
        { substitution := σ, constraints } ∅ ρ := by
  obtain ⟨σ, hσ, ρ, hρ, hagree, habs⟩ := exists_absorbed_of_exhaustive hc ha hv hex hθ hsolves
  refine ⟨σ, hσ, ρ, ?_⟩
  exact {
    specializes := specializes_start hc ha hC hσ
    reserved := reserved_xorUnifyWith _ _ _
    scope := over_of_mem_xorUnifyWith kind_unsorted hc ha hv hσ
    scope_decided := over_empty _
    canonical := hρ
    agrees := hagree
    absorbs := habs
    absorbs_decided := absorbs_empty ρ
    built := fun _ hr => absurd hr List.not_mem_nil
    refutes := fun _ hr => absurd hr List.not_mem_nil }

/-- If the repair ends within its budget, a unifier is found that an extension of the solution
absorbs, or the solution goes on to a task that the repair drops. -/
theorem exists_absorbed_or_dropped {maxSteps : Nat}
    (hex : (a.unify es constraints maxSteps).isExhaustive = true)
    (hθ : θ.Into Canonical) (hsolves : θ.Solves es) :
    (∃ σ ∈ (a.unify es constraints maxSteps).solutions, ∃ ρ : Substitution, ρ.Into Canonical ∧
        AgreeOn (freshNames es constraints) θ ρ ∧ ρ.Absorbs σ) ∨
      ∃ m t ρ, Reached a es constraints maxSteps m ∧ m.Drops a t ∧
        Follows es constraints θ m.fresh t.state t.decided ρ := by
  have hfirst := isExhaustive_first hex
  have hstart : Reached a es constraints maxSteps (firstMoment es constraints maxSteps) :=
    .start hfirst
  obtain ⟨σ, hσ, ρ, hfollows⟩ := exists_follows_start hC hc ha hv hfirst hθ hsolves
  rw [hstart.unify_eq] at hex ⊢
  rcases (pursues_follows hC hplain a θ).exists_of_rest hex
    (Or.inl ⟨_, List.mem_map_of_mem hσ, ρ, hfollows⟩) with hfound | ⟨m, t, hrun, hdrop, ρ', h⟩
  · exact Or.inl hfound
  · exact Or.inr ⟨m, t, ρ', hstart.trans hrun, hdrop, h⟩

end Decided

end Follows

end Adversary

end SymbolicXor
