import SymbolicXor.Proofs.StuckDecisions

/-!
# Attacks that are overlooked

The repair of a unifier does not try every way in which an adversary may come to the term of a
variable. It looks for a known application that the adversary cannot evaluate, it lets two summands
cancel, and it lets a variable vanish. So an attack is found only if its terms are built from known
constants and from known applications of symbols that the adversary cannot evaluate; and even then
it may be overlooked where a variable that was left open needs another value than zero.
-/

namespace SymbolicXor

open Term Substitution
open Purifier (AgreeOn)

namespace Adversary

/-- The variables that occur in the equations or in the known terms. -/
def mentioned (es : List Equation) (constraints : Constraints) : List Variable :=
  es.flatMap Equation.vars ++ constraints.values.flatMap fun ts => ts.flatMap vars

theorem mentioned_of_mem_vars {es : List Equation} {constraints : Constraints} {e : Equation}
    (he : e ∈ es) {v : Variable} (hv : v ∈ e.vars) : v ∈ mentioned es constraints :=
  List.mem_append_left _ (List.mem_flatMap.2 ⟨e, he, hv⟩)

theorem mentioned_of_get? {es : List Equation} {constraints : Constraints} {v : Variable}
    {ts : List Term} (hts : constraints.get? v = some ts) {c : Term} (hc : c ∈ ts) {w : Variable}
    (hw : w ∈ c.vars) : w ∈ mentioned es constraints := by
  refine List.mem_append_right _ (List.mem_flatMap.2 ⟨ts, FinMap.mem_values.2 ⟨v, hts⟩, ?_⟩)
  exact List.mem_flatMap.2 ⟨c, hc, hw⟩

theorem symbol_mem_freshNames {es : List Equation} {constraints : Constraints} {v : Variable}
    (h : v ∈ mentioned es constraints) : v.symbol ∈ (freshNames es constraints).reserved := by
  rw [mem_reserved_freshNames]
  rcases List.mem_append.1 h with h | h
  · obtain ⟨e, he, hv⟩ := List.mem_flatMap.1 h
    exact Or.inl (symbol_mem_forEquations he hv)
  · obtain ⟨ts, hts, h⟩ := List.mem_flatMap.1 h
    obtain ⟨c, hc, hv⟩ := List.mem_flatMap.1 h
    obtain ⟨w, hw⟩ := FinMap.mem_values.1 hts
    exact Or.inr ⟨_, FinMap.get?_eq_some_iff.1 hw, Or.inr ⟨c, hc, symbol_mem_symbols hv⟩⟩

/-- Constrained variables that do not occur in the problem may vanish. -/
theorem exists_vanishing (es : List Equation) (constraints : Constraints) {θ : Substitution}
    (hθ : θ.Into Canonical) : ∃ θ' : Substitution, θ'.Into Canonical ∧
      (∀ v ∈ mentioned es constraints, θ'.lookup v = θ.lookup v) ∧
      ∀ v ts, constraints.get? v = some ts → v ∉ mentioned es constraints →
        θ'.lookup v = zero := by
  let elsewhere : Substitution :=
    ⟨(constraints.filterKeys fun v => !(mentioned es constraints).contains v).map fun _ => zero⟩
  have hget (v : Variable) : (FinMap.union θ.bindings elsewhere.bindings).get? v =
      ((if v ∈ mentioned es constraints then none else constraints.get? v).map
        fun _ => zero).or (θ.get? v) := by
    rw [FinMap.get?_union, FinMap.get?_map, FinMap.get?_filterKeys]
    by_cases hv : v ∈ mentioned es constraints <;> simp [hv, Substitution.get?]
  refine ⟨⟨θ.bindings.union elsewhere.bindings⟩, fun t ht => ?_, fun v hv => ?_,
    fun v ts hts hv => ?_⟩
  · obtain ⟨v, hv⟩ := mem_range.1 ht
    rw [Substitution.get?, hget, Option.or_eq_some_iff] at hv
    rcases hv with hv | ⟨_, hv⟩
    · obtain ⟨_, _, rfl⟩ := Option.map_eq_some_iff.1 hv
      exact canonical_zero
    · exact hθ t (mem_range.2 ⟨v, hv⟩)
  · rw [Substitution.lookup, Substitution.get?, hget, if_pos hv]
    rfl
  · rw [Substitution.lookup, Substitution.get?, hget, if_neg hv, hts]
    rfl

/-- A solution of the equations that binds every constrained variable among some variables to a term
that the adversary can build from some instances of the known terms. -/
structure Attack (a : Adversary) (known : List Term → List Term) (vs : List Variable)
    (es : List Equation) (constraints : Constraints) (θ : Substitution) : Prop where
  /-- The solution is canonical. -/
  canonical : θ.Into Canonical
  /-- It solves the equations. -/
  solves : θ.Solves es
  /-- The values can be built. -/
  derivable : ∀ v ∈ vs, ∀ ts, constraints.get? v = some ts →
    a.Derivable (· ∈ known ts) (θ.lookup v)

/-- The search gives up on a substitution: it drops a task that the substitution follows, and a bad
subterm there is overlooked under it. -/
def GivesUpOn (a : Adversary) (es : List Equation) (constraints : Constraints) (maxSteps : Nat)
    (ρ : Substitution) : Prop :=
  ∃ m t, Reached a es constraints maxSteps m ∧ m.Drops a t ∧
    Follows es constraints ρ m.fresh t.state t.decided ρ ∧
    ∃ v u, (v, u) ∈ a.badSubterms t.state.constraints t.state.substitution ∧
      Overlooked constraints t.decided ρ v u

section Missed

variable {a : Adversary} {es : List Equation} {constraints : Constraints} {θ : Substitution}

/-- An attack may let the constrained variables that do not occur in the problem vanish, so that the
terms known at them do not matter. -/
theorem Attack.exists_everywhere
    (h : a.Attack (a.sealedTerms θ) (mentioned es constraints) es constraints θ) :
    ∃ θ' : Substitution, θ'.Into Canonical ∧ θ'.Solves es ∧
      (∀ v ∈ mentioned es constraints, θ'.lookup v = θ.lookup v) ∧
      ∀ v ts, constraints.get? v = some ts →
        a.Derivable (· ∈ a.sealedTerms θ' ts) (θ'.lookup v) := by
  obtain ⟨θ', hθ', hsame, hzero⟩ := exists_vanishing es constraints h.canonical
  refine ⟨θ', hθ', fun e he => ?_, hsame, fun v ts hts => ?_⟩
  · have hleft : θ'.apply e.left = θ.apply e.left :=
      apply_congr fun v hv => hsame v (mentioned_of_mem_vars he (List.mem_append_left _ hv))
    have hright : θ'.apply e.right = θ.apply e.right :=
      apply_congr fun v hv => hsame v (mentioned_of_mem_vars he (List.mem_append_right _ hv))
    rw [hleft, hright]
    exact h.solves e he
  · by_cases hv : v ∈ mentioned es constraints
    · have hsealed : a.sealedTerms θ' ts = a.sealedTerms θ ts :=
        List.map_congr_left fun c hc => apply_congr fun w hw =>
          hsame w (mentioned_of_get? hts (List.mem_of_mem_filter hc) hw)
      rw [hsealed, hsame v hv]
      exact h.derivable v hv ts hts
    · rw [hzero v ts hts hv]
      exact .zero

variable (hc : ∀ e ∈ es, e.Both Canonical) (ha : ∀ e ∈ es, e.Both RespectsArity)
  (hC : ∀ ts ∈ constraints.values, ∀ c ∈ ts, c.Canonical ∧ c.RespectsArity)
  (hv : ∀ v ∈ mentioned es constraints, v.sort = none) {maxSteps : Nat}

include hc ha hC hv

/-- A repair that ends within its budget finds an attack from sealed terms, or gives up on it. -/
theorem Attack.found_or_givenUp (hex : (a.unify es constraints maxSteps).isExhaustive = true)
    (h : a.Attack (a.sealedTerms θ) (mentioned es constraints) es constraints θ) :
    ∃ ρ : Substitution, ρ.Into Canonical ∧
      (∀ v ∈ mentioned es constraints, ρ.lookup v = θ.lookup v) ∧
      ((∃ σ ∈ (a.unify es constraints maxSteps).solutions, ρ.Absorbs σ) ∨
        a.GivesUpOn es constraints maxSteps ρ) := by
  obtain ⟨θ', hθ', hsolves, hsame, hder⟩ := h.exists_everywhere
  have hC' (v : Variable) (ts : List Term) (hts : constraints.get? v = some ts) :
      ∀ c ∈ ts, Built c := hC ts (FinMap.mem_values.2 ⟨v, hts⟩)
  have hplain (v : Variable) (h : v ∈ mentioned es constraints) :
      Plain (freshNames es constraints) v := ⟨symbol_mem_freshNames h, hv v h⟩
  have hterms (v : Variable) (ts : List Term) (hts : constraints.get? v = some ts) (c : Term)
      (hmem : c ∈ ts) (w : Variable) (hw : w ∈ c.vars) : Plain (freshNames es constraints) w :=
    hplain w (mentioned_of_get? hts hmem hw)
  have hagree {ρ : Substitution} (h : AgreeOn (freshNames es constraints) θ' ρ) (v : Variable)
      (hment : v ∈ mentioned es constraints) : ρ.lookup v = θ.lookup v :=
    (h v (symbol_mem_freshNames hment)).trans (hsame v hment)
  rcases exists_absorbed_or_dropped hC' hterms hc ha
      (fun e he v hve => hplain v (mentioned_of_mem_vars he hve)) hex hθ' hsolves with
    ⟨σ, hσ, ρ, hρ, h, habs⟩ | ⟨m, t, ρ, hm, hdrop, h⟩
  · exact ⟨ρ, hρ, fun v => hagree h v, Or.inl ⟨σ, hσ, habs⟩⟩
  · exact ⟨ρ, h.canonical, fun v => hagree h.agrees v, Or.inr ⟨m, t, hm, hdrop, h.self,
      h.exists_overlooked hterms hθ' hdrop.stuck hder⟩⟩

end Missed

/-- A search that ends within its budget finds every attack from sealed terms, or gives up on it:
the attack, extended to the names that are new, follows the decisions to a task that is dropped, and
a bad subterm there has a variable that does not vanish under the attack, or was recorded as known.
So if nothing is found, and the search gives up on nothing, there is no attack from sealed terms. -/
theorem unify_misses_only_overlooked {a : Adversary} {es : List Equation}
    {constraints : Constraints} (hc : ∀ e ∈ es, e.Both Canonical)
    (ha : ∀ e ∈ es, e.Both RespectsArity)
    (hC : ∀ ts ∈ constraints.values, ∀ c ∈ ts, c.Canonical ∧ c.RespectsArity)
    (hv : ∀ v ∈ mentioned es constraints, v.sort = none) {maxSteps : Nat} :
    ((a.unify es constraints maxSteps).isExhaustive = true → ∀ θ : Substitution,
      a.Attack (a.sealedTerms θ) (mentioned es constraints) es constraints θ →
        ∃ ρ : Substitution, ρ.Into Canonical ∧
          (∀ v ∈ mentioned es constraints, ρ.lookup v = θ.lookup v) ∧
          ((∃ σ ∈ (a.unify es constraints maxSteps).solutions, ρ.Absorbs σ) ∨
            a.GivesUpOn es constraints maxSteps ρ)) ∧
      (a.unify es constraints maxSteps = .noUnifier →
        (∀ ρ : Substitution, ¬ a.GivesUpOn es constraints maxSteps ρ) → ∀ θ : Substitution,
          ¬ a.Attack (a.sealedTerms θ) (mentioned es constraints) es constraints θ) := by
  refine ⟨fun hex θ h => h.found_or_givenUp hc ha hC hv hex, fun hnone hnever θ h => ?_⟩
  have hex : (a.unify es constraints maxSteps).isExhaustive = true := hnone ▸ rfl
  obtain ⟨ρ, _, _, ⟨σ, hσ, _⟩ | hup⟩ := h.found_or_givenUp hc ha hC hv hex
  · rw [hnone] at hσ
    cases hσ
  · exact hnever ρ hup

open Sample

/-- Terms that pass the check can be built, so the check shows that a solution is an attack. -/
theorem Attack.of_missing {a : Adversary} {known : List Term → List Term} {vs : List Variable}
    {es : List Equation} {constraints : Constraints} {θ : Substitution} (hθ : θ.Into Canonical)
    (hsolves : θ.Solves es)
    (h : ∀ v ∈ vs, ∀ ts ∈ constraints.get? v,
      Built (θ.lookup v) ∧ a.missing (known ts) (θ.lookup v) = []) :
    a.Attack known vs es constraints θ where
  canonical := hθ
  solves := hsolves
  derivable v hv ts hts :=
    derivable_of_missing (h v hv ts hts).1.1 (h v hv ts hts).1.2 (h v hv ts hts).2
      fun _ hk _ => .known hk

/-- A problem for an adversary, and a substitution that may be an attack. -/
structure Scenario where
  /-- The adversary. -/
  adversary : Adversary := {}
  /-- The equations. -/
  equations : List Equation
  /-- The terms that are known at the constrained variables. -/
  constraints : Constraints
  /-- The substitution. -/
  solution : Substitution

/-- Two variables are sums with a third one, which is left open, and either is to be the constant in
the other sum. -/
def openSummand : Scenario where
  equations := [⟨.var x, .sum [.var z, a]⟩, ⟨.var y, .sum [.var z, b]⟩]
  constraints := ⟨[(x, [b]), (y, [a])], by decide⟩
  solution := ⟨⟨[(x, b), (y, a), (z, .sum [a, b])], by decide⟩⟩

theorem unify_openSummand :
    unify {} openSummand.equations openSummand.constraints 100 = .noUnifier := by cbv

/-- A constant is not known below a symbol that the adversary evaluates. -/
def unknownConstant : Scenario where
  adversary := { publicSymbols := [g] }
  equations := [⟨.var x, .app g [a]⟩]
  constraints := FinMap.insert ∅ x [b]
  solution := single x (.app g [a])

theorem unify_unknownConstant : unknownConstant.adversary.unify unknownConstant.equations
    unknownConstant.constraints 100 = .noUnifier := by cbv

theorem not_givesUpOn_unknownConstant (ρ : Substitution) :
    ¬ unknownConstant.adversary.GivesUpOn unknownConstant.equations unknownConstant.constraints 100
      ρ := by
  let first : Task :=
    { state := { substitution := unknownConstant.solution,
                 constraints := unknownConstant.constraints } }
  have hstuck : first.state.Stuck unknownConstant.adversary := by decide
  have hreached (m : Moment) (hm : Reached unknownConstant.adversary unknownConstant.equations
      unknownConstant.constraints 100 m) : m.tasks = [first] ∨ m.tasks = [] := by
    induction hm with
    | start => exact Or.inl (by cbv)
    | step _ hstep ih =>
      rcases ih with hone | hnil
      · cases hstep with
        | solve _ _ => exact Or.inr (List.cons.inj hone).2
        | drop _ _ => exact Or.inr (List.cons.inj hone).2
        | decide _ hd _ =>
          rw [(List.cons.inj hone).1, hstuck.2] at hd
          cases hd
      · cases hstep <;> cases hnil
  rintro ⟨m, t, hm, ⟨_, tasks, _, htasks, _⟩, _, v, u, hbad, hover⟩
  rcases hreached m hm with hone | hnil
  · obtain ⟨rfl, _⟩ := List.cons.inj (htasks.symm.trans hone)
    have hall : ∀ e ∈ badSubterms unknownConstant.adversary first.state.constraints
        first.state.substitution, e.1 = x ∧ e.2.summands = [e.2] ∧ e.2.isVar = false ∧ e.2 ≠ b := by
      decide
    obtain ⟨rfl, hsum, hvar, hne⟩ := hall (v, u) hbad
    rcases hover with ⟨w, hw, _⟩ | ⟨ts, hts, hu⟩
    · rw [hsum, List.mem_singleton] at hw
      rw [← hw] at hvar
      cases hvar
    · have hts' : unknownConstant.constraints.get? x = some [b] := by decide
      cases hts'.symm.trans hts
      have hb : u = (∅ : Substitution).apply b := by simpa [first] using hu
      exact hne (hb.trans (by decide))
  · cases htasks.symm.trans hnil

theorem unify_misses_only_overlooked_openSummand :
    ((∀ e ∈ openSummand.equations, e.Both Canonical) ∧
      (∀ e ∈ openSummand.equations, e.Both RespectsArity) ∧
      (∀ ts ∈ openSummand.constraints.values, ∀ c ∈ ts, c.Canonical ∧ c.RespectsArity) ∧
      (∀ v ∈ mentioned openSummand.equations openSummand.constraints, v.sort = none) ∧
      unify {} openSummand.equations openSummand.constraints 100 = .noUnifier ∧
      Attack {} (sealedTerms {} openSummand.solution)
        (mentioned openSummand.equations openSummand.constraints) openSummand.equations
        openSummand.constraints openSummand.solution) ∧
    (∃ ρ : Substitution, ρ.Into Canonical ∧
      (∀ v ∈ mentioned openSummand.equations openSummand.constraints,
        ρ.lookup v = openSummand.solution.lookup v) ∧
      GivesUpOn {} openSummand.equations openSummand.constraints 100 ρ) ∧
    ∀ θ : Substitution, ¬ unknownConstant.adversary.Attack
      (unknownConstant.adversary.sealedTerms θ)
      (mentioned unknownConstant.equations unknownConstant.constraints) unknownConstant.equations
      unknownConstant.constraints θ := by
  have hc : ∀ e ∈ openSummand.equations, e.Both Canonical := by decide
  have ha : ∀ e ∈ openSummand.equations, e.Both RespectsArity := by decide
  have hC : ∀ ts ∈ openSummand.constraints.values, ∀ c ∈ ts, c.Canonical ∧ c.RespectsArity := by
    decide
  have hv : ∀ v ∈ mentioned openSummand.equations openSummand.constraints, v.sort = none := by
    decide
  have hattack : Attack {} (sealedTerms {} openSummand.solution)
      (mentioned openSummand.equations openSummand.constraints) openSummand.equations
      openSummand.constraints openSummand.solution :=
    .of_missing (by decide) (by decide) (by decide)
  have hex : (unify {} openSummand.equations openSummand.constraints 100).isExhaustive = true := by
    rw [unify_openSummand]
    rfl
  obtain ⟨ρ, hρ, hsame, ⟨σ, hσ, _⟩ | hup⟩ :=
    (unify_misses_only_overlooked hc ha hC hv).1 hex openSummand.solution hattack
  · rw [unify_openSummand] at hσ
    cases hσ
  · exact ⟨⟨hc, ha, hC, hv, unify_openSummand, hattack⟩, ⟨ρ, hρ, hsame, hup⟩,
      (unify_misses_only_overlooked (by decide) (by decide) (by decide) (by decide)).2
        unify_unknownConstant not_givesUpOn_unknownConstant⟩

namespace Scenario

/-- An attack is missed: a solution of well-formed equations, for whose constrained variables the
adversary can build the values from the instances of the well-formed known terms. No variable has a
sort. -/
structure Missed (i : Scenario) : Prop where
  /-- The equations are canonical. -/
  canonical : ∀ e ∈ i.equations, e.Both Canonical
  /-- They respect arities. -/
  arity : ∀ e ∈ i.equations, e.Both RespectsArity
  /-- The known terms are well-formed. -/
  built : ∀ ts ∈ i.constraints.values, ∀ c ∈ ts, c.Canonical ∧ c.RespectsArity
  /-- The variables have no sorts. -/
  unsorted : ∀ v ∈ mentioned i.equations i.constraints, v.sort = none
  /-- The substitution is an attack. -/
  attack : i.adversary.Attack (List.map i.solution.apply) (i.equations.flatMap Equation.vars)
    i.equations i.constraints i.solution
  /-- Nothing is found. -/
  none : i.adversary.unify i.equations i.constraints 100 = .noUnifier

theorem missed_openSummand : openSummand.Missed :=
  ⟨by decide, by decide, by decide, by decide,
    .of_missing (by decide) (by decide) (by decide), unify_openSummand⟩

/-- A variable is known at another one. -/
def knownVariable : Scenario where
  equations := [⟨.var y, b⟩]
  constraints := ⟨[(x, [b]), (y, [.var x])], by decide⟩
  solution := ⟨⟨[(x, b), (y, b)], by decide⟩⟩

theorem missed_knownVariable : knownVariable.Missed :=
  ⟨by decide, by decide, by decide, by decide,
    .of_missing (by decide) (by decide) (by decide), by cbv⟩

/-- A sum and one of its summands are known. -/
def knownSum : Scenario where
  equations := [⟨.var x, a⟩]
  constraints := ⟨[(x, [.sum [a, b], b])], by decide⟩
  solution := single x a

theorem missed_knownSum : knownSum.Missed := by
  refine ⟨by decide, by decide, by decide, by decide, ⟨by decide, by decide, ?_⟩, by cbv⟩
  intro v _ ts hts
  obtain ⟨rfl, rfl⟩ : v = x ∧ ts = [.sum [a, b], b] := by
    simpa [knownSum, FinMap.get?_eq_some_iff] using hts
  -- The check does not see that a summand cancels.
  have hcancel : Term.xor [.sum [a, b], b] = (single x a).lookup x := by decide
  have hsame : [Term.sum [a, b], b].map (single x a).apply = [.sum [a, b], b] := by decide
  have hsum : Derivable knownSum.adversary (· ∈ [Term.sum [a, b], b].map (single x a).apply)
      (.xor [.sum [a, b], b]) := .xor fun t ht => .known (hsame ▸ ht)
  exact hcancel ▸ hsum

/-- An application is known whose symbol the adversary evaluates. -/
def knownApplication : Scenario where
  adversary := { publicSymbols := [g] }
  equations := [⟨.var x, .app g [.app f [.var y]]⟩]
  constraints := ⟨[(x, [.app g [.app f [a]]])], by decide⟩
  solution := ⟨⟨[(x, .app g [.app f [a]]), (y, a)], by decide⟩⟩

theorem missed_knownApplication : knownApplication.Missed :=
  ⟨by decide, by decide, by decide, by decide,
    .of_missing (by decide) (by decide) (by decide), by cbv⟩

/-- A known term has a constrained variable that is not in the equations. -/
def constrainedElsewhere : Scenario where
  equations := [⟨.var x, .app f [b]⟩]
  constraints := ⟨[(x, [.app f [.var y]]), (y, [a])], by decide⟩
  solution := ⟨⟨[(x, .app f [b]), (y, b)], by decide⟩⟩

theorem missed_constrainedElsewhere : constrainedElsewhere.Missed :=
  ⟨by decide, by decide, by decide, by decide,
    .of_missing (by decide) (by decide) (by decide), by cbv⟩

/-- A known term has a variable that is bound by the equations. -/
def boundKnown : Scenario where
  equations := [⟨.var y, b⟩, ⟨.var z, .app f [.var x]⟩]
  constraints := ⟨[(y, [b]), (z, [.app f [.var y]])], by decide⟩
  solution := ⟨⟨[(x, b), (y, b), (z, .app f [b])], by decide⟩⟩

end Scenario

/-- Attacks are missed in each of these cases. -/
theorem unify_misses :
    openSummand.Missed ∧ Scenario.knownVariable.Missed ∧ Scenario.knownSum.Missed ∧
      Scenario.knownApplication.Missed ∧ Scenario.constrainedElsewhere.Missed :=
  ⟨Scenario.missed_openSummand, Scenario.missed_knownVariable, Scenario.missed_knownSum,
    Scenario.missed_knownApplication, Scenario.missed_constrainedElsewhere⟩

/-- A decision compares an application with the known terms as they were given, while the check
reads them under the unifier. So an attack is missed that is found from the known terms under the
unifier. -/
theorem unify_misses_bound_known :
    Scenario.boundKnown.Missed ∧
      unify {} Scenario.boundKnown.equations
          (Scenario.boundKnown.constraints.map (List.map (single y b).apply)) 100 =
        .unified [Scenario.boundKnown.solution] :=
  ⟨⟨by decide, by decide, by decide, by decide,
    .of_missing (by decide) (by decide) (by decide), by cbv⟩, by cbv⟩

end Adversary

end SymbolicXor
