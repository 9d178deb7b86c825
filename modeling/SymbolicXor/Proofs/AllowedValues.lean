import SymbolicXor.Proofs.Decisions
import SymbolicXor.Proofs.Samples

/-!
# Values that the constraints allow

A unifier is accepted if the value of each constrained variable can be built from the terms recorded
for it: the original ones under what was decided, read under the earlier bindings. These are not
always the instances of the original ones under the unifier, since a decision may bind once more
what the unifier binds already. The check lets through only what can be built from the instances
exactly if each recorded term can; and it is right if the unifier absorbs what was decided.
-/

namespace SymbolicXor

open Term Substitution

namespace Adversary

/-- The terms recorded for a variable when a unifier is accepted. -/
def recorded (σ Θ : Substitution) (v : Variable) (ts : List Term) : List Term :=
  ts.map fun c => (earlier σ v).apply (Θ.apply c)

/-- No bound variable occurs in a term. -/
def Unbound (σ : Substitution) (t : Term) : Prop := ∀ v ∈ t.vars, v ∉ σ.domain

section Allowed

variable {a : Adversary} {es : List Equation} {constraints : Constraints}
  {σ Θ : Substitution} {v : Variable} {t : Term}

theorem lookup_earlier (σ : Substitution) (v w : Variable) :
    (earlier σ v).lookup w = σ.lookup w ∨ (earlier σ v).lookup w = .var w := by
  simp only [Substitution.lookup, earlier, restrict, get?, FinMap.get?_filterKeys]
  split
  · exact Or.inl rfl
  · exact Or.inr rfl

/-- The earlier bindings keep a property of all bindings. -/
theorem into_earlier {P : Term → Prop} (hP : ∀ v, P (.var v)) (h : σ.Into P) (v : Variable) :
    (earlier σ v).Into P := by
  intro t ht
  obtain ⟨w, hw⟩ := mem_range.1 ht
  rw [← lookup_of_get? hw]
  rcases lookup_earlier σ v w with heq | heq
  · exact heq ▸ h.lookup hP w
  · exact heq ▸ hP w

/-- An idempotent substitution absorbs its earlier bindings. -/
theorem absorbs_earlier (h : σ.Absorbs σ) (v : Variable) : σ.Absorbs (earlier σ v) := by
  intro w
  rcases lookup_earlier σ v w with heq | heq
  · rw [heq, h w]
  · rw [heq, apply_var]

/-- The terms recorded for a variable are well-formed. -/
theorem built_of_mem_recorded (hσ : σ.Into Canonical) (hσ' : σ.Into RespectsArity)
    (hΘ : Θ.Into Canonical) (hΘ' : Θ.Into RespectsArity) {ts : List Term}
    (hts : ∀ c ∈ ts, Built c) {k : Term} (hk : k ∈ recorded σ Θ v ts) : Built k := by
  obtain ⟨c, hc, rfl⟩ := List.mem_map.1 hk
  exact built_apply (into_earlier canonical_var hσ v) (into_earlier respectsArity_var hσ' v)
    (built_apply hΘ hΘ' (hts c hc))

/-- Subterms of a term without bound variables have none. -/
theorem Unbound.subterm (h : Unbound σ t) {s : Term} (hs : s ∈ t.subterms) : Unbound σ s :=
  (hereditary_vars (· ∉ σ.domain)).subterm h hs

/-- A unifier that absorbs the unifiers of its decisions is idempotent. -/
theorem Specializes.absorbs_self {s : State} (h : Specializes constraints s Θ)
    (habs : s.substitution.Absorbs Θ) : s.substitution.Absorbs s.substitution := by
  obtain ⟨ρ, hρ, hidem, hlookup⟩ := h.lookup
  intro v
  calc s.substitution.apply (s.substitution.lookup v)
      = s.substitution.apply (Θ.apply (ρ.lookup v)) := by rw [hlookup]
    _ = s.substitution.apply (ρ.lookup v) :=
        habs.apply h.canonical_decided h.canonical _
    _ = Θ.apply (ρ.apply (ρ.lookup v)) :=
        apply_eq_apply_apply hρ h.canonical_decided fun w _ => hlookup w
    _ = s.substitution.lookup v := by rw [hidem v, hlookup]

section Decided

variable (hc : ∀ e ∈ es, e.Both Canonical) (ha : ∀ e ∈ es, e.Both RespectsArity)
  (hC : ∀ v ts, constraints.get? v = some ts → ∀ c ∈ ts, Built c)
  (h : DecidedBy a es constraints σ Θ) {ts : List Term} (hts : constraints.get? v = some ts)

include hc ha hC h hts

/-- The value of a constrained variable is built from the terms recorded for it. -/
theorem DecidedBy.missing_eq_nil (hv : v ∈ σ.domain) :
    a.missing (recorded σ Θ v ts) (σ.lookup v) = [] := by
  obtain ⟨s, hs, hbad, rfl⟩ := h
  have hget : s.constraints.get? v = some (ts.map Θ.apply) := by
    rw [(hs.specializes hc ha hC).constraints, hts, Option.map_some]
  have hmissing := missing_of_badSubterms hbad hv hget
  rwa [List.map_map] at hmissing

/-- The check lets through only terms that can be built from the instances of the original terms
exactly if each recorded term can be built from them. -/
theorem DecidedBy.admits_iff :
    (∀ t, Built t → Unbound σ t → a.missing (recorded σ Θ v ts) t = [] →
        a.Derivable (· ∈ ts.map σ.apply) t) ↔
      ∀ k ∈ recorded σ Θ v ts, Unbound σ k → a.Derivable (· ∈ ts.map σ.apply) k := by
  obtain ⟨s, hs, _, rfl⟩ := h
  have hspec := hs.specializes hc ha hC
  constructor
  · intro hall k hk hunbound
    exact hall k (built_of_mem_recorded hspec.canonical hspec.arity hspec.canonical_decided
      hspec.arity_decided (hC v ts hts) hk) hunbound (missing_of_mem hk)
  · intro hall t ht hunbound hmissing
    exact derivable_of_missing ht.1 ht.2 hmissing fun k hk hsub => hall k hk (hunbound.subterm hsub)

/-- If the unifier absorbs the unifiers of its decisions, then the value of a constrained variable
can be built from the instances of the original terms. -/
theorem DecidedBy.derivable (habs : σ.Absorbs Θ) (hv : v ∈ σ.domain) :
    a.Derivable (· ∈ ts.map σ.apply) (σ.lookup v) := by
  have hmissing := h.missing_eq_nil hc ha hC hts hv
  obtain ⟨s, hs, _, rfl⟩ := h
  have hspec := hs.specializes hc ha hC
  have hidem := hspec.absorbs_self habs
  have hrecorded {k : Term} (hk : k ∈ recorded s.substitution Θ v ts) : Built k :=
    built_of_mem_recorded hspec.canonical hspec.arity hspec.canonical_decided
      hspec.arity_decided (hC v ts hts) hk
  have hbuilt : a.Derivable (· ∈ recorded s.substitution Θ v ts) (s.substitution.lookup v) :=
    derivable_of_missing (hspec.canonical.lookup canonical_var v)
      (hspec.arity.lookup respectsArity_var v) hmissing fun k hk _ => .known hk
  -- The value is its own instance, and the recorded terms have those of the original ones.
  rw [← hidem v]
  refine hbuilt.apply hspec.canonical (fun k hk => (hrecorded hk).1) fun k hk => .known ?_
  obtain ⟨c, hmem, rfl⟩ := List.mem_map.1 hk
  rw [(absorbs_earlier hidem v).apply (into_earlier canonical_var hspec.canonical v)
      hspec.canonical,
    habs.apply hspec.canonical_decided hspec.canonical]
  exact List.mem_map_of_mem hmem

end Decided

/-- Every unifier that is found comes from decisions; and whichever decisions it comes from, the
value of every constrained variable is built from the terms recorded for it, the check lets through
only terms that can be built from the instances of the original terms exactly if each recorded term
can, and the value can be built from them if the unifier absorbs those of the decisions. -/
theorem unify_derivable (hc : ∀ e ∈ es, e.Both Canonical) (ha : ∀ e ∈ es, e.Both RespectsArity)
    (hC : ∀ ts ∈ constraints.values, ∀ c ∈ ts, c.Canonical ∧ c.RespectsArity) {maxSteps : Nat}
    (h : σ ∈ (a.unify es constraints maxSteps).solutions) :
    (∃ Θ, DecidedBy a es constraints σ Θ) ∧
      ∀ Θ, DecidedBy a es constraints σ Θ → ∀ v ts, constraints.get? v = some ts →
        v ∈ σ.domain →
          a.missing (recorded σ Θ v ts) (σ.lookup v) = [] ∧
          ((∀ t, Built t → Unbound σ t → a.missing (recorded σ Θ v ts) t = [] →
              a.Derivable (· ∈ ts.map σ.apply) t) ↔
            ∀ k ∈ recorded σ Θ v ts, Unbound σ k → a.Derivable (· ∈ ts.map σ.apply) k) ∧
          (σ.Absorbs Θ → a.Derivable (· ∈ ts.map σ.apply) (σ.lookup v)) := by
  have hC' (v : Variable) (ts : List Term) (hts : constraints.get? v = some ts) :
      ∀ c ∈ ts, Built c := hC ts (FinMap.mem_values.2 ⟨v, hts⟩)
  refine ⟨exists_decidedBy h, fun Θ hΘ v ts hts hv => ?_⟩
  exact ⟨hΘ.missing_eq_nil hc ha hC' hts hv, hΘ.admits_iff hc ha hC' hts,
    fun habs => hΘ.derivable hc ha hC' hts habs hv⟩

end Allowed

open Sample

/-- A variable is an application to another, for which a value is to be chosen. -/
def openChoice : List Equation := [⟨.var y, .app f [.var x]⟩]

/-- The application to a constant is known. -/
def knownApplication : Constraints := ⟨[(y, [.app f [a]])], by decide⟩

/-- The other variable is bound to the constant. -/
def chosen : Substitution := ⟨⟨[(x, a), (y, .app f [a])], by decide⟩⟩

theorem unify_derivable_openChoice :
    (∀ e ∈ openChoice, e.Both Canonical) ∧ (∀ e ∈ openChoice, e.Both RespectsArity) ∧
      (∀ ts ∈ knownApplication.values, ∀ c ∈ ts, c.Canonical ∧ c.RespectsArity) ∧
      chosen ∈ (unify {} openChoice knownApplication 100).solutions ∧
      DecidedBy {} openChoice knownApplication chosen (single x a) ∧
      Derivable {} (· ∈ [Term.app f [a]].map chosen.apply) (chosen.lookup y) := by
  have hc : ∀ e ∈ openChoice, e.Both Canonical := by decide
  have ha : ∀ e ∈ openChoice, e.Both RespectsArity := by decide
  have hC : ∀ ts ∈ knownApplication.values, ∀ c ∈ ts, c.Canonical ∧ c.RespectsArity := by decide
  have hfound : (unify {} openChoice knownApplication 100).solutions = [chosen] := by cbv
  have hmem : chosen ∈ (unify {} openChoice knownApplication 100).solutions :=
    hfound ▸ List.mem_singleton_self _
  have hΘ : DecidedBy {} openChoice knownApplication chosen (single x a) := by
    have hstart : single y (.app f [.var x]) ∈
        (xorUnifyWith openChoice (.forEquations openChoice)
          { remaining := 100 }).1.outcome.solutions := by
      have hone : (xorUnifyWith openChoice (.forEquations openChoice)
          { remaining := 100 }).1.outcome.solutions = [single y (.app f [.var x])] := by cbv
      exact hone ▸ List.mem_singleton_self _
    have hdecided : single x a ∈ (xorUnifyWith [⟨.sum [.app f [.var x], .app f [a]], zero⟩]
        (.ofStem "N") { remaining := 100 }).1.outcome.solutions := by
      have hone : (xorUnifyWith [⟨.sum [.app f [.var x], .app f [a]], zero⟩]
          (.ofStem "N") { remaining := 100 }).1.outcome.solutions = [single x a] := by cbv
      exact hone ▸ List.mem_singleton_self _
    have hfirst : Decisions {} openChoice knownApplication
        { substitution := single y (.app f [.var x]), constraints := knownApplication } ∅ :=
      .start hstart
    have hrun := hfirst.instantiate (by cbv) hdecided
    have hone : (∅ : Substitution).compose (single x a) = single x a := by decide
    rw [hone] at hrun
    exact ⟨_, hrun, by cbv, by decide⟩
  have habs : chosen.Absorbs (single x a) := absorbs_single (by decide)
  have hall := (unify_derivable hc ha hC hmem).2 _ hΘ y [.app f [a]] (by decide) (by decide)
  exact ⟨hc, ha, hC, hmem, hΘ, hall.2.2 habs⟩

/-- A variable is bound by the equations, and occurs in a term that is known at another. -/
def boundTwice : List Equation := [⟨.var x, a⟩, ⟨.var y, .app f [b]⟩]

/-- The terms known at both variables. -/
def knownThroughVariable : Constraints := ⟨[(x, [a]), (y, [.app f [.var x]])], by decide⟩

/-- A decision binds the variable once more, and a value that cannot be built is let through. -/
theorem unify_boundTwice : ∃ σ : Substitution,
    (∀ e ∈ boundTwice, e.Both Canonical) ∧ (∀ e ∈ boundTwice, e.Both RespectsArity) ∧
      (∀ ts ∈ knownThroughVariable.values, ∀ c ∈ ts, c.Canonical ∧ c.RespectsArity) ∧
      σ ∈ (unify {} boundTwice knownThroughVariable 100).solutions ∧
      ∃ ts, knownThroughVariable.get? y = some ts ∧ y ∈ σ.domain ∧
        ¬ Derivable {} (· ∈ ts.map σ.apply) (σ.lookup y) := by
  have hfound : (unify {} boundTwice knownThroughVariable 100).solutions =
      [⟨⟨[(x, a), (y, .app f [b])], by decide⟩⟩] := by cbv
  refine ⟨⟨⟨[(x, a), (y, .app f [b])], by decide⟩⟩, by decide, by decide, by decide, ?_,
    [.app f [.var x]], by decide, by decide, fun h => ?_⟩
  · rw [hfound]
    exact List.mem_singleton_self _
  · rcases h.summand (by decide) List.mem_cons_self with ⟨k, hk, hs⟩ | ⟨g, ts, heq, hg⟩
    · rw [List.map_singleton, List.mem_singleton] at hk
      subst hk
      exact absurd hs (by decide)
    · cases heq
      exact absurd hg (by decide)

end Adversary

end SymbolicXor
