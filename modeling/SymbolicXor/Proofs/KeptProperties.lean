import SymbolicXor.Proofs.Decisions
import SymbolicXor.Proofs.DefinitiveFailure

/-!
# Properties of terms that searches keep

A search takes terms apart, adds them up and binds variables in them, and the bindings are
well-sorted. So a property that passes to subterms, to sums and to well-sorted instances, and is not
lost in purification, holds of all terms in every state of a search if it holds of those that the
search is given, and in particular of the terms in its answer.
-/

namespace SymbolicXor

open Term Substitution

/-- A property of terms that nothing between the problem and the answer of a search destroys. -/
structure Term.Invariant (P : Term → Prop) : Prop extends Adversary.Hereditary P where
  /-- It holds of variables. -/
  var : ∀ v, P (.var v)
  /-- It passes to well-sorted instances. -/
  apply : ∀ {θ : Substitution} {t : Term}, θ.WellSorted → θ.Into P → P t → P (θ.apply t)
  /-- It passes to purified equations. -/
  purify : ∀ {es : List Equation} (fresh : FreshNames), (∀ e ∈ es, e.Both P) →
    ∀ e ∈ (purify es fresh).1, e.Both P

/-- The property that every term has. -/
theorem Term.invariant_true : Invariant fun _ => True where
  subterm _ _ := trivial
  xor _ := trivial
  var _ := trivial
  apply _ _ _ := trivial
  purify _ _ _ _ := ⟨trivial, trivial⟩

namespace Term.Invariant

variable {P : Term → Prop} {es : List Equation} {σ : Substitution}

theorem zero (hP : Invariant P) : P zero := by
  have hnil : ∀ t ∈ ([] : List Term), P t := fun _ h => absurd h List.not_mem_nil
  exact hP.xor hnil

theorem summand (hP : Invariant P) {t a : Term} (ht : P t) (ha : a ∈ t.summands) : P a :=
  hP.subterm ht (mem_subterms_of_mem_summands ha)

/-- The rounds of syntactic unification keep the property. -/
theorem kept (hP : Invariant P) : Unification.Kept P where
  var := hP.var
  args h _ ht := hP.subterm h (mem_subterms_of_mem_args ht)
  apply hacc ht hs := hP.apply (wellSorted_single hacc) (into_single ht) hs

theorem unify (hP : Invariant P) (hes : ∀ e ∈ es, e.Both P) (h : Unification.unify es = .ok σ) :
    σ.WellSorted ∧ σ.Into P :=
  ⟨Unification.unify_wellSorted h, Unification.unify_into hP.kept hes h⟩

theorem compose (hP : Invariant P) {θ : Substitution} (hσ : σ.Into P) (hsort : θ.WellSorted)
    (hθ : θ.Into P) : (σ.compose θ).Into P :=
  into_compose fun v => hP.apply hsort hθ (hσ.lookup hP.var v)

end Term.Invariant

namespace XorUnification.State

variable {P : Term → Prop} {s s' : State} {states : List State} {θ : Substitution}

/-- All terms of a state have a property, and its bindings are well-sorted. -/
structure Keeps (P : Term → Prop) (s : State) : Prop where
  /-- The sides of equations have it. -/
  equations : ∀ e ∈ s.equations, e.Both P
  /-- The bindings are well-sorted. -/
  wellSorted : s.substitution.WellSorted
  /-- The bound terms have the property. -/
  substitution : s.substitution.Into P

theorem Keeps.normalized (hP : Invariant P) (h : s.Keeps P) : s.normalized.Keeps P := by
  refine ⟨?_, h.wellSorted, h.substitution⟩
  rw [State.normalized, List.forall_mem_map]
  intro e he
  unfold normalize
  split
  · exact h.equations e he
  · obtain ⟨hl, hr⟩ := h.equations e he
    exact ⟨hP.xor (List.forall_mem_cons.2 ⟨hl, List.forall_mem_singleton.2 hr⟩), hP.zero⟩

/-- A state may be given other equations with the property. -/
theorem Keeps.withEquations (h : s.Keeps P) {es : List Equation} (hes : ∀ e ∈ es, e.Both P) :
    ({ s with equations := es } : State).Keeps P :=
  ⟨hes, h.wellSorted, h.substitution⟩

/-- Applying well-sorted bindings to terms with the property keeps it. -/
theorem Keeps.apply (hP : Invariant P) (h : s.Keeps P) (hθ : θ.WellSorted ∧ θ.Into P) :
    (s.apply θ).Keeps P := by
  refine ⟨?_, h.wellSorted.compose hθ.1, hP.compose h.substitution hθ.1 hθ.2⟩
  rw [State.apply, List.forall_mem_map]
  intro e he
  obtain ⟨hl, hr⟩ := h.equations e he
  exact ⟨hP.apply hθ.1 hθ.2 hl, hP.apply hθ.1 hθ.2 hr⟩

/-- The bindings that unify two summands of a left side. -/
theorem Keeps.unifyTerms (hP : Invariant P) (h : s.Keeps P) {e : Equation}
    (he : e ∈ s.equations) {t u : Term} (ht : t ∈ e.left.summands) (hu : u ∈ e.left.summands)
    (hθ : Unification.unifyTerms t u = .ok θ) : θ.WellSorted ∧ θ.Into P := by
  have hl := (h.equations e he).1
  exact hP.unify (List.forall_mem_singleton.2 ⟨hP.summand hl ht, hP.summand hl hu⟩) hθ

/-- Every rule keeps the property. -/
theorem Keeps.rule (hP : Invariant P) (h : s.Keeps P) (hr : Rule s states) (hs' : s' ∈ states) :
    s'.Keeps P := by
  cases hr with
  | @trivial before after e hs he =>
    rw [List.mem_singleton.1 hs']
    refine h.withEquations fun d hd => h.equations d ?_
    rw [hs, List.mem_append, List.mem_cons]
    exact (List.mem_append.1 hd).imp_right Or.inr
  | decompose he hl hh hθ =>
    obtain ⟨ht, hu⟩ := mem_summands_of_pair hl
    rw [List.mem_singleton.1 hs']
    exact h.apply hP (h.unifyTerms hP he ht hu hθ)
  | clash => cases hs'
  | @substitute e v he hv hfree hacc =>
    have hrest : P (xor (e.left.summands.erase (.var v))) := hP.xor fun t ht =>
      hP.summand (h.equations e he).1 (List.mem_of_mem_erase ht)
    rw [List.mem_singleton.1 hs']
    exact h.apply hP ⟨wellSorted_single hacc, into_single hrest⟩
  | @split before after e t u rest θ hs hsum hh hθ =>
    have he : e ∈ s.equations := hs ▸ List.mem_append_cons_self
    obtain ⟨ht, hu, hrest⟩ := mem_summands_of_perm hsum
    rcases List.mem_cons.1 hs' with rfl | hs'
    · have hxor : P (xor rest) := hP.xor fun r hr => hP.summand (h.equations e he).1 (hrest r hr)
      refine (h.withEquations fun d hd => ?_).apply hP (h.unifyTerms hP he ht hu hθ)
      rcases List.mem_append.1 hd with hd | hd
      · exact h.equations d (hs ▸ List.mem_append_left _ hd)
      · rcases List.mem_cons.1 hd with rfl | hd
        · exact ⟨hxor, hP.zero⟩
        · exact h.equations d (hs ▸ List.mem_append_right _ (List.mem_cons_of_mem _ hd))
    · rw [List.mem_singleton.1 hs']
      exact ⟨h.equations, h.wellSorted, h.substitution⟩
  | refute =>
    rw [List.mem_singleton.1 hs']
    exact ⟨h.equations, h.wellSorted, h.substitution⟩
  | dead => cases hs'

theorem Keeps.leads (hP : Invariant P) (h : s.Keeps P) (hs' : Search.Leads expand s s') :
    s'.Keeps P := by
  induction hs' with
  | refl => exact h
  | tail _ hstep ih =>
    obtain ⟨states, hexp, hmem⟩ := hstep
    exact (ih.normalized hP).rule hP (expand_eq_branches hexp).2 hmem

end XorUnification.State

section Answers

variable {P : Term → Prop} (hP : Invariant P) {es : List Equation} {σ : Substitution}

include hP

/-- Every unifier modulo exclusive or is well-sorted and binds variables to terms with the
property. -/
theorem Term.Invariant.xorUnifyWith {fresh : FreshNames} {budget : Budget}
    (hes : ∀ e ∈ es, e.Both P) (h : σ ∈ (xorUnifyWith es fresh budget).1.outcome.solutions) :
    σ.WellSorted ∧ σ.Into P := by
  obtain ⟨s, hs, _, rfl⟩ := exists_leads_of_mem_xorUnifyWith h
  have hstart : XorUnification.State.Keeps P { equations := (SymbolicXor.purify es fresh).1 } :=
    ⟨hP.purify fresh hes, wellSorted_empty, into_empty P⟩
  have hend := hstart.leads hP hs
  exact ⟨hend.wellSorted, hend.substitution⟩

/-- All terms of a state have a property, and the unifier is well-sorted. -/
structure Adversary.State.Keeps (P : Term → Prop) (s : Adversary.State) : Prop where
  /-- The unifier is well-sorted. -/
  wellSorted : s.substitution.WellSorted
  /-- The bound terms have the property. -/
  substitution : s.substitution.Into P
  /-- So have the known terms. -/
  constraints : ∀ v ts, s.constraints.get? v = some ts → ∀ t ∈ ts, P t

/-- A decision, made or refused, keeps the property. -/
theorem Adversary.State.Keeps.decides {a : Adversary} {s t : Adversary.State} (hs : s.Keeps P)
    (h : a.Decides s t) : t.Keeps P := by
  cases h with
  | refuse => exact ⟨hs.wellSorted, hs.substitution, hs.constraints⟩
  | instantiate hd hθ =>
    have hlhs := hP.toHereditary.decision? hs.substitution hs.constraints hd
    obtain ⟨hsort, hinto⟩ := hP.xorUnifyWith (List.forall_mem_singleton.2 ⟨hlhs, hP.zero⟩) hθ
    refine ⟨hs.wellSorted.compose hsort, hP.compose hs.substitution hsort hinto, ?_⟩
    intro v ts hts u hu
    rw [State.instantiate, FinMap.get?_map] at hts
    obtain ⟨ts', hts', rfl⟩ := Option.map_eq_some_iff.1 hts
    obtain ⟨u', hu', rfl⟩ := List.mem_map.1 hu
    exact hP.apply hsort hinto (hs.constraints v ts' hts' u' hu')

/-- Everything that the adversary can bring about comes from a unifier by decisions. -/
theorem Term.Invariant.adversaryUnify {a : Adversary} {constraints : Constraints} {maxSteps : Nat}
    (hes : ∀ e ∈ es, e.Both P) (hC : ∀ v ts, constraints.get? v = some ts → ∀ t ∈ ts, P t)
    (h : σ ∈ (a.unify es constraints maxSteps).solutions) : σ.WellSorted ∧ σ.Into P := by
  obtain ⟨σ₀, hσ₀, t, ht, -, rfl⟩ := Adversary.exists_reached h
  obtain ⟨hsort, hinto⟩ := hP.xorUnifyWith hes hσ₀
  suffices hkeeps : t.Keeps P from ⟨hkeeps.wellSorted, hkeeps.substitution⟩
  clear h
  induction ht with
  | refl => exact ⟨hsort, hinto, hC⟩
  | tail _ hstep ih => exact ih.decides hP hstep

end Answers

end SymbolicXor
