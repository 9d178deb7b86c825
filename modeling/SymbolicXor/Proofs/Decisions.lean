import SymbolicXor.Adversary.Unify
import SymbolicXor.Proofs.Derivability
import SymbolicXor.Proofs.SearchInvariants
import SymbolicXor.Proofs.SelectedPlaces

/-!
# Decisions of an adversary

A unifier that the adversary is found able to bring about comes from a unifier of the equations by
decisions, each of which is some equation and one of its unifiers. The unifiers of the decisions
together make up a substitution: the unifier is the first one under it, and the terms known at each
variable are the original ones under it. The original ones are not read under the first unifier.
-/

namespace SymbolicXor

open Term Substitution

namespace Selection

variable {α β : Type}

theorem subset_of_mem_choose {k : Nat} {l c : List α} (h : c ∈ choose k l) : c ⊆ l :=
  (mem_choose.1 h).1.subset

/-- A result that was searched for among the sublists is that of a sublist. -/
theorem exists_of_findSubset? {f : List α → Option β} {l : List α} {b : β}
    (h : findSubset? f l = some b) : ∃ c, c ⊆ l ∧ f c = some b := by
  obtain ⟨k, _, hk⟩ := List.exists_of_findSome?_eq_some h
  obtain ⟨c, hc, hcb⟩ := List.exists_of_findSome?_eq_some hk
  exact ⟨c, subset_of_mem_choose hc, hcb⟩

/-- A property of the sublists of length two holds of the pairs. -/
theorem pairwise_of_choose {P : List α → Prop} {l : List α} (h : ∀ c ∈ choose 2 l, P c) :
    l.Pairwise fun b c => P [b, c] :=
  List.pairwise_iff_forall_sublist.2 fun hpair => h _ (mem_choose.2 ⟨hpair, rfl⟩)

end Selection

namespace Adversary

/-- A canonical term that respects arities. -/
def Built (t : Term) : Prop := t.Canonical ∧ t.RespectsArity

instance (t : Term) : Decidable (Built t) := inferInstanceAs (Decidable (_ ∧ _))

theorem built_xor {ts : List Term} (h : ∀ t ∈ ts, Built t) : Built (xor ts) :=
  ⟨canonical_xor fun t ht => (h t ht).1, respectsArity_xor fun t ht => (h t ht).2⟩

theorem built_apply {σ : Substitution} (hc : σ.Into Canonical) (ha : σ.Into RespectsArity)
    {t : Term} (h : Built t) : Built (σ.apply t) :=
  ⟨canonical_apply hc t, respectsArity_apply ha h.2⟩

variable {a : Adversary} {constraints : Constraints} {accept : Term → Bool} {v : Variable}
  {t lhs : Term}

/-- A property that passes from terms to their subterms and to sums of terms. -/
structure Hereditary (P : Term → Prop) : Prop where
  /-- Subterms have it. -/
  subterm : ∀ {s t : Term}, P t → s ∈ t.subterms → P s
  /-- Sums have it. -/
  xor : ∀ {ts : List Term}, (∀ t ∈ ts, P t) → P (xor ts)

theorem hereditary_built : Hereditary Built :=
  ⟨fun h hs => ⟨Everywhere.subterm h.1 hs, Everywhere.subterm h.2 hs⟩, built_xor⟩

theorem hereditary_vars (Q : Variable → Prop) : Hereditary fun t => ∀ v ∈ t.vars, Q v := by
  refine ⟨fun h hs v hv => ?_, fun h v hv => ?_⟩
  · obtain ⟨u, hu, huv⟩ := List.mem_filterMap.1 hv
    exact h v (List.mem_filterMap.2 ⟨u, mem_subterms_trans hs hu, huv⟩)
  · obtain ⟨t, ht, hvt⟩ := mem_vars_xor hv
    exact h t ht v hvt

section Hereditary

variable {P : Term → Prop} (hP : Hereditary P)

include hP

/-- A sum that is decided to vanish is made of the summands. -/
theorem Hereditary.sumCandidate? {ts : List Term} (hts : ∀ t ∈ ts, P t)
    (h : sumCandidate? accept ts = some lhs) : P lhs := by
  unfold Adversary.sumCandidate? at h
  split at h
  · obtain ⟨chosen, hchosen, hguard⟩ := List.exists_of_findSome?_eq_some h
    rw [← (Option.guard_eq_some_iff.1 hguard).1]
    exact hP.xor fun t ht => hts t (Selection.subset_of_mem_choose hchosen ht)
  · obtain ⟨v, hv, hfind⟩ := List.exists_of_findSome?_eq_some h
    obtain ⟨chosen, hsub, hguard⟩ := Selection.exists_of_findSubset? hfind
    rw [← (Option.guard_eq_some_iff.1 hguard).1]
    have hchosen : ∀ t ∈ chosen, P t := fun t ht => hts t (hsub ht)
    split
    · exact hP.xor hchosen
    · refine hP.xor (List.forall_mem_append.2 ⟨hchosen, List.forall_mem_singleton.2 ?_⟩)
      exact hts v (List.mem_of_mem_filter hv)

/-- A candidate is made of the subterm and of known terms. -/
theorem Hereditary.candidate?
    (hC : ∀ ts, constraints.get? v = some ts → ∀ c ∈ ts, P c) (ht : P t)
    (h : a.candidate? constraints accept v t = some lhs) : P lhs := by
  cases t with
  | var w => exact (Option.guard_eq_some_iff.1 h).1 ▸ ht
  | const c => cases h
  | app f ts =>
    simp only [Adversary.candidate?] at h
    split at h
    · cases h
    · obtain ⟨known, hknown, hfound⟩ := List.exists_of_findSome?_eq_some h
      split at hfound
      · cases hfound
      · rw [← (Option.guard_eq_some_iff.1 hfound).1]
        refine hP.xor (List.forall_mem_cons.2 ⟨ht, List.forall_mem_singleton.2 ?_⟩)
        cases hget : constraints.get? v with
        | none => simp [hget] at hknown
        | some cs => exact hC cs hget known (by simpa [hget] using hknown)
  | sum ts =>
    exact hP.sumCandidate? (fun u hu => hP.subterm ht (mem_subterms_of_mem_args hu)) h

end Hereditary

/-- The bad subterms are those that are missing for the terms of the constrained variables. -/
theorem mem_badSubterms {σ : Substitution} : (v, t) ∈ a.badSubterms constraints σ ↔
    ∃ u ts, σ.get? v = some u ∧ constraints.get? v = some ts ∧
      t ∈ a.missing (ts.map (earlier σ v).apply) u := by
  constructor
  · intro h
    obtain ⟨⟨w, u⟩, hw, ht⟩ := List.mem_flatMap.1 h
    simp only at ht
    split at ht
    · cases ht
    · rename_i ts hts
      obtain ⟨s, hs, heq⟩ := List.mem_map.1 ht
      cases heq
      exact ⟨u, ts, FinMap.get?_eq_some_iff.2 hw, hts, hs⟩
  · rintro ⟨u, ts, hu, hts, ht⟩
    refine List.mem_flatMap.2 ⟨(v, u), FinMap.get?_eq_some_iff.1 hu, ?_⟩
    simp only [hts]
    exact List.mem_map_of_mem ht

/-- A bad subterm occurs in the term of its variable. -/
theorem exists_of_mem_badSubterms {σ : Substitution}
    (h : (v, t) ∈ a.badSubterms constraints σ) : ∃ u, σ.get? v = some u ∧ t ∈ u.subterms := by
  obtain ⟨u, _, hu, _, ht⟩ := mem_badSubterms.1 h
  exact ⟨u, hu, mem_subterms_of_missing ht⟩

/-- The next decision is made of subterms of the unifier and of known terms. -/
theorem Hereditary.decision? {P : Term → Prop} (hP : Hereditary P) {s : State}
    (hσ : s.substitution.Into P)
    (hC : ∀ v ts, s.constraints.get? v = some ts → ∀ c ∈ ts, P c)
    (hd : s.decision? a (a.badSubterms s.constraints s.substitution) = some lhs) : P lhs := by
  obtain ⟨⟨v, t⟩, hbad, hcand⟩ := List.exists_of_findSome?_eq_some hd
  obtain ⟨u, hu, hsub⟩ := exists_of_mem_badSubterms hbad
  exact hP.candidate? (hC v) (hP.subterm (hσ u (mem_range.2 ⟨v, hu⟩)) hsub) hcand

/-- If there is no bad subterm, nothing is missing for the term of a constrained variable. -/
theorem missing_of_badSubterms {σ : Substitution} (h : a.badSubterms constraints σ = [])
    {ts : List Term} (hv : v ∈ σ.domain) (hts : constraints.get? v = some ts) :
    a.missing (ts.map (earlier σ v).apply) (σ.lookup v) = [] := by
  obtain ⟨u, hu⟩ := mem_domain.1 hv
  rw [lookup_of_get? hu]
  refine List.eq_nil_iff_forall_not_mem.2 fun t ht => ?_
  have hbad := mem_badSubterms.2 ⟨u, ts, hu, hts, ht⟩
  rw [h] at hbad
  cases hbad

/-- The states that decisions lead to, each with the composed unifiers of the decisions. -/
inductive Decisions (a : Adversary) (es : List Equation) (constraints : Constraints) :
    State → Substitution → Prop
  /-- At first there is a unifier of the equations. -/
  | start {σ : Substitution} {fresh : FreshNames} {budget : Budget}
      (h : σ ∈ (xorUnifyWith es fresh budget).1.outcome.solutions) :
      Decisions a es constraints { substitution := σ, constraints } ∅
  /-- A decision is refused. -/
  | refuse {s : State} {Θ : Substitution} {lhs : Term} (h : Decisions a es constraints s Θ)
      (hd : s.decision? a (a.badSubterms s.constraints s.substitution) = some lhs) :
      Decisions a es constraints (s.refuse lhs) Θ
  /-- A decision is made, and one of its unifiers is applied. -/
  | instantiate {s : State} {Θ θ : Substitution} {lhs : Term} {fresh : FreshNames}
      {budget : Budget} (h : Decisions a es constraints s Θ)
      (hd : s.decision? a (a.badSubterms s.constraints s.substitution) = some lhs)
      (hθ : θ ∈ (xorUnifyWith [⟨lhs, .zero⟩] fresh budget).1.outcome.solutions) :
      Decisions a es constraints (s.instantiate θ) (Θ.compose θ)

/-- Decisions lead to a unifier without bad subterms. -/
def DecidedBy (a : Adversary) (es : List Equation) (constraints : Constraints)
    (σ Θ : Substitution) : Prop :=
  ∃ s : State, Decisions a es constraints s Θ ∧
    a.badSubterms s.constraints s.substitution = [] ∧ s.substitution = σ

variable {es : List Equation} {σ Θ : Substitution}

/-- One decision, refused or made with one of its unifiers, leads from a state to another. -/
inductive Decides (a : Adversary) (s : State) : State → Prop
  /-- The decision is refused. -/
  | refuse {lhs : Term}
      (hd : s.decision? a (a.badSubterms s.constraints s.substitution) = some lhs) :
      Decides a s (s.refuse lhs)
  /-- The decision is made. -/
  | instantiate {lhs : Term} {θ : Substitution} {fresh : FreshNames} {budget : Budget}
      (hd : s.decision? a (a.badSubterms s.constraints s.substitution) = some lhs)
      (hθ : θ ∈ (xorUnifyWith [⟨lhs, .zero⟩] fresh budget).1.outcome.solutions) :
      Decides a s (s.instantiate θ)

/-- An invariant of tasks under decisions, relative to the generator of names: it holds with more
names reserved, after a decision is refused, and after a unifier of a decision is applied. -/
structure Maintains (a : Adversary) (Inv : FreshNames → State → Prop) : Prop where
  /-- More names may be reserved. -/
  keep : ∀ {g g' : FreshNames} {s}, Inv g s → g.reserved ⊆ g'.reserved → Inv g' s
  /-- A decision may be refused. -/
  refuse : ∀ {g s lhs}, Inv g s →
    s.decision? a (a.badSubterms s.constraints s.substitution) = some lhs → Inv g (s.refuse lhs)
  /-- A decision may be made. -/
  instantiate : ∀ {g s lhs θ budget}, Inv g s →
    s.decision? a (a.badSubterms s.constraints s.substitution) = some lhs →
    θ ∈ (xorUnifyWith [⟨lhs, .zero⟩] g budget).1.outcome.solutions →
    Inv (xorUnifyWith [⟨lhs, .zero⟩] g budget).2 (s.instantiate θ)

section Maintains

variable {Inv : FreshNames → State → Prop}

/-- A unifier that is found was found before, or belongs to a task without bad subterms that
satisfies the invariant. -/
theorem Maintains.exists_of_mem_repair (hm : a.Maintains Inv) {fresh : FreshNames} {budget : Budget}
    {states : List State} {found : List Substitution} (hs : ∀ s ∈ states, Inv fresh s)
    (h : σ ∈ (a.repair fresh budget states found).outcome.solutions) :
    σ ∈ found ∨ ∃ g t, Inv g t ∧ a.badSubterms t.constraints t.substitution = [] ∧
      t.substitution = σ := by
  fun_induction a.repair fresh budget states found with
  | case1 => exact Or.inl (by simpa using h)
  | case2 => exact Or.inl h
  | case3 fresh budget found s rest left hspend bad hbad ih =>
    obtain ⟨hfirst, hrest⟩ := List.forall_mem_cons.1 hs
    rcases ih hrest h with hf | hreached
    · rcases Search.mem_record.1 hf with hf | rfl
      · exact Or.inl hf
      · exact Or.inr ⟨fresh, s, hfirst, List.isEmpty_iff.1 hbad, rfl⟩
    · exact Or.inr hreached
  | case4 fresh budget found s rest left hspend bad hbad hnone ih =>
    exact ih (List.forall_mem_cons.1 hs).2 h
  | case5 fresh budget found s rest left hspend bad hbad lhs hlhs run hex ih =>
    have hreserved := reserved_xorUnifyWith [⟨lhs, .zero⟩] fresh left
    obtain ⟨hfirst, hrest⟩ := List.forall_mem_cons.1 hs
    refine ih (List.forall_mem_append.2 ⟨?_, List.forall_mem_cons.2 ⟨?_, fun t ht => ?_⟩⟩) h
    · exact List.forall_mem_map.2 fun θ hθ => hm.instantiate hfirst hlhs hθ
    · exact hm.keep (hm.refuse hfirst hlhs) hreserved
    · exact hm.keep (hrest t ht) hreserved
  | case6 => exact Or.inl h

/-- A unifier that is found for a problem belongs to a task without bad subterms that satisfies the
invariant. -/
theorem Maintains.exists_of_mem_unify (hm : a.Maintains Inv) {maxSteps : Nat}
    (hstart : ∀ σ₀ ∈ (xorUnifyWith es (freshNames es constraints)
        { remaining := maxSteps }).1.outcome.solutions,
      Inv (xorUnifyWith es (freshNames es constraints) { remaining := maxSteps }).2
        { substitution := σ₀, constraints })
    (h : σ ∈ (a.unify es constraints maxSteps).solutions) :
    ∃ g t, Inv g t ∧ a.badSubterms t.constraints t.substitution = [] ∧ t.substitution = σ := by
  simp only [unify, unifyWith] at h
  split at h
  · exact (hm.exists_of_mem_repair (List.forall_mem_map.2 hstart) h).resolve_left List.not_mem_nil
  · cases h

end Maintains

/-- Decisions lead from a unifier of the equations to everything that is found. -/
theorem exists_reached {maxSteps : Nat} (h : σ ∈ (a.unify es constraints maxSteps).solutions) :
    ∃ σ₀ ∈ (xorUnifyWith es (freshNames es constraints)
        { remaining := maxSteps }).1.outcome.solutions,
      ∃ t, Relation.ReflTransGen a.Decides { substitution := σ₀, constraints } t ∧
        a.badSubterms t.constraints t.substitution = [] ∧ t.substitution = σ := by
  have hm : a.Maintains fun _ t => ∃ σ₀ ∈ (xorUnifyWith es (freshNames es constraints)
      { remaining := maxSteps }).1.outcome.solutions,
      Relation.ReflTransGen a.Decides { substitution := σ₀, constraints } t :=
    ⟨fun hs _ => hs, fun ⟨σ₀, hσ₀, hs⟩ hd => ⟨σ₀, hσ₀, hs.tail (.refuse hd)⟩,
      fun ⟨σ₀, hσ₀, hs⟩ hd hθ => ⟨σ₀, hσ₀, hs.tail (.instantiate hd hθ)⟩⟩
  obtain ⟨_, t, ⟨σ₀, hσ₀, ht⟩, hend⟩ := hm.exists_of_mem_unify (fun σ₀ hσ₀ => ⟨σ₀, hσ₀, .refl⟩) h
  exact ⟨σ₀, hσ₀, t, ht, hend⟩

theorem Decisions.reached {s t : State} (h : Decisions a es constraints s Θ)
    (ht : Relation.ReflTransGen a.Decides s t) : ∃ Θ', Decisions a es constraints t Θ' := by
  induction ht with
  | refl => exact ⟨Θ, h⟩
  | tail _ hstep ih =>
    obtain ⟨Θ', h'⟩ := ih
    cases hstep with
    | refuse hd => exact ⟨Θ', h'.refuse hd⟩
    | instantiate hd hθ => exact ⟨_, h'.instantiate hd hθ⟩

theorem exists_decidedBy {maxSteps : Nat} (h : σ ∈ (a.unify es constraints maxSteps).solutions) :
    ∃ Θ, DecidedBy a es constraints σ Θ := by
  obtain ⟨σ₀, hσ₀, t, ht, hbad, heq⟩ := exists_reached h
  obtain ⟨Θ, hΘ⟩ := (Decisions.start hσ₀).reached ht
  exact ⟨Θ, t, hΘ, hbad, heq⟩

/-- A state comes from the first unifier and the original constraints by one substitution. -/
structure Specializes (constraints : Constraints) (s : State) (Θ : Substitution) : Prop where
  /-- The unifier is canonical. -/
  canonical : s.substitution.Into Canonical
  /-- It respects arities. -/
  arity : s.substitution.Into RespectsArity
  /-- The substitution is canonical. -/
  canonical_decided : Θ.Into Canonical
  /-- It respects arities. -/
  arity_decided : Θ.Into RespectsArity
  /-- The unifier is the first one, which is idempotent, under the substitution. -/
  lookup : ∃ σ : Substitution, σ.Into Canonical ∧ σ.Absorbs σ ∧
    ∀ v, s.substitution.lookup v = Θ.apply (σ.lookup v)
  /-- The known terms are the original ones under the substitution. -/
  constraints : ∀ v, s.constraints.get? v = (constraints.get? v).map (List.map Θ.apply)

variable (hc : ∀ e ∈ es, e.Both Canonical) (ha : ∀ e ∈ es, e.Both RespectsArity)
  (hC : ∀ v ts, constraints.get? v = some ts → ∀ c ∈ ts, Built c)

section Specializes

variable {s : State} (h : Specializes constraints s Θ)

include hC h

/-- The next decision is between well-formed terms. -/
theorem Specializes.built_of_decision?
    (hd : s.decision? a (a.badSubterms s.constraints s.substitution) = some lhs) : Built lhs := by
  refine hereditary_built.decision? (fun u hu => ⟨h.canonical u hu, h.arity u hu⟩)
    (fun v ts hts c hmem => ?_) hd
  rw [h.constraints] at hts
  obtain ⟨ts', hts', rfl⟩ := Option.map_eq_some_iff.1 hts
  obtain ⟨c', hc', rfl⟩ := List.mem_map.1 hmem
  exact built_apply h.canonical_decided h.arity_decided (hC v ts' hts' c' hc')

/-- The unifiers of a decision are well-formed. -/
theorem Specializes.wellFormed_of_decision? {θ : Substitution} {fresh : FreshNames}
    {budget : Budget}
    (hd : s.decision? a (a.badSubterms s.constraints s.substitution) = some lhs)
    (hθ : θ ∈ (xorUnifyWith [⟨lhs, .zero⟩] fresh budget).1.outcome.solutions) :
    θ.Into Canonical ∧ θ.Into RespectsArity := by
  have hlhs := h.built_of_decision? hC hd
  obtain ⟨hcan, har, _⟩ := wellFormed_of_mem_xorUnifyWith
    (List.forall_mem_singleton.2 ⟨hlhs.1, canonical_zero⟩)
    (List.forall_mem_singleton.2 ⟨hlhs.2, respectsArity_const _⟩) hθ
  exact ⟨hcan, har⟩

omit hC in
/-- A well-formed unifier specializes further. -/
theorem Specializes.instantiate {θ : Substitution} (hcan : θ.Into Canonical)
    (har : θ.Into RespectsArity) :
    Specializes constraints (s.instantiate θ) (Θ.compose θ) := by
  obtain ⟨σ, hσ, hidem, hlookup⟩ := h.lookup
  refine ⟨canonical_compose hcan, into_compose fun v => ?_, canonical_compose hcan,
    into_compose fun v => ?_, ⟨σ, hσ, hidem, fun v => ?_⟩, fun v => ?_⟩
  · exact respectsArity_apply har (h.arity.lookup respectsArity_var v)
  · exact respectsArity_apply har (h.arity_decided.lookup respectsArity_var v)
  · rw [State.instantiate, lookup_compose, hlookup,
      apply_compose h.canonical_decided hcan]
  · rw [State.instantiate, FinMap.get?_map, h.constraints]
    cases hget : constraints.get? v with
    | none => rfl
    | some ts =>
      simp only [Option.map_some, List.map_map]
      refine congrArg some (List.map_congr_left fun c hmem => ?_)
      exact (apply_compose h.canonical_decided hcan c).symm

end Specializes

include hc ha hC in
/-- A unifier of the equations specializes itself. -/
theorem specializes_start {fresh : FreshNames} {budget : Budget}
    (hσ : σ ∈ (xorUnifyWith es fresh budget).1.outcome.solutions) :
    Specializes constraints { substitution := σ, constraints } ∅ := by
  obtain ⟨hcan, har, hform⟩ := wellFormed_of_mem_xorUnifyWith hc ha hσ
  refine ⟨hcan, har, into_empty _, into_empty _, ⟨σ, hcan, hform.absorbs hcan, fun v => ?_⟩,
    fun v => ?_⟩
  · exact (apply_eq_self (hcan.lookup canonical_var v) fun _ _ => rfl).symm
  · cases hget : constraints.get? v with
    | none => rfl
    | some ts =>
      refine congrArg some ((List.map_congr_left fun c hmem => ?_).trans (List.map_id ts)).symm
      exact apply_eq_self (hC v ts hget c hmem).1 fun _ _ => rfl

theorem Specializes.refuse {s : State} (h : Specializes constraints s Θ) (lhs : Term) :
    Specializes constraints (s.refuse lhs) Θ := ⟨h.1, h.2, h.3, h.4, h.5, h.6⟩

include hc ha hC in
/-- Decisions specialize the first unifier and the original constraints. -/
theorem Decisions.specializes {s : State} (h : Decisions a es constraints s Θ) :
    Specializes constraints s Θ := by
  induction h with
  | start hσ => exact specializes_start hc ha hC hσ
  | refuse _ _ ih => exact ih.refuse _
  | instantiate _ hd hθ ih =>
    obtain ⟨hcan, har⟩ := ih.wellFormed_of_decision? hC hd hθ
    exact ih.instantiate hcan har

end Adversary

end SymbolicXor
