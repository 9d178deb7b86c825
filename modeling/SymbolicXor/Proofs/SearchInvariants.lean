import SymbolicXor.Proofs.Layers
import SymbolicXor.Proofs.MostGeneralUnifier
import SymbolicXor.Proofs.PurifiedProblem
import SymbolicXor.Proofs.RulesModulo
import SymbolicXor.Proofs.SearchRuns

/-!
# Invariants of unification modulo exclusive or

Along the search the equations stay layered and speak of no bound variable, and neither do the terms
that are bound. A rule that applies a substitution binds new variables only, so a substitution
absorbs the bindings after the rule exactly if it absorbs those before it and the new ones.
-/

namespace SymbolicXor

open Term Substitution

namespace XorUnification

/-- New bindings: of variables of a kind that were not bound, to terms over such variables. -/
structure Binds (Q : Variable → Prop) (σ δ : Substitution) : Prop where
  /-- The terms are canonical. -/
  canonical : δ.Into Canonical
  /-- They respect arities. -/
  arity : δ.Into RespectsArity
  /-- Bound variables do not occur in the terms. -/
  solvedForm : δ.SolvedForm
  /-- The variables are of the kind and were not bound. -/
  domain : ∀ v ∈ δ.domain, Q v ∧ v ∉ σ.domain
  /-- So are those in the terms. -/
  range : ∀ t ∈ δ.range, ∀ v ∈ t.vars, Q v ∧ v ∉ σ.domain

variable {Q : Variable → Prop} {σ δ θ : Substitution}

/-- New bindings are absorbed exactly if they are absorbed together with the old ones. -/
theorem Binds.absorbs_compose_iff (h : Binds Q σ δ) (hθ : θ.Into Canonical) :
    θ.Absorbs (σ.compose δ) ↔ θ.Absorbs σ ∧ θ.Absorbs δ := by
  refine ⟨fun habs => ?_, fun ⟨hσ, hδ⟩ => hσ.compose hδ h.canonical hθ⟩
  have hδ : θ.Absorbs δ := by
    intro v
    by_cases hv : v ∈ δ.domain
    · have hv' := habs v
      rwa [lookup_compose, lookup_of_not_mem_domain (h.domain v hv).2, apply_var] at hv'
    · rw [lookup_of_not_mem_domain hv, apply_var]
  refine ⟨fun v => ?_, hδ⟩
  have hv := habs v
  rwa [lookup_compose, hδ.apply h.canonical hθ] at hv

namespace State

/-- The invariant of the states: the equations are layered, no bound variable occurs in them or in
the terms that are bound, all variables are of a kind, and all other terms are canonical. -/
structure WellFormed (Q : Variable → Prop) (s : State) : Prop where
  /-- The equations are layered. -/
  equations : ∀ e ∈ s.equations, e.Both WellLayered
  /-- Their variables are of a kind and not bound. -/
  vars : ∀ e ∈ s.equations, ∀ v ∈ e.vars, Q v ∧ v ∉ s.substitution.domain
  /-- The terms that were decided to be different are canonical. -/
  disequations : ∀ d ∈ s.disequations, d.left.Canonical ∧ d.right.Canonical
  /-- The terms that are bound are canonical. -/
  canonical : s.substitution.Into Canonical
  /-- They respect arities. -/
  arity : s.substitution.Into RespectsArity
  /-- No bound variable occurs in them. -/
  solvedForm : s.substitution.SolvedForm
  /-- The bound variables, and the variables of the terms, are of the kind. -/
  scope : s.substitution.Over Q

variable {s : State} {e : Equation}

/-- The kind of the variables may be widened. -/
theorem WellFormed.mono {R : Variable → Prop} (h : s.WellFormed Q) (hQR : ∀ v, Q v → R v) :
    s.WellFormed R :=
  ⟨h.equations, fun e he v hv => ⟨hQR v (h.vars e he v hv).1, (h.vars e he v hv).2⟩,
    h.disequations, h.canonical, h.arity, h.solvedForm, h.scope.mono hQR⟩

theorem WellFormed.both_canonical (h : s.WellFormed Q) (he : e ∈ s.equations) : e.Both Canonical :=
  ⟨(h.equations e he).1.canonical, (h.equations e he).2.canonical⟩

/-- A state may be given other layered equations over the same variables. -/
theorem WellFormed.withEquations (h : s.WellFormed Q) {ds : List Equation}
    (hl : ∀ d ∈ ds, d.Both WellLayered)
    (hv : ∀ d ∈ ds, ∀ v ∈ d.vars, ∃ e ∈ s.equations, v ∈ e.vars) :
    ({ s with equations := ds } : State).WellFormed Q := by
  refine ⟨hl, fun d hd v hvd => ?_, h.disequations, h.canonical, h.arity, h.solvedForm, h.scope⟩
  obtain ⟨e, he, hve⟩ := hv d hd v hvd
  exact h.vars e he v hve

theorem mem_vars_normalize {v : Variable} (h : v ∈ (normalize e).vars) : v ∈ e.vars := by
  unfold normalize at h
  split at h
  · exact h
  · rcases List.mem_append.1 h with hv | hv
    · obtain ⟨t, ht, hvt⟩ := mem_vars_xor hv
      simp only [List.mem_cons, List.not_mem_nil, or_false] at ht
      rcases ht with rfl | rfl
      · exact List.mem_append_left _ hvt
      · exact List.mem_append_right _ hvt
    · simp [zero] at hv

theorem both_normalize (h : e.Both WellLayered) : (normalize e).Both WellLayered := by
  unfold normalize
  split
  · exact h
  · refine ⟨WellLayered.xor ?_, wellLayered_const _⟩
    exact List.forall_mem_cons.2 ⟨h.1, List.forall_mem_singleton.2 h.2⟩

/-- A normalized equation has zero on its right side. -/
theorem right_normalize (e : Equation) : (normalize e).right = zero := by
  unfold normalize
  split
  · rename_i hz
    simpa [isZero] using hz
  · rfl

theorem right_normalized (he : e ∈ s.normalized.equations) : e.right = zero := by
  obtain ⟨d, _, rfl⟩ := List.mem_map.1 he
  exact right_normalize d

theorem WellFormed.normalized (h : s.WellFormed Q) : s.normalized.WellFormed Q := by
  refine h.withEquations ?_ ?_
  · rw [List.forall_mem_map]
    exact fun e he => both_normalize (h.equations e he)
  · rw [List.forall_mem_map]
    exact fun e he v hv => ⟨e, he, mem_vars_normalize hv⟩

/-- New bindings that keep the equations layered keep a state well-formed. -/
theorem WellFormed.apply (h : s.WellFormed Q) (hδ : Binds Q s.substitution δ)
    (hl : ∀ e ∈ s.equations, (e.map δ.apply).Both WellLayered) : (s.apply δ).WellFormed Q := by
  refine ⟨List.forall_mem_map.2 hl, List.forall_mem_map.2 fun e he v hv => ?_,
    List.forall_mem_map.2 fun d _ => ?_, canonical_compose hδ.canonical, into_compose fun v => ?_,
    h.solvedForm.compose hδ.solvedForm (fun v hv => (hδ.domain v hv).2)
      fun t ht v hv => (hδ.range t ht v hv).2,
    h.scope.compose ⟨fun v hv => (hδ.domain v hv).1, fun t ht v hv => (hδ.range t ht v hv).1⟩⟩
  · rcases List.mem_append.1 hv with hv | hv
    · exact vars_apply_of_unbound hδ.solvedForm hδ.range
        (fun w hw => h.vars e he w (List.mem_append_left _ hw)) v hv
    · exact vars_apply_of_unbound hδ.solvedForm hδ.range
        (fun w hw => h.vars e he w (List.mem_append_right _ hw)) v hv
  · exact ⟨canonical_apply hδ.canonical _, canonical_apply hδ.canonical _⟩
  · exact respectsArity_apply hδ.arity (h.arity.lookup respectsArity_var v)

/-- Summands of an equation are layered, and their variables are of the kind and not bound. -/
theorem WellFormed.summand (h : s.WellFormed Q) (he : e ∈ s.equations) {t : Term}
    (ht : t ∈ e.left.summands) : t.WellLayered ∧ t.SumFree ∧
      ∀ v ∈ t.vars, Q v ∧ v ∉ s.substitution.domain := by
  have hl := (h.equations e he).1
  refine ⟨hl.summand ht, hl.layered t ht, fun v hv => ?_⟩
  exact h.vars e he v (List.mem_append_left _ (mem_vars_of_mem_summands ht hv))

/-- A unifier of two summands makes new bindings, and keeps terms layered. -/
theorem WellFormed.binds_unifyTerms (h : s.WellFormed Q) (he : e ∈ s.equations) {t u : Term}
    (ht : t ∈ e.left.summands) (hu : u ∈ e.left.summands)
    (hδ : Unification.unifyTerms t u = .ok δ) : Binds Q s.substitution δ ∧
      ∀ r : Term, r.WellLayered → (δ.apply r).WellLayered := by
  obtain ⟨hlt, hst, hvt⟩ := h.summand he ht
  obtain ⟨hlu, hsu, hvu⟩ := h.summand he hu
  have hinto {P : Term → Prop} (hP : Unification.Kept P) (htP : P t) (huP : P u) : δ.Into P :=
    Unification.unify_into hP (List.forall_mem_singleton.2 ⟨htP, huP⟩) hδ
  have hcan := hinto Unification.kept_canonical hlt.canonical hlu.canonical
  have har := hinto Unification.kept_respectsArity hlt.arity hlu.arity
  obtain ⟨hform, hdom, hrange⟩ := Unification.unify_apart hδ
  have hvars {v : Variable} (hv : v ∈ Unification.uniqueVars [⟨t, u⟩]) :
      Q v ∧ v ∉ s.substitution.domain := by
    obtain ⟨d, hd, hvd⟩ := Unification.mem_uniqueVars.1 hv
    rw [List.mem_singleton.1 hd] at hvd
    exact hvd.elim (hvt v) (hvu v)
  refine ⟨⟨hcan, har, hform, fun v hv => hvars (hdom v hv), fun r hr v hv =>
    hvars (hrange r hr v hv)⟩, fun r hr => ?_⟩
  exact wellLayered_apply hcan har (hinto Unification.kept_sumFree hst hsu) hr

/-- Solving an equation for an unconstrained summand makes one new binding, and keeps the equations
layered. -/
theorem WellFormed.binds_single (h : s.WellFormed Q) (he : e ∈ s.equations) {v : Variable}
    (hv : .var v ∈ e.left.summands) (hfree : v ∉ constrainedVars s.equations) :
    Binds Q s.substitution (single v (xor (e.left.summands.erase (.var v)))) ∧
      ∀ d ∈ s.equations,
        (d.map (single v (xor (e.left.summands.erase (.var v)))).apply).Both WellLayered := by
  have hl := (h.equations e he).1
  have hnodup := (ordered_summands hl.canonical).nodup
  have hmem {t : Term} (ht : t ∈ e.left.summands.erase (.var v)) :
      t ∈ e.left.summands ∧ t ≠ .var v :=
    ⟨List.mem_of_mem_erase ht, fun heq => hnodup.not_mem_erase (heq ▸ ht)⟩
  have hrest : (xor (e.left.summands.erase (.var v))).WellLayered :=
    WellLayered.xor fun t ht => hl.summand (hmem ht).1
  -- A variable of an equation that is not constrained occurs in no argument.
  have hargs {d : Equation} (hd : d ∈ s.equations) :
      v ∉ d.left.varsInArguments ∧ v ∉ d.right.varsInArguments := by
    constructor
    · exact fun hvd => hfree (List.mem_flatMap_of_mem hd (List.mem_append_left _ hvd))
    · exact fun hvd => hfree (List.mem_flatMap_of_mem hd (List.mem_append_right _ hvd))
  have hvars {w : Variable} (hw : w ∈ (xor (e.left.summands.erase (.var v))).vars) :
      w ≠ v ∧ Q w ∧ w ∉ s.substitution.domain := by
    obtain ⟨t, ht, hwt⟩ := mem_vars_xor hw
    obtain ⟨hte, htv⟩ := hmem ht
    refine ⟨?_, (h.summand he hte).2.2 w hwt⟩
    rintro rfl
    cases t with
    | var z =>
      rw [vars_var, List.mem_singleton] at hwt
      exact htv (hwt ▸ rfl)
    | _ => exact (hargs he).1 ((mem_varsInArguments hl.canonical).2 ⟨_, hte, rfl, hwt⟩)
  refine ⟨⟨into_single hrest.canonical, into_single hrest.arity, fun w hw t ht hwt => ?_,
    fun w hw => ?_, fun t ht w hw => ?_⟩, fun d hd => ⟨?_, ?_⟩⟩
  · rw [mem_range_single.1 ht] at hwt
    exact (hvars hwt).1 (mem_domain_single.1 hw)
  · rw [mem_domain_single.1 hw]
    exact (h.summand he hv).2.2 v (by simp)
  · rw [mem_range_single.1 ht] at hw
    exact (hvars hw).2
  · exact wellLayered_apply_single hrest (h.equations d hd).1 (hargs hd).1
  · exact wellLayered_apply_single hrest (h.equations d hd).2 (hargs hd).2

/-- Striking two summands out of an equation keeps a state well-formed. -/
theorem WellFormed.strike (h : s.WellFormed Q) {before after : List Equation} {t u : Term}
    {rest : List Term} (hs : s.equations = before ++ e :: after)
    (hsum : e.left.summands.Perm (t :: u :: rest)) :
    ({ s with equations := before ++ ⟨xor rest, .zero⟩ :: after } : State).WellFormed Q := by
  have he : e ∈ s.equations := hs ▸ List.mem_append_cons_self
  obtain ⟨_, _, hrest⟩ := mem_summands_of_perm hsum
  have hold {d : Equation} (hd : d ∈ before ∨ d ∈ after) : d ∈ s.equations := by
    rw [hs, List.mem_append, List.mem_cons]
    exact hd.imp id Or.inr
  refine h.withEquations (fun d hd => ?_) fun d hd v hv => ?_
  · rcases List.mem_append.1 hd with hd | hd
    · exact h.equations d (hold (Or.inl hd))
    · rcases List.mem_cons.1 hd with rfl | hd
      · exact ⟨WellLayered.xor fun r hr => (h.equations e he).1.summand (hrest r hr),
          wellLayered_const _⟩
      · exact h.equations d (hold (Or.inr hd))
  · rcases List.mem_append.1 hd with hd | hd
    · exact ⟨d, hold (Or.inl hd), hv⟩
    · rcases List.mem_cons.1 hd with rfl | hd
      · refine ⟨e, he, ?_⟩
        rcases List.mem_append.1 hv with hv | hv
        · obtain ⟨r, hr, hvr⟩ := mem_vars_xor hv
          exact List.mem_append_left _ (mem_vars_of_mem_summands (hrest r hr) hvr)
        · simp [zero] at hv
      · exact ⟨d, hold (Or.inr hd), hv⟩

theorem WellFormed.refuse (h : s.WellFormed Q) (he : e ∈ s.equations) {t u : Term}
    (ht : t ∈ e.left.summands) (hu : u ∈ e.left.summands) : (s.refuse t u).WellFormed Q := by
  refine ⟨h.equations, h.vars, ?_, h.canonical, h.arity, h.solvedForm, h.scope⟩
  refine List.forall_mem_append.2 ⟨h.disequations, List.forall_mem_singleton.2 ⟨?_, ?_⟩⟩
  · exact (h.summand he ht).1.canonical
  · exact (h.summand he hu).1.canonical

/-- Every rule keeps states well-formed. -/
theorem WellFormed.rule (h : s.WellFormed Q) {states : List State} (hr : Rule s states) {s' : State}
    (hs' : s' ∈ states) : s'.WellFormed Q := by
  cases hr with
  | @trivial before after e hs he =>
    have hsub {d : Equation} (hd : d ∈ before ++ after) : d ∈ s.equations := by
      rw [hs, List.mem_append, List.mem_cons]
      exact (List.mem_append.1 hd).imp id Or.inr
    rw [List.mem_singleton.1 hs']
    exact h.withEquations (fun d hd => h.equations d (hsub hd)) fun d hd v hv => ⟨d, hsub hd, hv⟩
  | decompose he hl hh hδ =>
    obtain ⟨ht, hu⟩ := mem_summands_of_pair hl
    obtain ⟨hbinds, hlayered⟩ := h.binds_unifyTerms he ht hu hδ
    rw [List.mem_singleton.1 hs']
    exact h.apply hbinds fun d hd =>
      ⟨hlayered _ (h.equations d hd).1, hlayered _ (h.equations d hd).2⟩
  | clash => cases hs'
  | substitute he hv hfree =>
    obtain ⟨hbinds, hlayered⟩ := h.binds_single he hv hfree
    rw [List.mem_singleton.1 hs']
    exact h.apply hbinds hlayered
  | @split before after e t u rest δ hs hsum hh hδ =>
    have he : e ∈ s.equations := hs ▸ List.mem_append_cons_self
    obtain ⟨ht, hu, _⟩ := mem_summands_of_perm hsum
    rcases List.mem_cons.1 hs' with rfl | hs'
    · obtain ⟨hbinds, hlayered⟩ := h.binds_unifyTerms he ht hu hδ
      have hstruck := h.strike hs hsum
      exact hstruck.apply hbinds fun d hd =>
        ⟨hlayered _ (hstruck.equations d hd).1, hlayered _ (hstruck.equations d hd).2⟩
    · rw [List.mem_singleton.1 hs']
      exact h.refuse he ht hu
  | refute he ht hu =>
    rw [List.mem_singleton.1 hs']
    exact h.refuse he ht hu
  | dead => cases hs'

/-- A state is solved if it has no equations, and otherwise expanded by a rule. -/
theorem expand_eq_solved {σ : Substitution} (h : s.expand = .solved σ) :
    s.normalized.equations = [] ∧ σ = s.substitution := by
  simp only [expand] at h
  split at h
  · rename_i hnil
    cases h
    exact ⟨by simpa using hnil, rfl⟩
  · cases h

theorem expand_eq_branches {states : List State} (h : s.expand = .branches states) :
    s.normalized.equations ≠ [] ∧ Rule s.normalized states := by
  simp only [expand] at h
  split at h
  · cases h
  · rename_i hne
    cases h
    exact ⟨by simpa using hne, rule_step _⟩

/-- Every state that the search leads to is well-formed. -/
theorem WellFormed.leads {s' : State} (h : s.WellFormed Q) (hs' : Search.Leads expand s s') :
    s'.WellFormed Q := by
  induction hs' with
  | refl => exact h
  | tail _ hstep ih =>
    obtain ⟨states, hexp, hmem⟩ := hstep
    exact ih.normalized.rule (expand_eq_branches hexp).2 hmem

/-- A state without bindings is well-formed if its equations are layered. -/
theorem wellFormed_start {es : List Equation} (hl : ∀ e ∈ es, e.Both WellLayered)
    (hv : ∀ e ∈ es, ∀ v ∈ e.vars, Q v) : ({ equations := es } : State).WellFormed Q where
  equations := hl
  vars e he v hve := ⟨hv e he v hve, List.not_mem_nil⟩
  disequations _ hd := absurd hd List.not_mem_nil
  canonical := into_empty _
  arity := into_empty _
  solvedForm _ hv := absurd hv List.not_mem_nil
  scope := over_empty Q

end State

end XorUnification

section Answer

open XorUnification

variable {es : List Equation} {fresh : FreshNames} {budget : Budget} {σ : Substitution}

/-- The search leads from a purified problem to well-formed states, over the variables that the
purifier admits if the problem has only such variables. -/
theorem wellFormed_of_leads {R : Purifier → Variable → Prop}
    (hR : Purifier.TermKind fun p t => ∀ v ∈ t.vars, R p v)
    (hc : ∀ e ∈ es, e.Both Canonical) (ha : ∀ e ∈ es, e.Both RespectsArity)
    (hs : ∀ e ∈ es, ∀ v ∈ e.vars, R { fresh } v) {s : State}
    (h : Search.Leads State.expand { equations := (purify es fresh).1 } s) :
    s.WellFormed (R (purifier es fresh)) := by
  have hboth := both_purify hR hc ha hs
  refine (State.wellFormed_start (fun e he => ?_) fun e he v hv => ?_).leads h
  · exact ⟨(hboth e he).1.1, (hboth e he).2.1⟩
  · exact (List.mem_append.1 hv).elim ((hboth e he).1.2 v) ((hboth e he).2.2 v)

/-- If the problem has variables of a kind only, so have these states. -/
theorem wellFormed_of_leads_purify {Q : FreshNames → Variable → Prop} (hQ : Purifier.Kind Q)
    (hc : ∀ e ∈ es, e.Both Canonical) (ha : ∀ e ∈ es, e.Both RespectsArity)
    (hs : Speaks Q fresh es) {s : State}
    (h : Search.Leads State.expand { equations := (purify es fresh).1 } s) :
    s.WellFormed (Q (purifier es fresh).fresh) :=
  wellFormed_of_leads hQ.terms hc ha hs h

/-- The search starts from a well-formed state. -/
theorem wellFormed_purify (hc : ∀ e ∈ es, e.Both Canonical) (ha : ∀ e ∈ es, e.Both RespectsArity)
    (fresh : FreshNames) :
    State.WellFormed (fun _ => True) { equations := (purify es fresh).1 } :=
  wellFormed_of_leads_purify Purifier.kind_any hc ha (fun _ _ _ _ => trivial) .refl

/-- Every unifier that is found is the substitution of a state without equations. -/
theorem exists_leads_of_mem_xorUnifyWith
    (h : σ ∈ (xorUnifyWith es fresh budget).1.outcome.solutions) :
    ∃ s : State, Search.Leads State.expand { equations := (purify es fresh).1 } s ∧
      s.equations = [] ∧ σ = s.substitution := by
  obtain ⟨s, hs, hexp⟩ := Search.exists_leads_of_mem_explore h
  obtain ⟨hnil, heq⟩ := State.expand_eq_solved hexp
  exact ⟨s, hs, by simpa [State.normalized] using hnil, heq⟩

/-- Every unifier that is found binds variables to well-formed terms and is in solved form. -/
theorem wellFormed_of_mem_xorUnifyWith (hc : ∀ e ∈ es, e.Both Canonical)
    (ha : ∀ e ∈ es, e.Both RespectsArity)
    (h : σ ∈ (xorUnifyWith es fresh budget).1.outcome.solutions) :
    σ.Into Canonical ∧ σ.Into RespectsArity ∧ σ.SolvedForm := by
  obtain ⟨s, hs, _, rfl⟩ := exists_leads_of_mem_xorUnifyWith h
  have hwf := (wellFormed_purify hc ha fresh).leads hs
  exact ⟨hwf.canonical, hwf.arity, hwf.solvedForm⟩

/-- The unifiers of equations over variables of a kind speak of such variables only. -/
theorem over_of_mem_xorUnifyWith {Q : FreshNames → Variable → Prop} (hQ : Purifier.Kind Q)
    (hc : ∀ e ∈ es, e.Both Canonical) (ha : ∀ e ∈ es, e.Both RespectsArity)
    (hs : Speaks Q fresh es)
    (h : σ ∈ (xorUnifyWith es fresh budget).1.outcome.solutions) :
    σ.Over (Q (purifier es fresh).fresh) := by
  obtain ⟨s, hleads, _, rfl⟩ := exists_leads_of_mem_xorUnifyWith h
  exact (wellFormed_of_leads_purify hQ hc ha hs hleads).scope

/-- A unifier that is found speaks of variables of the problem and of new ones only. -/
theorem over_problem_or_new (hc : ∀ e ∈ es, e.Both Canonical)
    (ha : ∀ e ∈ es, e.Both RespectsArity)
    (h : σ ∈ (xorUnifyWith es fresh budget).1.outcome.solutions) :
    σ.Over fun v => (∃ e ∈ es, v ∈ e.vars) ∨ v.symbol ∉ fresh.reserved := by
  have hR := Purifier.termKind_names fun v => ∃ e ∈ es, v ∈ e.vars
  obtain ⟨s, hleads, _, rfl⟩ := exists_leads_of_mem_xorUnifyWith h
  refine (wellFormed_of_leads hR hc ha (fun e he v hv => Or.inl ⟨e, he, hv⟩) hleads).scope.mono ?_
  refine fun v hv => hv.imp_right fun hn => ?_
  exact ((purifies_canonical hc fresh).extension.not_reserved hn).resolve_left List.not_mem_nil

/-- Reserved names stay reserved. -/
theorem reserved_xorUnifyWith (es : List Equation) (fresh : FreshNames) (budget : Budget) :
    fresh.reserved ⊆ (xorUnifyWith es fresh budget).2.reserved :=
  Purifier.reserved_equations { fresh } es

end Answer

end SymbolicXor
