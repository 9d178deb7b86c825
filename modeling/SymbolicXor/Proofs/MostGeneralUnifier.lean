import Mathlib.Data.List.TFAE
import SymbolicXor.Proofs.Samples
import SymbolicXor.Proofs.UnifierRounds

/-!
# Most general unifiers

Three invariants run along the rounds of syntactic unification: what holds of all terms of the
problem, how the variables of the remaining equations and of the bindings lie apart, and that every
solution of the problem solves what remains and absorbs the bindings. They make the answer an
idempotent substitution through which every solution factors. That the answer is itself a solution
is another matter: it is one exactly if the problem has a solution at all.
-/

namespace SymbolicXor

open Term Substitution

namespace Unification

/-- A property of terms that passes to arguments and to instances under single well-sorted
bindings. -/
structure Kept (P : Term → Prop) : Prop where
  /-- It holds of variables. -/
  var : ∀ v, P (.var v)
  /-- It passes to arguments. -/
  args : ∀ {f ts}, P (.app f ts) → ∀ t ∈ ts, P t
  /-- It passes to instances. -/
  apply : ∀ {x t s}, x.accepts t = true → P t → P s → P ((single x t).apply s)

theorem kept_canonical : Kept Canonical where
  var := canonical_var
  args h := (canonical_app _ _).1 h
  apply _ ht _ := canonical_apply (into_single ht) _

theorem kept_respectsArity : Kept RespectsArity where
  var := respectsArity_var
  args h := ((respectsArity_app _ _).1 h).2
  apply _ ht hs := respectsArity_apply (into_single ht) hs

theorem kept_sumFree : Kept SumFree where
  var := sumFree_var
  args h := (sumFree_app _ _).1 h
  apply _ ht hs := sumFree_apply (into_single ht) hs

namespace Problem

/-- A property of all sides of equations and of all terms that are bound. -/
structure All (P : Term → Prop) (p : Problem) : Prop where
  /-- It holds of both sides of every equation. -/
  equations : ∀ e ∈ p.equations, e.Both P
  /-- It holds of every term to which a variable is bound. -/
  solved : p.solved.Into P

variable {P : Term → Prop} {p q r : Problem}

theorem both_orient {e : Equation} (h : e.Both P) : (orient e).Both P := by
  unfold orient
  split
  · exact ⟨h.2, h.1⟩
  · exact h

theorem both_zipWith {ss ts : List Term} (hs : ∀ s ∈ ss, P s) (ht : ∀ t ∈ ts, P t) :
    ∀ e ∈ List.zipWith Equation.mk ss ts, e.Both P := by
  intro e he
  obtain ⟨i, hi, rfl⟩ := List.getElem_of_mem he
  rw [List.length_zipWith] at hi
  rw [List.getElem_zipWith]
  exact ⟨hs _ (List.getElem_mem _), ht _ (List.getElem_mem _)⟩

theorem both_decompose (hP : Kept P) {es : List Equation} (h : ∀ e ∈ es, e.Both P) :
    ∀ e ∈ decompose es, e.Both P := by
  fun_induction decompose es with
  | case1 => exact h
  | case2 f ss g ts es =>
    obtain ⟨⟨hs, ht⟩, hes⟩ := List.forall_mem_cons.1 h
    exact List.forall_mem_append.2 ⟨both_zipWith (hP.args hs) (hP.args ht), hes⟩
  | case3 e es _ ih =>
    obtain ⟨he, hes⟩ := List.forall_mem_cons.1 h
    exact List.forall_mem_cons.2 ⟨he, ih hes⟩

theorem All.different (h : p.All P) : ∀ e ∈ p.different, e.Both P :=
  fun e he => h.equations e (List.mem_filter.1 he).1

/-- The term that a variable is bound to has the property of the equation solved. -/
theorem of_binding (hP : Kept P) {x y : Variable} {t u : Term} (h : binding x t = .ok (y, u))
    (ht : P t) : P u := by
  rcases eq_or_eq_of_binding h with ⟨_, rfl⟩ | ⟨_, rfl⟩
  · exact ht
  · exact hP.var x

theorem All.eliminated (hP : Kept P) (h : p.All P) (hr : p.eliminated = .ok r) : r.All P := by
  rcases eq_or_exists_of_eliminate hr with rfl | ⟨x, t, rest, y, u, hes, hb, rfl⟩
  · exact ⟨h.different, h.solved⟩
  · have hu : P u := by
      refine of_binding hP hb (h.different ⟨.var x, t⟩ ?_).2
      exact (hes _).2 (Or.inl rfl)
    have hacc := accepts_of_binding hb
    refine ⟨?_, into_compose fun v => hP.apply hacc hu (h.solved.lookup hP.var v)⟩
    rw [List.forall_mem_map]
    intro e he
    have hmem := h.different e ((hes e).2 (Or.inr he))
    exact ⟨hP.apply hacc hu hmem.1, hP.apply hacc hu hmem.2⟩

theorem All.step (hP : Kept P) (h : p.All P) (hstep : p.step = .ok q) : q.All P := by
  obtain ⟨_, r, hr, rfl⟩ := exists_of_step hstep
  have hall := h.eliminated hP hr
  refine ⟨both_decompose hP ?_, hall.solved⟩
  rw [List.forall_mem_map]
  exact fun e he => both_orient (hall.equations e he)

theorem All.reaches (hP : Kept P) (h : p.All P) (hpq : p.Reaches q) : q.All P := by
  induction hpq with
  | refl => exact h
  | tail _ hstep ih => exact ih.step hP hstep

/-- The remaining equations have no bound variables, nor have the terms that are bound, and all
variables are among some given ones. -/
structure Apart (S : Variable → Prop) (p : Problem) : Prop where
  /-- Variables of equations are given and not bound. -/
  equations : ∀ v ∈ uniqueVars p.equations, S v ∧ v ∉ p.solved.domain
  /-- Bound variables are given. -/
  domain : ∀ v ∈ p.solved.domain, S v
  /-- Variables of bound terms are given and not bound. -/
  range : ∀ t ∈ p.solved.range, ∀ v ∈ t.vars, S v ∧ v ∉ p.solved.domain

variable {S : Variable → Prop}

/-- Binding a variable keeps the variables apart, provided that it does not occur in its term. -/
theorem Apart.bind {es : List Equation} {y : Variable} {u : Term} (h : p.Apart S)
    (hes : ∀ e ∈ es, e ∈ p.equations) (hy : y ∈ uniqueVars p.equations)
    (hu : ∀ v ∈ u.vars, v ∈ uniqueVars p.equations) (hyu : y ∉ u.vars) :
    Apart S { equations := es.map (Equation.map (single y u).apply)
              solved := p.solved.compose (single y u) } := by
  have hform : (single y u).SolvedForm := solvedForm_single hyu
  have hrange : ∀ t ∈ (single y u).range, ∀ v ∈ t.vars, S v ∧ v ∉ p.solved.domain :=
    fun t ht v hv => h.equations v (hu v (mem_range_single.1 ht ▸ hv))
  have hdomain : ∀ v ∈ (single y u).domain, S v ∧ v ∉ p.solved.domain :=
    fun v hv => mem_domain_single.1 hv ▸ h.equations y hy
  refine ⟨fun v hv => ?_, fun v hv => ?_,
    vars_range_compose_of_unbound hform hrange hdomain h.range⟩
  · obtain ⟨e, he, hve⟩ := mem_uniqueVars.1 hv
    obtain ⟨d, hd, rfl⟩ := List.mem_map.1 he
    have hside {s : Term} (hs : ∀ w ∈ s.vars, w ∈ d.left.vars ∨ w ∈ d.right.vars)
        (hvs : v ∈ ((single y u).apply s).vars) :
        S v ∧ v ∉ (p.solved.compose (single y u)).domain := by
      refine vars_apply_of_unbound hform hrange (fun w hw => h.equations w ?_) v hvs
      exact mem_uniqueVars.2 ⟨d, hes d hd, hs w hw⟩
    rcases hve with hve | hve
    · exact hside (fun _ => Or.inl) hve
    · exact hside (fun _ => Or.inr) hve
  · rcases mem_domain_of_mem_domain_compose hv with hd | hd
    · exact h.domain v hd
    · exact (hdomain v hd).1

theorem Apart.step (h : p.Apart S) (hstep : p.step = .ok q) : q.Apart S := by
  obtain ⟨hob, r, hr, rfl⟩ := exists_of_step hstep
  have hdiff : Apart S { p with equations := p.different } :=
    ⟨fun v hv => h.equations v (mem_uniqueVars_of_filter hv), h.domain, h.range⟩
  have hapart : r.Apart S := by
    rcases eq_or_exists_of_eliminate hr with rfl | ⟨x, t, rest, y, u, hes, hb, rfl⟩
    · exact hdiff
    · have hmem : ⟨.var x, t⟩ ∈ p.different := (hes _).2 (Or.inl rfl)
      have hrest : ∀ e ∈ rest, e ∈ p.different :=
        fun e he => (hes e).2 (Or.inr he)
      obtain ⟨hy, hu, hyu⟩ := vars_of_binding hmem (not_mem_vars_of_obstacle? hob hmem) hb
      exact hdiff.bind hrest hy hu hyu
  refine ⟨fun v hv => hapart.equations v ?_, hapart.domain, hapart.range⟩
  exact mem_uniqueVars_orient.1 (mem_uniqueVars_of_decompose hv)

theorem Apart.reaches (h : p.Apart S) (hpq : p.Reaches q) : q.Apart S := by
  induction hpq with
  | refl => exact h
  | tail _ hstep ih => exact ih.step hstep

/-- A substitution solves the equations of a problem that are left and absorbs the bindings made so
far. -/
structure SolvedBy (θ : Substitution) (p : Problem) : Prop where
  /-- It solves the remaining equations. -/
  solves : θ.Solves p.equations
  /-- It absorbs the bindings. -/
  absorbs : θ.Absorbs p.solved

variable {θ : Substitution}

/-- A solution of an equation satisfies the binding that is made of it. -/
theorem satisfies_binding {x y : Variable} {t u : Term} (h : binding x t = .ok (y, u)) :
    θ.lookup y = θ.apply u ↔ θ.lookup x = θ.apply t := by
  rcases eq_or_eq_of_binding h with ⟨rfl, rfl⟩ | ⟨rfl, rfl⟩
  · exact Iff.rfl
  · exact eq_comm

theorem SolvedBy.eliminated (hp : p.All Canonical) (hθ : θ.Into Canonical) (h : p.SolvedBy θ)
    (hr : p.eliminated = .ok r) : r.SolvedBy θ := by
  have hdiff : θ.Solves p.different := solves_filter_ne.2 h.solves
  rcases eq_or_exists_of_eliminate hr with rfl | ⟨x, t, rest, y, u, hes, hb, rfl⟩
  · exact ⟨hdiff, h.absorbs⟩
  · have hmem : ⟨.var x, t⟩ ∈ p.different := (hes _).2 (Or.inl rfl)
    have hrest : ∀ e ∈ rest, e ∈ p.different :=
      fun e he => (hes e).2 (Or.inr he)
    have hu : u.Canonical := of_binding kept_canonical hb (hp.different _ hmem).2
    have habs : θ.Absorbs (single y u) :=
      absorbs_single ((satisfies_binding hb).2 (hdiff _ hmem))
    refine ⟨?_, h.absorbs.compose habs (into_single hu) hθ⟩
    exact (solves_map_apply habs (into_single hu) hθ).2 fun e he => hdiff e (hrest e he)

theorem SolvedBy.step (hp : p.All Canonical) (hθ : θ.Into Canonical) (h : p.SolvedBy θ)
    (hstep : p.step = .ok q) : q.SolvedBy θ := by
  obtain ⟨_, r, hr, rfl⟩ := exists_of_step hstep
  have hsolved := h.eliminated hp hθ hr
  exact ⟨solves_decompose (solves_map_orient.2 hsolved.solves), hsolved.absorbs⟩

/-- No solution is lost on the way. -/
theorem SolvedBy.reaches (hp : p.All Canonical) (hθ : θ.Into Canonical) (h : p.SolvedBy θ)
    (hpq : p.Reaches q) : q.SolvedBy θ := by
  induction hpq with
  | refl => exact h
  | tail hpr hstep ih => exact ih.step (hp.reaches kept_canonical hpr) hθ hstep

/-- A substitution that absorbs the bindings after a round satisfies the binding of the round,
because its variable was not bound before. -/
theorem Apart.satisfies_of_absorbs (hv : p.Apart S) {x y : Variable} {t u : Term}
    (hmem : ⟨.var x, t⟩ ∈ p.different) (hb : binding x t = .ok (y, u))
    (h : θ.Absorbs (p.solved.compose (single y u))) : θ.lookup y = θ.apply u := by
  have hyd : y ∉ p.solved.domain := by
    refine (hv.equations y (mem_uniqueVars_of_filter (p := fun e => e.left ≠ e.right) ?_)).2
    refine mem_uniqueVars.2 ⟨_, hmem, ?_⟩
    rcases eq_or_eq_of_binding hb with ⟨rfl, _⟩ | ⟨rfl, _⟩
    · exact Or.inl (by simp)
    · exact Or.inr (by simp)
  have hy := h y
  rw [lookup_compose, lookup_of_not_mem_domain hyd, apply_var, lookup_single, if_pos rfl] at hy
  exact hy.symm

/-- A round in which the symbols agree gains no solution. -/
theorem solvedBy_of_step (hp : p.All Canonical) (ha : p.All RespectsArity) (hv : p.Apart S)
    (hθ : θ.Into Canonical) (hstep : p.step = .ok q)
    (hheads : ∀ r, p.eliminated = .ok r → HeadsAgree (r.equations.map orient))
    (h : q.SolvedBy θ) : p.SolvedBy θ := by
  obtain ⟨_, r, hr, rfl⟩ := exists_of_step hstep
  have horiented : ∀ e ∈ r.equations.map orient, e.Both RespectsArity := by
    rw [List.forall_mem_map]
    exact fun e he => both_orient ((ha.eliminated kept_respectsArity hr).equations e he)
  have hsolves : θ.Solves r.equations :=
    solves_map_orient.1 (solves_of_solves_decompose (hheads r hr) horiented h.solves)
  have habsorbs : θ.Absorbs r.solved := h.absorbs
  suffices hdiff : θ.Solves p.different ∧ θ.Absorbs p.solved from
    ⟨solves_filter_ne.1 hdiff.1, hdiff.2⟩
  rcases eq_or_exists_of_eliminate hr with rfl | ⟨x, t, rest, y, u, hes, hb, rfl⟩
  · exact ⟨hsolves, habsorbs⟩
  · have hmem : ⟨.var x, t⟩ ∈ p.different := (hes _).2 (Or.inl rfl)
    have hu : u.Canonical := of_binding kept_canonical hb (hp.different _ hmem).2
    have hyu : θ.lookup y = θ.apply u := hv.satisfies_of_absorbs hmem hb habsorbs
    have habs : θ.Absorbs (single y u) := absorbs_single hyu
    constructor
    · intro e he
      rcases (hes _).1 he with rfl | he
      · exact (satisfies_binding hb).1 hyu
      · exact (solves_map_apply habs (into_single hu) hθ).1 hsolves e he
    · intro v
      have hv := habsorbs v
      rwa [lookup_compose, habs.apply (into_single hu) hθ] at hv

end Problem

section Answer

variable {P : Term → Prop} {es : List Equation} {σ θ : Substitution}

/-- The problem from which unification starts. -/
def start (es : List Equation) : Problem := { equations := es }

theorem all_start (h : ∀ e ∈ es, e.Both P) : (start es).All P := ⟨h, into_empty P⟩

theorem apart_start (es : List Equation) : (start es).Apart (· ∈ uniqueVars es) :=
  ⟨fun _ hv => ⟨hv, List.not_mem_nil⟩, fun _ hv => absurd hv List.not_mem_nil,
    fun _ ht => absurd ht List.not_mem_nil⟩

theorem solvedBy_start (h : θ.Solves es) : (start es).SolvedBy θ := ⟨h, absorbs_empty θ⟩

/-- A property of all sides of the equations holds of all terms in the answer. -/
theorem unify_into (hP : Kept P) (hes : ∀ e ∈ es, e.Both P) (h : unify es = .ok σ) : σ.Into P := by
  obtain ⟨q, hq, _, rfl⟩ := Problem.exists_reaches_of_solve h
  exact ((all_start hes).reaches hP hq).solved

/-- The answer is in solved form and speaks of the variables of the equations only. -/
theorem unify_apart (h : unify es = .ok σ) : σ.SolvedForm ∧
    (∀ v ∈ σ.domain, v ∈ uniqueVars es) ∧ ∀ t ∈ σ.range, ∀ v ∈ t.vars, v ∈ uniqueVars es := by
  obtain ⟨q, hq, _, rfl⟩ := Problem.exists_reaches_of_solve h
  have hv := (apart_start es).reaches hq
  refine ⟨?_, hv.domain, fun t ht v hvt => (hv.range t ht v hvt).1⟩
  intro v hd t ht hvt
  exact (hv.range t ht v hvt).2 hd

/-- Every solution absorbs the answer. -/
theorem unify_absorbs (hes : ∀ e ∈ es, e.Both Canonical) (h : unify es = .ok σ)
    (hθ : θ.Into Canonical) (hs : θ.Solves es) : θ.Absorbs σ := by
  obtain ⟨q, hq, _, rfl⟩ := Problem.exists_reaches_of_solve h
  exact ((solvedBy_start hs).reaches (all_start hes) hθ hq).absorbs

/-- In no round the equation that is decomposed stands between applications of different symbols. -/
def LosesNoClash (es : List Equation) : Prop :=
  ∀ p q r, (start es).Reaches p → p.step = .ok q → p.eliminated = .ok r →
    HeadsAgree (r.equations.map orient)

/-- A solvable system has no clash to lose. -/
theorem losesNoClash_of_solves (hes : ∀ e ∈ es, e.Both Canonical) (hθ : θ.Into Canonical)
    (hs : θ.Solves es) : LosesNoClash es := by
  intro p q r hp hstep hr
  have hall := (all_start hes).reaches kept_canonical hp
  have hsolved := ((solvedBy_start hs).reaches (all_start hes) hθ hp).eliminated hall hθ hr
  exact headsAgree_of_solves (solves_map_orient.2 hsolved.solves)

/-- The answer is a solution if no clash was lost. -/
theorem unify_solves (hes : ∀ e ∈ es, e.Both Canonical) (har : ∀ e ∈ es, e.Both RespectsArity)
    (h : unify es = .ok σ) (hk : LosesNoClash es) : σ.Solves es := by
  obtain ⟨q, hq, hnil, rfl⟩ := Problem.exists_reaches_of_solve h
  have hcan := unify_into kept_canonical hes h
  have hend : q.SolvedBy q.solved :=
    ⟨hnil ▸ fun _ he => absurd he List.not_mem_nil, (unify_apart h).1.absorbs hcan⟩
  -- From the end of the run backwards, the answer solves every problem of the run.
  suffices hback : ∀ p, (start es).Reaches p → p.Reaches q → p.SolvedBy q.solved from
    (hback _ .refl hq).solves
  intro p hp hpq
  induction hpq using Relation.ReflTransGen.head_induction_on with
  | refl => exact hend
  | head hstep _ ih =>
    exact Problem.solvedBy_of_step ((all_start hes).reaches kept_canonical hp)
      ((all_start har).reaches kept_respectsArity hp) ((apart_start es).reaches hp) hcan hstep
      (fun r hr => hk _ _ r hp hstep hr) (ih (hp.tail hstep))

/-- Of solvable systems, the answer is a solution. -/
theorem unify_solves_of_solves (hes : ∀ e ∈ es, e.Both Canonical)
    (har : ∀ e ∈ es, e.Both RespectsArity) (h : unify es = .ok σ) (hθ : θ.Into Canonical)
    (hs : θ.Solves es) : σ.Solves es :=
  unify_solves hes har h (losesNoClash_of_solves hes hθ hs)

/-- An answer of syntactic unification is in solved form, speaks of the variables of the equations
only, and every solution of the equations factors through it. It is a solution itself exactly if
the equations have one, which is the case exactly if no round lost a clash of symbols. -/
theorem unify_mostGeneral (hes : ∀ e ∈ es, e.Both Canonical)
    (har : ∀ e ∈ es, e.Both RespectsArity) (h : unify es = .ok σ) :
    [σ.Solves es, ∃ θ : Substitution, θ.Into Canonical ∧ θ.Solves es, LosesNoClash es].TFAE ∧
      (∀ v ∈ σ.domain, ∀ t ∈ σ.range, v ∉ t.vars) ∧
      (∀ v, v ∈ σ.domain ∨ (∃ t ∈ σ.range, v ∈ t.vars) → ∃ e ∈ es, v ∈ e.vars) ∧
      ∀ θ : Substitution, θ.Into Canonical → θ.Solves es →
        ∀ t : Term, t.Canonical → θ.apply (σ.apply t) = θ.apply t := by
  have hcan := unify_into kept_canonical hes h
  obtain ⟨hform, hdom, hrange⟩ := unify_apart h
  refine ⟨?_, hform, ?_, ?_⟩
  · tfae_have 1 → 2 := fun hs => ⟨σ, hcan, hs⟩
    tfae_have 2 → 3 := fun ⟨θ, hθ, hs⟩ => losesNoClash_of_solves hes hθ hs
    tfae_have 3 → 1 := unify_solves hes har h
    tfae_finish
  · intro v hv
    have hmem : v ∈ uniqueVars es := by
      rcases hv with hv | ⟨t, ht, hv⟩
      · exact hdom v hv
      · exact hrange t ht v hv
    simpa [mem_uniqueVars, Equation.vars] using hmem
  · intro θ hθ hs t _
    exact (unify_absorbs hes h hθ hs).apply hcan hθ t

end Answer

open Sample

/-- A variable is to be a sum that collapses when its other variable is bound. -/
def collapsingSum : List Equation := [⟨.var x, .sum [.var y, a]⟩, ⟨.var y, a⟩]

/-- Both variables are bound, one of them to the rest of the sum. -/
def collapsedSum : Substitution := ⟨⟨[(x, zero), (y, a)], by decide⟩⟩

theorem unify_mostGeneral_collapsingSum :
    (∀ e ∈ collapsingSum, e.Both Canonical) ∧ (∀ e ∈ collapsingSum, e.Both RespectsArity) ∧
      unify collapsingSum = .ok collapsedSum ∧ collapsedSum.Solves collapsingSum ∧
      LosesNoClash collapsingSum := by
  have hes : ∀ e ∈ collapsingSum, e.Both Canonical := by decide
  have har : ∀ e ∈ collapsingSum, e.Both RespectsArity := by decide
  have h : unify collapsingSum = .ok collapsedSum := by cbv
  have hs : collapsedSum.Solves collapsingSum := by decide
  exact ⟨hes, har, h, hs, ((unify_mostGeneral hes har h).1.out 0 2).1 hs⟩

/-- One variable is to be two applications of different symbols. -/
def hiddenClash : List Equation := [⟨.var x, .app f [a]⟩, ⟨.var x, .app g [a]⟩]

/-- The binding of the variable hides the clash in the round that would have to see it. -/
theorem unify_hiddenClash : ∃ σ : Substitution,
    (∀ e ∈ hiddenClash, e.Both Canonical) ∧ (∀ e ∈ hiddenClash, e.Both RespectsArity) ∧
      unify hiddenClash = .ok σ ∧ ¬ σ.Solves hiddenClash := by
  refine ⟨single x (.app f [a]), by decide, by decide, by cbv, by decide⟩

end Unification

end SymbolicXor
