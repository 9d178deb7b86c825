import SymbolicXor.Proofs.SolvableSystems

/-!
# Definitive failures

A failure of syntactic unification on a cycle or a clash is definitive. Both are found in equations
that every solution of the system solves, and no substitution solves an equation with either: the
term of a cycle has no sum that may cancel, and of two terms that clash neither has. Over terms
whose sums are ground nothing is left open: a well-sorted solution exists exactly if unification
succeeds and no round lost a clash.
-/

namespace SymbolicXor

open Term Substitution

namespace Unification

variable {θ σ : Substitution} {es : List Equation}

/-- An equation that is to blame for an error. -/
inductive Obstacle (es : List Equation) : UnifyError → Prop where
  /-- A variable occurs in the other side, which has no sum that may cancel. -/
  | cycle {v t} (he : ⟨.var v, t⟩ ∈ es ∨ ⟨t, .var v⟩ ∈ es) (hv : v ∈ t.vars) (ht : t.SumsGround) :
    Obstacle es (.occursCheck v t)
  /-- A variable occurs in the other side, which has a sum that may cancel. -/
  | openCycle {v t} (he : ⟨.var v, t⟩ ∈ es ∨ ⟨t, .var v⟩ ∈ es) (ht : ¬ t.SumsGround) :
    Obstacle es (.outsideTheory (.var v) t)
  /-- The sides are to be compared by a sum that may cancel. -/
  | openSum {e} (he : e ∈ es) (hout : isOutsideTheory e = true) :
    Obstacle es (.outsideTheory e.left e.right)
  /-- The heads differ, and no sum may cancel. -/
  | clash {e} (he : e ∈ es) (hout : isOutsideTheory e = false)
    (hclash : clashes e.left e.right = true) : Obstacle es (.functionClash e.left e.right)

theorem obstacle_of_occursError? {s t : Term} {err : UnifyError}
    (he : ⟨s, t⟩ ∈ es ∨ ⟨t, s⟩ ∈ es) (h : occursError? s t = some err) : Obstacle es err := by
  cases s with
  | var v =>
    simp only [occursError?] at h
    split at h
    · rename_i hocc
      split at h
      · rename_i hopen
        cases h
        refine .openCycle he ?_
        rw [← hasOpenSum_eq_false, hopen]
        decide
      · rename_i hopen
        cases h
        exact .cycle he (occurs_eq_true.1 hocc) (hasOpenSum_eq_false.1 (by simpa using hopen))
    · cases h
  | _ => cases h

/-- An obstacle of a system is one of its equations. -/
theorem obstacle_of_obstacle? {err : UnifyError} (h : obstacle? es = some err) :
    Obstacle es err := by
  rw [obstacle?, Option.or_eq_some_iff, Option.or_eq_some_iff] at h
  rcases h with hcycle | ⟨_, hopen | ⟨hnone, hclash⟩⟩
  · obtain ⟨⟨l, r⟩, he, hcycle⟩ := List.exists_of_findSome?_eq_some hcycle
    rcases Option.or_eq_some_iff.1 hcycle with hl | ⟨_, hr⟩
    · exact obstacle_of_occursError? (Or.inl he) hl
    · exact obstacle_of_occursError? (Or.inr he) hr
  · obtain ⟨e, he, rfl⟩ := Option.map_eq_some_iff.1 hopen
    exact .openSum (List.mem_of_find?_eq_some he) (List.find?_some he)
  · obtain ⟨e, he, rfl⟩ := Option.map_eq_some_iff.1 hclash
    have hmem := List.mem_of_find?_eq_some he
    rw [Option.map_eq_none_iff, List.find?_eq_none] at hnone
    have hclash := List.find?_some (p := fun e : Equation => clashes e.left e.right) he
    exact .clash hmem (by simpa using hnone e hmem) hclash

/-- No substitution solves equations with a cycle. -/
theorem not_solves_of_occursCheck (hne : ∀ e ∈ es, e.left ≠ e.right) {v : Variable} {t : Term}
    (h : Obstacle es (.occursCheck v t)) : ¬ θ.Solves es := by
  intro hθ
  cases h with
  | cycle he hv ht =>
    have hsides : Term.var v ≠ t ∧ θ.apply (.var v) = θ.apply t := by
      rcases he with he | he
      · exact ⟨hne _ he, hθ _ he⟩
      · exact ⟨(hne _ he).symm, (hθ _ he).symm⟩
    have hnone := occursError?_eq_none hsides.1 ht hsides.2
    simp only [occursError?, occurs_eq_true.2 hv, if_true] at hnone
    split at hnone <;> cases hnone

/-- No substitution solves equations with a clash. -/
theorem not_solves_of_functionClash (hne : ∀ e ∈ es, e.left ≠ e.right)
    (hc : ∀ e ∈ es, e.Both Canonical) {s t : Term} (h : Obstacle es (.functionClash s t)) :
    ¬ θ.Solves es := by
  intro hθ
  cases h with
  | clash he hout hclash =>
    rw [clashes_eq_false (hne _ he) (hc _ he).1 (hc _ he).2 hout (hθ _ he)] at hclash
    cases hclash

/-- Where all sums are ground, no equation is outside the theory. -/
theorem not_obstacle_outsideTheory (hs : ∀ e ∈ es, e.Both SumsGround) {s t : Term} :
    ¬ Obstacle es (.outsideTheory s t) := by
  intro h
  cases h with
  | openCycle he ht =>
    rcases he with he | he
    · exact ht (hs _ he).2
    · exact ht (hs _ he).1
  | openSum he hout =>
    rw [isOutsideTheory_of_sumsGround (hs _ he)] at hout
    cases hout

theorem illSorted_of_binding {x : Variable} {t : Term} {err : UnifyError}
    (h : binding x t = .error err) : err = .illSorted x t := by
  unfold binding at h
  split at h
  · cases h
  · split at h
    · split at h
      · cases h
      · cases h
        rfl
    · cases h
      rfl

namespace Problem

variable {p q : Problem} {err : UnifyError}

theorem different_ne (p : Problem) : ∀ e ∈ p.different, e.left ≠ e.right := fun e he => by
  simpa using (List.mem_filter.1 he).2

theorem illSorted_of_eliminated (h : p.eliminated = .error err) : ∃ x t, err = .illSorted x t := by
  unfold eliminated eliminate at h
  split at h
  · cases h
  · rename_i x t rest _
    cases hb : binding x t with
    | ok b =>
      rw [hb] at h
      cases h
    | error e =>
      rw [hb] at h
      cases h
      exact ⟨x, t, illSorted_of_binding hb⟩

/-- A round fails on an obstacle, or on a binding that is well-sorted in no direction. -/
theorem obstacle_or_illSorted_of_step (h : p.step = .error err) :
    Obstacle p.different err ∨ ∃ x t, err = .illSorted x t := by
  simp only [step] at h
  rw [← different] at h
  split at h
  · rename_i e hob
    cases h
    exact Or.inl (obstacle_of_obstacle? hob)
  · rw [← eliminated] at h
    cases hr : p.eliminated with
    | ok r =>
      rw [hr] at h
      cases h
    | error e =>
      rw [hr] at h
      cases h
      exact Or.inr (illSorted_of_eliminated hr)

/-- A problem fails in a round that it reaches. -/
theorem exists_reaches_of_solve_error (h : p.solve = .error err) :
    ∃ q, p.Reaches q ∧ q.step = .error err := by
  fun_induction Problem.solve p with
  | case1 p hp => cases h
  | case2 p hp e hstep =>
    cases h
    exact ⟨p, .refl, hstep⟩
  | case3 p hp q hstep ih =>
    obtain ⟨r, hqr, hr⟩ := ih h
    exact ⟨r, .head hstep hqr, hr⟩

theorem wellSorted_step (h : p.solved.WellSorted) (hstep : p.step = .ok q) :
    q.solved.WellSorted := by
  obtain ⟨_, r, hr, rfl⟩ := exists_of_step hstep
  rcases eq_or_exists_of_eliminate hr with rfl | ⟨x, t, rest, y, u, _, hb, rfl⟩
  · exact h
  · exact h.compose (wellSorted_single (accepts_of_binding hb))

theorem wellSorted_reaches (h : p.solved.WellSorted) (hpq : p.Reaches q) :
    q.solved.WellSorted := by
  induction hpq with
  | refl => exact h
  | tail _ hstep ih => exact wellSorted_step ih hstep

end Problem

/-- The answer is well-sorted. -/
theorem unify_wellSorted (h : unify es = .ok σ) : σ.WellSorted := by
  obtain ⟨q, hq, _, rfl⟩ := Problem.exists_reaches_of_solve h
  exact Problem.wellSorted_reaches wellSorted_empty hq

/-- A failure other than on sorts is an obstacle in a system that every solution solves. -/
theorem exists_obstacle_of_unify {err : UnifyError} (hc : ∀ e ∈ es, e.Both Canonical)
    (h : unify es = .error err) (herr : ∀ x t, err ≠ .illSorted x t) :
    ∃ ds : List Equation, Obstacle ds err ∧ (∀ d ∈ ds, d.left ≠ d.right) ∧
      (∀ P, Kept P → (∀ e ∈ es, e.Both P) → ∀ d ∈ ds, d.Both P) ∧
      ∀ θ : Substitution, θ.Into Canonical → θ.Solves es → θ.Solves ds := by
  obtain ⟨q, hq, hstep⟩ := Problem.exists_reaches_of_solve_error h
  rcases Problem.obstacle_or_illSorted_of_step hstep with hob | ⟨x, t, rfl⟩
  · refine ⟨q.different, hob, q.different_ne, fun P hP hes => ?_, fun θ hθ hs => ?_⟩
    · exact ((all_start hes).reaches hP hq).different
    · exact solves_filter_ne.2 ((solvedBy_start hs).reaches (all_start hc) hθ hq).solves
  · exact absurd rfl (herr x t)

/-- An occurs check and a function clash are definitive: the equations have no solution. Where all
sums are ground, unification answers for every system: no equation is outside the theory, and a
well-sorted solution exists exactly if it succeeds without losing a clash. -/
theorem unify_failure_definitive (hc : ∀ e ∈ es, e.Both Canonical)
    (har : ∀ e ∈ es, e.Both RespectsArity) :
    (∀ v t, unify es = .error (.occursCheck v t) →
      ¬ ∃ θ : Substitution, θ.Into Canonical ∧ θ.Solves es) ∧
    (∀ s t, unify es = .error (.functionClash s t) →
      ¬ ∃ θ : Substitution, θ.Into Canonical ∧ θ.Solves es) ∧
    ((∀ e ∈ es, e.Both SumsGround) →
      (∀ s t, unify es ≠ .error (.outsideTheory s t)) ∧
      ((∃ θ : Substitution, θ.Into Canonical ∧ θ.WellSorted ∧ θ.Solves es) ↔
        (∃ σ, unify es = .ok σ) ∧ LosesNoClash es)) := by
  refine ⟨fun v t h => ?_, fun s t h => ?_, fun hs => ⟨fun s t h => ?_, ?_⟩⟩
  · rintro ⟨θ, hθ, hsolves⟩
    obtain ⟨ds, hob, hne, _, hds⟩ := exists_obstacle_of_unify hc h (by simp)
    exact not_solves_of_occursCheck hne hob (hds θ hθ hsolves)
  · rintro ⟨θ, hθ, hsolves⟩
    obtain ⟨ds, hob, hne, hkept, hds⟩ := exists_obstacle_of_unify hc h (by simp)
    exact not_solves_of_functionClash hne (hkept _ kept_canonical hc) hob (hds θ hθ hsolves)
  · obtain ⟨ds, hob, _, hkept, _⟩ := exists_obstacle_of_unify hc h (by simp)
    have hground := hkept _ kept_sumsGround fun e he =>
      ⟨⟨(hc e he).1, (hs e he).1⟩, (hc e he).2, (hs e he).2⟩
    exact not_obstacle_outsideTheory (fun d hd => ⟨(hground d hd).1.2, (hground d hd).2.2⟩) hob
  · constructor
    · rintro ⟨θ, hθ, hsorted, hsolves⟩
      exact ⟨exists_unify_of_solves hc hs (fun v _ => hsorted.lookup v) hθ hsolves,
        losesNoClash_of_solves hc hθ hsolves⟩
    · rintro ⟨⟨σ, hσ⟩, hclash⟩
      exact ⟨σ, unify_into kept_canonical hc hσ, unify_wellSorted hσ,
        unify_solves hc har hσ hclash⟩

open Sample

/-- Two variables that stand for each other below a function symbol. -/
def indirectCycle : List Equation := [⟨.var x, .app f [.var y]⟩, ⟨.var y, .app g [.var x]⟩]

/-- Different ground sums, the one through a variable. -/
def rigidSums : List Equation := [⟨.var x, .sum [a, b]⟩, ⟨.app f [.var x], .app f [zero]⟩]

/-- A ground sum is the value of a variable. -/
def groundSum : List Equation :=
  [⟨.app p [.var x, .sum [a, b]], .app p [.app f [.var y], .var z]⟩]

/-- The values of both variables on the right. -/
def groundSumValues : Substitution :=
  ⟨⟨[(x, .app f [.var y]), (z, .sum [a, b])], by decide⟩⟩

theorem unify_failure_definitive_rigidSums :
    ((∀ e ∈ indirectCycle, e.Both Canonical) ∧ (∀ e ∈ indirectCycle, e.Both RespectsArity) ∧
      unify indirectCycle = .error (.occursCheck y (.app g [.app f [.var y]])) ∧
      ¬ ∃ θ : Substitution, θ.Into Canonical ∧ θ.Solves indirectCycle) ∧
    ((∀ e ∈ rigidSums, e.Both Canonical) ∧ (∀ e ∈ rigidSums, e.Both RespectsArity) ∧
      unify rigidSums = .error (.functionClash (.sum [a, b]) zero) ∧
      ¬ ∃ θ : Substitution, θ.Into Canonical ∧ θ.Solves rigidSums) ∧
    (∀ e ∈ groundSum, e.Both Canonical) ∧ (∀ e ∈ groundSum, e.Both RespectsArity) ∧
      (∀ e ∈ groundSum, e.Both SumsGround) ∧ groundSumValues.Solves groundSum ∧
      (∃ σ, unify groundSum = .ok σ) ∧ LosesNoClash groundSum := by
  have hcycle : ∀ e ∈ indirectCycle, e.Both Canonical := by decide
  have hcycle' : ∀ e ∈ indirectCycle, e.Both RespectsArity := by decide
  have hoccurs : unify indirectCycle = .error (.occursCheck y (.app g [.app f [.var y]])) := by cbv
  have hrigid : ∀ e ∈ rigidSums, e.Both Canonical := by decide
  have hrigid' : ∀ e ∈ rigidSums, e.Both RespectsArity := by decide
  have hclash : unify rigidSums = .error (.functionClash (.sum [a, b]) zero) := by cbv
  have hground : ∀ e ∈ groundSum, e.Both Canonical := by decide
  have hground' : ∀ e ∈ groundSum, e.Both RespectsArity := by decide
  have hsums : ∀ e ∈ groundSum, e.Both SumsGround := by decide
  have hsolves : groundSumValues.Solves groundSum := by decide
  refine ⟨⟨hcycle, hcycle', hoccurs, (unify_failure_definitive hcycle hcycle').1 _ _ hoccurs⟩,
    ⟨hrigid, hrigid', hclash, (unify_failure_definitive hrigid hrigid').2.1 _ _ hclash⟩,
    hground, hground', hsums, hsolves, ?_⟩
  have hiff := ((unify_failure_definitive hground hground').2.2 hsums).2
  exact hiff.1 ⟨groundSumValues, by decide, by decide, hsolves⟩

/-- A system whose clash is lost is answered although it has no solution. -/
theorem unify_lostClash : ∃ σ : Substitution,
    (∀ e ∈ hiddenClash, e.Both Canonical) ∧ (∀ e ∈ hiddenClash, e.Both RespectsArity) ∧
      (∀ e ∈ hiddenClash, e.Both SumsGround) ∧ unify hiddenClash = .ok σ ∧
      ¬ ∃ θ : Substitution, θ.Into Canonical ∧ θ.WellSorted ∧ θ.Solves hiddenClash := by
  refine ⟨single x (.app f [a]), by decide, by decide, by decide, by cbv, ?_⟩
  rintro ⟨θ, _, _, hθ⟩
  have hf := hθ ⟨.var x, .app f [a]⟩ (by decide)
  have hg := hθ ⟨.var x, .app g [a]⟩ (by decide)
  rw [hf, apply_app, apply_app, app.injEq] at hg
  exact absurd hg.1 (by decide)

end Unification

end SymbolicXor
