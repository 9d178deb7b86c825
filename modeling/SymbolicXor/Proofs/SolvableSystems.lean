import SymbolicXor.Proofs.MostGeneralUnifier
import SymbolicXor.Proofs.WellSorted

/-!
# Solvable systems are solved

Over terms whose sums are ground, syntactic unification fails only on systems without a well-sorted
solution. A solution excludes a clash of symbols; it excludes a cycle because the instance of a term
weighs more than those of the variables in it; and if it is well-sorted, each binding is well-sorted
in one of its two directions, because the sorts form a forest.
-/

namespace SymbolicXor

open Term Substitution

namespace Term

theorem weight_le_weightAll {t : Term} {ts : List Term} (h : t ∈ ts) :
    t.weight ≤ weightAll ts := by
  induction ts with
  | nil => cases h
  | cons s ts ih =>
    rw [weightAll]
    rcases List.mem_cons.1 h with rfl | h
    · omega
    · have hle := ih h
      omega

/-- A summand weighs no more than the whole. -/
theorem weight_le_of_mem_summands {t a : Term} (h : a ∈ t.summands) : a.weight ≤ t.weight := by
  rcases eq_zero_or_atomic_or_sum t with rfl | ht | ⟨ts, rfl⟩
  · simp at h
  · rw [summands_of_atomic ht, List.mem_singleton] at h
    exact h ▸ Nat.le_refl _
  · have hle : a.weight ≤ weightAll ts := weight_le_weightAll h
    rw [weight]
    omega

end Term

namespace Substitution

variable {θ : Substitution} {v : Variable}

/-- A ground sum is its only instance. -/
theorem apply_of_sumsGround {ts : List Term} (hc : (sum ts).Canonical) (hs : (sum ts).SumsGround) :
    θ.apply (sum ts) = sum ts :=
  apply_eq_self hc fun v hv => by simp [vars_of_sumsGround hs] at hv

/-- Bindings to terms whose sums are ground keep the sums ground. -/
theorem sumsGround_apply (hθ : θ.Into SumsGround) {t : Term} (hc : t.Canonical)
    (ht : t.SumsGround) : (θ.apply t).SumsGround := by
  induction t using Term.induction with
  | var v => exact hθ.lookup sumsGround_var v
  | const c => exact sumsGround_const c
  | app f ts ih =>
    rw [apply_app, sumsGround_app, List.forall_mem_map]
    exact fun u hu => ih u hu ((canonical_app f ts).1 hc u hu) ((sumsGround_app f ts).1 ht u hu)
  | sum ts _ => rwa [apply_of_sumsGround hc ht]

/-- In a term whose sums are ground, the value of a variable weighs no more than the instance. -/
theorem weight_lookup_le {t : Term} (ht : t.SumsGround) (hv : v ∈ t.vars) :
    (θ.lookup v).weight ≤ (θ.apply t).weight := by
  induction t using Term.induction with
  | var w =>
    rw [vars_var, List.mem_singleton] at hv
    rw [hv, apply_var]
  | const c => simp at hv
  | app f ts ih =>
    rw [vars_app] at hv
    obtain ⟨t, hmem, hvt⟩ := List.mem_flatMap.1 hv
    have hle := ih t hmem ((sumsGround_app f ts).1 ht t hmem) hvt
    have hall := weight_le_weightAll (List.mem_map_of_mem (f := θ.apply) hmem)
    rw [apply_app, weight]
    omega
  | sum ts _ => simp [vars_of_sumsGround ht] at hv

/-- Below a function symbol it weighs less. -/
theorem weight_lookup_lt {t : Term} (ht : t.SumsGround) (hvar : t.isVar = false) (hv : v ∈ t.vars) :
    (θ.lookup v).weight < (θ.apply t).weight := by
  cases t with
  | app f ts =>
    rw [vars_app] at hv
    obtain ⟨t, hmem, hvt⟩ := List.mem_flatMap.1 hv
    have hle := weight_lookup_le (θ := θ) ((sumsGround_app f ts).1 ht t hmem) hvt
    have hall := weight_le_weightAll (List.mem_map_of_mem (f := θ.apply) hmem)
    rw [apply_app, weight]
    omega
  | var w => simp [isVar] at hvar
  | const c => simp at hv
  | sum ts => simp [vars_of_sumsGround ht] at hv

end Substitution

namespace Unification

variable {θ : Substitution} {es : List Equation}

/-- A variable does not occur in a term with the same instance. -/
theorem occursError?_eq_none {s t : Term} (hne : s ≠ t) (ht : t.SumsGround)
    (h : θ.apply s = θ.apply t) : occursError? s t = none := by
  cases s with
  | var v =>
    simp only [occursError?]
    split
    · rename_i hocc
      rw [occurs_eq_true] at hocc
      have hvar : t.isVar = false := by
        cases t with
        | var w =>
          rw [vars_var, List.mem_singleton] at hocc
          exact absurd (hocc ▸ rfl) hne
        | _ => rfl
      have hlt := weight_lookup_lt (θ := θ) ht hvar hocc
      rw [← h, apply_var] at hlt
      omega
    · rfl
  | _ => rfl

/-- If no sum of an equation may cancel, a sum on one side is ground, as are those on the other. -/
theorem sumsGround_of_isOutsideTheory {s t : Term} (h : isOutsideTheory ⟨s, t⟩ = false)
    (hs : s.isVar = false) (ht : t.isVar = false) (hsum : s.isSum = true ∨ t.isSum = true) :
    s.SumsGround ∧ t.SumsGround := by
  rw [← hasOpenSum_eq_false, ← hasOpenSum_eq_false]
  rcases hsum with hsum | hsum <;> simpa [isOutsideTheory, hs, ht, hsum] using h

/-- Terms with the same instance do not clash unless their sums may cancel. -/
theorem clashes_eq_false {s t : Term} (hne : s ≠ t) (hs : s.Canonical) (ht : t.Canonical)
    (hout : isOutsideTheory ⟨s, t⟩ = false) (h : θ.apply s = θ.apply t) : clashes s t = false := by
  cases s with
  | var v => rfl
  | const c =>
    cases t with
    | var w => rfl
    | const d => exact absurd h hne
    | app g ts => simp at h
    | sum ts =>
      have hground := (sumsGround_of_isOutsideTheory hout rfl rfl (Or.inr rfl)).2
      simp [apply_of_sumsGround ht hground] at h
  | app f ss =>
    cases t with
    | var w => rfl
    | const d => simp at h
    | app g ts =>
      rw [apply_app, apply_app, app.injEq] at h
      simp [clashes, h.1]
    | sum ts =>
      have hground := (sumsGround_of_isOutsideTheory hout rfl rfl (Or.inr rfl)).2
      simp [apply_of_sumsGround ht hground] at h
  | sum ss =>
    cases t with
    | var w => rfl
    | const d =>
      have hground := (sumsGround_of_isOutsideTheory hout rfl rfl (Or.inl rfl)).1
      simp [apply_of_sumsGround hs hground] at h
    | app g ts =>
      have hground := (sumsGround_of_isOutsideTheory hout rfl rfl (Or.inl rfl)).1
      simp [apply_of_sumsGround hs hground] at h
    | sum ts =>
      obtain ⟨hgs, hgt⟩ := sumsGround_of_isOutsideTheory hout rfl rfl (Or.inl rfl)
      rw [apply_of_sumsGround hs hgs, apply_of_sumsGround ht hgt] at h
      exact absurd h hne

theorem isOutsideTheory_of_sumsGround {e : Equation} (h : e.Both SumsGround) :
    isOutsideTheory e = false := by
  simp [isOutsideTheory, hasOpenSum_eq_false.2 h.1, hasOpenSum_eq_false.2 h.2]

/-- A solution of different terms whose sums are ground excludes every obstacle. -/
theorem obstacle?_eq_none (hne : ∀ e ∈ es, e.left ≠ e.right) (hc : ∀ e ∈ es, e.Both Canonical)
    (hs : ∀ e ∈ es, e.Both SumsGround) (hθ : θ.Solves es) : obstacle? es = none := by
  simp only [obstacle?, Option.or_eq_none_iff, Option.map_eq_none_iff, List.find?_eq_none,
    List.findSome?_eq_none_iff]
  refine ⟨fun e he => ?_, fun e he => ?_, fun e he => ?_⟩
  · simp only [cycleError?, Option.or_eq_none_iff]
    exact ⟨occursError?_eq_none (hne e he) (hs e he).2 (hθ e he),
      occursError?_eq_none (hne e he).symm (hs e he).1 (hθ e he).symm⟩
  · simp [isOutsideTheory_of_sumsGround (hs e he)]
  · simp [clashes_eq_false (hne e he) (hc e he).1 (hc e he).2
      (isOutsideTheory_of_sumsGround (hs e he)) (hθ e he)]

/-- A solution that is well-sorted at a variable and at those of the other side lets the variable be
bound. -/
theorem exists_binding {x : Variable} {t : Term} (hc : t.Canonical) (hs : t.SumsGround)
    (hx : x.accepts (θ.lookup x) = true) (ht : ∀ v ∈ t.vars, v.accepts (θ.lookup v) = true)
    (h : θ.lookup x = θ.apply t) : ∃ b, binding x t = .ok b := by
  rw [h] at hx
  by_cases haccepts : x.accepts t = true
  · exact ⟨(x, t), by rw [binding, if_pos haccepts]⟩
  -- A term that is not accepted although its instance is can only be a variable.
  · cases t with
    | var y =>
      have hy : y.accepts (.var x) = true :=
        (Variable.accepts_or_accepts hx (ht y (by simp))).resolve_left haccepts
      exact ⟨(y, .var x), by simp [binding, haccepts, asVar?, hy]⟩
    | const c => exact absurd hx haccepts
    | app f ts =>
      refine absurd ?_ haccepts
      rw [Variable.accepts_iff] at hx ⊢
      simpa [Term.sort] using hx
    | sum ts =>
      rw [apply_of_sumsGround hc hs] at hx
      exact absurd hx haccepts

theorem kept_sumsGround : Kept fun t => t.Canonical ∧ t.SumsGround where
  var v := ⟨canonical_var v, sumsGround_var v⟩
  args h := fun t ht => ⟨(canonical_app _ _).1 h.1 t ht, (sumsGround_app _ _).1 h.2 t ht⟩
  apply {_ _ s} _ ht hs :=
    ⟨canonical_apply (into_single ht.1) s, sumsGround_apply (into_single ht.2) hs.1 hs.2⟩

namespace Problem

variable {p : Problem}

/-- A round that meets no obstacle succeeds if a solution is well-sorted at all variables. -/
theorem exists_step (hp : p.All fun t => t.Canonical ∧ t.SumsGround)
    (hob : obstacle? p.different = none)
    (hv : ∀ v ∈ uniqueVars p.different, v.accepts (θ.lookup v) = true)
    (hθ : θ.Solves p.different) : ∃ q, p.step = .ok q := by
  have helim : ∃ r, p.eliminated = .ok r := by
    rw [eliminated, eliminate]
    split
    · exact ⟨_, rfl⟩
    · rename_i x t rest htake
      have hmem := (mem_iff_of_takeSolved htake).2 (Or.inl rfl)
      obtain ⟨hc, hs⟩ := (hp.different _ hmem).2
      obtain ⟨b, hb⟩ := exists_binding hc hs
        (hv x (mem_uniqueVars.2 ⟨_, hmem, Or.inl (by simp)⟩))
        (fun v hvt => hv v (mem_uniqueVars.2 ⟨_, hmem, Or.inr hvt⟩)) (hθ _ hmem)
      rw [hb]
      exact ⟨_, rfl⟩
  obtain ⟨r, hr⟩ := helim
  rw [step, ← different, hob, ← eliminated, hr]
  exact ⟨_, rfl⟩

/-- A problem over terms whose sums are ground is solved to the end if it has a solution that is
well-sorted at all variables. -/
theorem exists_solve (hp : p.All fun t => t.Canonical ∧ t.SumsGround)
    (hv : p.Apart fun v => v.accepts (θ.lookup v) = true) (hθ : θ.Into Canonical)
    (h : p.SolvedBy θ) : ∃ σ, p.solve = .ok σ := by
  have hcanonical {q : Problem} (hq : q.All fun t => t.Canonical ∧ t.SumsGround) :
      q.All Canonical :=
    ⟨fun e he => ⟨(hq.equations e he).1.1, (hq.equations e he).2.1⟩, fun t ht => (hq.solved t ht).1⟩
  fun_induction Problem.solve p with
  | case1 p hnil => exact ⟨_, rfl⟩
  | case2 p hnil e hstep =>
    have hne : ∀ e ∈ p.different, e.left ≠ e.right := fun e he => by
      simpa using (List.mem_filter.1 he).2
    have hsolves : θ.Solves p.different := solves_filter_ne.2 h.solves
    have hground : ∀ e ∈ p.different, e.Both SumsGround :=
      fun e he => ⟨(hp.different e he).1.2, (hp.different e he).2.2⟩
    have hob := obstacle?_eq_none hne (hcanonical hp).different hground hsolves
    obtain ⟨q, hq⟩ := exists_step hp hob
      (fun v hmem => (hv.equations v (mem_uniqueVars_of_filter hmem)).1) hsolves
    rw [hstep] at hq
    cases hq
  | case3 p hnil q hstep ih =>
    exact ih (hp.step kept_sumsGround hstep) (hv.step hstep) (h.step (hcanonical hp) hθ hstep)

end Problem

/-- A system over terms whose sums are ground is unified if it has a solution that is well-sorted at
all its variables. -/
theorem exists_unify_of_solves (hc : ∀ e ∈ es, e.Both Canonical) (hs : ∀ e ∈ es, e.Both SumsGround)
    (hv : ∀ v ∈ uniqueVars es, v.accepts (θ.lookup v) = true) (hθ : θ.Into Canonical)
    (h : θ.Solves es) : ∃ σ, unify es = .ok σ := by
  have hall : (start es).All fun t => t.Canonical ∧ t.SumsGround :=
    all_start fun e he => ⟨⟨(hc e he).1, (hs e he).1⟩, (hc e he).2, (hs e he).2⟩
  have hapart : (start es).Apart fun v => v.accepts (θ.lookup v) = true :=
    ⟨fun v hmem => ⟨hv v hmem, List.not_mem_nil⟩, fun _ hmem => absurd hmem List.not_mem_nil,
      fun _ ht => absurd ht List.not_mem_nil⟩
  exact Problem.exists_solve hall hapart hθ (solvedBy_start h)

end Unification

end SymbolicXor
