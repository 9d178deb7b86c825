import SymbolicXor.Proofs.IllSortedBindings

/-!
# Presentations of one system

The order of the equations of a system and the order of their sides do not matter to its solutions,
but they decide which variable is bound and which equation is decomposed first. They cannot turn a
unifier into a definitive failure, and two unifiers that are found are instances of each other. They
can decide whether a sum is compared before its variables are bound, and so whether the system is
left to how sums cancel. Where all sums are ground, nothing depends on them.
-/

namespace SymbolicXor

open Term Substitution

/-- An error that does not exclude a substitution: two terms that it makes equal were not compared
because a sum may cancel, or a term had no sort that collapses to the value of a variable. -/
def UnifyError.LeavesOpen (θ : Substitution) : UnifyError → Prop
  | .outsideTheory s t => θ.apply s = θ.apply t ∧ ¬ (s.SumsGround ∧ t.SumsGround)
  | .illSorted x t => θ.lookup x = θ.apply t ∧ θ.Collapses t
  | .occursCheck _ _ => False
  | .functionClash _ _ => False

namespace Unification

variable {θ : Substitution} {es fs : List Equation}

/-- A solution makes two terms equal that are outside the theory. -/
theorem leavesOpen_of_outsideTheory {s t : Term} (hθ : θ.Solves es)
    (h : Obstacle es (.outsideTheory s t)) : (UnifyError.outsideTheory s t).LeavesOpen θ := by
  cases h with
  | openCycle he ht =>
    refine ⟨?_, fun hground => ht hground.2⟩
    rcases he with he | he
    · exact hθ _ he
    · exact (hθ _ he).symm
  | openSum he hout =>
    refine ⟨hθ _ he, fun hground => ?_⟩
    rw [isOutsideTheory_of_sumsGround hground] at hout
    cases hout

/-- A well-sorted solution makes a term collapse that is ill-sorted for a variable. -/
theorem leavesOpen_of_illSorted {x : Variable} {t : Term} (hc : ∀ e ∈ es, e.Both Canonical)
    (hθ : θ.Into Canonical) (hsorted : θ.WellSorted) (hs : θ.Solves es)
    (h : unify es = .error (.illSorted x t)) : (UnifyError.illSorted x t).LeavesOpen θ := by
  obtain ⟨q, hq, hstep⟩ := Problem.exists_reaches_of_solve_error h
  obtain ⟨hmem, err, hb⟩ := Problem.mem_different_of_step_illSorted hstep
  obtain ⟨hx, hvar⟩ := not_accepts_of_binding hb
  have hsolved := (solvedBy_start hs).reaches (all_start hc) hθ hq
  have heq : θ.lookup x = θ.apply t := solves_filter_ne.2 hsolved.solves _ hmem
  exact ⟨heq, collapses_of_accepts_apply hsorted hx hvar (heq ▸ hsorted.lookup x)⟩

/-- No failure excludes a well-sorted solution. -/
theorem leavesOpen_of_unify (hc : ∀ e ∈ es, e.Both Canonical) (hθ : θ.Into Canonical)
    (hsorted : θ.WellSorted) (hs : θ.Solves es) {err : UnifyError} (h : unify es = .error err) :
    err.LeavesOpen θ := by
  have hobstacle (herr : ∀ x t, err ≠ .illSorted x t) : ∃ ds : List Equation, Obstacle ds err ∧
      (∀ d ∈ ds, d.left ≠ d.right) ∧ (∀ d ∈ ds, d.Both Canonical) ∧ θ.Solves ds := by
    obtain ⟨ds, hob, hne, hkept, hds⟩ := exists_obstacle_of_unify hc h herr
    exact ⟨ds, hob, hne, hkept _ kept_canonical hc, hds θ hθ hs⟩
  cases err with
  | occursCheck v t =>
    obtain ⟨ds, hob, hne, _, hds⟩ := hobstacle (by simp)
    exact not_solves_of_occursCheck hne hob hds
  | functionClash s t =>
    obtain ⟨ds, hob, hne, hcan, hds⟩ := hobstacle (by simp)
    exact not_solves_of_functionClash hne hcan hob hds
  | illSorted x t => exact leavesOpen_of_illSorted hc hθ hsorted hs h
  | outsideTheory s t =>
    obtain ⟨ds, hob, _, _, hds⟩ := hobstacle (by simp)
    exact leavesOpen_of_outsideTheory hds hob

/-- The same equations in another order, and some with their sides exchanged. -/
def Rearranged (es fs : List Equation) : Prop :=
  ∃ ds : List Equation, es.Perm ds ∧ List.Forall₂ (fun d f => f = d ∨ f = d.swap) ds fs

/-- The first presentation is a rearrangement of the second in turn. -/
theorem Rearranged.symm (h : Rearranged es fs) : Rearranged fs es := by
  obtain ⟨ds, hperm, hsides⟩ := h
  obtain ⟨gs, hgs, hfs⟩ := List.perm_comp_forall₂ hperm hsides
  refine ⟨gs, hfs.symm, List.Forall₂.flip (hgs.imp fun e g hg => ?_)⟩
  exact hg.imp Eq.symm fun h => by rw [h, Equation.swap, Equation.swap]

/-- A property of all equations of the one presentation that does not depend on the order of sides
holds of all equations of the other. -/
theorem Rearranged.forall_mem {P : Equation → Prop} (h : Rearranged es fs)
    (hP : ∀ e : Equation, P e → P e.swap) (hes : ∀ e ∈ es, P e) : ∀ f ∈ fs, P f := by
  obtain ⟨ds, hperm, hsides⟩ := h
  have hds : ∀ d ∈ ds, P d := fun d hd => hes d (hperm.mem_iff.2 hd)
  clear hperm
  induction hsides with
  | nil => exact hds
  | @cons d f ds fs hd _ ih =>
    obtain ⟨hPd, hPds⟩ := List.forall_mem_cons.1 hds
    refine List.forall_mem_cons.2 ⟨?_, ih hPds⟩
    rcases hd with rfl | rfl
    · exact hPd
    · exact hP d hPd

theorem Rearranged.both {P : Term → Prop} (h : Rearranged es fs) (hes : ∀ e ∈ es, e.Both P) :
    ∀ f ∈ fs, f.Both P :=
  h.forall_mem (fun _ => And.symm) hes

/-- Presentations of one system have the same solutions. -/
theorem Rearranged.solves (h : Rearranged es fs) (hs : θ.Solves es) : θ.Solves fs :=
  h.forall_mem (P := fun e => θ.apply e.left = θ.apply e.right) (fun _ => Eq.symm) hs

/-- If the equations have a well-sorted solution, unification finds a unifier of which it is an
instance, or it leaves the solution open. -/
theorem unify_or_leavesOpen (hc : ∀ e ∈ es, e.Both Canonical)
    (har : ∀ e ∈ es, e.Both RespectsArity) (hθ : θ.Into Canonical) (hsorted : θ.WellSorted)
    (hs : θ.Solves es) :
    (∃ σ, unify es = .ok σ ∧ σ.Solves es ∧ ∀ t, θ.apply (σ.apply t) = θ.apply t) ∨
      ∃ err, unify es = .error err ∧ err.LeavesOpen θ := by
  cases h : unify es with
  | error err => exact Or.inr ⟨err, rfl, leavesOpen_of_unify hc hθ hsorted hs h⟩
  | ok σ =>
    have habs : θ.Absorbs σ := unify_absorbs hc h hθ hs
    exact Or.inl ⟨σ, rfl, unify_solves_of_solves hc har h hθ hs,
      habs.apply (unify_into kept_canonical hc h) hθ⟩

/-- Where all sums are ground, a unifier that is found for one presentation is found for all. -/
theorem exists_unify_of_rearranged (h : Rearranged es fs) (hc : ∀ e ∈ es, e.Both Canonical)
    (har : ∀ e ∈ es, e.Both RespectsArity) (hg : ∀ e ∈ es, e.Both SumsGround)
    (hfound : ∃ σ, unify es = .ok σ ∧ σ.Solves es) : ∃ τ, unify fs = .ok τ ∧ τ.Solves fs := by
  obtain ⟨σ, hσ, hs⟩ := hfound
  have hcan : σ.Into Canonical := unify_into kept_canonical hc hσ
  have hsf : σ.Solves fs := h.solves hs
  obtain ⟨τ, hτ⟩ := exists_unify_of_solves (h.both hc) (h.both hg)
    (fun v _ => (unify_wellSorted hσ).lookup v) hcan hsf
  exact ⟨τ, hτ, unify_solves_of_solves (h.both hc) (h.both har) hτ hcan hsf⟩

/-- A unifier that is found for one presentation of a system is found for every other, up to
instances, unless unification leaves it open there. Where all sums are ground, nothing is left open:
either a unifier is found for both presentations or for none. -/
theorem unify_rearranged (h : Rearranged es fs) (hc : ∀ e ∈ es, e.Both Canonical)
    (har : ∀ e ∈ es, e.Both RespectsArity) :
    (∀ σ, unify es = .ok σ → σ.Solves es →
      (∃ τ, unify fs = .ok τ ∧ τ.Solves fs ∧
        (∀ t, σ.apply (τ.apply t) = σ.apply t) ∧ ∀ t, τ.apply (σ.apply t) = τ.apply t) ∨
      ∃ err, unify fs = .error err ∧ err.LeavesOpen σ) ∧
    ((∀ e ∈ es, e.Both SumsGround) →
      ((∃ σ, unify es = .ok σ ∧ σ.Solves es) ↔ ∃ τ, unify fs = .ok τ ∧ τ.Solves fs)) := by
  constructor
  · intro σ hσ hs
    have hcan : σ.Into Canonical := unify_into kept_canonical hc hσ
    refine (unify_or_leavesOpen (h.both hc) (h.both har) hcan (unify_wellSorted hσ)
      (h.solves hs)).imp_left ?_
    rintro ⟨τ, hτ, hsτ, hinstance⟩
    have hcan' : τ.Into Canonical := unify_into kept_canonical (h.both hc) hτ
    have habs : τ.Absorbs σ := unify_absorbs hc hσ hcan' (h.symm.solves hsτ)
    exact ⟨τ, hτ, hsτ, hinstance, habs.apply hcan hcan'⟩
  · intro hg
    exact ⟨exists_unify_of_rearranged h hc har hg,
      exists_unify_of_rearranged h.symm (h.both hc) (h.both har) (h.both hg)⟩

open Sample

/-- Two sums below a symbol, the first with a variable. -/
def sumsBelow : Equation := ⟨.app f [.sum [.var x, b]], .app f [.sum [a, b]]⟩

/-- The variable of the sum is bound in the first round. -/
def boundFirst : List Equation := [sumsBelow, ⟨.var x, a⟩]

/-- The sides of the last equation are exchanged, and the sums are compared first. -/
def comparedFirst : List Equation := [sumsBelow, ⟨a, .var x⟩]

theorem unify_rearranged_boundFirst :
    (Rearranged boundFirst comparedFirst ∧ (∀ e ∈ boundFirst, e.Both Canonical) ∧
      (∀ e ∈ boundFirst, e.Both RespectsArity) ∧ unify boundFirst = .ok (single x a) ∧
      (single x a).Solves boundFirst ∧
      ∃ err, unify comparedFirst = .error err ∧ err.LeavesOpen (single x a)) ∧
    (Rearranged groundSum (groundSum.map Equation.swap) ∧ (∀ e ∈ groundSum, e.Both Canonical) ∧
      (∀ e ∈ groundSum, e.Both RespectsArity) ∧ (∀ e ∈ groundSum, e.Both SumsGround) ∧
      unify groundSum = .ok groundSumValues ∧ groundSumValues.Solves groundSum ∧
      ∃ τ, unify (groundSum.map Equation.swap) = .ok τ ∧
        τ.Solves (groundSum.map Equation.swap)) := by
  have hbound : Rearranged boundFirst comparedFirst :=
    ⟨boundFirst, .refl _, .cons (.inl rfl) (.cons (.inr rfl) .nil)⟩
  have hground : Rearranged groundSum (groundSum.map Equation.swap) :=
    ⟨groundSum, .refl _, .cons (.inr rfl) .nil⟩
  have hc : ∀ e ∈ boundFirst, e.Both Canonical := by decide
  have har : ∀ e ∈ boundFirst, e.Both RespectsArity := by decide
  have hc' : ∀ e ∈ groundSum, e.Both Canonical := by decide
  have har' : ∀ e ∈ groundSum, e.Both RespectsArity := by decide
  have hg : ∀ e ∈ groundSum, e.Both SumsGround := by decide
  have hok : unify boundFirst = .ok (single x a) := by cbv
  have hs : (single x a).Solves boundFirst := by decide
  have herr : unify comparedFirst = .error (.outsideTheory (.sum [.var x, b]) (.sum [a, b])) := by
    cbv
  have hok' : unify groundSum = .ok groundSumValues := by cbv
  have hs' : groundSumValues.Solves groundSum := by decide
  refine ⟨⟨hbound, hc, har, hok, hs, ?_⟩, hground, hc', har', hg, hok', hs', ?_⟩
  · refine ((unify_rearranged hbound hc har).1 _ hok hs).resolve_left ?_
    rintro ⟨τ, hτ, _⟩
    rw [herr] at hτ
    cases hτ
  · exact ((unify_rearranged hground hc' har').2 hg).1 ⟨_, hok', hs'⟩

/-- The variable of the sum is bound in the first round, another one after it. -/
def boundInOrder : List Equation := [⟨.var x, a⟩, ⟨.var y, b⟩, sumsBelow]

/-- The other variable is bound in the first round, and the sums are compared before the second. -/
def boundOutOfOrder : List Equation := [⟨.var y, b⟩, ⟨.var x, a⟩, sumsBelow]

/-- Whether a unifier is found can depend on the order of sides and on the order of equations. -/
theorem unify_depends_on_presentation :
    (Rearranged boundFirst comparedFirst ∧ (∀ e ∈ boundFirst, e.Both Canonical) ∧
      (∀ e ∈ boundFirst, e.Both RespectsArity) ∧ unify boundFirst = .ok (single x a) ∧
      unify comparedFirst = .error (.outsideTheory (.sum [.var x, b]) (.sum [a, b]))) ∧
    (Rearranged boundInOrder boundOutOfOrder ∧ (∀ e ∈ boundInOrder, e.Both Canonical) ∧
      (∀ e ∈ boundInOrder, e.Both RespectsArity) ∧ (∃ σ, unify boundInOrder = .ok σ) ∧
      unify boundOutOfOrder = .error (.outsideTheory (.sum [.var x, b]) (.sum [a, b]))) := by
  refine ⟨⟨⟨boundFirst, .refl _, .cons (.inl rfl) (.cons (.inr rfl) .nil)⟩, by decide, by decide,
    by cbv, by cbv⟩, ⟨boundOutOfOrder, .swap _ _ _, ?_⟩, by decide, by decide, ?_, by cbv⟩
  · exact List.forall₂_same.2 fun _ _ => Or.inl rfl
  · exact ⟨⟨⟨[(x, a), (y, b)], by decide⟩⟩, by cbv⟩

end Unification

end SymbolicXor
