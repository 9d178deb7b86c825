import SymbolicXor.Proofs.DefinitiveFailure
import SymbolicXor.Proofs.SortPreservation

/-!
# Ill-sorted bindings

Where unification fails on sorts, the equation to blame is one that every solution solves, between a
variable and a term that it does not accept. Constants and applications keep their sort in every
instance, and of two variables with one instance one accepts the other, so such an equation has no
well-sorted solution. A sum with a variable is different: it has no sort, but an instance in which
its summands cancel may have one.
-/

namespace SymbolicXor

open Term Substitution

namespace Substitution

/-- A sum comes to a term that is no sum. -/
def Collapses (θ : Substitution) (t : Term) : Prop :=
  t.isSum = true ∧ (θ.apply t).isSum = false

/-- Only a sum with variables collapses. -/
theorem Collapses.vars_ne_nil {θ : Substitution} {t : Term} (hc : t.Canonical)
    (h : θ.Collapses t) : t.vars ≠ [] := by
  intro hnil
  have hself : θ.apply t = t := apply_eq_self hc fun v hv => by simp [hnil] at hv
  rw [Collapses, hself] at h
  exact absurd (h.1.symm.trans h.2) (by decide)

end Substitution

namespace Unification

variable {θ : Substitution} {es : List Equation} {x : Variable} {t : Term}

/-- A binding fails if no direction is well-sorted. -/
theorem not_accepts_of_binding {err : UnifyError} (h : binding x t = .error err) :
    x.accepts t = false ∧ ∀ y, t = .var y → y.accepts (.var x) = false := by
  unfold binding at h
  split at h
  · cases h
  · rename_i hx
    refine ⟨by simpa using hx, ?_⟩
    rintro y rfl
    simp only [asVar?] at h
    split at h
    · cases h
    · rename_i hy
      simpa using hy

/-- A term that is accepted only in an instance is a sum that collapses, unless it is a variable
that would accept in turn. -/
theorem collapses_of_accepts_apply (hθ : θ.WellSorted) (hx : x.accepts t = false)
    (hvar : ∀ y, t = .var y → y.accepts (.var x) = false) (h : x.accepts (θ.apply t) = true) :
    θ.Collapses t := by
  cases t with
  | var y =>
    rcases Variable.accepts_or_accepts h (hθ.lookup y) with hxy | hyx
    · exact absurd (hx.symm.trans hxy) (by decide)
    · exact absurd ((hvar y rfl).symm.trans hyx) (by decide)
  | sum ts =>
    refine ⟨rfl, ?_⟩
    cases hsum : θ.apply (.sum ts) with
    | sum us =>
      -- No sum has a sort, so all sums are accepted alike.
      have hsame : x.accepts (.sum us) = x.accepts (.sum ts) := rfl
      rw [hsum, hsame, hx] at h
      cases h
    | _ => rfl
  | _ =>
    rw [accepts_apply_of_rigid rfl rfl, hx] at h
    cases h

namespace Problem

variable {p : Problem}

/-- The equation that a round finds ill-sorted is one of those that were left. -/
theorem mem_different_of_step_illSorted (h : p.step = .error (.illSorted x t)) :
    ⟨.var x, t⟩ ∈ p.different ∧ ∃ err, binding x t = .error err := by
  simp only [step] at h
  rw [← different] at h
  split at h
  · rename_i err hob
    cases h
    cases obstacle_of_obstacle? hob
  · rw [eliminate] at h
    split at h
    · cases h
    · rename_i y u rest htake
      cases hb : binding y u with
      | ok b =>
        rw [hb] at h
        cases h
      | error err =>
        rw [hb, illSorted_of_binding hb] at h
        cases h
        exact ⟨(mem_iff_of_takeSolved htake).2 (Or.inl rfl), err, hb⟩

end Problem

/-- A failure on sorts is definitive but for a sum that may collapse. Every well-sorted solution of
the equations makes the variable and the term of the failure equal although the variable does not
accept the term, and that only by collapsing the term. So if the term is no sum with a variable, the
equations have no well-sorted solution. -/
theorem unify_illSorted_definitive (hc : ∀ e ∈ es, e.Both Canonical)
    (h : unify es = .error (.illSorted x t)) :
    x.accepts t = false ∧
      (∀ θ : Substitution, θ.Into Canonical → θ.WellSorted → θ.Solves es →
        θ.lookup x = θ.apply t ∧ θ.Collapses t) ∧
      ((t.isSum = true → t.vars = []) →
        ¬ ∃ θ : Substitution, θ.Into Canonical ∧ θ.WellSorted ∧ θ.Solves es) := by
  obtain ⟨q, hq, hstep⟩ := Problem.exists_reaches_of_solve_error h
  obtain ⟨hmem, err, hb⟩ := Problem.mem_different_of_step_illSorted hstep
  obtain ⟨hx, hvar⟩ := not_accepts_of_binding hb
  have hcollapse (θ : Substitution) (hθ : θ.Into Canonical) (hsorted : θ.WellSorted)
      (hs : θ.Solves es) : θ.lookup x = θ.apply t ∧ θ.Collapses t := by
    have hsolved := (solvedBy_start hs).reaches (all_start hc) hθ hq
    have heq : θ.lookup x = θ.apply t := solves_filter_ne.2 hsolved.solves _ hmem
    exact ⟨heq, collapses_of_accepts_apply hsorted hx hvar (heq ▸ hsorted.lookup x)⟩
  refine ⟨hx, hcollapse, ?_⟩
  rintro hopen ⟨θ, hθ, hsorted, hs⟩
  have hct : t.Canonical :=
    (((all_start hc).reaches kept_canonical hq).different _ hmem).2
  obtain ⟨_, hcollapsed⟩ := hcollapse θ hθ hsorted hs
  exact hcollapsed.vars_ne_nil hct (hopen hcollapsed.1)

open Sample

/-- A sorted variable turns out to be a ground sum when another variable is bound. -/
def sumForSorted : List Equation :=
  [⟨.app p [.var y, .var Sorted.x], .app p [.sum [a, b], .var y]⟩]

theorem unify_illSorted_definitive_sumForSorted :
    (∀ e ∈ sumForSorted, e.Both Canonical) ∧
      unify sumForSorted = .error (.illSorted Sorted.x (.sum [a, b])) ∧
      ¬ ∃ θ : Substitution, θ.Into Canonical ∧ θ.WellSorted ∧ θ.Solves sumForSorted := by
  have hc : ∀ e ∈ sumForSorted, e.Both Canonical := by decide
  have h : unify sumForSorted = .error (.illSorted Sorted.x (.sum [a, b])) := by cbv
  exact ⟨hc, h, (unify_illSorted_definitive hc h).2.2 fun _ => by decide⟩

/-- A sorted variable is to be the sum of two variables without sorts. -/
def openSumForSorted : List Equation := [⟨.var Sorted.x, .sum [.var y, .var z]⟩]

/-- One of the two variables vanishes, the other takes a value of the sort. -/
def collapsing : Substitution :=
  ⟨⟨[(Sorted.x, Sorted.a), (y, zero), (z, Sorted.a)], by decide⟩⟩

/-- The failure on sorts is not definitive where the sum may collapse. -/
theorem unify_illSorted_openSum :
    (∀ e ∈ openSumForSorted, e.Both Canonical) ∧ (∀ e ∈ openSumForSorted, e.Both RespectsArity) ∧
      (∀ e ∈ openSumForSorted, e.Both Term.WellSorted) ∧
      unify openSumForSorted = .error (.illSorted Sorted.x (.sum [.var y, .var z])) ∧
      collapsing.Into Canonical ∧ collapsing.WellSorted ∧ collapsing.Solves openSumForSorted := by
  exact ⟨by decide, by decide, by decide, by cbv, by decide, by decide, by decide⟩

end Unification

end SymbolicXor
