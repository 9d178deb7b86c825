import SymbolicXor.Collision.Solve
import SymbolicXor.Proofs.SaturationSteps
import SymbolicXor.Proofs.SteadySearches

/-!
# Saturations under larger budgets

A saturation unifies many times, all from one budget, and may be cut off in the middle of a step. It
is steady nevertheless: each of its attempts is, looking in one place after the other keeps that,
and the finished sums, which give the collisions, only grow at the end.
-/

namespace SymbolicXor

namespace Collision

namespace Progress

/-- Whether the budget ran out. -/
def isCutOff : Progress → Bool
  | outOfSteps _ => true
  | _ => false

/-- The same progress with more steps left. -/
def plus (k : Nat) : Progress → Progress
  | outOfSteps b => outOfSteps (b.plus k)
  | nothingNew b => nothingNew (b.plus k)
  | advanced s b => advanced s (b.plus k)

/-- Look elsewhere if there is nothing new. -/
def orElse (p : Progress) (look : Budget → Progress) : Progress :=
  match p with
  | nothingNew b => look b
  | p => p

/-- A way of looking for new sums that makes attempts, one after the other. -/
inductive OfAttempts : (Budget → Progress) → Prop where
  /-- There is nothing to try. -/
  | nothingNew : OfAttempts nothingNew
  /-- There is no need to try. -/
  | advanced (next : Saturation) : OfAttempts (advanced next)
  /-- A single attempt. -/
  | attempt (s : Saturation) (a : Attempt) : OfAttempts (s.attempt a)
  /-- Looking in two places, one after the other. -/
  | orElse {f g : Budget → Progress} (hf : OfAttempts f) (hg : OfAttempts g) :
    OfAttempts fun b => (f b).orElse g

/-- A way of looking for new sums that looks at its budget only to spend it. -/
structure Steady (look : Budget → Progress) : Prop where
  /-- No step is lost or gained. -/
  total : ∀ b, (look b).budget.total = b.total
  /-- It is cut off only when no step is left. -/
  used : ∀ b, (look b).isCutOff = true → (look b).budget.remaining = 0
  /-- Unless it is cut off, more steps make no difference and are left over. -/
  more : ∀ b k, (look b).isCutOff = false → look (b.plus k) = (look b).plus k

theorem steady_nothingNew : Steady nothingNew where
  total _ := rfl
  used _ h := by cases h
  more _ _ _ := rfl

theorem steady_advanced (next : Saturation) : Steady (advanced next) where
  total _ := rfl
  used _ h := by cases h
  more _ _ _ := rfl

variable {f g : Budget → Progress}

/-- Looking in two places, one after the other. -/
theorem Steady.orElse (hf : Steady f) (hg : Steady g) : Steady fun b => (f b).orElse g where
  total b := by
    have htotal := hf.total b
    cases hp : f b with
    | nothingNew left =>
      rw [hp] at htotal
      exact (hg.total left).trans htotal
    | _ =>
      rw [hp] at htotal
      exact htotal
  used b h := by
    have hused := hf.used b
    cases hp : f b with
    | nothingNew left =>
      rw [hp] at h
      exact hg.used left h
    | _ =>
      rw [hp] at hused h
      exact hused h
  more b k h := by
    have hmore := hf.more b k
    cases hp : f b with
    | nothingNew left =>
      rw [hp] at hmore h
      rw [hmore rfl]
      exact hg.more left k h
    | _ =>
      rw [hp] at hmore h
      rw [hmore h]
      rfl

end Progress

open Progress

theorem ofAttempts_firstNew {ι : Type} {look : ι → Budget → Progress}
    (h : ∀ i, OfAttempts (look i)) (is : List ι) : OfAttempts (firstNew look is) := by
  induction is with
  | nil => exact .nothingNew
  | cons i is ih => exact (h i).orElse ih

namespace Saturation

variable {s : Saturation} {budget : Budget}

theorem ofAttempts_cancelPair (s : Saturation) (a : AttackerTerm) (t u : CoeffTerm) :
    OfAttempts (s.cancelPair a t u) := by
  unfold cancelPair
  split
  · exact .attempt s _
  · exact .nothingNew

theorem ofAttempts_cancelSummands (s : Saturation) (a : AttackerTerm) (ts : List CoeffTerm) :
    OfAttempts (s.cancelSummands a ts) :=
  ofAttempts_firstNew (fun _ => ofAttempts_firstNew (s.ofAttempts_cancelPair a _) _) _

theorem ofAttempts_cancel (s : Saturation) (a : AttackerTerm) (rest : List AttackerTerm) :
    OfAttempts (s.cancel a rest) := by
  unfold cancel
  cases a.term with
  | mul l r => exact .advanced _
  | sum ts => exact (s.ofAttempts_cancelSummands a ts).orElse (.advanced (s.finish a rest))
  | _ => exact .advanced _

theorem ofAttempts_combinePair (s : Saturation) (a b : AttackerTerm) (t u : CoeffTerm) :
    OfAttempts (s.combinePair a b t u) := by
  unfold combinePair
  split
  · exact .attempt s _
  · exact .nothingNew

theorem ofAttempts_combineWith (s : Saturation) (a b : AttackerTerm) :
    OfAttempts (s.combineWith a b) := by
  unfold combineWith
  split
  · exact .nothingNew
  · exact ofAttempts_firstNew (fun _ => ofAttempts_firstNew (s.ofAttempts_combinePair a b _) _) _

theorem ofAttempts_combine (s : Saturation) (as : List AttackerTerm) :
    OfAttempts (s.combine as) := by
  induction as with
  | nil => exact .nothingNew
  | cons a as ih => exact (ofAttempts_firstNew (s.ofAttempts_combineWith a) as).orElse ih

/-- A step of a saturation makes attempts, one after the other. -/
theorem ofAttempts_advance (s : Saturation) : OfAttempts s.advance := by
  unfold advance
  split
  · exact s.ofAttempts_cancel _ _
  · exact s.ofAttempts_combine _

/-- An attempt spends the steps of its unification. -/
theorem steady_attempt (s : Saturation) (a : Attempt) : Steady (s.attempt a) where
  total b := by
    have hrun := (steady_booleanUnifyWith a.left a.right).accounts b
    unfold attempt
    dsimp only
    split
    · split <;> exact hrun.total
    · exact hrun.total
  used b h := by
    have hrun := (steady_booleanUnifyWith a.left a.right).accounts b
    unfold attempt at h ⊢
    dsimp only at h ⊢
    split at h
    · split at h <;> cases h
    · rename_i hex
      rw [Bool.not_eq_true] at hex
      rw [hex]
      exact hrun.used hex
  more b k h := by
    have hrun := (steady_booleanUnifyWith a.left a.right).continues b k
    unfold attempt at h ⊢
    dsimp only at h ⊢
    split at h
    · rename_i hex
      rw [hrun.more hex, if_pos hex]
      dsimp only
      split <;> rfl
    · cases h

end Saturation

theorem Progress.OfAttempts.steady {look : Budget → Progress} (h : OfAttempts look) :
    Steady look := by
  induction h with
  | nothingNew => exact steady_nothingNew
  | advanced next => exact steady_advanced next
  | attempt s a => exact s.steady_attempt a
  | orElse _ _ hf hg => exact hf.orElse hg

namespace Saturation

variable {s : Saturation} {budget : Budget}

theorem steady_advance (s : Saturation) : Steady s.advance := s.ofAttempts_advance.steady

/-- A step adds finished sums at the end, if any. -/
theorem Step.isPrefix {next : Saturation} (h : Step s next) : s.finished <+: next.finished := by
  cases h with
  | vanish =>
    rw [vanish_eq]
    split
    · exact List.prefix_rfl
    · exact List.prefix_append _ _
  | finish => exact List.prefix_append _ _
  | record found =>
    obtain ⟨new, _, _, heq⟩ := foldl_record (found.filterMap _) s
    exact heq ▸ List.prefix_rfl

theorem isPrefix_of_steps {t : Saturation} (h : Relation.ReflTransGen Step s t) :
    s.finished <+: t.finished := by
  induction h with
  | refl => exact List.prefix_rfl
  | tail _ hstep ih => exact ih.trans hstep.isPrefix

/-- Finished sums stay in front. -/
theorem isPrefix_run (s : Saturation) (budget : Budget) :
    s.finished <+: (s.run budget).saturation.finished :=
  isPrefix_of_steps (run_spec s budget).1

/-- Every step of a run is accounted for, and only a used-up budget cuts it off. -/
theorem accounts_run (s : Saturation) (budget : Budget) :
    (s.run budget).budget.total = budget.total ∧
      ((s.run budget).isSaturated = false → (s.run budget).budget.remaining = 0) := by
  fun_induction run s budget with
  | case1 _ _ hspend => exact ⟨rfl, fun _ => Budget.spend?_eq_none.1 hspend⟩
  | case2 s _ left hspend b h =>
    have htotal := s.steady_advance.total left
    have hused := s.steady_advance.used left
    rw [h] at htotal hused
    exact ⟨htotal.trans (Budget.total_of_spend? hspend), fun _ => hused rfl⟩
  | case3 s _ left hspend b h =>
    have htotal := s.steady_advance.total left
    rw [h] at htotal
    exact ⟨htotal.trans (Budget.total_of_spend? hspend), fun hsat => by cases hsat⟩
  | case4 s _ left hspend next b h ih =>
    have htotal := s.steady_advance.total left
    rw [h] at htotal
    exact ⟨ih.1.trans (htotal.trans (Budget.total_of_spend? hspend)), ih.2⟩

/-- With more steps a run goes on from where it was cut off. -/
theorem continues_run (k : Nat) (s : Saturation) (budget : Budget) :
    (s.run budget).saturation.finished <+: (s.run (budget.plus k)).saturation.finished ∧
      ((s.run budget).isSaturated = true →
        s.run (budget.plus k) =
          ⟨(s.run budget).saturation, true, (s.run budget).budget.plus k⟩) := by
  fun_induction run s budget with
  | case1 => exact ⟨isPrefix_run _ _, fun h => by cases h⟩
  | case2 => exact ⟨isPrefix_run _ _, fun h => by cases h⟩
  | case3 s _ left hspend b h =>
    have hmore := s.steady_advance.more left k
    rw [h] at hmore
    rw [run_of_spend? (Budget.spend?_plus hspend k), hmore rfl]
    exact ⟨List.prefix_rfl, fun _ => rfl⟩
  | case4 s _ left hspend next b h ih =>
    have hmore := s.steady_advance.more left k
    rw [h] at hmore
    rw [run_of_spend? (Budget.spend?_plus hspend k), hmore rfl]
    exact ih

end Saturation

theorem isPrefix_foldl_record {α : Type} [DecidableEq α] (found as : List α) :
    found <+: as.foldl Search.record found := by
  induction as generalizing found with
  | nil => exact List.prefix_rfl
  | cons a as ih => exact (Search.isPrefix_record found a).trans (ih _)

/-- More finished sums at the end give more collisions at the end. -/
theorem isPrefix_solutions (ranges : FinMap Variable CoeffTerm) {as bs : List AttackerTerm}
    (h : as <+: bs) : solutions ranges as <+: solutions ranges bs := by
  obtain ⟨more, rfl⟩ := h
  rw [solutions, solutions, List.filter_append, List.filterMap_append, List.foldl_append]
  exact isPrefix_foldl_record _ _

/-- The collisions of a saturation, as the outcome of a search. -/
def answer (ranges : FinMap Variable CoeffTerm) (r : Saturation.Result) :
    Search.Run Substitution :=
  let found := solutions ranges r.saturation.finished
  ⟨if r.isSaturated then .ofSolutions found else .boundExceeded found, r.budget⟩

theorem isExhaustive_answer (ranges : FinMap Variable CoeffTerm) (r : Saturation.Result) :
    (answer ranges r).outcome.isExhaustive = r.isSaturated := by
  unfold answer
  cases r.isSaturated
  · rfl
  · exact Outcome.isExhaustive_ofSolutions _

theorem solutions_answer (ranges : FinMap Variable CoeffTerm) (r : Saturation.Result) :
    (answer ranges r).outcome.solutions = solutions ranges r.saturation.finished := by
  unfold answer
  cases r.isSaturated
  · rfl
  · exact Outcome.solutions_ofSolutions _

end Collision

open Collision

theorem steady_collisionsWith (outputs : List Term) (constraints : Constraints) :
    Search.Steady (collisionsWith outputs constraints) := by
  change Search.Steady fun b => answer (ranges outputs constraints) (Saturation.run (.start _) b)
  refine ⟨fun b => ?_, fun b k => ?_⟩
  · obtain ⟨htotal, hused⟩ := Saturation.accounts_run (.start _) b
    refine ⟨htotal, fun h => hused ?_⟩
    rwa [isExhaustive_answer] at h
  · obtain ⟨hgrows, hmore⟩ := Saturation.continues_run k (.start _) b
    refine ⟨?_, fun h => ?_⟩
    · rw [solutions_answer, solutions_answer]
      exact isPrefix_solutions _ hgrows
    · rw [isExhaustive_answer] at h
      rw [hmore h, answer, answer, h]

end SymbolicXor
