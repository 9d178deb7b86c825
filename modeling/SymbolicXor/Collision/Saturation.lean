import SymbolicXor.Coefficient.Depth
import SymbolicXor.Coefficient.Unify
import SymbolicXor.Selection

/-!
# Saturation of protocol outputs

The attacker sums outputs of a protocol. Each sum is held with the outputs that are in it and with
the values that its coefficients must have. Saturation takes one sum after the other and looks for
values under which two of its summands cancel; when nothing is left to be looked at, it adds up two
finished sums of different outputs in such a way that a summand of the one cancels a summand of the
other. Only deepest summands are tried, since a shallower one remains next to them.
-/

namespace SymbolicXor.Collision

/-- A sum of protocol outputs under an assignment. -/
structure AttackerTerm where
  /-- The sum. -/
  term : CoeffTerm
  /-- The places of the outputs that are summed, in increasing order. -/
  outputs : List Nat
  /-- The values that the coefficients must have. -/
  assignment : Assignment := ∅
deriving DecidableEq

/-- The sums found so far. -/
structure Saturation where
  /-- The sums in which nothing more cancels. -/
  finished : List AttackerTerm := []
  /-- The sums still to be looked at. -/
  raw : List AttackerTerm := []
  /-- All sums, which are not generated again. -/
  generated : List AttackerTerm := []

/-- Two terms to be cancelled against each other, and the sums that they are summands of. -/
structure Attempt where
  /-- The first term. -/
  left : CoeffTerm
  /-- The second term. -/
  right : CoeffTerm
  /-- The sum in which they are to cancel. -/
  total : CoeffTerm
  /-- The outputs in the sum. -/
  outputs : List Nat
  /-- The assignments under which the sum arises. -/
  assignments : List Assignment

/-- The sum after cancelling, for a unifier of both terms that agrees with the assignments. -/
def Attempt.result? (a : Attempt) (α : Assignment) : Option AttackerTerm :=
  (a.assignments.foldlM Assignment.compose α).map fun assignment =>
    { term := (α.apply a.total).simplify, outputs := a.outputs, assignment }

/-- The result of looking for new sums, with the budget that is left. -/
inductive Progress where
  /-- The budget ran out. -/
  | outOfSteps (budget : Budget)
  /-- There is nothing new. -/
  | nothingNew (budget : Budget)
  /-- The saturation went on. -/
  | advanced (next : Saturation) (budget : Budget)

/-- The budget that is left. -/
def Progress.budget : Progress → Budget
  | outOfSteps b => b
  | nothingNew b => b
  | advanced _ b => b

/-- Look in one place after the other until new sums are found. -/
def firstNew {ι : Type} (look : ι → Budget → Progress) : List ι → Budget → Progress
  | [], budget => .nothingNew budget
  | i :: is, budget =>
    match look i budget with
    | .nothingNew budget => firstNew look is budget
    | progress => progress

theorem firstNew_remaining_le {ι : Type} {look : ι → Budget → Progress}
    (h : ∀ i b, (look i b).budget.remaining ≤ b.remaining) (is : List ι) (budget : Budget) :
    (firstNew look is budget).budget.remaining ≤ budget.remaining := by
  induction is generalizing budget with
  | nil => exact Nat.le_refl _
  | cons i is ih =>
    have hi := h i budget
    simp only [firstNew]
    split
    · rename_i b hb
      rw [hb] at hi
      exact Nat.le_trans (ih b) hi
    · exact hi

namespace Saturation

/-- The saturation that begins with the given outputs. -/
def start (outputs : List CoeffTerm) : Saturation :=
  let attackers := outputs.zipIdx.map fun (t, i) => { term := t, outputs := [i] }
  { raw := attackers, generated := attackers }

/-- Add a sum to those that are to be looked at, unless it was generated before. -/
def record (s : Saturation) (a : AttackerTerm) : Saturation :=
  if s.generated.contains a then s
  else { s with raw := s.raw ++ [a], generated := s.generated ++ [a] }

/-- Cancel two terms in all possible ways. -/
def attempt (s : Saturation) (a : Attempt) (budget : Budget) : Progress :=
  let run := booleanUnifyWith a.left a.right budget
  if run.outcome.isExhaustive then
    let next := (run.outcome.solutions.filterMap a.result?).foldl record s
    if next.raw.length = s.raw.length then .nothingNew run.budget else .advanced next run.budget
  else .outOfSteps run.budget

/-- Cancel two summands of a sum, if their depths overlap. -/
def cancelPair (s : Saturation) (a : AttackerTerm) (t u : CoeffTerm) (budget : Budget) : Progress :=
  if t.overlaps u then
    s.attempt { left := t, right := u, total := a.term, outputs := a.outputs,
                assignments := [a.assignment] } budget
  else .nothingNew budget

/-- Cancel two of the deepest summands of a sum. -/
def cancelSummands (s : Saturation) (a : AttackerTerm) (summands : List CoeffTerm) :
    Budget → Progress :=
  firstNew (fun (t, later) => firstNew (s.cancelPair a t) later)
    (Selection.withLater (CoeffTerm.deepest summands))

/-- A sum in which nothing more is to be looked for. -/
def finish (s : Saturation) (a : AttackerTerm) (rest : List AttackerTerm) : Saturation :=
  { s with finished := s.finished ++ [a], raw := rest }

/-- Let a lone product vanish: its coefficient is zero. A product without a coefficient is dropped
likewise. -/
def vanish (s : Saturation) (a : AttackerTerm) (rest : List AttackerTerm) : Saturation :=
  let α : Assignment := match a.term.coefficient? with
    | some b => .singleton b false
    | none => ∅
  match α.compose a.assignment with
  | none => { s with raw := rest }
  | some assignment =>
    let zeroed := { a with term := .zero, assignment }
    { s with finished := s.finished ++ [zeroed], raw := rest,
             generated := s.generated ++ [zeroed] }

/-- Cancel two summands of the first sum that is to be looked at, or finish it. -/
def cancel (s : Saturation) (a : AttackerTerm) (rest : List AttackerTerm) (budget : Budget) :
    Progress :=
  match a.term with
  | .mul _ _ => .advanced (s.vanish a rest) budget
  | .sum ts =>
    match s.cancelSummands a ts budget with
    | .nothingNew budget => .advanced (s.finish a rest) budget
    | progress => progress
  | _ => .advanced (s.finish a rest) budget

/-- Add up two sums so that a summand of each cancels, if the depths of these overlap. -/
def combinePair (s : Saturation) (a b : AttackerTerm) (t u : CoeffTerm) (budget : Budget) :
    Progress :=
  if t.overlaps u then
    s.attempt { left := t, right := u, total := .sum (a.term.summands ++ b.term.summands),
                outputs := OrderedList.ofList (a.outputs ++ b.outputs),
                assignments := [a.assignment, b.assignment] } budget
  else .nothingNew budget

/-- Add up a finished sum and a later one of different outputs so that a deepest summand of each
cancels. -/
def combineWith (s : Saturation) (a b : AttackerTerm) (budget : Budget) : Progress :=
  if a.outputs.any b.outputs.contains then .nothingNew budget
  else
    firstNew (fun t => firstNew (s.combinePair a b t) (CoeffTerm.deepest b.term.summands))
      (CoeffTerm.deepest a.term.summands) budget

/-- Add up two of the given sums. -/
def combine (s : Saturation) : List AttackerTerm → Budget → Progress
  | [], budget => .nothingNew budget
  | a :: later, budget =>
    match firstNew (s.combineWith a) later budget with
    | .nothingNew budget => combine s later budget
    | progress => progress

/-- One step of the saturation. -/
def advance (s : Saturation) (budget : Budget) : Progress :=
  match s.raw with
  | a :: rest => s.cancel a rest budget
  | [] => s.combine s.finished budget

theorem attempt_remaining_le (s : Saturation) (a : Attempt) (budget : Budget) :
    (s.attempt a budget).budget.remaining ≤ budget.remaining := by
  have h := Search.explore_remaining_le BooleanUnification.State.expand
    { goals := [{ term := (CoeffTerm.sum [a.left, a.right]).simplify }] } budget
  simp only [attempt]
  split
  · split <;> exact h
  · exact h

theorem cancelPair_remaining_le (s : Saturation) (a : AttackerTerm) (t u : CoeffTerm)
    (budget : Budget) : (s.cancelPair a t u budget).budget.remaining ≤ budget.remaining := by
  unfold cancelPair
  split
  · exact s.attempt_remaining_le _ _
  · exact Nat.le_refl _

theorem cancelSummands_remaining_le (s : Saturation) (a : AttackerTerm)
    (summands : List CoeffTerm) (budget : Budget) :
    (s.cancelSummands a summands budget).budget.remaining ≤ budget.remaining :=
  firstNew_remaining_le (fun _ => firstNew_remaining_le (s.cancelPair_remaining_le a _) _) _ _

theorem cancel_remaining_le (s : Saturation) (a : AttackerTerm) (rest : List AttackerTerm)
    (budget : Budget) : (s.cancel a rest budget).budget.remaining ≤ budget.remaining := by
  unfold cancel
  split
  · exact Nat.le_refl _
  · rename_i ts _
    have h := s.cancelSummands_remaining_le a ts budget
    split
    · rename_i hb
      rw [hb] at h
      exact h
    · exact h
  · exact Nat.le_refl _

theorem combinePair_remaining_le (s : Saturation) (a b : AttackerTerm) (t u : CoeffTerm)
    (budget : Budget) : (s.combinePair a b t u budget).budget.remaining ≤ budget.remaining := by
  unfold combinePair
  split
  · exact s.attempt_remaining_le _ _
  · exact Nat.le_refl _

theorem combineWith_remaining_le (s : Saturation) (a b : AttackerTerm) (budget : Budget) :
    (s.combineWith a b budget).budget.remaining ≤ budget.remaining := by
  unfold combineWith
  split
  · exact Nat.le_refl _
  · exact firstNew_remaining_le
      (fun _ => firstNew_remaining_le (s.combinePair_remaining_le a b _) _) _ _

theorem combine_remaining_le (s : Saturation) (as : List AttackerTerm) (budget : Budget) :
    (s.combine as budget).budget.remaining ≤ budget.remaining := by
  induction as generalizing budget with
  | nil => exact Nat.le_refl _
  | cons a as ih =>
    have h := firstNew_remaining_le (s.combineWith_remaining_le a) as budget
    simp only [combine]
    split
    · rename_i b hb
      rw [hb] at h
      exact Nat.le_trans (ih b) h
    · exact h

/-- A step never gains steps. -/
theorem advance_remaining_le (s : Saturation) (budget : Budget) :
    (s.advance budget).budget.remaining ≤ budget.remaining := by
  unfold advance
  split
  · exact cancel_remaining_le ..
  · exact combine_remaining_le ..

/-- The result of a saturation. -/
structure Result where
  /-- The sums found. -/
  saturation : Saturation
  /-- Whether nothing new can be found. -/
  isSaturated : Bool
  /-- The budget that is left. -/
  budget : Budget

/-- Saturate within a budget. Every step costs one, besides the steps of unification. -/
def run (s : Saturation) (budget : Budget) : Result :=
  match _ : budget.spend? with
  | none => ⟨s, false, budget⟩
  | some left =>
    match _ : s.advance left with
    | .outOfSteps budget => ⟨s, false, budget⟩
    | .nothingNew budget => ⟨s, true, budget⟩
    | .advanced next budget => next.run budget
termination_by budget.remaining
decreasing_by
  have hb := Budget.remaining_lt_of_spend? ‹_›
  have ha := s.advance_remaining_le left
  rename_i h
  rw [h] at ha
  exact Nat.lt_of_le_of_lt ha hb

end Saturation

end SymbolicXor.Collision
