/-!
# Bounded search

The searches of the library branch, so each runs under a budget of steps. A search under a budget
reports whether it was exhaustive: only then does an empty list of solutions mean that there is
none. Solutions that were found before the budget ran out are kept.
-/

namespace SymbolicXor

/-- Steps left and steps made. -/
structure Budget where
  /-- The steps that may still be made. -/
  remaining : Nat
  /-- The steps that were made. -/
  spent : Nat := 0
deriving DecidableEq

namespace Budget

/-- The number of steps that a search may make unless it is told otherwise. -/
def defaultSteps : Nat := 100000

/-- The budget after one more step, if a step is left. -/
def spend? (b : Budget) : Option Budget :=
  match b.remaining with
  | 0 => none
  | n + 1 => some ⟨n, b.spent + 1⟩

theorem remaining_lt_of_spend? {b b' : Budget} (h : b.spend? = some b') :
    b'.remaining < b.remaining := by
  unfold spend? at h
  split at h
  · cases h
  · rename_i n hn
    cases h
    rw [hn]
    exact Nat.lt_succ_self n

end Budget

/-- The result of a search that may find several solutions. -/
inductive Outcome (α : Type) where
  /-- The search was exhaustive and found these solutions. -/
  | unified (found : List α)
  /-- The search was exhaustive and found nothing. -/
  | noUnifier
  /-- The budget ran out after these solutions. -/
  | boundExceeded (found : List α)
deriving DecidableEq

namespace Outcome

variable {α : Type}

/-- The outcome of an exhaustive search. -/
def ofSolutions : List α → Outcome α
  | [] => noUnifier
  | found => unified found

/-- The solutions, in the order in which they were found. -/
def solutions : Outcome α → List α
  | unified found => found
  | noUnifier => []
  | boundExceeded found => found

/-- Whether the search ended within its budget. -/
def isExhaustive : Outcome α → Bool
  | boundExceeded _ => false
  | _ => true

/-- Whether a solution was found. -/
def isUnifiable (o : Outcome α) : Bool := !o.solutions.isEmpty

end Outcome

/-- The conclusion of a protocol check from the attacks that a search found. -/
inductive Verdict (α : Type) where
  /-- There is no attack. -/
  | secure
  /-- These are attacks. -/
  | insecure (attacks : List α)
  /-- No attack was found, but the search was cut off. -/
  | inconclusive

/-- The conclusion from a search for attacks. -/
def Outcome.verdict {α : Type} : Outcome α → Verdict α
  | unified found => .insecure found
  | noUnifier => .secure
  | boundExceeded [] => .inconclusive
  | boundExceeded found => .insecure found

namespace Search

/-- The outcome of a search together with the budget that it left. -/
structure Run (α : Type) where
  /-- The outcome of the search. -/
  outcome : Outcome α
  /-- The budget after the search. -/
  budget : Budget

/-- Append a solution unless it is there already. -/
def record {α : Type} [DecidableEq α] (found : List α) (a : α) : List α :=
  if a ∈ found then found else found ++ [a]

/-- The result of expanding a search state. -/
inductive Expansion (σ α : Type) where
  /-- The state is solved. -/
  | solved (a : α)
  /-- The state is replaced by others, of which the first is searched first. -/
  | branches (states : List σ)

variable {σ α : Type} [DecidableEq α]

/-- Depth-first search from open states and the solutions found so far, given the numbers of steps
that remain and that were spent. Each step expands the first open state. -/
def exploreFrom (expand : σ → Expansion σ α) :
    (remaining spent : Nat) → (states : List σ) → (found : List α) → Run α
  | remaining, spent, [], found => ⟨.ofSolutions found, { remaining, spent }⟩
  | 0, spent, _ :: _, found => ⟨.boundExceeded found, { remaining := 0, spent }⟩
  | n + 1, spent, s :: rest, found =>
    match expand s with
    | .solved a => exploreFrom expand n (spent + 1) rest (record found a)
    | .branches states => exploreFrom expand n (spent + 1) (states ++ rest) found

/-- Depth-first search from a single state. -/
def explore (expand : σ → Expansion σ α) (start : σ) (budget : Budget) : Run α :=
  exploreFrom expand budget.remaining budget.spent [start] []

theorem exploreFrom_budget (expand : σ → Expansion σ α) (remaining spent : Nat) (states : List σ)
    (found : List α) :
    let after := (exploreFrom expand remaining spent states found).budget
    after.remaining + after.spent = remaining + spent := by
  fun_induction exploreFrom expand remaining spent states found with
  | case1 => rfl
  | case2 => rfl
  | case3 _ _ _ _ _ _ _ ih => exact ih.trans (by omega)
  | case4 _ _ _ _ _ _ _ ih => exact ih.trans (by omega)

theorem spent_le_exploreFrom (expand : σ → Expansion σ α) (remaining spent : Nat)
    (states : List σ) (found : List α) :
    spent ≤ (exploreFrom expand remaining spent states found).budget.spent := by
  fun_induction exploreFrom expand remaining spent states found with
  | case1 => exact Nat.le_refl _
  | case2 => exact Nat.le_refl _
  | case3 _ _ _ _ _ _ _ ih => exact Nat.le_of_succ_le ih
  | case4 _ _ _ _ _ _ _ ih => exact Nat.le_of_succ_le ih

/-- A search never gains steps. -/
theorem explore_remaining_le (expand : σ → Expansion σ α) (start : σ) (budget : Budget) :
    (explore expand start budget).budget.remaining ≤ budget.remaining := by
  have h := exploreFrom_budget expand budget.remaining budget.spent [start] []
  have h' := spent_le_exploreFrom expand budget.remaining budget.spent [start] []
  simp only [explore] at *
  omega

end Search

end SymbolicXor
