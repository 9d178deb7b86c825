import SymbolicXor.Coefficient.Assignment
import SymbolicXor.Search

/-!
# Boolean unification

Two terms with coefficients are unified by values for the coefficients under which their sum is
zero. The search keeps a list of terms that must all become zero and looks at the first of them:

* disappear: a summand with a coefficient vanishes because its coefficient is zero, or it is kept;
* duplicate: the first summand and another one with the same head are present and equal, which asks
  for their arguments to be equal, or they are different.

The summands that are kept and the pairs that are different are recorded with the term, which then
moves to the back.
-/

namespace SymbolicXor

namespace BooleanUnification

/-- A term that must become zero, and the decisions about its summands. -/
structure Goal where
  /-- The term. -/
  term : CoeffTerm
  /-- The summands that are kept. -/
  kept : List CoeffTerm := []
  /-- The pairs of summands that are different. -/
  distinct : List (CoeffTerm × CoeffTerm) := []

/-- A state of the search. -/
structure State where
  /-- The terms that must become zero. -/
  goals : List Goal
  /-- The values given so far. -/
  assignment : Assignment := ∅

/-- Simplify the terms and drop those that are zero. -/
def simplifyGoals (goals : List Goal) : List Goal :=
  (goals.map fun g => { g with term := g.term.simplify }).filter fun g => g.term ≠ .zero

/-- Give further values to coefficients, if they agree with those given before. -/
def assign (goals : List Goal) (old new : Assignment) : Option State :=
  (old.compose new).map fun assignment =>
    { goals := simplifyGoals (goals.map fun g => { g with term := new.apply g.term }), assignment }

/-- Whether the terms are one constant, or applications of one function symbol to equally many
arguments. -/
def sameHead : CoeffTerm → CoeffTerm → Bool
  | .const c, .const d => c == d
  | .app f ss, .app g ts => f == g && ss.length == ts.length
  | _, _ => false

/-- Whether two summands were decided to be different. -/
def Goal.isRefused (g : Goal) (s t : CoeffTerm) : Bool :=
  g.distinct.any fun (l, r) => (l == s && r == t) || (l == t && r == s)

/-- The coefficient of a term that is to vanish, the term, and the goals for the rest. -/
def Goal.vanishing? (g : Goal) : Option (Name × CoeffTerm × List Goal) :=
  match g.term with
  | .mul s t =>
    if g.kept.contains (.mul s t) then none
    else (CoeffTerm.mul s t).coefficient?.map fun b => (b, .mul s t, [])
  | .sum ts =>
    match ts.find? fun t => t.coefficient?.isSome && !g.kept.contains t with
    | none => none
    | some t => t.coefficient?.map fun b => (b, t, [{ g with term := .sum (ts.erase t) }])
  | _ => none

/-- The disappear rule for the first goal, given the other goals. -/
def disappear? (g : Goal) (goals : List Goal) (assignment : Assignment) : Option (List State) :=
  g.vanishing?.map fun (b, t, rest) =>
    (assign (goals ++ rest) assignment (.singleton b false)).toList ++
      [{ goals := goals ++ [{ g with kept := g.kept ++ [t] }], assignment }]

/-- The goals that the arguments of two applications are equal. -/
def argumentGoals : CoeffTerm → CoeffTerm → List Goal
  | .app _ ss, .app _ ts =>
    List.zipWith (fun s t => { term := (CoeffTerm.sum [s, t]).simplify }) ss ts
  | _, _ => []

/-- The assignment of one to the coefficients of two terms. -/
def present (s t : CoeffTerm) : Assignment :=
  ⟨.ofList ((s.coefficient?.toList ++ t.coefficient?.toList).map (·, true))⟩

/-- The duplicate rule for the first goal, given the other goals. -/
def duplicate? (g : Goal) (goals : List Goal) (assignment : Assignment) : Option (List State) :=
  match g.term with
  | .sum (s :: ts) =>
    (ts.find? fun t => sameHead s.realTerm t.realTerm && !g.isRefused s t).map fun t =>
      let rest := { g with term := .sum (ts.erase t) }
      let equal := goals ++ rest :: argumentGoals s.realTerm t.realTerm
      (assign equal assignment (present s t)).toList ++
        [{ goals := goals ++ [{ g with distinct := g.distinct ++ [(s, t)] }], assignment }]
  | _ => none

/-- The states after the first rule that applies. -/
def State.expand (s : State) : Search.Expansion State Assignment :=
  match simplifyGoals s.goals with
  | [] => .solved s.assignment
  | g :: goals =>
    .branches (((disappear? g goals s.assignment).or (duplicate? g goals s.assignment)).getD [])

end BooleanUnification

/-- The assignments under which the sum of two terms is zero, found within a budget. -/
def booleanUnifyWith (s t : CoeffTerm) (budget : Budget) : Search.Run Assignment :=
  Search.explore BooleanUnification.State.expand
    { goals := [{ term := (CoeffTerm.sum [s, t]).simplify }] } budget

/-- The assignments under which the sum of two terms is zero. -/
def booleanUnify (s t : CoeffTerm) (maxSteps : Nat := Budget.defaultSteps) : Outcome Assignment :=
  (booleanUnifyWith s t { remaining := maxSteps }).outcome

end SymbolicXor
