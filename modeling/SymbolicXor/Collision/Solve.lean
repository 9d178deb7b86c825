import SymbolicXor.Collision.Range
import SymbolicXor.Collision.Saturation

/-!
# Collisions of protocol outputs

A collision is a choice of the protocol variables under which some sum of protocol outputs is zero.
The variables are replaced by their ranges, the outputs are saturated, and each sum that became zero
gives a collision through its assignment. A collision in which a variable does not accept its term
is dropped.
-/

namespace SymbolicXor

namespace Collision

/-- The substitutions of the sums that became zero, each once, in the order in which they were
found. -/
def solutions (ranges : FinMap Variable CoeffTerm) (finished : List AttackerTerm) :
    List Substitution :=
  ((finished.filter fun a => a.term = .zero).filterMap fun a =>
    instantiate ranges a.assignment).foldl Search.record []

end Collision

/-- The collisions of the outputs that are found within a budget. -/
def collisionsWith (outputs : List Term) (constraints : Constraints) (budget : Budget) :
    Search.Run Substitution :=
  let ranges := Collision.ranges outputs constraints
  let terms := outputs.map fun t => ((CoeffTerm.ofTerm t).substitute ranges).simplify
  let result := (Collision.Saturation.start terms).run budget
  let found := Collision.solutions ranges result.saturation.finished
  ⟨if result.isSaturated then .ofSolutions found else .boundExceeded found, result.budget⟩

/-- The collisions of the outputs. -/
def collisions (outputs : List Term) (constraints : Constraints)
    (maxSteps : Nat := Budget.defaultSteps) : Outcome Substitution :=
  (collisionsWith outputs constraints { remaining := maxSteps }).outcome

end SymbolicXor
