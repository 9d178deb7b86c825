import SymbolicXor.Adversary.Model
import SymbolicXor.Coefficient.Assignment
import SymbolicXor.FreshNames

/-!
# Ranges of protocol variables

Where every constrained variable may be any sum of its known terms, it ranges over one sum with
coefficients: each known term gets a fresh boolean coefficient of its own, and a variable in a known
term is replaced by its range. A variable that is itself a summand of a known term needs no
coefficient: what is known of it is known without it.
-/

namespace SymbolicXor.Collision

/-- A sum without the variables among its summands; any other term is left as it is. -/
def dropTopVars : Term → Term
  | .sum ts => .xor (ts.filter fun t => !t.isVar)
  | t => t

/-- A generator of coefficients: it avoids the names in the outputs and the constraints. -/
def freshCoefficients (outputs : List Term) (constraints : Constraints) : FreshNames :=
  constraints.entries.foldl
    (fun g (v, ts) => ts.foldl FreshNames.avoidTerm (g.avoid [v.symbol]))
    (outputs.foldl FreshNames.avoidTerm (.ofStem "b"))

/-- The products of fresh coefficients with known terms, in which variables with a range are
replaced by it. The summands of one term share its coefficient. -/
def products (ranges : FinMap Variable CoeffTerm) (fresh : FreshNames) :
    List Term → List CoeffTerm × FreshNames
  | [] => ([], fresh)
  | t :: ts =>
    let (b, fresh) := fresh.next
    let summands := ((CoeffTerm.ofTerm (dropTopVars t)).substitute ranges).summands
    let (more, fresh) := products ranges fresh ts
    (summands.map (.mul (.coeff b)) ++ more, fresh)

/-- The ranges of variables with their known terms, in order, given the ranges of those before. -/
def rangesFrom (ranges : FinMap Variable CoeffTerm) (fresh : FreshNames) :
    List (Variable × List Term) → FinMap Variable CoeffTerm
  | [] => ranges
  | (v, known) :: rest =>
    let (summands, fresh) := products ranges fresh known
    rangesFrom (ranges.insert v (CoeffTerm.sum summands).simplify) fresh rest

/-- The range of each constrained variable. -/
def ranges (outputs : List Term) (constraints : Constraints) : FinMap Variable CoeffTerm :=
  rangesFrom ∅ (freshCoefficients outputs constraints) constraints.entries

/-- The substitution that an assignment to the coefficients makes of the ranges. There is none if
some variable does not accept the sort of its term. -/
def instantiate (ranges : FinMap Variable CoeffTerm) (α : Assignment) : Option Substitution :=
  (Substitution.ofBindings
    (ranges.entries.map fun (v, range) => (v, (α.apply range).simplify.toTerm))).toOption

end SymbolicXor.Collision
