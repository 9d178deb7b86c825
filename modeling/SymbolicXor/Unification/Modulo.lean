import SymbolicXor.Search
import SymbolicXor.Selection
import SymbolicXor.Unification.Purification
import SymbolicXor.Unification.Syntactic

/-!
# Unification modulo exclusive or

The equations are purified and brought into the form `sum = 0`. A state of the search holds such
equations, pairs of terms that were decided to be different, and the substitution made so far. The
first of these rules that applies gives the next states:

* trivial: drop the equation `0 = 0`;
* decompose: unify the two summands of `f(…) ⊕ f(…) = 0`;
* substitute: solve an equation for a variable that occurs below no function symbol;
* split: for two summands with one head, unify and cancel them, or decide that they are different.

A state to which no rule applies has no solution. Splitting branches, so there may be several
unifiers.
-/

namespace SymbolicXor

namespace XorUnification

/-- A state of the search. -/
structure State where
  /-- The equations still to be solved. -/
  equations : List Equation
  /-- The pairs of terms that were decided to be different. -/
  disequations : List Disequation := []
  /-- The substitution that was applied to equations and disequations. -/
  substitution : Substitution := ∅

/-- An equation whose right side is zero, with the same solutions. -/
def normalize (e : Equation) : Equation :=
  if e.right.isZero then e else ⟨.xor [e.left, e.right], .zero⟩

/-- Whether both terms are applications of one function symbol. -/
def sameHead : Term → Term → Bool
  | .app f _, .app g _ => f == g
  | _, _ => false

/-- The variables that occur below a function symbol. -/
def constrainedVars (es : List Equation) : List Variable :=
  es.flatMap fun e => e.left.varsInArguments ++ e.right.varsInArguments

namespace State

/-- The state with all its equations in the form `sum = 0`. -/
def normalized (s : State) : State := { s with equations := s.equations.map normalize }

/-- Apply one more substitution. -/
def apply (s : State) (θ : Substitution) : State where
  equations := s.equations.map (Equation.map θ.apply)
  disequations := s.disequations.map (Disequation.map θ.apply)
  substitution := s.substitution.compose θ

/-- Whether two terms were decided to be different. -/
def isRefused (s : State) (t u : Term) : Bool :=
  s.disequations.any fun d => (d.left == t && d.right == u) || (d.left == u && d.right == t)

/-- Drop the first equation whose left side is zero. -/
def trivialRule? (s : State) : Option (List State) :=
  if s.equations.any fun e => e.left.isZero then
    some [{ s with equations := s.equations.eraseP fun e => e.left.isZero }]
  else none

/-- The summands of a left side that consists of two applications of one symbol. -/
def twoApplications? (e : Equation) : Option (Term × Term) :=
  match e.left with
  | .sum [t, u] => if sameHead t u then some (t, u) else none
  | _ => none

/-- Unify the only two summands of an equation. -/
def decomposeRule? (s : State) : Option (List State) :=
  (s.equations.findSome? twoApplications?).map fun (t, u) =>
    match Unification.unifyTerms t u with
    | .ok θ => [s.apply θ]
    | .error _ => []

/-- The binding that solves an equation for the summand `t`, if that is a variable that is not
constrained and accepts the other summands. -/
def solveFor? (constrained : List Variable) (summands : List Term) (t : Term) :
    Option Substitution :=
  match t with
  | .var v =>
    let rest := Term.xor (summands.erase t)
    if !constrained.contains v && v.accepts rest then some (.single v rest) else none
  | _ => none

/-- Solve the first equation that can be solved for a variable. -/
def substituteRule? (s : State) : Option (List State) :=
  let constrained := constrainedVars s.equations
  let θ? := s.equations.findSome? fun e =>
    e.left.summands.findSome? (solveFor? constrained e.left.summands)
  θ?.map fun θ => [s.apply θ]

/-- The first pair of summands of one equation that have the same head and were not decided to be
different, and the equations after cancelling the pair. -/
def findPair? (s : State) : List Equation → Option ((Term × Term) × List Equation)
  | [] => none
  | e :: es =>
    match Selection.firstPair? (fun t u => sameHead t u && !s.isRefused t u) e.left.summands with
    | some (t, u, rest) => some ((t, u), ⟨.xor rest, .zero⟩ :: es)
    | none => (findPair? s es).map fun (p, es) => (p, e :: es)

/-- Unify and cancel two summands, or decide that they are different. -/
def splitRule? (s : State) : Option (List State) :=
  (findPair? s s.equations).map fun ((t, u), es) =>
    let refused := { s with disequations := s.disequations ++ [⟨t, u⟩] }
    match Unification.unifyTerms t u with
    | .ok θ => [{ s with equations := es }.apply θ, refused]
    | .error _ => [refused]

/-- The states after the first rule that applies. -/
def step (s : State) : List State :=
  (s.trivialRule?.or <| s.decomposeRule?.or <| s.substituteRule?.or s.splitRule?).getD []

/-- A state without equations is solved by its substitution. -/
def expand (s : State) : Search.Expansion State Substitution :=
  let s := s.normalized
  if s.equations.isEmpty then .solved s.substitution else .branches s.step

end State

end XorUnification

/-- The unifiers of equations modulo exclusive or, found within a budget with names from a
generator, and the generator afterwards. -/
def xorUnifyWith (es : List Equation) (fresh : FreshNames) (budget : Budget) :
    Search.Run Substitution × FreshNames :=
  let (es, fresh) := purify es fresh
  (Search.explore XorUnification.State.expand { equations := es } budget, fresh)

/-- The generator of the names that purification of the equations introduces. -/
def FreshNames.forEquations (es : List Equation) : FreshNames :=
  (FreshNames.ofStem "N").avoidEquations es

/-- The unifiers of equations modulo exclusive or. -/
def xorUnify (es : List Equation) (maxSteps : Nat := Budget.defaultSteps) : Outcome Substitution :=
  (xorUnifyWith es (.forEquations es) { remaining := maxSteps }).1.outcome

end SymbolicXor
