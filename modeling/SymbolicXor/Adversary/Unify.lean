import SymbolicXor.Adversary.Model
import SymbolicXor.Unification.Modulo

/-!
# Unification by an adversary

A protocol attack is a unifier of equations modulo exclusive or that binds every constrained
variable to a term that the adversary could build. A unifier that binds a variable to something
else is repaired: some equation `lhs = 0` is decided that may turn the missing subterm into a known
one, and each unifier of that equation gives a more special unifier of the problem; or the decision
is refused, and another is tried. A unifier without a decision left is no attack.
-/

namespace SymbolicXor

namespace Adversary

/-- A unifier to be checked, in a problem that was specialized along with it. -/
structure State where
  /-- The unifier. -/
  substitution : Substitution
  /-- The terms known at each variable. -/
  constraints : Constraints
  /-- The left sides of the decisions that were refused. -/
  refused : List Term := []

/-- The first acceptable sum of a variable among the summands and a subset of the summands; or of
two summands, if no variable is among them. -/
def sumCandidate? (accept : Term → Bool) (summands : List Term) : Option Term :=
  match summands.filter Term.isVar with
  | [] => (Selection.choose 2 summands).findSome? fun chosen => Option.guard accept (.xor chosen)
  | vars => vars.findSome? fun v => Selection.findSubset? (fun chosen =>
      Option.guard accept (.xor (if chosen.contains v then chosen else chosen ++ [v]))) summands

/-- The first acceptable left side of an equation that may repair a missing subterm of the term of a
variable. -/
def candidate? (a : Adversary) (constraints : Constraints) (accept : Term → Bool) (v : Variable) :
    Term → Option Term
  | .var w => Option.guard accept (.var w)
  | .const _ => none
  | .app f ts =>
    if a.computes f then none
    else ((constraints.get? v).getD []).findSome? fun known =>
      if known.isVar then none else Option.guard accept (.xor [.app f ts, known])
  | .sum ts => sumCandidate? accept ts

namespace State

/-- Apply a unifier of the last decision. -/
def instantiate (s : State) (θ : Substitution) : State where
  substitution := s.substitution.compose θ
  constraints := s.constraints.map (List.map θ.apply)
  refused := s.refused.map θ.apply

/-- Refuse a decision. -/
def refuse (s : State) (lhs : Term) : State := { s with refused := s.refused ++ [lhs] }

/-- The next decision: the first candidate for a bad subterm that is not zero and not refused. -/
def decision? (a : Adversary) (s : State) (bad : List (Variable × Term)) : Option Term :=
  bad.findSome? fun (v, t) =>
    a.candidate? s.constraints (fun lhs => !lhs.isZero && !s.refused.contains lhs) v t

end State

theorem xorUnifyWith_remaining_le (es : List Equation) (fresh : FreshNames) (budget : Budget) :
    (xorUnifyWith es fresh budget).1.budget.remaining ≤ budget.remaining :=
  Search.explore_remaining_le ..

/-- Check the unifiers of open states, the first one first. The unification of a decision draws on
the same budget and the same fresh names. -/
def repair (a : Adversary) (fresh : FreshNames) (budget : Budget) (states : List State)
    (found : List Substitution) : Search.Run Substitution :=
  match states with
  | [] => ⟨.ofSolutions found, budget⟩
  | s :: rest =>
    match _ : budget.spend? with
    | none => ⟨.boundExceeded found, budget⟩
    | some left =>
      let bad := a.badSubterms s.constraints s.substitution
      if bad.isEmpty then a.repair fresh left rest (Search.record found s.substitution)
      else
        match s.decision? a bad with
        | none => a.repair fresh left rest found
        | some lhs =>
          let run := xorUnifyWith [⟨lhs, .zero⟩] fresh left
          if run.1.outcome.isExhaustive then
            a.repair run.2 run.1.budget
              (run.1.outcome.solutions.map s.instantiate ++ s.refuse lhs :: rest) found
          else ⟨.boundExceeded found, run.1.budget⟩
termination_by budget.remaining
decreasing_by
  · exact Budget.remaining_lt_of_spend? ‹_›
  · exact Budget.remaining_lt_of_spend? ‹_›
  · exact Nat.lt_of_le_of_lt (xorUnifyWith_remaining_le ..) (Budget.remaining_lt_of_spend? ‹_›)

/-- The generator of names for a problem: it avoids those in the equations and the constraints. -/
def freshNames (es : List Equation) (constraints : Constraints) : FreshNames :=
  constraints.entries.foldl
    (fun g (v, ts) => ts.foldl FreshNames.avoidTerm (g.avoid [v.symbol]))
    (.forEquations es)

/-- The attacks found within a budget. -/
def unifyWith (a : Adversary) (es : List Equation) (constraints : Constraints) (budget : Budget) :
    Search.Run Substitution :=
  let run := xorUnifyWith es (freshNames es constraints) budget
  if run.1.outcome.isExhaustive then
    a.repair run.2 run.1.budget
      (run.1.outcome.solutions.map fun σ => { substitution := σ, constraints }) []
  else ⟨.boundExceeded [], run.1.budget⟩

/-- The unifiers of the equations modulo exclusive or that the adversary can bring about. -/
def unify (a : Adversary) (es : List Equation) (constraints : Constraints)
    (maxSteps : Nat := Budget.defaultSteps) : Outcome Substitution :=
  (a.unifyWith es constraints { remaining := maxSteps }).outcome

end Adversary

end SymbolicXor
