import SymbolicXor.Rule.Freeze
import SymbolicXor.Term.Position
import SymbolicXor.Unification.Modulo

/-!
# Rules

A rule is applied to a term by matching its hypothesis with the term and taking the instance of its
conclusion. Matching is unification with the frozen term, syntactic where that decides and otherwise
modulo exclusive or, of which the first solution is taken. The variables of the rule are renamed
apart from those of the term, and they may remain in the result.
-/

namespace SymbolicXor

/-- A rule that turns instances of its hypothesis into instances of its conclusion. -/
structure Rule where
  /-- The pattern. -/
  hypothesis : Term
  /-- The term whose instance takes the place of an instance of the hypothesis. -/
  conclusion : Term
deriving DecidableEq

/-- Errors of trying a rule at a position. -/
inductive RuleError where
  /-- The position is not in the term. -/
  | noSubterm (cause : PositionError)
  /-- Renaming or freezing would bind a variable to a term that it does not accept. -/
  | refusedBinding (cause : BindError)
deriving DecidableEq

/-- The message of the error. -/
def RuleError.message : RuleError → String
  | noSubterm e => e.message
  | refusedBinding e => e.message

namespace Rule

instance : ToString Rule := ⟨fun r => s!"{r.hypothesis} → {r.conclusion}"⟩

/-- The rule in the other direction. -/
def converse (r : Rule) : Rule := ⟨r.conclusion, r.hypothesis⟩

/-- The variables of both sides, each once, in order. -/
def uniqueVars (r : Rule) : List Variable :=
  OrderedList.ofList (r.hypothesis.vars ++ r.conclusion.vars)

/-- The names of the constants of both sides. -/
def constantNames (r : Rule) : List Name :=
  (r.hypothesis.constants ++ r.conclusion.constants).map Constant.symbol

/-- The rule with the variables that are also in a term renamed. -/
def renamedApart (r : Rule) (t : Term) : Except BindError Rule :=
  let used := (t.uniqueVars ++ r.uniqueVars).map Variable.symbol
  let names := Variable.namesApart used (r.uniqueVars.filter t.uniqueVars.contains)
  (Substitution.ofBindings
    (names.map fun (v, n) => (v, .var { symbol := n, sort := v.sort }))).map fun θ =>
      ⟨θ.apply r.hypothesis, θ.apply r.conclusion⟩

/-- A substitution under which a pattern is equal to a frozen term. -/
def matching? (pattern frozen : Term) : Option Substitution :=
  match Unification.unifyTerms pattern frozen with
  | .ok σ => some σ
  | .error (.outsideTheory _ _) => (xorUnify [⟨pattern, frozen⟩]).solutions.head?
  | .error _ => none

/-- The instance of the conclusion that takes the place of a term, if the hypothesis matches it. -/
def applyAtRoot (r : Rule) (t : Term) : Except BindError (Option Term) := do
  let r ← r.renamedApart t
  let frozen ← t.freezeApart (t.constants.map Constant.symbol ++ r.constantNames)
  return (matching? r.hypothesis frozen.term).map fun σ =>
    (σ.apply r.conclusion).thaw frozen.thawing

/-- The term with the rule applied at a position, if the hypothesis matches there. -/
def applyAt (r : Rule) (t : Term) (p : Position) : Except RuleError (Option Term) := do
  let u ← (t.subtermAt p).mapError .noSubterm
  match ← (r.applyAtRoot u).mapError .refusedBinding with
  | none => return none
  | some new => return some (← (t.replaceAt p new).mapError .noSubterm)

/-- The positions at which the rule can be applied, in order, each with the term that results. -/
def apply (r : Rule) (t : Term) : List (Position × Term) :=
  t.positions.filterMap fun p =>
    match r.applyAt t p with
    | .ok (some u) => some (p, u)
    | _ => none

end Rule

end SymbolicXor
