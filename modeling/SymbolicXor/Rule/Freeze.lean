import SymbolicXor.Substitution

/-!
# Frozen terms

A term is frozen by turning its variables into constants, so that unification with a pattern binds
the variables of the pattern only. If the constants have names of their own, the term is recovered
by thawing: turning them back.
-/

namespace SymbolicXor

namespace Name

/-- The name with `_1` appended until it is not taken, at most a number of times. -/
def suffixUntil (taken : List Name) : (tries : Nat) → Name → Name
  | 0, n => n
  | tries + 1, n => if taken.contains n then suffixUntil taken tries (n.append "_1") else n

/-- The name with `_1` appended until it is not taken. Every suffix makes the name longer, so as
many suffixes as there are taken names are enough. -/
def apartFrom (n : Name) (taken : List Name) : Name := n.suffixUntil taken taken.length

end Name

/-- A name for each variable, different from the taken names and from each other: the name of the
variable, with suffixes where needed. -/
def Variable.namesApart (taken : List Name) : List Variable → List (Variable × Name)
  | [] => []
  | v :: vs =>
    let n := v.symbol.apartFrom taken
    (v, n) :: namesApart (n :: taken) vs

/-- A term whose variables were turned into constants. -/
structure Frozen where
  /-- The term without variables. -/
  term : Term
  /-- The variable that each new constant stands for. -/
  thawing : FinMap Constant Variable

namespace Term

/-- The term with each variable turned into the constant of the same name and sort. -/
def freeze (t : Term) : Term :=
  t.mapLeaves (fun v => .const { symbol := v.symbol, sort := v.sort }) .const

/-- The term with each variable turned into a constant of the same sort whose name is not taken. -/
def freezeApart (t : Term) (taken : List Name) : Except BindError Frozen :=
  let constants := (Variable.namesApart taken t.uniqueVars).map fun (v, n) =>
    (v, ({ symbol := n, sort := v.sort } : Constant))
  (Substitution.ofBindings (constants.map fun (v, c) => (v, .const c))).map fun σ =>
    { term := σ.apply t, thawing := .ofList (constants.map fun (v, c) => (c, v)) }

/-- The term with constants turned into the variables that they stand for. -/
def thaw (t : Term) (thawing : FinMap Constant Variable) : Term :=
  t.mapLeaves .var fun c => ((thawing.get? c).map var).getD (.const c)

end Term

end SymbolicXor
