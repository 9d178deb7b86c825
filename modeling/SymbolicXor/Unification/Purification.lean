import SymbolicXor.Equation
import SymbolicXor.FreshNames
import SymbolicXor.Term.Sum

/-!
# Purification

Unification modulo exclusive or solves equations between sums, and unification of applications is
syntactic. Purification keeps the two apart: every sum directly below a function symbol is replaced
by a fresh variable, equal sums by the same one, and an equation says which sum the variable names.
-/

namespace SymbolicXor

/-- The names given to sums so far. -/
structure Purifier where
  /-- Where new names come from. -/
  fresh : FreshNames
  /-- The variables that name sums, in the order in which they were introduced. -/
  named : List (Variable × Term) := []

namespace Purifier

/-- A variable for a sum: the one that already names it, or a fresh one. A term that is no sum
stays as it is. -/
def name (p : Purifier) (t : Term) : Purifier × Term :=
  if t.isSum then
    match p.named.find? fun n => n.2 = t with
    | some (v, _) => (p, .var v)
    | none =>
      let (v, fresh) := p.fresh.nextVariable
      ({ fresh, named := p.named ++ [(v, t)] }, .var v)
  else (p, t)

mutual

/-- The term with every sum below a function symbol named. -/
def term (p : Purifier) : Term → Purifier × Term
  | .var v => (p, .var v)
  | .const c => (p, .const c)
  | .app f ts =>
    let (p, ts) := arguments p ts
    (p, .app f ts)
  | .sum ts =>
    let (p, ts) := summands p ts
    (p, .xor ts)

/-- The terms of a list that stands below a function symbol. -/
def arguments (p : Purifier) : List Term → Purifier × List Term
  | [] => (p, [])
  | t :: ts =>
    let (p, u) := term p t
    let (p, u) := if t.isSum then p.name u else (p, u)
    let (p, us) := arguments p ts
    (p, u :: us)

/-- The terms of a list that stands in a sum. -/
def summands (p : Purifier) : List Term → Purifier × List Term
  | [] => (p, [])
  | t :: ts =>
    let (p, u) := term p t
    let (p, us) := summands p ts
    (p, u :: us)

end

/-- Both sides of every equation. -/
def equations (p : Purifier) : List Equation → Purifier × List Equation
  | [] => (p, [])
  | e :: es =>
    let (p, left) := term p e.left
    let (p, right) := term p e.right
    let (p, es) := equations p es
    (p, ⟨left, right⟩ :: es)

/-- The equations that say which sums the new variables name. -/
def definitions (p : Purifier) : List Equation := p.named.map fun (v, t) => ⟨.var v, t⟩

end Purifier

/-- Equations without sums below function symbols, followed by those for the new variables, and the
generator after the last fresh name. -/
def purify (es : List Equation) (fresh : FreshNames) : List Equation × FreshNames :=
  let (p, es) := Purifier.equations { fresh } es
  (es ++ p.definitions, p.fresh)

end SymbolicXor
