import SymbolicXor.Substitution

/-!
# Adversaries

An adversary evaluates exclusive or and the public function symbols by itself. Whenever it chooses
the value of a protocol variable it knows some terms, the constraints of that variable, and its
choice must be built from these. A substitution binds variables in the order of their names, so the
terms known at a variable are read under the bindings of the variables before it.
-/

namespace SymbolicXor

/-- The terms that were known to the adversary when it chose each constrained variable. -/
abbrev Constraints := FinMap Variable (List Term)

/-- An adversary, known by the symbols that it can evaluate besides exclusive or. -/
structure Adversary where
  /-- The public function symbols. -/
  publicSymbols : List FunctionSymbol := []

namespace Adversary

/-- Whether the adversary can evaluate a function symbol. -/
def computes (a : Adversary) (f : FunctionSymbol) : Bool :=
  f.theory == .xor || a.publicSymbols.contains f

mutual

/-- The subterms for which the adversary would have to know more, children before their parent.
There are none if and only if the adversary can build the term from zero and the known terms. -/
def missing (a : Adversary) (known : List Term) : Term → List Term
  | .var v => if known.contains (.var v) then [] else [.var v]
  | .const c =>
    if (Term.const c).isZero || known.contains (.const c) then [] else [.const c]
  | .app f ts =>
    if known.contains (.app f ts) then []
    else if a.computes f then
      match missingAll a known ts with
      | [] => []
      | m => m ++ [.app f ts]
    else [.app f ts]
  | .sum ts =>
    if known.contains (.sum ts) then []
    else
      match missingAll a known ts with
      | [] => []
      | m => m ++ [.sum ts]

/-- The subterms that are missing for the terms of a list. -/
def missingAll (a : Adversary) (known : List Term) : List Term → List Term
  | [] => []
  | t :: ts => missing a known t ++ missingAll a known ts

end

/-- The bindings of the variables whose names come before that of `v`. -/
def earlier (σ : Substitution) (v : Variable) : Substitution :=
  σ.restrict (σ.domain.filter fun w => compare w.symbol v.symbol == .lt)

/-- The bound variables, each with the subterms that are missing for its term. -/
def badSubterms (a : Adversary) (constraints : Constraints) (σ : Substitution) :
    List (Variable × Term) :=
  σ.bindings.entries.flatMap fun (v, t) =>
    match constraints.get? v with
    | none => []
    | some terms => (a.missing (terms.map (earlier σ v).apply) t).map (v, ·)

end Adversary

end SymbolicXor
