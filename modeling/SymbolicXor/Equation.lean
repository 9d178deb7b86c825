import SymbolicXor.Term.Printer
import SymbolicXor.Term.Subterm

/-!
# Equations and disequations

Unification problems are lists of equations. A search that has refused to make two terms equal
records the pair as a disequation.
-/

namespace SymbolicXor

/-- Two terms that are to become equal. -/
structure Equation where
  /-- The left side. -/
  left : Term
  /-- The right side. -/
  right : Term
deriving DecidableEq

namespace Equation

instance : ToString Equation := ⟨fun e => toString e.left ++ " = " ++ toString e.right⟩

/-- The names in both sides. -/
def symbols (e : Equation) : List Name := e.left.symbols ++ e.right.symbols

/-- The occurrences of variables in both sides. -/
def vars (e : Equation) : List Variable := e.left.vars ++ e.right.vars

/-- The same equation with its sides exchanged. -/
def swap (e : Equation) : Equation := ⟨e.right, e.left⟩

/-- Apply a function to both sides. -/
def map (f : Term → Term) (e : Equation) : Equation := ⟨f e.left, f e.right⟩

end Equation

/-- Two terms that are to stay different. -/
structure Disequation where
  /-- The left side. -/
  left : Term
  /-- The right side. -/
  right : Term
deriving DecidableEq

/-- Apply a function to both sides. -/
def Disequation.map (f : Term → Term) (d : Disequation) : Disequation := ⟨f d.left, f d.right⟩

end SymbolicXor
