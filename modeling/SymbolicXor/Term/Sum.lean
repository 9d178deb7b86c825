import SymbolicXor.OrderedList
import SymbolicXor.Term.Basic

/-!
# Sums modulo exclusive or

Exclusive or is associative and commutative, every term cancels itself, and zero is neutral. A sum
is therefore known by the terms that occur in it an odd number of times. `Term.xor` lists them in
increasing order; a sum of none is zero, and a sum of one is that term.
-/

namespace SymbolicXor.Term

/-- The neutral element of exclusive or: the constant `0` without a sort. -/
def zero : Term := const { symbol := ⟨"0", by decide⟩ }

/-- Whether a term is zero. -/
def isZero (t : Term) : Bool := t == zero

/-- The summands of a term: none for zero, and any other term but a sum is its only one. -/
def summands : Term → List Term
  | sum ts => ts
  | t => if t = zero then [] else [t]

/-- The summands of a sum of terms, in increasing order and without pairs that cancel. -/
def cancel (ts : List Term) : List Term := OrderedList.oddOnes (ts.flatMap summands)

/-- The term with the given summands. -/
def ofSummands : List Term → Term
  | [] => zero
  | [t] => t
  | ts => sum ts

/-- The sum of terms in canonical form. -/
def xor (ts : List Term) : Term := ofSummands (cancel ts)

/-- The term with the same head and other immediate subterms. -/
def withArgs : Term → List Term → Term
  | var v, _ => var v
  | const c, _ => const c
  | app f _, ts => app f ts
  | sum _, ts => xor ts

mutual

/-- Replace the variables and constants of a term, and bring its sums into canonical form. -/
def mapLeaves (onVar : Variable → Term) (onConst : Constant → Term) : Term → Term
  | var v => onVar v
  | const c => onConst c
  | app f ts => app f (mapLeavesAll onVar onConst ts)
  | sum ts => xor (mapLeavesAll onVar onConst ts)

/-- Replace the variables and constants of each term in a list. -/
def mapLeavesAll (onVar : Variable → Term) (onConst : Constant → Term) : List Term → List Term
  | [] => []
  | t :: ts => mapLeaves onVar onConst t :: mapLeavesAll onVar onConst ts

end

theorem mapLeavesAll_eq_map (onVar : Variable → Term) (onConst : Constant → Term)
    (ts : List Term) : mapLeavesAll onVar onConst ts = ts.map (mapLeaves onVar onConst) := by
  induction ts with
  | nil => rfl
  | cons t ts ih => simp [mapLeavesAll, ih]

end SymbolicXor.Term
