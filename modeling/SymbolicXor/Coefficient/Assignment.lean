import SymbolicXor.Coefficient.Term

/-!
# Assignments to coefficients

An assignment gives finitely many coefficients the value zero or one. Two assignments can be
composed if they agree on the coefficients that both assign.
-/

namespace SymbolicXor

/-- Values for some boolean coefficients. -/
structure Assignment where
  /-- The value of each assigned coefficient. -/
  values : FinMap Name Bool
deriving DecidableEq

namespace Assignment

/-- The assignment to no coefficient. -/
def empty : Assignment := ⟨∅⟩

instance : EmptyCollection Assignment := ⟨empty⟩

instance : ToString Assignment where
  toString α :=
    let shown := α.values.entries.map fun (b, value) => s!"{b} ↦ {value.toNat}"
    "\x7b" ++ ", ".intercalate shown ++ "\x7d"

/-- The assignment to a single coefficient. -/
def singleton (b : Name) (value : Bool) : Assignment := ⟨(∅ : FinMap Name Bool).insert b value⟩

/-- The value of a coefficient, if it is assigned. -/
def get? (α : Assignment) (b : Name) : Option Bool := α.values.get? b

/-- The number of assigned coefficients. -/
def size (α : Assignment) : Nat := α.values.size

/-- Whether no coefficient is assigned. -/
def isEmpty (α : Assignment) : Bool := α.values.isEmpty

/-- Whether two assignments give the same values to the coefficients that both assign. -/
def agrees (α β : Assignment) : Bool :=
  β.values.entries.all fun (b, value) => (α.get? b).all (· == value)

/-- Both assignments in one, if they agree. -/
def compose (α β : Assignment) : Option Assignment :=
  if α.agrees β then some ⟨α.values.union β.values⟩ else none

/-- The term that stands for a coefficient: its value, or the coefficient itself. -/
def lookup (α : Assignment) (b : Name) : CoeffTerm :=
  match α.get? b with
  | some true => .one
  | some false => .zero
  | none => .coeff b

/-- Replace the assigned coefficients of a term by their values, without simplifying. -/
def apply (α : Assignment) (t : CoeffTerm) : CoeffTerm := t.mapLeaves .var α.lookup

end Assignment

end SymbolicXor
