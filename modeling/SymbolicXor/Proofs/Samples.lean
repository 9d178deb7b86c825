import SymbolicXor.Signature
import SymbolicXor.Term.Basic

/-!
# Sample symbols

Symbols, without sorts and of one sort, from which the small problems are built at which general
results are shown to apply or claims to fail.
-/

namespace SymbolicXor.Sample

/-- The variable `x`. -/
def x : Variable := { symbol := ⟨"x", by decide⟩ }

/-- The variable `y`. -/
def y : Variable := { symbol := ⟨"y", by decide⟩ }

/-- The variable `z`. -/
def z : Variable := { symbol := ⟨"z", by decide⟩ }

/-- The constant `a`. -/
def a : Term := .const { symbol := ⟨"a", by decide⟩ }

/-- The constant `b`. -/
def b : Term := .const { symbol := ⟨"b", by decide⟩ }

/-- The unary symbol `f`. -/
def f : FunctionSymbol := { symbol := ⟨"f", by decide⟩, arity := 1 }

/-- The unary symbol `g`. -/
def g : FunctionSymbol := { symbol := ⟨"g", by decide⟩, arity := 1 }

/-- The binary symbol `p`. -/
def p : FunctionSymbol := { symbol := ⟨"p", by decide⟩, arity := 2 }

/-- The unary symbol `q`. -/
def q : FunctionSymbol := { symbol := ⟨"q", by decide⟩, arity := 1 }

/-- The coefficient `c1`. -/
def c₁ : Name := ⟨"c1", by decide⟩

/-- The coefficient `c2`. -/
def c₂ : Name := ⟨"c2", by decide⟩

/-- The coefficient `c3`. -/
def c₃ : Name := ⟨"c3", by decide⟩

namespace Sorted

/-- A sort. -/
def sort : TermSort := .root ⟨"S", by decide⟩

/-- The variable `x` of the sort. -/
def x : Variable := { symbol := ⟨"x", by decide⟩, sort := some sort }

/-- The variable `y` of the sort. -/
def y : Variable := { symbol := ⟨"y", by decide⟩, sort := some sort }

/-- The constant `a` of the sort. -/
def a : Term := .const { symbol := ⟨"a", by decide⟩, sort := some sort }

/-- The constant `b` of the sort. -/
def b : Term := .const { symbol := ⟨"b", by decide⟩, sort := some sort }

end Sorted

end SymbolicXor.Sample
