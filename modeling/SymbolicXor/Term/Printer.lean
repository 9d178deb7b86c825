import SymbolicXor.Term.Basic

/-!
# Terms as text

Variables and constants are printed by name; an application is printed as its symbol with the
arguments in parentheses, and a sum in the same way under `xor`.
-/

namespace SymbolicXor.Term

mutual

/-- The text of a term. -/
def text : Term → String
  | var v => toString v
  | const c => toString c
  | app f ts => toString f ++ "(" ++ ", ".intercalate (textAll ts) ++ ")"
  | sum ts => "xor(" ++ ", ".intercalate (textAll ts) ++ ")"

/-- The texts of the terms in a list. -/
def textAll : List Term → List String
  | [] => []
  | t :: ts => text t :: textAll ts

end

instance : ToString Term := ⟨text⟩

end SymbolicXor.Term
