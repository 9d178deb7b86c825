import SymbolicXor.Term.Sum

/-!
# Applying function symbols

An application is built by checking it: the number of arguments against the arity, then each
argument against the sort that the domain asks of it. A symbol applied to no arguments is a
constant, and the symbol of exclusive or gives a sum of any number of terms.
-/

namespace SymbolicXor

/-- Errors of building a term or a symbol. -/
inductive TermError where
  /-- A text is no name. -/
  | invalidName (cause : InvalidName)
  /-- The number of arguments, or of demands on them, is not the arity. -/
  | arityMismatch (symbol : Name) (expected actual : Nat)
  /-- An argument lacks the sort that the domain asks of it. -/
  | sortMismatch (symbol : Name) (expected : TermSort) (actual : Option TermSort)
deriving DecidableEq

/-- The message of the error. -/
def TermError.message : TermError → String
  | invalidName e => e.message
  | arityMismatch f expected actual =>
    s!"{f} expects {expected} arguments, got {actual}"
  | sortMismatch f expected actual =>
    let actual := (actual.map toString).getD "no sort"
    s!"domain mismatch for {f}: expected {expected}, got {actual}"

namespace FunctionSymbol

/-- The symbol with a demand of its own on each argument. -/
def withDemands (f : FunctionSymbol) (sorts : List (Option TermSort)) :
    Except TermError FunctionSymbol :=
  if sorts.length = f.arity then .ok { f with domain := .each sorts }
  else .error (.arityMismatch f.symbol f.arity sorts.length)

/-- The first argument that lacks the sort asked of it, as an error. -/
def sortError? (f : FunctionSymbol) (args : List Term) : Option TermError :=
  args.zipIdx.findSome? fun (t, i) =>
    match f.domain.at? i with
    | none => none
    | some s => if s.admits t then none else some (.sortMismatch f.symbol s t.sort)

/-- The symbol applied to arguments, after checking their number and sorts. -/
def apply (f : FunctionSymbol) (args : List Term) : Except TermError Term :=
  match f.theory with
  | .xor => .ok (Term.xor args)
  | .free =>
    if args.length = f.arity then
      match f.sortError? args with
      | some e => .error e
      | none =>
        if args.isEmpty then .ok (.const { symbol := f.symbol, sort := f.range })
        else .ok (.app f args)
    else .error (.arityMismatch f.symbol f.arity args.length)

end FunctionSymbol

end SymbolicXor
