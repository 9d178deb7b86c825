import SymbolicXor.FinMap
import SymbolicXor.Term.Printer
import SymbolicXor.Term.Subterm
import SymbolicXor.Term.Sum

/-!
# Substitutions

A substitution binds finitely many variables to terms. Applying it replaces each bound variable by
its term and brings the sums of the result into canonical form. Bindings are checked when they are
added: the term must have a sort that the variable accepts, and a variable that is bound keeps its
term.
-/

namespace SymbolicXor

/-- A finite map from variables to terms. -/
structure Substitution where
  /-- The bindings, by variable. -/
  bindings : FinMap Variable Term
deriving DecidableEq

/-- Errors of binding a variable. -/
inductive BindError where
  /-- The variable is bound to another term. -/
  | conflict (v : Variable) (existing term : Term)
  /-- The variable does not accept the sort of the term. -/
  | illSorted (v : Variable) (term : Term)
deriving DecidableEq

/-- The message of the error. -/
def BindError.message : BindError → String
  | conflict v existing term => s!"{v} is already bound to {existing}, cannot bind it to {term}"
  | illSorted v term => s!"sort mismatch: cannot bind {v} to {term}"

namespace Substitution

/-- The substitution that binds no variable. -/
def empty : Substitution := ⟨∅⟩

instance : EmptyCollection Substitution := ⟨empty⟩

instance : Inhabited Substitution := ⟨∅⟩

/-- Substitutions are ordered by their bindings, read as words of variable and term. -/
instance : Ord Substitution := ⟨compareOn bindings⟩

instance : ToString Substitution where
  toString σ :=
    let shown := σ.bindings.entries.map fun (v, t) => s!"{v} ↦ {t}"
    "\x7b" ++ ", ".intercalate shown ++ "\x7d"

/-- The term to which a variable is bound. -/
def get? (σ : Substitution) (v : Variable) : Option Term := σ.bindings.get? v

/-- Whether a variable is bound. -/
def contains (σ : Substitution) (v : Variable) : Bool := σ.bindings.contains v

/-- The bound variables, in order. -/
def domain (σ : Substitution) : List Variable := σ.bindings.keys

/-- The terms to which variables are bound, in the order of the variables. -/
def range (σ : Substitution) : List Term := σ.bindings.values

/-- The number of bindings. -/
def size (σ : Substitution) : Nat := σ.bindings.size

/-- Whether no variable is bound. -/
def isEmpty (σ : Substitution) : Bool := σ.bindings.isEmpty

/-- The substitution with a single binding, which is not checked. -/
def single (v : Variable) (t : Term) : Substitution := ⟨(∅ : FinMap Variable Term).insert v t⟩

/-- Bind one more variable. Adding a binding once more changes nothing. -/
def add (σ : Substitution) (v : Variable) (t : Term) : Except BindError Substitution :=
  if v.accepts t then
    match σ.get? v with
    | none => .ok ⟨σ.bindings.insert v t⟩
    | some existing => if existing = t then .ok σ else .error (.conflict v existing t)
  else .error (.illSorted v t)

/-- The substitution with a single binding, if it is well-sorted. -/
def singleton (v : Variable) (t : Term) : Except BindError Substitution := empty.add v t

/-- The substitution with the given bindings, added in order. -/
def ofBindings (bindings : List (Variable × Term)) : Except BindError Substitution :=
  bindings.foldlM (fun σ b => σ.add b.1 b.2) empty

/-- Bind a variable anew, whether or not it was bound. -/
def replace (σ : Substitution) (v : Variable) (t : Term) : Except BindError Substitution :=
  if v.accepts t then .ok ⟨σ.bindings.insert v t⟩ else .error (.illSorted v t)

/-- Unbind a variable. -/
def erase (σ : Substitution) (v : Variable) : Substitution := ⟨σ.bindings.erase v⟩

/-- Keep the bindings of the given variables. -/
def restrict (σ : Substitution) (vs : List Variable) : Substitution :=
  ⟨σ.bindings.filterKeys vs.contains⟩

/-- The term that stands for a variable: the one to which it is bound, or the variable itself. -/
def lookup (σ : Substitution) (v : Variable) : Term := (σ.get? v).getD (.var v)

/-- Replace the bound variables of a term. -/
def apply (σ : Substitution) (t : Term) : Term := t.mapLeaves σ.lookup .const

/-- First `σ`, then `θ`, as one substitution that binds no variable to itself. -/
def compose (σ θ : Substitution) : Substitution where
  bindings :=
    let first := σ.bindings.filterMap fun x t =>
      if θ.apply t = .var x then none else some (θ.apply t)
    let second := θ.bindings.filterMap fun y u =>
      if σ.contains y ∨ u = .var y then none else some u
    first.union second

/-- Whether no bound variable occurs in a term to which a variable is bound. -/
def isIdempotent (σ : Substitution) : Bool :=
  σ.range.all fun t => t.vars.all fun v => !σ.contains v

/-- Apply a substitution until the term stops changing, at most a number of times. -/
def applyUpTo (σ : Substitution) : Nat → Term → Term
  | 0, t => t
  | n + 1, t => if σ.apply t = t then t else σ.applyUpTo n (σ.apply t)

/-- Apply a substitution until the term stops changing. If no variable depends on itself, one round
more than there are bindings is enough; a cyclic substitution is cut off there. -/
def unravel (σ : Substitution) (t : Term) : Term := σ.applyUpTo (σ.size + 1) t

end Substitution

end SymbolicXor
