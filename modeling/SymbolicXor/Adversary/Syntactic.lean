import SymbolicXor.Adversary.Model
import SymbolicXor.Unification.Syntactic

/-!
# Syntactic unification by an adversary

The weakest adversary computes nothing: a constrained variable may be bound to a known term as it
stands, or to a variable.
-/

namespace SymbolicXor

/-- Reasons for which an adversary cannot make two terms equal. -/
inductive ConstrainedUnifyError where
  /-- The terms have no syntactic unifier. -/
  | notUnifiable (cause : UnifyError)
  /-- The unifier binds a variable to a term that is not among those known. -/
  | constraintViolation (v : Variable) (term : Term)
deriving DecidableEq

/-- The message of the error. -/
def ConstrainedUnifyError.message : ConstrainedUnifyError → String
  | notUnifiable e => e.message
  | constraintViolation v t => s!"{v} is bound to {t}, which its constraints do not allow"

namespace Adversary

/-- Whether a binding is not allowed: a constrained variable bound to a term that is neither a
variable nor known. -/
def violates (constraints : Constraints) (v : Variable) (t : Term) : Bool :=
  !t.isVar && (constraints.get? v).any fun known => !known.contains t

/-- A most general unifier of two terms that binds constrained variables to known terms only. -/
def unifySyntactic (s t : Term) (constraints : Constraints) :
    Except ConstrainedUnifyError Substitution :=
  match Unification.unifyTerms s t with
  | .error e => .error (.notUnifiable e)
  | .ok σ =>
    match σ.bindings.entries.find? fun (v, u) => violates constraints v u with
    | some (v, u) => .error (.constraintViolation v u)
    | none => .ok σ

end Adversary

end SymbolicXor
