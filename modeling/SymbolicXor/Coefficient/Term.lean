import SymbolicXor.FinMap
import SymbolicXor.Term.Printer
import SymbolicXor.Term.Sum

/-!
# Terms with boolean coefficients

In a coefficient term a summand may be multiplied by a boolean coefficient: `b * t` stands for `t`
where `b` is one, and for zero where `b` is zero. Nothing is simplified when such a term is built.
`simplify` removes zeros, products with one, nested sums and summands that cancel, and leaves the
remaining summands in their order.
-/

namespace SymbolicXor

/-- A term over constants, variables, coefficients and function symbols, with sums and products. -/
inductive CoeffTerm where
  /-- Zero. -/
  | zero
  /-- One. -/
  | one
  /-- A constant. -/
  | const (c : Constant)
  /-- A boolean coefficient. -/
  | coeff (name : Name)
  /-- A protocol variable. -/
  | var (v : Variable)
  /-- A function symbol applied to arguments. -/
  | app (f : FunctionSymbol) (args : List CoeffTerm)
  /-- The exclusive or of summands. -/
  | sum (summands : List CoeffTerm)
  /-- A product. -/
  | mul (left right : CoeffTerm)

namespace CoeffTerm

/-- The place of a kind of coefficient term among the eight kinds. -/
def rank : CoeffTerm → Nat
  | zero => 0
  | one => 1
  | const _ => 2
  | coeff _ => 3
  | var _ => 4
  | app _ _ => 5
  | sum _ => 6
  | mul _ _ => 7

mutual

/-- The order of coefficient terms: by kind, and within a kind by content. -/
def compare : CoeffTerm → CoeffTerm → Ordering
  | const c, const d => Ord.compare c d
  | coeff b, coeff c => Ord.compare b c
  | var v, var w => Ord.compare v w
  | app f ss, app g ts => (Ord.compare f g).then (compareAll ss ts)
  | sum ss, sum ts => compareAll ss ts
  | mul s t, mul u v => (compare s u).then (compare t v)
  | s, t => Ord.compare s.rank t.rank

/-- The lexicographic order of lists of coefficient terms. -/
def compareAll : List CoeffTerm → List CoeffTerm → Ordering
  | [], [] => .eq
  | [], _ :: _ => .lt
  | _ :: _, [] => .gt
  | s :: ss, t :: ts => (compare s t).then (compareAll ss ts)

end

mutual

private theorem compare_self : ∀ t : CoeffTerm, compare t t = .eq
  | zero => rfl
  | one => rfl
  | const c => by simp only [compare, Std.ReflOrd.compare_self]
  | coeff b => by simp only [compare, Std.ReflOrd.compare_self]
  | var v => by simp only [compare, Std.ReflOrd.compare_self]
  | app f ts => by
    simp only [compare, Std.ReflOrd.compare_self, compareAll_self ts, Ordering.then]
  | sum ts => by simp only [compare, compareAll_self ts]
  | mul s t => by simp only [compare, compare_self s, compare_self t, Ordering.then]

private theorem compareAll_self : ∀ ts : List CoeffTerm, compareAll ts ts = .eq
  | [] => rfl
  | t :: ts => by simp only [compareAll, compare_self t, compareAll_self ts, Ordering.then]

end

mutual

private theorem eq_of_compare : ∀ {s t : CoeffTerm}, compare s t = .eq → s = t
  | zero, t, h => by
    cases t <;> simp only [compare, rank] at h <;> first | rfl | exact absurd h (by decide)
  | one, t, h => by
    cases t <;> simp only [compare, rank] at h <;> first | rfl | exact absurd h (by decide)
  | const c, t, h => by
    cases t <;> simp only [compare, rank] at h
    case const d => rw [Std.LawfulEqOrd.eq_of_compare h]
    all_goals exact absurd h (by decide)
  | coeff b, t, h => by
    cases t <;> simp only [compare, rank] at h
    case coeff c => rw [Std.LawfulEqOrd.eq_of_compare h]
    all_goals exact absurd h (by decide)
  | var v, t, h => by
    cases t <;> simp only [compare, rank] at h
    case var w => rw [Std.LawfulEqOrd.eq_of_compare h]
    all_goals exact absurd h (by decide)
  | app f ss, t, h => by
    cases t <;> simp only [compare, rank] at h
    case app g ts =>
      obtain ⟨hf, hs⟩ := Ordering.then_eq_eq.1 h
      rw [Std.LawfulEqOrd.eq_of_compare hf, eq_of_compareAll hs]
    all_goals exact absurd h (by decide)
  | sum ss, t, h => by
    cases t <;> simp only [compare, rank] at h
    case sum ts => rw [eq_of_compareAll h]
    all_goals exact absurd h (by decide)
  | mul s u, t, h => by
    cases t <;> simp only [compare, rank] at h
    case mul s' u' =>
      obtain ⟨hs, hu⟩ := Ordering.then_eq_eq.1 h
      rw [eq_of_compare hs, eq_of_compare hu]
    all_goals exact absurd h (by decide)

private theorem eq_of_compareAll : ∀ {ss ts : List CoeffTerm}, compareAll ss ts = .eq → ss = ts
  | [], [], _ => rfl
  | s :: ss, t :: ts, h => by
    obtain ⟨hs, hss⟩ := Ordering.then_eq_eq.1 h
    rw [eq_of_compare hs, eq_of_compareAll hss]

end

instance : Ord CoeffTerm := ⟨compare⟩

instance : Std.LawfulEqOrd CoeffTerm where
  compare_self {t} := compare_self t
  eq_of_compare h := eq_of_compare h

instance : DecidableEq CoeffTerm := fun s t =>
  decidable_of_iff (Ord.compare s t = .eq) Std.LawfulEqOrd.compare_eq_iff_eq

mutual

/-- The text of a coefficient term. -/
def text : CoeffTerm → String
  | zero => "0"
  | one => "1"
  | const c => toString c
  | coeff b => toString b
  | var v => toString v
  | app f ts => toString f ++ "(" ++ ", ".intercalate (textAll ts) ++ ")"
  | sum ts => "xor(" ++ ", ".intercalate (textAll ts) ++ ")"
  | mul s t => text s ++ "*" ++ text t

/-- The texts of the coefficient terms in a list. -/
def textAll : List CoeffTerm → List String
  | [] => []
  | t :: ts => text t :: textAll ts

end

instance : ToString CoeffTerm := ⟨text⟩

/-- The summands of a sum; any other term is its only summand. -/
def summands : CoeffTerm → List CoeffTerm
  | sum ts => ts
  | t => [t]

/-- Remove a summand that is there, or append one that is not. Zero changes nothing. -/
def toggle (ts : List CoeffTerm) (t : CoeffTerm) : List CoeffTerm :=
  if t = zero then ts else if ts.contains t then ts.erase t else ts ++ [t]

/-- The term with the given summands. -/
def ofSummands : List CoeffTerm → CoeffTerm
  | [] => zero
  | [t] => t
  | ts => sum ts

/-- The product of two simplified terms. -/
def product (s t : CoeffTerm) : CoeffTerm :=
  if s = zero ∨ t = zero then zero else if s = one then t else if t = one then s else mul s t

mutual

/-- Remove zeros, ones in products, nested sums and pairs of summands that cancel. -/
def simplify : CoeffTerm → CoeffTerm
  | app f ts => app f (simplifyAll ts)
  | sum ts => ofSummands (((simplifyAll ts).flatMap summands).foldl toggle [])
  | mul s t => product (simplify s) (simplify t)
  | t => t

/-- Simplify each term in a list. -/
def simplifyAll : List CoeffTerm → List CoeffTerm
  | [] => []
  | t :: ts => simplify t :: simplifyAll ts

end

mutual

/-- Replace the variables and coefficients of a term. -/
def mapLeaves (onVar : Variable → CoeffTerm) (onCoeff : Name → CoeffTerm) :
    CoeffTerm → CoeffTerm
  | var v => onVar v
  | coeff b => onCoeff b
  | app f ts => app f (mapLeavesAll onVar onCoeff ts)
  | sum ts => sum (mapLeavesAll onVar onCoeff ts)
  | mul s t => mul (mapLeaves onVar onCoeff s) (mapLeaves onVar onCoeff t)
  | t => t

/-- Replace the variables and coefficients of each term in a list. -/
def mapLeavesAll (onVar : Variable → CoeffTerm) (onCoeff : Name → CoeffTerm) :
    List CoeffTerm → List CoeffTerm
  | [] => []
  | t :: ts => mapLeaves onVar onCoeff t :: mapLeavesAll onVar onCoeff ts

end

/-- Replace the protocol variables that a map binds. -/
def substitute (m : FinMap Variable CoeffTerm) : CoeffTerm → CoeffTerm :=
  mapLeaves (fun v => (m.get? v).getD (var v)) coeff

/-- The coefficient of a product that has one. -/
def coefficient? : CoeffTerm → Option Name
  | mul (coeff b) _ => some b
  | mul _ (coeff b) => some b
  | _ => none

/-- The factor that a coefficient multiplies: the left factor of a product without a coefficient,
and any other term but a product itself. -/
def realTerm : CoeffTerm → CoeffTerm
  | mul (coeff _) t => t
  | mul s _ => s
  | t => t

mutual

/-- A term without coefficients. -/
def ofTerm : Term → CoeffTerm
  | .var v => var v
  | .const c => if Term.const c = Term.zero then zero else const c
  | .app f ts => app f (ofTerms ts)
  | .sum ts => sum (ofTerms ts)

/-- Terms without coefficients. -/
def ofTerms : List Term → List CoeffTerm
  | [] => []
  | t :: ts => ofTerm t :: ofTerms ts

end

/-- The function symbol of products whose coefficient has no value. -/
def productSymbol : FunctionSymbol := { symbol := ⟨"Mul", by decide⟩, arity := 2 }

mutual

/-- The term in which one is a constant, coefficients are variables, and products are applications
of a function symbol `Mul`. -/
def toTerm : CoeffTerm → Term
  | zero => .zero
  | one => .const { symbol := ⟨"1", by decide⟩ }
  | const c => .const c
  | coeff b => .var { symbol := b }
  | var v => .var v
  | app f ts => .app f (toTerms ts)
  | sum ts => .xor (toTerms ts)
  | mul s t => .app productSymbol [toTerm s, toTerm t]

/-- The terms for each coefficient term in a list. -/
def toTerms : List CoeffTerm → List Term
  | [] => []
  | t :: ts => toTerm t :: toTerms ts

end

end CoeffTerm

end SymbolicXor
