import SymbolicXor.OrderedList
import SymbolicXor.Term.Basic

/-!
# Subterms

All subterms of a term in pre-order, and what is read off them: its variables, constants and
symbols, whether a term occurs in it and how often, and how deep it is.
-/

namespace SymbolicXor.Term

mutual

/-- The subterms of a term in front of a list of terms. -/
def subtermsOnto : Term → List Term → List Term
  | var v, rest => var v :: rest
  | const c, rest => const c :: rest
  | app f ts, rest => app f ts :: subtermsAllOnto ts rest
  | sum ts, rest => sum ts :: subtermsAllOnto ts rest

/-- The subterms of each term in a list, one after the other, in front of a list of terms. -/
def subtermsAllOnto : List Term → List Term → List Term
  | [], rest => rest
  | t :: ts, rest => subtermsOnto t (subtermsAllOnto ts rest)

end

/-- The term itself and all terms below it, in pre-order. -/
def subterms (t : Term) : List Term := t.subtermsOnto []

mutual

private theorem subtermsOnto_eq : ∀ (t : Term) (rest : List Term),
    subtermsOnto t rest = t.subterms ++ rest
  | var _, _ => rfl
  | const _, _ => rfl
  | app f ts, rest => by
    simp only [subterms, subtermsOnto, List.cons_append, subtermsAllOnto_eq ts, List.append_nil]
  | sum ts, rest => by
    simp only [subterms, subtermsOnto, List.cons_append, subtermsAllOnto_eq ts, List.append_nil]

private theorem subtermsAllOnto_eq : ∀ (ts rest : List Term),
    subtermsAllOnto ts rest = ts.flatMap subterms ++ rest
  | [], _ => rfl
  | t :: ts, rest => by
    rw [subtermsAllOnto, subtermsOnto_eq t, subtermsAllOnto_eq ts, List.flatMap_cons,
      List.append_assoc]

end

@[simp] theorem subterms_var (v : Variable) : (var v).subterms = [var v] := rfl

@[simp] theorem subterms_const (c : Constant) : (const c).subterms = [const c] := rfl

@[simp] theorem subterms_app (f : FunctionSymbol) (ts : List Term) :
    (app f ts).subterms = app f ts :: ts.flatMap subterms := by
  simp only [subterms, subtermsOnto, subtermsAllOnto_eq, List.append_nil]

@[simp] theorem subterms_sum (ts : List Term) :
    (sum ts).subterms = sum ts :: ts.flatMap subterms := by
  simp only [subterms, subtermsOnto, subtermsAllOnto_eq, List.append_nil]

/-- The occurrences of variables, from left to right. -/
def vars (t : Term) : List Variable := t.subterms.filterMap asVar?

@[simp] theorem vars_var (v : Variable) : (var v).vars = [v] := rfl

@[simp] theorem vars_const (c : Constant) : (const c).vars = [] := rfl

@[simp] theorem vars_app (f : FunctionSymbol) (ts : List Term) :
    (app f ts).vars = ts.flatMap vars := by
  simp only [vars, subterms_app, asVar?, List.filterMap_cons, List.filterMap_flatMap]
  rfl

@[simp] theorem vars_sum (ts : List Term) : (sum ts).vars = ts.flatMap vars := by
  simp only [vars, subterms_sum, asVar?, List.filterMap_cons, List.filterMap_flatMap]
  rfl

/-- The constant that a term is. -/
def asConst? : Term → Option Constant
  | const c => some c
  | _ => none

/-- The occurrences of constants, from left to right. -/
def constants (t : Term) : List Constant := t.subterms.filterMap asConst?

@[simp] theorem constants_var (v : Variable) : (var v).constants = [] := rfl

@[simp] theorem constants_const (c : Constant) : (const c).constants = [c] := rfl

@[simp] theorem constants_app (f : FunctionSymbol) (ts : List Term) :
    (app f ts).constants = ts.flatMap constants := by
  simp only [constants, subterms_app, asConst?, List.filterMap_cons, List.filterMap_flatMap]
  rfl

@[simp] theorem constants_sum (ts : List Term) : (sum ts).constants = ts.flatMap constants := by
  simp only [constants, subterms_sum, asConst?, List.filterMap_cons, List.filterMap_flatMap]
  rfl

/-- The variables of a term, each once, in order. -/
def uniqueVars (t : Term) : List Variable := OrderedList.ofList t.vars

/-- The constants of a term, each once, in order. -/
def uniqueConstants (t : Term) : List Constant := OrderedList.ofList t.constants

/-- The name at the head of a term; a sum has none. -/
def headSymbol? : Term → Option Name
  | var v => some v.symbol
  | const c => some c.symbol
  | app f _ => some f.symbol
  | sum _ => none

/-- The names of variables, constants and function symbols, in pre-order. -/
def symbols (t : Term) : List Name := t.subterms.filterMap headSymbol?

/-- Whether a variable occurs in a term. -/
def occurs (v : Variable) (t : Term) : Bool := t.vars.contains v

mutual

/-- The occurrences of variables below a function symbol. -/
def varsInArguments : Term → List Variable
  | var _ => []
  | const _ => []
  | app f ts => (app f ts).vars
  | sum ts => varsInArgumentsAll ts

/-- The occurrences of variables below a function symbol in the terms of a list. -/
def varsInArgumentsAll : List Term → List Variable
  | [] => []
  | t :: ts => varsInArguments t ++ varsInArgumentsAll ts

end

/-- Whether a term occurs strictly below another. -/
def contains (t s : Term) : Bool := t.subterms.tail.contains s

mutual

/-- The number of occurrences of a term in another. -/
def countIn (s : Term) : Term → Nat
  | t@(app _ ts) => if s = t then 1 else countInAll s ts
  | t@(sum ts) => if s = t then 1 else countInAll s ts
  | t => if s = t then 1 else 0

/-- The number of occurrences of a term in the terms of a list. -/
def countInAll (s : Term) : List Term → Nat
  | [] => 0
  | t :: ts => countIn s t + countInAll s ts

end

mutual

/-- The nesting depth of applications and sums. -/
def depth : Term → Nat
  | var _ => 0
  | const _ => 0
  | app _ ts => depthAll ts + 1
  | sum ts => depthAll ts + 1

/-- The greatest depth in a list of terms. -/
def depthAll : List Term → Nat
  | [] => 0
  | t :: ts => max (depth t) (depthAll ts)

end

/-- Whether some sum in the term has a variable, so that an instance of it may cancel. -/
def hasOpenSum (t : Term) : Bool := t.subterms.any fun s => s.isSum && !s.vars.isEmpty

end SymbolicXor.Term
