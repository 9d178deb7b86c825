import SymbolicXor.TermSort

/-!
# Variables, constants and function symbols

The symbols from which terms are built. Two symbols of one name but different sorts, arities or
theories are different symbols.
-/

namespace SymbolicXor

/-- A variable, which may be restricted to a sort. -/
structure Variable where
  /-- The name of the variable. -/
  symbol : Name
  /-- The sort of the terms that the variable stands for, if it is restricted. -/
  sort : Option TermSort := none
deriving DecidableEq

namespace Variable

instance : ToString Variable := ⟨fun v => v.symbol.text⟩

/-- Variables are ordered by name, then by sort. -/
instance : Ord Variable := ⟨compareLex (compareOn symbol) (compareOn sort)⟩

instance : Std.TransOrd Variable :=
  inferInstanceAs (Std.TransCmp (compareLex (compareOn symbol) (compareOn sort)))

instance : Std.LawfulEqOrd Variable where
  compare_self :=
    @Std.ReflCmp.compare_self Variable (compareLex (compareOn symbol) (compareOn sort)) _
  eq_of_compare {v w} h := by
    obtain ⟨hs, ht⟩ := Ordering.then_eq_eq.1 h
    cases v
    cases w
    cases Std.LawfulEqOrd.eq_of_compare hs
    cases Std.LawfulEqOrd.eq_of_compare ht
    rfl

end Variable

/-- A constant, which may have a sort. -/
structure Constant where
  /-- The name of the constant. -/
  symbol : Name
  /-- The sort of the constant, if it has one. -/
  sort : Option TermSort := none
deriving DecidableEq

namespace Constant

instance : ToString Constant := ⟨fun c => c.symbol.text⟩

/-- Constants are ordered by name, then by sort. -/
instance : Ord Constant := ⟨compareLex (compareOn symbol) (compareOn sort)⟩

instance : Std.TransOrd Constant :=
  inferInstanceAs (Std.TransCmp (compareLex (compareOn symbol) (compareOn sort)))

instance : Std.LawfulEqOrd Constant where
  compare_self :=
    @Std.ReflCmp.compare_self Constant (compareLex (compareOn symbol) (compareOn sort)) _
  eq_of_compare {c d} h := by
    obtain ⟨hs, ht⟩ := Ordering.then_eq_eq.1 h
    cases c
    cases d
    cases Std.LawfulEqOrd.eq_of_compare hs
    cases Std.LawfulEqOrd.eq_of_compare ht
    rfl

end Constant

/-- The equational theory to which a function symbol belongs. -/
inductive Theory where
  /-- No equations. -/
  | free
  /-- Exclusive or: associative, commutative, self-cancelling, with zero. -/
  | xor
deriving DecidableEq

namespace Theory

/-- The free theory comes first. -/
def rank : Theory → Nat
  | free => 0
  | xor => 1

instance : Ord Theory := ⟨compareOn rank⟩

instance : Std.TransOrd Theory := inferInstanceAs (Std.TransCmp (compareOn rank))

instance : Std.LawfulEqOrd Theory where
  compare_self {t} := Std.ReflOrd.compare_self (a := t.rank)
  eq_of_compare {s t} h := by
    have : s.rank = t.rank := Std.LawfulEqOrd.eq_of_compare h
    cases s <;> cases t <;> simp_all [rank]

end Theory

/-- The sorts that a function symbol asks of its arguments. -/
inductive Domain where
  /-- Nothing is asked. -/
  | any
  /-- One sort is asked of every argument. -/
  | uniform (sort : TermSort)
  /-- Each argument has its own demand, which may be none. -/
  | each (sorts : List (Option TermSort))
deriving DecidableEq

namespace Domain

/-- The sort asked of the argument at an index. -/
def at? : Domain → Nat → Option TermSort
  | any, _ => none
  | uniform s, _ => some s
  | each ss, i => (ss[i]?).join

/-- The place of a kind of demand among the three kinds. -/
def rank : Domain → Nat
  | any => 0
  | uniform _ => 1
  | each _ => 2

/-- The demands that are written out. -/
def demands : Domain → List (Option TermSort)
  | any => []
  | uniform s => [some s]
  | each ss => ss

/-- Domains are ordered by kind, then by their demands. -/
instance : Ord Domain := ⟨compareLex (compareOn rank) (compareOn demands)⟩

instance : Std.TransOrd Domain :=
  inferInstanceAs (Std.TransCmp (compareLex (compareOn rank) (compareOn demands)))

instance : Std.LawfulEqOrd Domain where
  compare_self :=
    @Std.ReflCmp.compare_self Domain (compareLex (compareOn rank) (compareOn demands)) _
  eq_of_compare {s t} h := by
    obtain ⟨hr, hd⟩ := Ordering.then_eq_eq.1 h
    have hr : s.rank = t.rank := Std.LawfulEqOrd.eq_of_compare hr
    have hd : s.demands = t.demands := Std.LawfulEqOrd.eq_of_compare hd
    cases s <;> cases t <;> simp_all [rank, demands]

end Domain

/-- A function symbol. -/
structure FunctionSymbol where
  /-- The name of the symbol. -/
  symbol : Name
  /-- The number of arguments. -/
  arity : Nat
  /-- The sorts asked of the arguments. -/
  domain : Domain := .any
  /-- The sort of an application, if it has one. -/
  range : Option TermSort := none
  /-- The theory of the symbol. -/
  theory : Theory := .free
deriving DecidableEq

namespace FunctionSymbol

instance : ToString FunctionSymbol := ⟨fun f => f.symbol.text⟩

/-- Function symbols are ordered by name, arity, domain, range and theory, in this order. -/
def order : FunctionSymbol → FunctionSymbol → Ordering :=
  compareLex (compareOn symbol) <| compareLex (compareOn arity) <|
    compareLex (compareOn domain) <| compareLex (compareOn range) (compareOn theory)

instance : Ord FunctionSymbol := ⟨order⟩

instance : Std.TransOrd FunctionSymbol :=
  inferInstanceAs (Std.TransCmp (compareLex (compareOn symbol) <| compareLex (compareOn arity) <|
    compareLex (compareOn domain) <| compareLex (compareOn range) (compareOn theory)))

instance : Std.LawfulEqOrd FunctionSymbol where
  compare_self := @Std.ReflCmp.compare_self FunctionSymbol (compareLex (compareOn symbol) <|
    compareLex (compareOn arity) <| compareLex (compareOn domain) <|
    compareLex (compareOn range) (compareOn theory)) _
  eq_of_compare {f g} h := by
    obtain ⟨hs, h⟩ := Ordering.then_eq_eq.1 h
    obtain ⟨ha, h⟩ := Ordering.then_eq_eq.1 h
    obtain ⟨hd, h⟩ := Ordering.then_eq_eq.1 h
    obtain ⟨hr, ht⟩ := Ordering.then_eq_eq.1 h
    cases f
    cases g
    cases Std.LawfulEqOrd.eq_of_compare hs
    cases Std.LawfulEqOrd.eq_of_compare ha
    cases Std.LawfulEqOrd.eq_of_compare hd
    cases Std.LawfulEqOrd.eq_of_compare hr
    cases Std.LawfulEqOrd.eq_of_compare ht
    rfl

/-- The symbol of exclusive or. -/
def xor : FunctionSymbol := { symbol := ⟨"xor", by decide⟩, arity := 2, theory := .xor }

end FunctionSymbol

end SymbolicXor
