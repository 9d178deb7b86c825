import SymbolicXor.Signature

/-!
# Terms

A term is a variable, a constant, an application of a function symbol or a sum modulo exclusive or.
The type holds any list of summands; the sums that the library builds list theirs in strictly
increasing order, at least two, none of them zero or itself a sum.

Terms are ordered by kind and then by content, lists of terms lexicographically. The order is
linear and agrees with equality, which is decided through it.
-/

namespace SymbolicXor

/-- A term over variables, constants and function symbols, with sums. -/
inductive Term where
  /-- A variable. -/
  | var (v : Variable)
  /-- A constant. -/
  | const (c : Constant)
  /-- A function symbol applied to arguments. -/
  | app (f : FunctionSymbol) (args : List Term)
  /-- The exclusive or of summands. -/
  | sum (summands : List Term)

namespace Term

instance : Inhabited Term := ⟨sum []⟩

/-- The place of a kind of term among the four kinds. -/
def rank : Term → Nat
  | var _ => 0
  | const _ => 1
  | app _ _ => 2
  | sum _ => 3

mutual

/-- The order of terms: variables, constants, applications, sums; within a kind by content. -/
def compare : Term → Term → Ordering
  | var v, var w => Ord.compare v w
  | const c, const d => Ord.compare c d
  | app f ss, app g ts => (Ord.compare f g).then (compareAll ss ts)
  | sum ss, sum ts => compareAll ss ts
  | s, t => Ord.compare s.rank t.rank

/-- The lexicographic order of lists of terms. -/
def compareAll : List Term → List Term → Ordering
  | [], [] => .eq
  | [], _ :: _ => .lt
  | _ :: _, [] => .gt
  | s :: ss, t :: ts => (compare s t).then (compareAll ss ts)

end

mutual

private theorem compare_self : ∀ t : Term, compare t t = .eq
  | var v => by simp only [compare, Std.ReflOrd.compare_self]
  | const c => by simp only [compare, Std.ReflOrd.compare_self]
  | app f ts => by simp only [compare, Std.ReflOrd.compare_self, compareAll_self ts, Ordering.then]
  | sum ts => by simp only [compare, compareAll_self ts]

private theorem compareAll_self : ∀ ts : List Term, compareAll ts ts = .eq
  | [] => rfl
  | t :: ts => by simp only [compareAll, compare_self t, compareAll_self ts, Ordering.then]

end

mutual

private theorem eq_of_compare : ∀ {s t : Term}, compare s t = .eq → s = t
  | var v, t, h => by
    cases t <;> simp only [compare, rank] at h
    case var w => rw [Std.LawfulEqOrd.eq_of_compare h]
    all_goals exact absurd h (by decide)
  | const c, t, h => by
    cases t <;> simp only [compare, rank] at h
    case const d => rw [Std.LawfulEqOrd.eq_of_compare h]
    all_goals exact absurd h (by decide)
  | app f ss, t, h => by
    cases t <;> simp only [compare, rank] at h
    case app g ts =>
      obtain ⟨hf, hs⟩ := Ordering.then_eq_eq.1 h
      rw [Std.LawfulEqOrd.eq_of_compare hf, eq_of_compareAll hs]
    all_goals exact absurd h (by decide)
  | sum ss, t, h => by
    cases t <;> simp only [compare, rank] at h
    case sum ts => rw [eq_of_compareAll h]
    all_goals exact absurd h (by decide)

private theorem eq_of_compareAll : ∀ {ss ts : List Term}, compareAll ss ts = .eq → ss = ts
  | [], [], _ => rfl
  | s :: ss, t :: ts, h => by
    obtain ⟨hs, hss⟩ := Ordering.then_eq_eq.1 h
    rw [eq_of_compare hs, eq_of_compareAll hss]

end

mutual

private theorem compare_swap : ∀ s t : Term, compare s t = (compare t s).swap
  | var v, t => by
    cases t <;> simp only [compare, rank]
    case var w => exact Std.OrientedCmp.eq_swap
    all_goals decide
  | const c, t => by
    cases t <;> simp only [compare, rank]
    case const d => exact Std.OrientedCmp.eq_swap
    all_goals decide
  | app f ss, t => by
    cases t <;> simp only [compare, rank]
    case app g ts =>
      rw [Ordering.swap_then, ← compareAll_swap ss ts, ← Std.OrientedCmp.eq_swap]
    all_goals decide
  | sum ss, t => by
    cases t <;> simp only [compare, rank]
    case sum ts => exact compareAll_swap ss ts
    all_goals decide

private theorem compareAll_swap : ∀ ss ts : List Term, compareAll ss ts = (compareAll ts ss).swap
  | [], [] => rfl
  | [], _ :: _ => rfl
  | _ :: _, [] => rfl
  | s :: ss, t :: ts => by
    simp only [compareAll]
    rw [Ordering.swap_then, ← compareAll_swap ss ts, ← compare_swap s t]

end

/-- A lexicographic comparison is strict at its first or, after a tie, at its second place. -/
private theorem then_eq_lt_iff {o p : Ordering} : o.then p = .lt ↔ o = .lt ∨ o = .eq ∧ p = .lt := by
  cases o <;> cases p <;> decide

mutual

private theorem compare_lt_trans :
    ∀ {s t u : Term}, compare s t = .lt → compare t u = .lt → compare s u = .lt
  | var v, t, u, hst, htu => by
    cases t <;> cases u <;> simp only [compare, rank] at hst htu ⊢
    case var.var => exact Std.TransCmp.lt_trans hst htu
    all_goals first | rfl | exact absurd hst (by decide) | exact absurd htu (by decide)
  | const c, t, u, hst, htu => by
    cases t <;> cases u <;> simp only [compare, rank] at hst htu ⊢
    case const.const => exact Std.TransCmp.lt_trans hst htu
    all_goals first | rfl | exact absurd hst (by decide) | exact absurd htu (by decide)
  | app f ss, t, u, hst, htu => by
    cases t <;> cases u <;> simp only [compare, rank] at hst htu ⊢
    case app.app g ts h us =>
      rw [then_eq_lt_iff] at hst htu ⊢
      rcases hst with hfg | ⟨hfg, hst⟩ <;> rcases htu with hgh | ⟨hgh, htu⟩
      · exact Or.inl (Std.TransCmp.lt_trans hfg hgh)
      · exact Or.inl (Std.LawfulEqOrd.eq_of_compare hgh ▸ hfg)
      · exact Or.inl (Std.LawfulEqOrd.eq_of_compare hfg ▸ hgh)
      · exact Or.inr ⟨Std.LawfulEqOrd.eq_of_compare hgh ▸ hfg, compareAll_lt_trans hst htu⟩
    all_goals first | rfl | exact absurd hst (by decide) | exact absurd htu (by decide)
  | sum ss, t, u, hst, htu => by
    cases t <;> cases u <;> simp only [compare, rank] at hst htu ⊢
    case sum.sum => exact compareAll_lt_trans hst htu
    all_goals first | rfl | exact absurd hst (by decide) | exact absurd htu (by decide)

private theorem compareAll_lt_trans : ∀ {ss ts us : List Term},
    compareAll ss ts = .lt → compareAll ts us = .lt → compareAll ss us = .lt
  | [], ts, [], _, h => by cases ts <;> exact absurd h (by simp [compareAll])
  | [], _, _ :: _, _, _ => rfl
  | _ :: _, [], _, h, _ => absurd h (by simp [compareAll])
  | _ :: _, _ :: _, [], _, h => absurd h (by simp [compareAll])
  | s :: ss, t :: ts, u :: us, hst, htu => by
    simp only [compareAll, then_eq_lt_iff] at hst htu ⊢
    rcases hst with hs | ⟨hs, hst⟩ <;> rcases htu with ht | ⟨ht, htu⟩
    · exact Or.inl (compare_lt_trans hs ht)
    · exact Or.inl (eq_of_compare ht ▸ hs)
    · exact Or.inl (eq_of_compare hs ▸ ht)
    · exact Or.inr ⟨eq_of_compare ht ▸ hs, compareAll_lt_trans hst htu⟩

end

instance : Ord Term := ⟨compare⟩

instance : Std.LawfulEqOrd Term where
  compare_self {t} := compare_self t
  eq_of_compare h := eq_of_compare h

instance : Std.TransOrd Term where
  eq_swap {s t} := compare_swap s t
  isLE_trans {s t u} hst htu := by
    change (compare s u).isLE = true
    change (compare s t).isLE = true at hst
    change (compare t u).isLE = true at htu
    rw [Ordering.isLE_iff_eq_lt_or_eq_eq] at hst htu ⊢
    rcases hst with hst | hst <;> rcases htu with htu | htu
    · exact Or.inl (compare_lt_trans hst htu)
    · exact Or.inl (eq_of_compare htu ▸ hst)
    · exact Or.inl (eq_of_compare hst ▸ htu)
    · exact Or.inr (eq_of_compare htu ▸ hst)

instance : DecidableEq Term := fun s t =>
  decidable_of_iff (Ord.compare s t = .eq) Std.LawfulEqOrd.compare_eq_iff_eq

/-- The sort of a term, if it has one; a sum has none. -/
def sort : Term → Option TermSort
  | var v => v.sort
  | const c => c.sort
  | app f _ => f.range
  | sum _ => none

/-- The arguments of an application or the summands of a sum. -/
def args : Term → List Term
  | var _ => []
  | const _ => []
  | app _ ts => ts
  | sum ts => ts

/-- Whether a term is a variable. -/
def isVar : Term → Bool
  | var _ => true
  | _ => false

/-- The variable that a term is. -/
def asVar? : Term → Option Variable
  | var v => some v
  | _ => none

/-- Whether a term is a sum. -/
def isSum : Term → Bool
  | sum _ => true
  | _ => false

end Term

/-- Whether a term may stand where a sort is asked: it must have a sort that conforms. -/
def TermSort.admits (s : TermSort) (t : Term) : Bool := t.sort.any fun u => u.conformsTo s

/-- Whether binding the variable to the term is well-sorted. -/
def Variable.accepts (v : Variable) (t : Term) : Bool := v.sort.all fun s => s.admits t

end SymbolicXor
