import SymbolicXor.Name

/-!
# Sorts

A sort is a root or lies below a parent sort, so the sorts form a forest. A sort is known by its
name together with the names of all its ancestors: two sorts of one name under different parents
are different.
-/

namespace SymbolicXor

/-- A sort of terms. -/
inductive TermSort where
  /-- A sort without a parent. -/
  | root (name : Name)
  /-- A sort directly below its parent. -/
  | sub (name : Name) (parent : TermSort)
deriving DecidableEq

namespace TermSort

/-- The name of a sort. -/
def name : TermSort → Name
  | root n => n
  | sub n _ => n

instance : ToString TermSort := ⟨fun s => s.name.text⟩

/-- The sorts above a sort, nearest first. -/
def ancestors : TermSort → List TermSort
  | root _ => []
  | sub _ p => p :: p.ancestors

/-- Whether `s` lies strictly below `t`. -/
def isBelow (s t : TermSort) : Bool := s.ancestors.contains t

/-- Whether `s` is `t` or lies below it, so that a term of sort `s` may stand where `t` is asked. -/
def conformsTo (s t : TermSort) : Bool := s == t || s.isBelow t

/-- The names from a sort upwards. -/
def chain : TermSort → List Name
  | root n => [n]
  | sub n p => n :: p.chain

theorem chain_ne_nil (s : TermSort) : s.chain ≠ [] := by
  cases s <;> simp [chain]

/-- A sort is known by its chain of names. -/
theorem chain_inj {s t : TermSort} : s.chain = t.chain ↔ s = t := by
  refine ⟨fun h => ?_, fun h => h ▸ rfl⟩
  induction s generalizing t with
  | root m =>
    cases t with
    | root n => simpa [chain] using h
    | sub n q => exact absurd (List.cons.inj h).2.symm (chain_ne_nil q)
  | sub m p ih =>
    cases t with
    | root n => exact absurd (List.cons.inj h).2 (chain_ne_nil p)
    | sub n q =>
      simp only [chain, List.cons.injEq] at h
      rw [h.1, ih h.2]

/-- Sorts are ordered as the words of their own name and the names above it. -/
instance : Ord TermSort := ⟨compareOn chain⟩

instance : Std.TransOrd TermSort := inferInstanceAs (Std.TransCmp (compareOn chain))

instance : Std.LawfulEqOrd TermSort where
  compare_self {s} := Std.ReflOrd.compare_self (a := s.chain)
  eq_of_compare h := chain_inj.1 (Std.LawfulEqOrd.eq_of_compare h)

end TermSort

end SymbolicXor
