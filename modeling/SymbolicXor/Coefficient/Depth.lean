import SymbolicXor.Coefficient.Term

/-!
# Depth ranges

How deep function symbols are nested in a coefficient term depends on the values of its
coefficients. The depth range of a term estimates the lowest and the highest depth at which the term
can be different from zero. Summands whose ranges are apart are not tried against each other.
-/

namespace SymbolicXor

/-- The lowest and the highest nesting depth of a term that is not zero. -/
structure DepthRange where
  /-- The lowest depth. -/
  low : Nat
  /-- The highest depth. -/
  high : Nat
deriving DecidableEq

namespace DepthRange

/-- The greatest of the lowest depths, and the greatest of the highest. -/
def join (rs : List DepthRange) : DepthRange where
  low := (rs.map low).foldl max 0
  high := (rs.map high).foldl max 0

/-- Whether some range that is not at depth zero only begins below the depth that the ranges before
it reach, given the depth that is reached at the start. -/
def anyOverlap (reached : Nat) : List DepthRange → Bool
  | [] => false
  | r :: rs => (0 < r.high && r.low < reached) || anyOverlap (max reached r.high) rs

/-- The range of a sum whose summands have the given ranges: the deepest summands may cancel if
ranges overlap. -/
def ofSum (rs : List DepthRange) : DepthRange :=
  if anyOverlap 0 rs then { low := 0, high := (join rs).high } else join rs

end DepthRange

namespace CoeffTerm

mutual

/-- The depth range of a term. -/
def depthRange : CoeffTerm → DepthRange
  | app _ ts =>
    let r := DepthRange.join (depthRanges ts)
    { low := r.low + 1, high := r.high + 1 }
  | sum ts => DepthRange.ofSum (depthRanges ts)
  | mul s t => { low := 0, high := max (depthRange s).high (depthRange t).high }
  | _ => { low := 0, high := 0 }

/-- The depth ranges of the terms in a list. -/
def depthRanges : List CoeffTerm → List DepthRange
  | [] => []
  | t :: ts => depthRange t :: depthRanges ts

end

/-- Whether no term of the list lies deeper than `t` reaches. -/
def isMaximal (t : CoeffTerm) (ts : List CoeffTerm) : Bool :=
  let reach := t.depthRange.high
  ts.all fun u => u.depthRange.low ≤ reach

/-- The terms of a list that reach as deep as the lowest depth of any of them. -/
def deepest (ts : List CoeffTerm) : List CoeffTerm :=
  let depth := (DepthRange.join (depthRanges ts)).low
  ts.filter fun t => depth ≤ t.depthRange.high

theorem foldl_max_le {n k : Nat} {l : List Nat} :
    l.foldl max n ≤ k ↔ n ≤ k ∧ ∀ m ∈ l, m ≤ k := by
  induction l generalizing n with
  | nil => simp
  | cons m l ih => rw [List.foldl_cons, ih, Nat.max_le, List.forall_mem_cons, and_assoc]

theorem depthRanges_eq_map (ts : List CoeffTerm) : depthRanges ts = ts.map depthRange := by
  induction ts with
  | nil => rfl
  | cons t ts ih => rw [depthRanges, ih, List.map_cons]

/-- The deepest terms are the maximal ones. -/
theorem deepest_eq_filter (ts : List CoeffTerm) :
    deepest ts = ts.filter fun t => t.isMaximal ts := by
  refine List.filter_congr fun t _ => ?_
  rw [isMaximal, DepthRange.join, depthRanges_eq_map, Bool.eq_iff_iff, decide_eq_true_iff,
    foldl_max_le, List.all_eq_true]
  simp

/-- Whether the depth ranges of two terms overlap. -/
def overlaps (s t : CoeffTerm) : Bool :=
  t.depthRange.low ≤ s.depthRange.high && s.depthRange.low ≤ t.depthRange.high

end CoeffTerm

end SymbolicXor
