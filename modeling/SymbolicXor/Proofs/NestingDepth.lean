import SymbolicXor.Coefficient.Depth
import SymbolicXor.Proofs.CoefficientValues

/-!
# Nesting depth and depth ranges

The highest depth of a range bounds how deep function symbols are nested in the value of a term,
under every total valuation. The lowest depth is right as long as no sum stands below a function
symbol; summands of a sum may cancel, and then the value may be less deep.
-/

namespace SymbolicXor

namespace Term

mutual

/-- The depth to which function symbols are nested in a term. -/
def nesting : Term → Nat
  | app _ ts => nestingAll ts + 1
  | sum ts => nestingAll ts
  | _ => 0

/-- The greatest nesting depth in a list. -/
def nestingAll : List Term → Nat
  | [] => 0
  | t :: ts => max (nesting t) (nestingAll ts)

end

theorem nestingAll_le {n : Nat} {ts : List Term} : nestingAll ts ≤ n ↔ ∀ t ∈ ts, t.nesting ≤ n := by
  induction ts with
  | nil => simp [nestingAll]
  | cons t ts ih => rw [nestingAll, Nat.max_le, ih, List.forall_mem_cons]

theorem nesting_le_nestingAll {t : Term} {ts : List Term} (h : t ∈ ts) :
    t.nesting ≤ nestingAll ts := nestingAll_le.1 (Nat.le_refl _) t h

theorem nesting_of_mem_summands {t a : Term} (h : a ∈ t.summands) : a.nesting ≤ t.nesting := by
  cases t with
  | sum ts => exact nesting_le_nestingAll h
  | _ =>
    simp only [summands] at h
    split at h
    · cases h
    · rw [List.mem_singleton.1 h]

/-- A sum is not nested deeper than the terms that are added up. -/
theorem nesting_xor_le {n : Nat} {ts : List Term} (h : ∀ t ∈ ts, t.nesting ≤ n) :
    (xor ts).nesting ≤ n := by
  have hc : ∀ a ∈ cancel ts, a.nesting ≤ n := by
    intro a ha
    obtain ⟨t, ht, hat⟩ := List.mem_flatMap.1 (OrderedList.mem_of_mem_oddOnes ha)
    exact (nesting_of_mem_summands hat).trans (h t ht)
  rw [xor]
  cases hl : cancel ts with
  | nil => exact Nat.zero_le n
  | cons a l =>
    rw [hl] at hc
    cases l with
    | nil => exact hc a List.mem_cons_self
    | cons b l => exact nestingAll_le.2 hc

end Term

namespace CoeffTerm

theorem le_foldl_max {n : Nat} {l : List Nat} (h : n ∈ l) : n ≤ l.foldl max 0 :=
  (foldl_max_le.1 (Nat.le_refl _)).2 n h

theorem high_le_join {t : CoeffTerm} {ts : List CoeffTerm} (h : t ∈ ts) :
    t.depthRange.high ≤ (DepthRange.join (depthRanges ts)).high := by
  have hmem : t.depthRange ∈ depthRanges ts := by
    rw [depthRanges_eq_map]
    exact List.mem_map_of_mem h
  exact le_foldl_max (List.mem_map_of_mem hmem)

theorem high_ofSum (rs : List DepthRange) :
    (DepthRange.ofSum rs).high = (DepthRange.join rs).high := by
  rw [DepthRange.ofSum]
  split <;> rfl

variable {p : CoeffTerm → Prop} {t : CoeffTerm} {β : Name → Bool}

/-- No value is nested deeper than the highest depth. -/
theorem nesting_value_le (h : Scaled p t) : (value (some ∘ β) t).nesting ≤ t.depthRange.high := by
  induction h with
  | zero => exact Nat.zero_le _
  | const _ => rw [value_const]; exact Nat.zero_le _
  | var v => rw [value_var]; exact Nat.zero_le _
  | @app f ts _ ih =>
    rw [value_app, Term.nesting, depthRange]
    refine Nat.succ_le_succ (Term.nestingAll_le.2 ?_)
    rw [List.forall_mem_map]
    exact fun t ht => (ih t ht).trans (high_le_join ht)
  | @sum ts _ ih =>
    rw [value_sum, depthRange, high_ofSum]
    refine Term.nesting_xor_le ?_
    rw [List.forall_mem_map]
    exact fun t ht => (ih t ht).trans (high_le_join ht)
  | @mul b t _ _ ih =>
    rw [value_mul, depthRange]
    cases hb : β b with
    | true =>
      rw [show (some ∘ β) b = some true from congrArg some hb]
      exact ih.trans (Nat.le_max_right _ _)
    | false =>
      rw [show (some ∘ β) b = some false from congrArg some hb]
      exact Nat.zero_le _

mutual

/-- No sum occurs in a coefficient term. -/
def sumFree : CoeffTerm → Bool
  | app _ ts => sumFreeAll ts
  | sum _ => false
  | mul s t => sumFree s && sumFree t
  | _ => true

/-- No sum occurs in the terms of a list. -/
def sumFreeAll : List CoeffTerm → Bool
  | [] => true
  | t :: ts => sumFree t && sumFreeAll ts

end

theorem sumFreeAll_eq_true {ts : List CoeffTerm} :
    sumFreeAll ts = true ↔ ∀ t ∈ ts, t.sumFree = true := by
  induction ts with
  | nil => simp [sumFreeAll]
  | cons t ts ih => rw [sumFreeAll, Bool.and_eq_true, ih, List.forall_mem_cons]

/-- Without sums no value is nested less deep than the lowest depth. -/
theorem low_le_nesting (h : Scaled p t) (ht : t.sumFree = true) :
    t.depthRange.low ≤ (value (some ∘ β) t).nesting := by
  induction h with
  | @app f ts _ ih =>
    rw [value_app, Term.nesting, depthRange]
    refine Nat.succ_le_succ ?_
    rw [depthRanges_eq_map, DepthRange.join, List.map_map, foldl_max_le]
    refine ⟨Nat.zero_le _, ?_⟩
    rw [List.forall_mem_map]
    intro t hmem
    exact (ih t hmem (sumFreeAll_eq_true.1 ht t hmem)).trans
      (Term.nesting_le_nestingAll (List.mem_map_of_mem hmem))
  | sum _ _ => cases ht
  | _ => exact Nat.zero_le _

end CoeffTerm

end SymbolicXor
