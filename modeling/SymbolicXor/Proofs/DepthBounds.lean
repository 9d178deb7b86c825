import SymbolicXor.Proofs.NestingDepth
import SymbolicXor.Proofs.ResolvedProducts
import SymbolicXor.Proofs.Samples

/-!
# Depth ranges as bounds

When every coefficient has a value, function symbols are nested in a term at most as deep as its
range says. The lowest depth can be missed: two summands that reach the same depth do not count as
overlapping, so the range of a sum takes its deepest summands to be there even if they cancel. Where
this does not happen, at the sums that decide the lowest depth, the lowest depth is right as well,
and it cannot happen at sums of which one summand alone reaches the lowest depth.
-/

namespace SymbolicXor

namespace Term

/-- A canonical term is nested as deep as one of its summands. -/
theorem le_nesting_iff {t : Term} {n : Nat} (ht : t.Canonical) (hn : 0 < n) :
    n ≤ t.nesting ↔ ∃ a ∈ t.summands, n ≤ a.nesting := by
  constructor
  · intro h
    rcases eq_zero_or_atomic_or_sum t with rfl | ha | ⟨ts, rfl⟩
    · simp only [zero, nesting] at h
      omega
    · exact ⟨t, by simp [summands_of_atomic ha], h⟩
    · by_contra hnone
      have hall : ∀ a ∈ ts, a.nesting ≤ n - 1 := by
        intro a ha
        have hlt : ¬ n ≤ a.nesting := fun hle => hnone ⟨a, ha, hle⟩
        omega
      have hle := nestingAll_le.2 hall
      rw [nesting] at h
      omega
  · rintro ⟨a, ha, h⟩
    exact h.trans (nesting_of_mem_summands ha)

section Filter

variable {ι : Type} {F : ι → Term} {l : List ι} {p : ι → Bool} {n : Nat}

/-- Deep summands are not among those that come from terms that are nested less deep. -/
theorem sum_vec_filter_apply (hF : ∀ i ∈ l, (F i).Canonical)
    (hp : ∀ i ∈ l, p i = false → (F i).nesting < n) {a : Term} (ha : n ≤ a.nesting) :
    (((l.filter p).map F).map vec).sum a = ((l.map F).map vec).sum a := by
  induction l with
  | nil => rfl
  | cons i l ih =>
    obtain ⟨hi, hrest⟩ := List.forall_mem_cons.1 hF
    obtain ⟨hpi, hprest⟩ := List.forall_mem_cons.1 hp
    have hih := ih hrest hprest
    cases hpi' : p i with
    | true =>
      rw [List.filter_cons_of_pos hpi']
      simp only [List.map_cons, List.sum_cons, Pi.add_apply, hih]
    | false =>
      have hz : (F i).vec a = 0 := by
        by_contra hne
        have hle := nesting_of_mem_summands ((vec_apply_ne_zero hi).1 hne)
        have hlt := hpi hpi'
        omega
      rw [List.filter_cons_of_neg (by simp [hpi'])]
      simp only [List.map_cons, List.sum_cons, Pi.add_apply, hih, hz, zero_add]

/-- Terms that are nested less deep than some depth may be left out of a sum that reaches it. -/
theorem le_nesting_xor_filter (hn : 0 < n) (hF : ∀ i ∈ l, (F i).Canonical)
    (hp : ∀ i ∈ l, p i = false → (F i).nesting < n) :
    n ≤ (xor ((l.filter p).map F)).nesting ↔ n ≤ (xor (l.map F)).nesting := by
  have hl : ∀ u ∈ l.map F, u.Canonical := by
    rw [List.forall_mem_map]
    exact hF
  have hf : ∀ u ∈ (l.filter p).map F, u.Canonical := by
    rw [List.forall_mem_map]
    exact fun i hi => hF i (List.mem_of_mem_filter hi)
  have hvec {a : Term} (ha : n ≤ a.nesting) :
      (xor ((l.filter p).map F)).vec a = (xor (l.map F)).vec a := by
    rw [vec_xor hf, vec_xor hl, sum_vec_filter_apply hF hp ha]
  rw [le_nesting_iff (canonical_xor hf) hn, le_nesting_iff (canonical_xor hl) hn]
  refine exists_congr fun a => and_congr_left fun hna => ?_
  rw [← vec_apply_ne_zero (canonical_xor hf), ← vec_apply_ne_zero (canonical_xor hl), hvec hna]

end Filter

end Term

namespace CoeffTerm

variable {β : Name → Bool} {t : CoeffTerm} {ts : List CoeffTerm}

/-- No term is nested deeper than the highest depth when its products are resolved. -/
theorem nesting_resolve_le (h : t.Everywhere HasFactor) :
    (resolve β t).nesting ≤ t.depthRange.high := by
  induction t using induction with
  | app f ts ih =>
    have hts := ((everywhere_app f ts).1 h).2
    rw [resolve_app, Term.nesting, depthRange]
    refine Nat.succ_le_succ (Term.nestingAll_le.2 ?_)
    rw [List.forall_mem_map]
    exact fun t ht => (ih t ht (hts t ht)).trans (high_le_join ht)
  | sum ts ih =>
    have hts := ((everywhere_sum ts).1 h).2
    rw [resolve_sum, depthRange, high_ofSum]
    refine Term.nesting_xor_le ?_
    rw [List.forall_mem_map]
    exact fun t ht => (ih t ht (hts t ht)).trans (high_le_join ht)
  | mul s t hs ht =>
    obtain ⟨hf, hS, hT⟩ := (everywhere_mul s t).1 h
    rw [depthRange]
    rcases hf with hf | hf
    · obtain ⟨x, hx⟩ := hf.exists_factor? β
      rw [resolve_mul_left hx]
      split
      · exact (ht hT).trans (Nat.le_max_right _ _)
      · exact Nat.zero_le _
    · obtain ⟨x, hx⟩ := hf.exists_factor? β
      rw [resolve_mul_right hx]
      split
      · exact (hs hS).trans (Nat.le_max_left _ _)
      · exact Nat.zero_le _
  | coeff b =>
    rw [resolve_of_factor? (t := coeff b) rfl]
    split <;> exact Nat.zero_le _
  | zero => rw [resolve_zero]; exact Nat.zero_le _
  | one => exact Nat.zero_le _
  | const c => rw [resolve_const]; exact Nat.zero_le _
  | var v => rw [resolve_var]; exact Nat.zero_le _

mutual

/-- The terms that decide the lowest depth of a term: the term itself, arguments of function symbols
and summands, but nothing below a product or below a sum whose lowest depth is zero. -/
def exposed : CoeffTerm → List CoeffTerm
  | app f ts => app f ts :: exposedAll ts
  | sum ts => sum ts :: if (sum ts).depthRange.low = 0 then [] else exposedAll ts
  | t => [t]

/-- The exposed summands of the terms in a list. -/
def exposedAll : List CoeffTerm → List CoeffTerm
  | [] => []
  | t :: ts => exposed t ++ exposedAll ts

end

/-- The deepest summands of a sum add up to a term that is nested less deep than the lowest depth
of the sum. -/
def LosesDeepest (β : Name → Bool) : CoeffTerm → Prop
  | sum ts => (Term.xor ((deepest ts).map (resolve β))).nesting < (sum ts).depthRange.low
  | _ => False

/-- One summand of a sum alone reaches its lowest depth, unless that is zero. -/
def OneDeepest : CoeffTerm → Prop
  | sum ts => (sum ts).depthRange.low = 0 ∨ (deepest ts).length ≤ 1
  | _ => True

instance : DecidablePred OneDeepest
  | sum ts => inferInstanceAs (Decidable ((sum ts).depthRange.low = 0 ∨ (deepest ts).length ≤ 1))
  | zero | one | const _ | coeff _ | var _ | app _ _ | mul _ _ => isTrue trivial

section Exposed

variable {P : CoeffTerm → Prop}

theorem exposedAll_eq_flatMap (ts : List CoeffTerm) : exposedAll ts = ts.flatMap exposed := by
  induction ts with
  | nil => rfl
  | cons t ts ih => rw [exposedAll, ih, List.flatMap_cons]

theorem mem_exposed_self (t : CoeffTerm) : t ∈ t.exposed := by
  cases t <;> simp [exposed]

private theorem forall_mem_exposedAll :
    (∀ u ∈ exposedAll ts, P u) ↔ ∀ t ∈ ts, ∀ u ∈ t.exposed, P u := by
  rw [exposedAll_eq_flatMap]
  simp only [List.mem_flatMap]
  exact ⟨fun h t ht u hu => h u ⟨t, ht, hu⟩, fun h u ⟨t, ht, hu⟩ => h t ht u hu⟩

theorem forall_mem_exposed_app (f : FunctionSymbol) (ts : List CoeffTerm) :
    (∀ u ∈ (app f ts).exposed, P u) ↔ P (app f ts) ∧ ∀ t ∈ ts, ∀ u ∈ t.exposed, P u := by
  rw [exposed, List.forall_mem_cons, forall_mem_exposedAll]

theorem forall_mem_exposed_sum (ts : List CoeffTerm) :
    (∀ u ∈ (sum ts).exposed, P u) ↔
      P (sum ts) ∧ ((sum ts).depthRange.low ≠ 0 → ∀ t ∈ ts, ∀ u ∈ t.exposed, P u) := by
  rw [exposed, List.forall_mem_cons]
  refine and_congr_right fun _ => ?_
  split
  · rename_i hz
    simp [hz]
  · rename_i hne
    rw [forall_mem_exposedAll]
    exact ⟨fun h _ => h, fun h => h hne⟩

end Exposed

/-- Only where ranges overlap the lowest depth of a sum is not that of its deepest summand. -/
theorem low_sum_of_ne_zero (h : (sum ts).depthRange.low ≠ 0) :
    (sum ts).depthRange.low = (DepthRange.join (depthRanges ts)).low := by
  rw [depthRange, DepthRange.ofSum] at h ⊢
  split
  · rename_i hover
    rw [if_pos hover] at h
    exact absurd rfl h
  · rfl

theorem exists_join_low_le (h : (DepthRange.join (depthRanges ts)).low ≠ 0) :
    ∃ t ∈ ts, (DepthRange.join (depthRanges ts)).low ≤ t.depthRange.low := by
  by_contra hnone
  have hall : ∀ n ∈ (depthRanges ts).map DepthRange.low,
      n ≤ (DepthRange.join (depthRanges ts)).low - 1 := by
    rw [depthRanges_eq_map, List.map_map, List.forall_mem_map]
    intro t ht
    have hlt : ¬ (DepthRange.join (depthRanges ts)).low ≤ t.depthRange.low :=
      fun hle => hnone ⟨t, ht, hle⟩
    rw [depthRanges_eq_map] at hlt
    simp only [Function.comp_apply]
    omega
  have hle : (DepthRange.join (depthRanges ts)).low ≤ (DepthRange.join (depthRanges ts)).low - 1 :=
    foldl_max_le.2 ⟨Nat.zero_le _, hall⟩
  omega

theorem low_app_le (f : FunctionSymbol)
    (h : ∀ t ∈ ts, t.depthRange.low ≤ (resolve β t).nesting) :
    (app f ts).depthRange.low ≤ (resolve β (app f ts)).nesting := by
  rw [resolve_app, Term.nesting, depthRange]
  refine Nat.succ_le_succ ?_
  rw [depthRanges_eq_map, DepthRange.join, List.map_map, foldl_max_le]
  refine ⟨Nat.zero_le _, ?_⟩
  rw [List.forall_mem_map]
  exact fun t ht => (h t ht).trans (Term.nesting_le_nestingAll (List.mem_map_of_mem ht))

/-- A sum falls short of its lowest depth exactly if its deepest summands do: no other summand
reaches so deep. -/
theorem losesDeepest_sum_iff (h : ∀ t ∈ ts, t.Everywhere HasFactor) :
    (sum ts).LosesDeepest β ↔ (resolve β (sum ts)).nesting < (sum ts).depthRange.low := by
  by_cases hz : (sum ts).depthRange.low = 0
  · rw [LosesDeepest, hz]
    omega
  · have hlow := low_sum_of_ne_zero hz
    rw [LosesDeepest, resolve_sum, ← not_le, ← not_le, deepest, hlow]
    rw [hlow] at hz
    refine not_congr (Term.le_nesting_xor_filter (Nat.pos_of_ne_zero hz)
      (fun t _ => (reads_resolve β).canonical t) fun t ht hreach => ?_)
    have hhigh := nesting_resolve_le (β := β) (h t ht)
    simp only [decide_eq_false_iff_not, not_le] at hreach
    omega

/-- The lowest depths that decide that of a term are reached exactly if at none of these places the
deepest summands are lost. -/
theorem forall_low_le_iff (h : t.Everywhere HasFactor) :
    (∀ u ∈ t.exposed, ¬ u.LosesDeepest β) ↔
      ∀ u ∈ t.exposed, u.depthRange.low ≤ (resolve β u).nesting := by
  induction t using induction with
  | app f ts ih =>
    have hts := ((everywhere_app f ts).1 h).2
    rw [forall_mem_exposed_app, forall_mem_exposed_app]
    have hargs : (∀ t ∈ ts, ∀ u ∈ t.exposed, ¬ u.LosesDeepest β) ↔
        ∀ t ∈ ts, ∀ u ∈ t.exposed, u.depthRange.low ≤ (resolve β u).nesting :=
      forall₂_congr fun t ht => ih t ht (hts t ht)
    rw [hargs]
    exact ⟨fun ⟨_, hlow⟩ => ⟨low_app_le f fun t ht => hlow t ht t (mem_exposed_self t), hlow⟩,
      fun ⟨_, hlow⟩ => ⟨not_false, hlow⟩⟩
  | sum ts ih =>
    have hts := ((everywhere_sum ts).1 h).2
    rw [forall_mem_exposed_sum, forall_mem_exposed_sum, losesDeepest_sum_iff hts, not_lt]
    exact and_congr_right fun _ => forall_congr' fun _ =>
      forall₂_congr fun t ht => ih t ht (hts t ht)
  | _ => simp [exposed, LosesDeepest, depthRange]

/-- Where one summand alone reaches the lowest depth nothing can cancel it. -/
theorem low_le_nesting_of_oneDeepest (h : t.Everywhere HasFactor)
    (hone : ∀ u ∈ t.exposed, u.OneDeepest) : t.depthRange.low ≤ (resolve β t).nesting := by
  induction t using induction with
  | app f ts ih =>
    have hts := ((everywhere_app f ts).1 h).2
    have hargs := ((forall_mem_exposed_app f ts).1 hone).2
    exact low_app_le f fun t ht => ih t ht (hts t ht) (hargs t ht)
  | sum ts ih =>
    have hts := ((everywhere_sum ts).1 h).2
    obtain ⟨hsum, hrest⟩ := (forall_mem_exposed_sum ts).1 hone
    by_cases hz : (sum ts).depthRange.low = 0
    · rw [hz]
      exact Nat.zero_le _
    · have hlow := low_sum_of_ne_zero hz
      obtain ⟨t, ht, hjoin⟩ := exists_join_low_le (hlow ▸ hz)
      have hreach := ih t ht (hts t ht) (hrest hz t ht)
      have hdeep : t ∈ deepest ts := by
        have hhigh := nesting_resolve_le (β := β) (hts t ht)
        rw [deepest, List.mem_filter, decide_eq_true_iff]
        exact ⟨ht, by omega⟩
      have hall : deepest ts = [t] := by
        obtain ⟨u, hu⟩ := List.length_eq_one_iff.1
          (Nat.le_antisymm (hsum.resolve_left hz) (List.length_pos_of_mem hdeep))
        rw [hu] at hdeep ⊢
        rw [List.mem_singleton.1 hdeep]
      have hnot : ¬ (sum ts).LosesDeepest β := by
        rw [LosesDeepest, hall, List.map_singleton,
          Term.xor_singleton ((reads_resolve β).canonical t), hlow]
        omega
      rwa [losesDeepest_sum_iff hts, not_lt] at hnot
  | _ => simp [depthRange]

/-- Function symbols are nested no deeper than the highest depth. They are nested as deep as the
lowest depth, in the term and in its exposed summands, exactly if no sum loses its deepest summands,
in particular if every sum has one deepest summand only. -/
theorem depthRange_bounds_nesting (h : t.Everywhere HasFactor) (β : Name → Bool) :
    (resolve β t).nesting ≤ t.depthRange.high ∧
      ((∀ u ∈ t.exposed, ¬ u.LosesDeepest β) ↔
        ∀ u ∈ t.exposed, u.depthRange.low ≤ (resolve β u).nesting) ∧
      ((∀ u ∈ t.exposed, u.OneDeepest) → t.depthRange.low ≤ (resolve β t).nesting) :=
  ⟨nesting_resolve_le h, forall_low_le_iff h, low_le_nesting_of_oneDeepest h⟩

section Samples

open Sample

/-- A sum of which one summand reaches deepest, below a function symbol:
`f(f(a) + f(f(c1 * a)))`. -/
def separated : CoeffTerm :=
  app f [sum [app f [ofTerm a], app f [app f [mul (coeff c₁) (ofTerm a)]]]]

theorem depthRange_bounds_nesting_separated :
    separated.Everywhere HasFactor ∧ (∀ u ∈ separated.exposed, u.OneDeepest) ∧
      separated.depthRange = ⟨3, 3⟩ ∧
      (resolve (fun _ => true) separated).nesting ≤ separated.depthRange.high ∧
      separated.depthRange.low ≤ (resolve (fun _ => true) separated).nesting := by
  have hfactor : separated.Everywhere HasFactor := by decide
  have hone : ∀ u ∈ separated.exposed, u.OneDeepest := by decide
  obtain ⟨hhigh, _, hlow⟩ := depthRange_bounds_nesting hfactor fun _ => true
  exact ⟨hfactor, hone, by decide, hhigh, hlow hone⟩

/-- Two summands of one depth below a function symbol: `f(f(c1 * a) + f(a))`. -/
def levelled : CoeffTerm := app f [sum [app f [mul (coeff c₁) (ofTerm a)], app f [ofTerm a]]]

/-- The lowest depth is no bound: where `c1` is one the sum is zero and only `f(0)` is left. -/
theorem nesting_resolve_levelled_lt :
    levelled.Everywhere HasFactor ∧ resolve (fun _ => true) levelled ≠ .zero ∧
      (resolve (fun _ => true) levelled).nesting < levelled.depthRange.low := by
  have hvalue : resolve (fun _ => true) levelled = .app f [.zero] := by cbv
  refine ⟨by decide, ?_, ?_⟩
  · rw [hvalue]
    exact Term.noConfusion
  · rw [hvalue]
    decide

end Samples

end CoeffTerm

end SymbolicXor
