import SymbolicXor.Proofs.SumVector

/-!
# Replacing leaves

To substitute, to freeze and to thaw is each time to replace the leaves of a term and to rebuild its
sums. The result depends on the leaves that occur only. If zero stays zero, replacing the leaves
respects exclusive or, and to replace the leaves of a result is to replace leaves at once.
-/

namespace SymbolicXor.Term

variable {onVar onVar₁ onVar₂ : Variable → Term} {onConst onConst₁ onConst₂ : Constant → Term}

@[simp] theorem mapLeaves_app (f : FunctionSymbol) (ts : List Term) :
    (app f ts).mapLeaves onVar onConst = app f (ts.map (mapLeaves onVar onConst)) := by
  rw [mapLeaves, mapLeavesAll_eq_map]

theorem mapLeaves_sum (ts : List Term) :
    (sum ts).mapLeaves onVar onConst = xor (ts.map (mapLeaves onVar onConst)) := by
  rw [mapLeaves, mapLeavesAll_eq_map]

/-- Replacements that agree on the leaves of a term agree on the term. -/
theorem mapLeaves_congr {t : Term} (hv : ∀ v ∈ t.vars, onVar₁ v = onVar₂ v)
    (hc : ∀ c ∈ t.constants, onConst₁ c = onConst₂ c) :
    t.mapLeaves onVar₁ onConst₁ = t.mapLeaves onVar₂ onConst₂ := by
  induction t using Term.induction with
  | var v => exact hv v (by simp)
  | const c => exact hc c (by simp)
  | app f ts ih =>
    rw [vars_app] at hv
    rw [constants_app] at hc
    rw [mapLeaves_app, mapLeaves_app]
    exact congrArg _ (List.map_congr_left fun t ht =>
      ih t ht (fun v hvt => hv v (List.mem_flatMap_of_mem ht hvt))
        fun c hct => hc c (List.mem_flatMap_of_mem ht hct))
  | sum ts ih =>
    rw [vars_sum] at hv
    rw [constants_sum] at hc
    rw [mapLeaves_sum, mapLeaves_sum]
    exact congrArg _ (List.map_congr_left fun t ht =>
      ih t ht (fun v hvt => hv v (List.mem_flatMap_of_mem ht hvt))
        fun c hct => hc c (List.mem_flatMap_of_mem ht hct))

/-- A canonical term of which no leaf is replaced stays as it is. -/
theorem mapLeaves_eq_self {t : Term} (ht : t.Canonical) (hv : ∀ v ∈ t.vars, onVar v = .var v)
    (hc : ∀ c ∈ t.constants, onConst c = .const c) : t.mapLeaves onVar onConst = t := by
  rw [mapLeaves_congr hv hc]
  have map_eq {ts : List Term} (hts : ∀ t ∈ ts, t.Canonical)
      (ih : ∀ t ∈ ts, t.Canonical → t.mapLeaves .var .const = t) :
      ts.map (mapLeaves .var .const) = ts :=
    (List.map_congr_left fun t ht => ih t ht (hts t ht)).trans (List.map_id ts)
  clear hv hc
  induction t using Term.induction with
  | var v => rfl
  | const c => rfl
  | app f ts ih => rw [mapLeaves_app, map_eq ((canonical_app f ts).1 ht) ih]
  | sum ts ih =>
    rw [mapLeaves_sum, map_eq ((canonical_sum ts).1 ht).2 ih]
    exact xor_summands ht

/-- Canonical terms take the places of the leaves. -/
structure CanonicalLeaves (onVar : Variable → Term) (onConst : Constant → Term) : Prop where
  /-- Those of variables. -/
  var : ∀ v, (onVar v).Canonical
  /-- Those of constants. -/
  const : ∀ c, (onConst c).Canonical

/-- Replacing leaves by canonical terms gives canonical terms. -/
theorem canonical_mapLeaves (h : CanonicalLeaves onVar onConst) (t : Term) :
    (t.mapLeaves onVar onConst).Canonical := by
  induction t using Term.induction with
  | var v => exact h.var v
  | const c => exact h.const c
  | app f ts ih =>
    rw [mapLeaves_app, canonical_app, List.forall_mem_map]
    exact ih
  | sum ts ih =>
    rw [mapLeaves_sum]
    refine canonical_xor ?_
    rw [List.forall_mem_map]
    exact ih

section Zero

variable (h : CanonicalLeaves onVar onConst) (hz : zero.mapLeaves onVar onConst = zero)

include h

theorem canonical_map_mapLeaves (ts : List Term) :
    ∀ u ∈ ts.map (mapLeaves onVar onConst), u.Canonical := by
  rw [List.forall_mem_map]
  exact fun t _ => canonical_mapLeaves h t

include hz

/-- The indicator of the result is the sum over the results for the summands. -/
theorem vec_mapLeaves (t : Term) : vec (t.mapLeaves onVar onConst) =
    (t.summands.map fun a => vec (a.mapLeaves onVar onConst)).sum := by
  rcases eq_zero_or_atomic_or_sum t with rfl | ha | ⟨ts, rfl⟩
  · simp [hz]
  · simp [summands_of_atomic ha]
  · rw [mapLeaves_sum, vec_xor (canonical_map_mapLeaves h ts), List.map_map]
    rfl

theorem vec_mapLeaves_xor {ts : List Term} (hts : ∀ t ∈ ts, t.Canonical) :
    vec ((xor ts).mapLeaves onVar onConst) =
      (ts.map fun t => vec (t.mapLeaves onVar onConst)).sum := by
  rw [vec_mapLeaves h hz, sum_map_summands_xor add_self_eq_zero _ hts]
  exact congrArg List.sum (List.map_congr_left fun t _ => (vec_mapLeaves h hz t).symm)

/-- Replacing leaves respects exclusive or. -/
theorem mapLeaves_xor {ts : List Term} (hts : ∀ t ∈ ts, t.Canonical) :
    (xor ts).mapLeaves onVar onConst = xor (ts.map (mapLeaves onVar onConst)) := by
  have hc := canonical_map_mapLeaves h ts
  rw [← vec_inj (canonical_mapLeaves h _) (canonical_xor hc), vec_mapLeaves_xor h hz hts,
    vec_xor hc, List.map_map]
  rfl

end Zero

/-- Replacing the leaves twice is replacing each leaf by the second replacement of the first. -/
theorem mapLeaves_mapLeaves (h₁ : CanonicalLeaves onVar₁ onConst₁)
    (h₂ : CanonicalLeaves onVar₂ onConst₂) (hz : zero.mapLeaves onVar₂ onConst₂ = zero) {t : Term}
    (hv : ∀ v ∈ t.vars, onVar v = (onVar₁ v).mapLeaves onVar₂ onConst₂)
    (hc : ∀ c ∈ t.constants, onConst c = (onConst₁ c).mapLeaves onVar₂ onConst₂) :
    t.mapLeaves onVar onConst = (t.mapLeaves onVar₁ onConst₁).mapLeaves onVar₂ onConst₂ := by
  rw [mapLeaves_congr hv hc]
  clear hv hc
  induction t using Term.induction with
  | var v => rfl
  | const c => rfl
  | app f ts ih =>
    rw [mapLeaves_app, mapLeaves_app, mapLeaves_app, List.map_map]
    exact congrArg _ (List.map_congr_left ih)
  | sum ts ih =>
    rw [mapLeaves_sum, mapLeaves_sum, mapLeaves_xor h₂ hz (canonical_map_mapLeaves h₁ ts),
      List.map_map]
    exact congrArg _ (List.map_congr_left ih)

end SymbolicXor.Term
