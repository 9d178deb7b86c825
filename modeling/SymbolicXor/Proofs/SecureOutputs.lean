import SymbolicXor.Proofs.SumDescent

/-!
# Outputs without collisions

When a saturation ended by itself and no sum became zero, no values of the coefficients make outputs
cancel, provided that three things went well: no lone product was dropped whose coefficient was one
already, no sum has two summands that only look different, and no lowest depth is higher than a
value. Each of the three can go wrong, and then a collision is missed.
-/

namespace SymbolicXor

open CoeffTerm Assignment

namespace Collision

/-- Three things went well in a saturation. -/
structure Saturation.Reliable (s : Saturation) : Prop where
  /-- The coefficient of a lone product was not one already. -/
  products : ∀ a ∈ s.generated, ∀ b ∈ a.term.coefficient?, a.assignment.get? b ≠ some true
  /-- No sum has two summands that only look different. -/
  distinct : ∀ a ∈ s.finished, (a.term.summands.map toTerm).Nodup
  /-- No summand has a value that is less deep than its lowest depth. -/
  depths : ∀ a ∈ s.finished, ∀ t ∈ a.term.summands, ∀ β : Name → Bool,
    value (some ∘ β) t ≠ .zero → t.depthRange.low ≤ (value (some ∘ β) t).nesting

/-- Where no sum became zero, a lone product is dropped only if its coefficient is one. -/
theorem Saturation.Reliable.not_dropped {s : Saturation} (hs : s.Reliable)
    (hzero : ∀ a ∈ s.finished, a.term ≠ .zero) :
    ∀ a ∈ s.generated, ¬ a.Dropped s.finished := by
  rintro a ha ⟨_, hdropped⟩
  cases hz : a.vanished? with
  | some z =>
    refine hzero z (hdropped z hz) ?_
    obtain ⟨_, _, rfl⟩ := Option.map_eq_some_iff.1 hz
    rfl
  | none =>
    obtain ⟨b, hb, htrue⟩ := AttackerTerm.exists_of_vanished?_eq_none hz
    exact hs.products a ha b hb htrue

section

variable {outputs : List Term} {constraints : Constraints} {maxSteps : Nat}

/-- Without sorts, no sum became zero if no collision was found. -/
theorem nonzero_of_noUnifier (hsort : ∀ v known, constraints.get? v = some known → v.sort = none)
    (h : (collisions outputs constraints maxSteps).solutions = []) :
    ∀ a ∈ (saturate outputs constraints maxSteps).saturation.finished, a.term ≠ .zero := by
  intro a ha hz
  have hunsorted : ∀ v r, (ranges outputs constraints).get? v = some r → v.sort = none :=
    fun v r hr => (exists_of_get?_ranges hr).elim (hsort v)
  obtain ⟨σ, hσ⟩ := exists_instantiate hunsorted a.assignment
  have hmem : σ ∈ (collisions outputs constraints maxSteps).solutions := by
    rw [solutions_collisions, solutions, Search.mem_foldl_record]
    exact Or.inr (List.mem_filterMap.2 ⟨a, List.mem_filter.2 ⟨ha, decide_eq_true hz⟩, hσ⟩)
  rw [h] at hmem
  cases hmem

/-- The verdict that there are no collisions is given only if the saturation ended by itself. -/
theorem isSaturated_of_noUnifier (h : collisions outputs constraints maxSteps = .noUnifier) :
    (saturate outputs constraints maxSteps).isSaturated = true := by
  rw [collisions_eq] at h
  by_contra hnot
  rw [if_neg hnot] at h
  cases h

/-- The finished sums of a reliable saturation without collisions are barren. -/
theorem barren_of_noUnifier (hr : RangesInto IsRigid (ranges outputs constraints))
    (hsort : ∀ v known, constraints.get? v = some known → v.sort = none)
    (hreliable : (saturate outputs constraints maxSteps).saturation.Reliable)
    (h : collisions outputs constraints maxSteps = .noUnifier) :
    Barren (rangedOutputs outputs constraints)
      (saturate outputs constraints maxSteps).saturation.finished := by
  have hzero := nonzero_of_noUnifier hsort (congrArg Outcome.solutions h)
  obtain ⟨hsteps, hend⟩ := Saturation.run_spec
    (Saturation.start (rangedOutputs outputs constraints)) { remaining := maxSteps }
  have hclosed := (Saturation.keeps_of_steps hsteps).closed (hend (isSaturated_of_noUnifier h))
    (hreliable.not_dropped hzero)
  exact ⟨hclosed, fun a ha => represents_of_mem_finished lasting_isRigid hr ha, hzero,
    hreliable.distinct, hreliable.depths⟩

/-- Outputs that cancel are sums of different outputs that add up to zero. -/
theorem cancels_of_xor_eq_zero {p : CoeffTerm → Prop} (hp : Lasting p)
    (hr : RangesInto p (ranges outputs constraints)) {sums : List AttackerTerm}
    (hsums : Closed (rangedOutputs outputs constraints) sums) {β : Name → Bool}
    {I : List (Fin outputs.length)} (hne : I ≠ []) (hI : I.Nodup)
    (hzero : Term.xor (I.map fun i =>
      (valuation (ranges outputs constraints) (some ∘ β)).apply (outputs.get i)) = .zero) :
    ∃ L, Cancels sums β L := by
  have hlt (i : Fin outputs.length) : i.1 < (rangedOutputs outputs constraints).length :=
    i.2.trans_eq (List.length_map _).symm
  refine ⟨I.map fun i =>
    { term := (rangedOutputs outputs constraints).get ⟨i.1, hlt i⟩, outputs := [i.1] },
    fun hnil => hne (List.map_eq_nil_iff.1 hnil), ?_, ?_, ?_, ?_⟩
  · rw [List.forall_mem_map]
    exact fun i _ => hsums.outputs i.1 (hlt i)
  · refine List.pairwise_map.2 (hI.imp fun hij k hk hkj => hij (Fin.ext ?_))
    exact (List.mem_singleton.1 hk).symm.trans (List.mem_singleton.1 hkj)
  · rw [List.forall_mem_map]
    exact fun i _ => within_empty _
  · have hc : ∀ u ∈ I.map fun i =>
        (valuation (ranges outputs constraints) (some ∘ β)).apply (outputs.get i), u.Canonical := by
      rw [List.forall_mem_map]
      exact fun i _ => Substitution.canonical_apply canonical_valuation _
    rw [Term.eq_zero_iff_vec (Term.canonical_xor hc), Term.vec_xor hc, List.map_map] at hzero
    rw [List.map_map, ← hzero]
    refine congrArg List.sum (List.map_congr_left fun i _ => ?_)
    simp [rangedOutputs, value_output hp hr]

/-- A saturation that ended by itself without collisions gives the verdict that there are none. -/
theorem collisions_eq_noUnifier
    (h : (saturate outputs constraints maxSteps).isSaturated = true)
    (hfound : solutions (ranges outputs constraints)
      (saturate outputs constraints maxSteps).saturation.finished = []) :
    collisions outputs constraints maxSteps = .noUnifier := by
  rw [collisions_eq, if_pos h]
  simp only [hfound]
  rfl

/-- Without sums below function symbols the depths are right. -/
theorem reliable_of_sumFree (hr : RangesInto IsRigid (ranges outputs constraints))
    (hproducts : ∀ a ∈ (saturate outputs constraints maxSteps).saturation.generated,
      ∀ b ∈ a.term.coefficient?, a.assignment.get? b ≠ some true)
    (hdistinct : ∀ a ∈ (saturate outputs constraints maxSteps).saturation.finished,
      (a.term.summands.map toTerm).Nodup)
    (hsums : ∀ a ∈ (saturate outputs constraints maxSteps).saturation.finished,
      ∀ t ∈ a.term.summands, t.sumFree = true) :
    (saturate outputs constraints maxSteps).saturation.Reliable where
  products := hproducts
  distinct := hdistinct
  depths a ha t ht _ _ := low_le_nesting
    ((represents_of_mem_finished lasting_isRigid hr ha).scaled.summands t ht) (hsums a ha t ht)

/-- If the known terms are canonical and no variables, the ranges have coefficients only in front of
constants and applications. -/
theorem rangesInto_isRigid (outputs : List Term)
    (hknown : ∀ v known, constraints.get? v = some known → ∀ t ∈ known,
      t.Canonical ∧ t.isVar = false) : RangesInto IsRigid (ranges outputs constraints) :=
  rangesInto_ranges lasting_isRigid outputs fun v known hv t ht => by
    obtain ⟨hc, hvar⟩ := hknown v known hv t ht
    exact ⟨hc, fun _ => id, fun h => by rw [hvar] at h; cases h⟩

end

/-- No collision of the outputs is found although there is one. -/
def Missed (outputs : List Term) (constraints : Constraints) (maxSteps : Nat) : Prop :=
  (∀ t ∈ outputs, t.Canonical) ∧ (∀ e ∈ constraints.entries, ∀ t ∈ e.2, t.Canonical) ∧
    collisions outputs constraints maxSteps = .noUnifier ∧
      ∃ (β : Name → Bool) (I : List (Fin outputs.length)), I ≠ [] ∧ I.Nodup ∧
        Term.xor (I.map fun i =>
          (valuation (ranges outputs constraints) (some ∘ β)).apply (outputs.get i)) = .zero

/-- A search that ended without collisions missed one if all outputs together cancel when all
coefficients are one. -/
theorem missed_of_all_outputs {outputs : List Term} {constraints : Constraints} {maxSteps : Nat}
    (hcanonical : ∀ t ∈ outputs, t.Canonical)
    (hknown : ∀ e ∈ constraints.entries, ∀ t ∈ e.2, t.Canonical)
    (h : collisions outputs constraints maxSteps = .noUnifier) (hne : outputs ≠ [])
    (hzero : Term.xor (outputs.map
      (valuation (ranges outputs constraints) (some ∘ fun _ => true)).apply) = .zero) :
    Missed outputs constraints maxSteps := by
  refine ⟨hcanonical, hknown, h, fun _ => true, List.finRange outputs.length, ?_,
    List.nodup_finRange _, ?_⟩
  · rw [Ne, List.finRange_eq_nil_iff, List.length_eq_zero_iff]
    exact hne
  · have hall := congrArg (List.map (valuation (ranges outputs constraints)
      (some ∘ fun _ => true)).apply) (List.map_get_finRange outputs)
    rw [List.map_map] at hall
    exact (congrArg Term.xor hall).trans hzero

end Collision

open Collision

/-- A verdict without collisions can be trusted where the saturation was reliable: under no values
of the coefficients do any of the outputs cancel. The constrained variables must have no sorts, and
no known term may itself be a variable. -/
theorem collisions_secure {outputs : List Term} {constraints : Constraints} {maxSteps : Nat}
    (hsort : ∀ v known, constraints.get? v = some known → v.sort = none)
    (hknown : ∀ v known, constraints.get? v = some known → ∀ t ∈ known,
      t.Canonical ∧ t.isVar = false)
    (hreliable : (saturate outputs constraints maxSteps).saturation.Reliable)
    (h : collisions outputs constraints maxSteps = .noUnifier) (β : Name → Bool)
    {I : List (Fin outputs.length)} (hne : I ≠ []) (hI : I.Nodup) :
    Term.xor (I.map fun i =>
      (valuation (ranges outputs constraints) (some ∘ β)).apply (outputs.get i)) ≠ .zero := by
  intro hzero
  have hr := rangesInto_isRigid outputs hknown
  have hbarren := barren_of_noUnifier hr hsort hreliable h
  obtain ⟨L, hL⟩ := cancels_of_xor_eq_zero lasting_isRigid hr hbarren.toClosed hne hI hzero
  exact hbarren.not_cancels L hL

open Sample

/-- Two outputs of which only a part can be made to cancel. -/
def steadyOutputs : List Term := [.sum [a, .app f [.var x]], .app f [a]]

/-- The sums of the outputs: both outputs, and the rest when they are added up. -/
def steadySums : List AttackerTerm :=
  let known := CoeffTerm.ofTerm a
  let b : Name := ⟨"b1", by decide⟩
  [{ term := .sum [known, .app f [.mul (.coeff b) known]], outputs := [0] },
    { term := .app f [known], outputs := [1] },
    { term := known, outputs := [0, 1], assignment := .singleton b true }]

theorem collisions_secure_steadyOutputs :
    (∀ v known, chosenX.get? v = some known → v.sort = none) ∧
      (∀ v known, chosenX.get? v = some known → ∀ t ∈ known, t.Canonical ∧ t.isVar = false) ∧
      (saturate steadyOutputs chosenX 20).saturation.Reliable ∧
      collisions steadyOutputs chosenX 20 = .noUnifier ∧
      Term.xor ([0, 1].map fun i : Fin 2 => (valuation (ranges steadyOutputs chosenX)
        (some ∘ fun _ => true)).apply (steadyOutputs.get i)) ≠ .zero := by
  have hsort : ∀ v known, chosenX.get? v = some known → v.sort = none := by
    intro v known hv
    rw [(eq_of_get?_chosenX hv).1]
    rfl
  have hknown : ∀ v known, chosenX.get? v = some known → ∀ t ∈ known,
      t.Canonical ∧ t.isVar = false := by
    intro v known hv
    rw [(eq_of_get?_chosenX hv).2]
    decide
  have hgenerated : (saturate steadyOutputs chosenX 20).saturation.generated = steadySums := by
    rw [saturate_eq]
    cbv
  have hfinished : (saturate steadyOutputs chosenX 20).saturation.finished = steadySums := by
    rw [saturate_eq]
    cbv
  have hreliable : (saturate steadyOutputs chosenX 20).saturation.Reliable := by
    refine reliable_of_sumFree (rangesInto_isRigid steadyOutputs hknown) ?_ ?_ ?_
    · rw [hgenerated]
      decide
    · rw [hfinished]
      decide
    · rw [hfinished]
      decide
  have hnone : collisions steadyOutputs chosenX 20 = .noUnifier := by
    refine collisions_eq_noUnifier ?_ ?_
    · rw [saturate_eq]
      cbv
    · rw [hfinished]
      decide
  have hne : ([0, 1] : List (Fin 2)) ≠ [] := List.cons_ne_nil _ _
  have hnodup : ([0, 1] : List (Fin 2)).Nodup := by decide
  exact ⟨hsort, hknown, hreliable, hnone,
    collisions_secure hsort hknown hreliable hnone (fun _ => true) hne hnodup⟩

/-- The function symbol is applied to a sum whose summands cancel when `x` is chosen. -/
def collapsingOutputs : List Term :=
  [.app f [.sum [.app f [.var x], .app f [a]]], .app f [.zero]]

/-- The known constant for a sum in another order. -/
def chosenB : Constraints := ⟨[(x, [b])], by decide⟩

/-- The arguments are sums that are equal up to the order of the summands when `x` is chosen. -/
def reorderedOutputs : List Term := [.app f [.sum [.var x, a]], .app f [.sum [a, b]]]

/-- All that is left of the first two outputs is a product whose coefficient is one. -/
def presentOutputs : List Term :=
  [.sum [.app f [b], .app g [.app g [.var x]], .app g [.app g [a]]], .sum [.var x, .app f [b]], a]

/-- The free variable `y` is known when `x` is chosen. -/
def knownVariable : Constraints := ⟨[(x, [.var y])], by decide⟩

/-- The variable `x` is known when `y` is chosen. -/
def knownRange : Constraints := ⟨[(x, [a]), (y, [.var x])], by decide⟩

/-- A sort. -/
def sort : TermSort := .root ⟨"s", by decide⟩

/-- A constant of the sort is known when a variable of the sort is chosen. -/
def chosenSorted : Constraints :=
  ⟨[({ x with sort := some sort }, [.const { symbol := ⟨"c", by decide⟩, sort := some sort }])],
    by decide⟩

/-- Each hypothesis is needed. Collisions are missed because a lowest depth is too high, because two
summands only look different, because a product whose coefficient is one is dropped, because a
variable is known, free or constrained, and because a coefficient without a value has no sort. -/
theorem collisions_missed :
    Missed collapsingOutputs chosenX 3 ∧ Missed reorderedOutputs chosenB 22 ∧
      Missed presentOutputs chosenX 28 ∧ Missed [.sum [.var x, .var y]] knownVariable 5 ∧
      Missed [.sum [.var y, a]] knownRange 5 ∧ Missed [a, a] chosenSorted 7 := by
  refine ⟨missed_of_all_outputs (by decide) (by decide) ?_ (by decide) (by cbv),
    missed_of_all_outputs (by decide) (by decide) ?_ (by decide) (by cbv),
    missed_of_all_outputs (by decide) (by decide) ?_ (by decide) (by cbv),
    missed_of_all_outputs (by decide) (by decide) ?_ (by decide) (by cbv),
    missed_of_all_outputs (by decide) (by decide) ?_ (by decide) (by cbv),
    missed_of_all_outputs (by decide) (by decide) ?_ (by decide) (by cbv)⟩
  all_goals
    refine collisions_eq_noUnifier ?_ ?_
    all_goals
      rw [saturate_eq]
      cbv

end SymbolicXor
