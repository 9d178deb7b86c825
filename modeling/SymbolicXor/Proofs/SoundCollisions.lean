import SymbolicXor.Collision.Solve
import SymbolicXor.Proofs.RangeValues
import SymbolicXor.Proofs.Samples
import SymbolicXor.Proofs.SaturationSteps
import SymbolicXor.Proofs.SearchRuns

/-!
# Collisions that are found

Every sum of a saturation is the sum of the outputs at its places: under every valuation above its
assignment both have one value. Each step hands this on, whatever assignment a unification gives. A
sum that became zero therefore gives values to the protocol variables under which its outputs
cancel.
-/

namespace SymbolicXor

open CoeffTerm Collision

theorem Assignment.within_foldlM_compose {γ ε : Assignment} {as : List Assignment}
    {α : Name → Option Bool} (h : as.foldlM compose γ = some ε) :
    ε.Within α ↔ γ.Within α ∧ ∀ δ ∈ as, δ.Within α := by
  induction as generalizing γ with
  | nil =>
    cases h
    simp
  | cons δ as ih =>
    obtain ⟨η, hη, h⟩ := Option.bind_eq_some_iff.1 h
    rw [ih h, within_compose hη, List.forall_mem_cons, and_assoc]

namespace Collision

variable {p : CoeffTerm → Prop} {terms : List CoeffTerm}

/-- A sum is made of the outputs at its places. -/
structure AttackerTerm.Represents (p : CoeffTerm → Prop) (terms : List CoeffTerm)
    (a : AttackerTerm) : Prop where
  /-- Coefficients stand only in front of terms of the kind. -/
  scaled : Scaled p a.term
  /-- The sum is zero or made of atoms. -/
  flat : a.term.Flat
  /-- There is an output in the sum. -/
  nonempty : a.outputs ≠ []
  /-- The places are those of outputs. -/
  places : ∀ i ∈ a.outputs, i < terms.length
  /-- No output is taken twice. -/
  distinct : a.outputs.Nodup
  /-- Where its assignment holds, the sum has the value of the sum of the outputs. -/
  adds : ∀ α, a.assignment.Within α →
    (value α a.term).vec = (a.outputs.map fun i => (value α (terms.getD i zero)).vec).sum

theorem Attempt.result?_eq_some {a : Attempt} {γ : Assignment} {r : AttackerTerm} :
    a.result? γ = some r ↔ ∃ ε, a.assignments.foldlM Assignment.compose γ = some ε ∧
      r = { term := γ.reduce a.total, outputs := a.outputs, assignment := ε } := by
  rw [result?, Option.map_eq_some_iff]
  exact exists_congr fun ε => and_congr_right fun _ => eq_comm

namespace AttackerTerm

variable {a b z r : AttackerTerm} {t u : CoeffTerm} {γ : Assignment}

theorem Represents.vanished (h : a.Represents p terms) {s t : CoeffTerm} (hterm : a.term = mul s t)
    (hz : a.vanished? = some z) : z.Represents p terms := by
  obtain ⟨ε, hε, rfl⟩ := Option.map_eq_some_iff.1 hz
  refine ⟨.zero, flat_zero, h.nonempty, h.places, h.distinct, fun α hα => ?_⟩
  obtain ⟨hzero, hassigned⟩ := (Assignment.within_compose hε).1 hα
  rw [← h.adds α hassigned, value_zero]
  have hscaled := h.scaled
  rw [hterm] at hscaled
  cases hscaled with
  | @mul c _ _ _ =>
    have hc : α c = some false := by
      rw [zeroing, hterm] at hzero
      exact Assignment.within_singleton.1 hzero
    rw [hterm, value_mul, hc]
    rfl

theorem Represents.cancelled (hp : Lasting p) (h : a.Represents p terms)
    (hr : (a.cancelling t u).result? γ = some r) : r.Represents p terms := by
  obtain ⟨ε, hε, rfl⟩ := Attempt.result?_eq_some.1 hr
  obtain ⟨hscaled, hflat⟩ := scaled_reduce (γ := γ) hp h.scaled.orZero
  refine ⟨hscaled, hflat, h.nonempty, h.places, h.distinct, fun α hα => ?_⟩
  obtain ⟨hγ, hassigned⟩ := (Assignment.within_foldlM_compose hε).1 hα
  have hvalue : value α (γ.reduce a.term) = value α a.term := value_reduce hp hγ h.scaled.orZero
  exact (congrArg Term.vec hvalue).trans (h.adds α (hassigned _ List.mem_cons_self))

/-- The places of two sums of different outputs together. -/
theorem perm_outputs (ha : a.outputs.Nodup) (hb : b.outputs.Nodup)
    (hab : a.outputs.Disjoint b.outputs) :
    (OrderedList.ofList (a.outputs ++ b.outputs)).Perm (a.outputs ++ b.outputs) := by
  refine (List.perm_ext_iff_of_nodup (OrderedList.ordered_ofList _).nodup
    (ha.append hb hab)).2 fun i => ?_
  exact OrderedList.mem_ofList

theorem Represents.combined (hp : Lasting p) (ha : a.Represents p terms)
    (hb : b.Represents p terms) (hab : a.outputs.Disjoint b.outputs)
    (hr : (a.combining b t u).result? γ = some r) : r.Represents p terms := by
  obtain ⟨ε, hε, rfl⟩ := Attempt.result?_eq_some.1 hr
  have hperm := perm_outputs ha.distinct hb.distinct hab
  have hscaled : Scaled p (CoeffTerm.sum (a.term.summands ++ b.term.summands)) :=
    .sum (List.forall_mem_append.2 ⟨ha.scaled.summands, hb.scaled.summands⟩)
  obtain ⟨hreduced, hflat⟩ := scaled_reduce (γ := γ) hp hscaled.orZero
  refine ⟨hreduced, hflat, ?_, ?_, ?_, fun α hα => ?_⟩
  · intro hnil
    have hlen := hperm.length_eq
    rw [show OrderedList.ofList (a.outputs ++ b.outputs) = [] from hnil] at hlen
    exact ha.nonempty (List.append_eq_nil_iff.1 (List.length_eq_zero_iff.1 hlen.symm)).1
  · intro i hi
    rcases List.mem_append.1 (hperm.mem_iff.1 hi) with hi | hi
    · exact ha.places i hi
    · exact hb.places i hi
  · exact hperm.nodup_iff.2 (ha.distinct.append hb.distinct hab)
  · obtain ⟨hγ, hassigned⟩ := (Assignment.within_foldlM_compose hε).1 hα
    have hva := ha.adds α (hassigned _ List.mem_cons_self)
    have hvb := hb.adds α (hassigned _ (List.mem_cons_of_mem _ List.mem_cons_self))
    calc (value α (γ.reduce (CoeffTerm.sum (a.term.summands ++ b.term.summands)))).vec
        = (value α (CoeffTerm.sum (a.term.summands ++ b.term.summands))).vec := by
          rw [value_reduce hp hγ hscaled.orZero]
      _ = (value α a.term).vec + (value α b.term).vec := (reads_value α).vec_append _ _
      _ = ((a.outputs ++ b.outputs).map fun i => (value α (terms.getD i zero)).vec).sum := by
          rw [hva, hvb, List.map_append, List.sum_append]
      _ = _ := ((hperm.map _).sum_eq).symm

end AttackerTerm

namespace Saturation

theorem inherited_represents (hp : Lasting p) :
    Inherited (AttackerTerm.Represents p terms) where
  vanish h hterm hz := h.vanished hterm hz
  cancel h _ _ hr := h.cancelled hp hr
  combine ha hb hpair _ hr := ha.combined hp hb hpair.1 hr

/-- An output is the sum of itself. -/
theorem start_all (h : ∀ t ∈ terms, Scaled p t ∧ t.Flat) :
    (start terms).All (AttackerTerm.Represents p terms) := by
  refine ⟨fun a ha => absurd ha List.not_mem_nil, fun a ha => ?_⟩
  obtain ⟨⟨t, i⟩, hi, rfl⟩ := List.mem_map.1 ha
  have hget : terms[i]? = some t := List.mem_zipIdx_iff_getElem?.1 hi
  obtain ⟨hlt, _⟩ := List.getElem?_eq_some_iff.1 hget
  obtain ⟨hscaled, hflat⟩ := h t (List.mem_of_getElem? hget)
  refine ⟨hscaled, hflat, by simp, by simpa using hlt, by simp, fun α _ => ?_⟩
  simp [List.getD, hget]

end Saturation

theorem exists_of_mem_solutions {ranges : FinMap Variable CoeffTerm}
    {finished : List AttackerTerm} {σ : Substitution} (h : σ ∈ solutions ranges finished) :
    ∃ a ∈ finished, a.term = .zero ∧ instantiate ranges a.assignment = some σ := by
  have hmem := (Search.mem_foldl_record.1 h).resolve_left List.not_mem_nil
  obtain ⟨a, ha, hσ⟩ := List.mem_filterMap.1 hmem
  obtain ⟨ha, hz⟩ := List.mem_filter.1 ha
  exact ⟨a, ha, of_decide_eq_true hz, hσ⟩

/-- The value of an output whose variables were replaced by their ranges. -/
theorem value_output {ranges : FinMap Variable CoeffTerm} (hp : Lasting p)
    (hr : RangesInto p ranges) (α : Name → Option Bool) (t : Term) :
    value α ((ofTerm t).substitute ranges).simplify = (valuation ranges α).apply t := by
  rw [value_simplify hp (scaled_substitute hr t).orZero, value_substitute]

/-- The outputs with their variables replaced by the ranges. -/
def rangedOutputs (outputs : List Term) (constraints : Constraints) : List CoeffTerm :=
  outputs.map fun t => ((ofTerm t).substitute (ranges outputs constraints)).simplify

/-- The saturation of the outputs. -/
def saturate (outputs : List Term) (constraints : Constraints) (maxSteps : Nat) :
    Saturation.Result :=
  (Saturation.start (rangedOutputs outputs constraints)).run { remaining := maxSteps }

/-- The saturation by recursion on the number of steps, which computes. -/
theorem saturate_eq (outputs : List Term) (constraints : Constraints) (maxSteps : Nat) :
    saturate outputs constraints maxSteps = Saturation.runUpTo maxSteps
      (Saturation.start (rangedOutputs outputs constraints)) { remaining := maxSteps } :=
  Saturation.run_eq_runUpTo (Nat.le_refl maxSteps) _

/-- The collisions are read off the finished sums of the saturation. -/
theorem collisions_eq (outputs : List Term) (constraints : Constraints) (maxSteps : Nat) :
    collisions outputs constraints maxSteps =
      let found := solutions (ranges outputs constraints)
        (saturate outputs constraints maxSteps).saturation.finished
      if (saturate outputs constraints maxSteps).isSaturated then .ofSolutions found
      else .boundExceeded found :=
  rfl

theorem solutions_collisions (outputs : List Term) (constraints : Constraints) (maxSteps : Nat) :
    (collisions outputs constraints maxSteps).solutions = solutions (ranges outputs constraints)
      (saturate outputs constraints maxSteps).saturation.finished := by
  rw [collisions_eq]
  split
  · exact Outcome.solutions_ofSolutions _
  · rfl

/-- Every finished sum of a saturation is made of the outputs at its places. -/
theorem represents_of_mem_finished {p : CoeffTerm → Prop} (hp : Lasting p) {outputs : List Term}
    {constraints : Constraints} (hr : RangesInto p (ranges outputs constraints)) {maxSteps : Nat}
    {a : AttackerTerm} (ha : a ∈ (saturate outputs constraints maxSteps).saturation.finished) :
    a.Represents p (rangedOutputs outputs constraints) := by
  have hterms : ∀ t ∈ rangedOutputs outputs constraints, Scaled p t ∧ t.Flat := by
    rw [rangedOutputs, List.forall_mem_map]
    intro t _
    rw [← Assignment.reduce_empty]
    exact scaled_reduce hp (scaled_substitute hr t).orZero
  exact (Saturation.all_of_steps (Saturation.inherited_represents hp)
    (Saturation.run_spec _ _).1 (Saturation.start_all hterms)).1 a ha

/-- Places below a bound, as numbers below it. -/
theorem exists_map_val {n : Nat} {l : List Nat} (h : ∀ i ∈ l, i < n) :
    ∃ I : List (Fin n), I.map Fin.val = l :=
  ⟨l.pmap Fin.mk h, by simp [List.map_pmap]⟩

/-- The outputs at the places of a sum add up to its value. -/
theorem AttackerTerm.Represents.xor_outputs {p : CoeffTerm → Prop} (hp : Lasting p)
    {outputs : List Term} {constraints : Constraints}
    (hr : RangesInto p (ranges outputs constraints)) {a : AttackerTerm}
    (h : a.Represents p (rangedOutputs outputs constraints)) {α : Name → Option Bool}
    (hα : a.assignment.Within α) {I : List (Fin outputs.length)}
    (hI : I.map Fin.val = a.outputs) :
    Term.xor (I.map fun i => (valuation (ranges outputs constraints) α).apply (outputs.get i)) =
      value α a.term := by
  have hc : ∀ u ∈ I.map fun i => (valuation (ranges outputs constraints) α).apply (outputs.get i),
      u.Canonical := by
    rw [List.forall_mem_map]
    exact fun i _ => Substitution.canonical_apply canonical_valuation _
  rw [← Term.vec_inj (Term.canonical_xor hc) (canonical_value _), Term.vec_xor hc, h.adds α hα,
    ← hI, List.map_map, List.map_map]
  refine congrArg List.sum (List.map_congr_left fun i _ => ?_)
  simp [List.getD, rangedOutputs, value_output hp hr]

end Collision

/-- The collision search is sound. Every substitution that is found, whether or not the search was
cut off, makes the outputs at some places cancel. -/
theorem collisions_sound {outputs : List Term} {constraints : Constraints}
    (hknown : ∀ v known, constraints.get? v = some known → ∀ t ∈ known, t.Canonical)
    {maxSteps : Nat} {σ : Substitution}
    (hσ : σ ∈ (collisions outputs constraints maxSteps).solutions) :
    ∃ I : List (Fin outputs.length), I ≠ [] ∧ I.Nodup ∧
      Term.xor (I.map fun i => σ.apply (outputs.get i)) = .zero := by
  have hranges : RangesInto IsAtom (ranges outputs constraints) :=
    rangesInto_ranges lasting_isAtom outputs fun v known hv t ht =>
      ⟨hknown v known hv t ht, fun _ => IsRigid.isAtom, fun _ _ => id⟩
  rw [solutions_collisions] at hσ
  obtain ⟨a, ha, hzero, hσ⟩ := exists_of_mem_solutions hσ
  have hrep := represents_of_mem_finished lasting_isAtom hranges ha
  obtain ⟨I, hI⟩ := exists_map_val fun i hi => (hrep.places i hi).trans_eq (List.length_map _)
  refine ⟨I, ?_, List.Nodup.of_map Fin.val (hI ▸ hrep.distinct), ?_⟩
  · rintro rfl
    exact hrep.nonempty hI.symm
  · have hsum := hrep.xor_outputs lasting_isAtom hranges (Assignment.within_get? _) hI
    rw [hzero, value_zero] at hsum
    rw [← hsum]
    exact congrArg Term.xor (List.map_congr_left fun i _ =>
      Substitution.apply_congr fun v _ => lookup_instantiate hranges hσ v)

open Sample

/-- An output is sent once more, next to a received term. -/
def reusedOutputs : List Term := [a, .sum [.var x, a]]

/-- The constant is known when `x` is chosen. -/
def chosenX : Constraints := ⟨[(x, [a])], by decide⟩

theorem eq_of_get?_chosenX {v : Variable} {known : List Term}
    (h : chosenX.get? v = some known) : v = x ∧ known = [a] := by
  have hmem := FinMap.get?_eq_some_iff.1 h
  rwa [chosenX, List.mem_singleton, Prod.mk.injEq] at hmem

theorem collisions_sound_reusedOutputs :
    (∀ v known, chosenX.get? v = some known → ∀ t ∈ known, t.Canonical) ∧
      Substitution.single x a ∈ (collisions reusedOutputs chosenX 50).solutions ∧
      ∃ I : List (Fin reusedOutputs.length), I ≠ [] ∧ I.Nodup ∧
        Term.xor (I.map fun i => (Substitution.single x a).apply (reusedOutputs.get i)) =
          .zero := by
  have hknown : ∀ v known, chosenX.get? v = some known → ∀ t ∈ known, t.Canonical := by
    intro v known hv
    rw [(eq_of_get?_chosenX hv).2]
    decide
  have hrun : (collisions reusedOutputs chosenX 50).solutions =
      [.single x a, .single x .zero] := by
    rw [solutions_collisions, saturate_eq]
    cbv
  have hfound : Substitution.single x a ∈
      (collisions reusedOutputs chosenX 50).solutions := hrun ▸ List.mem_cons_self
  exact ⟨hknown, hfound, collisions_sound hknown hfound⟩

end SymbolicXor
