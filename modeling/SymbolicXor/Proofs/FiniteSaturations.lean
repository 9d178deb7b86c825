import SymbolicXor.Proofs.FiniteBooleanSearches
import SymbolicXor.Proofs.SteadySaturations
import SymbolicXor.Proofs.SoundCollisions
import SymbolicXor.Proofs.SpelledTerms

/-!
# Saturations that come to an end

Every sum of a saturation is of different outputs, its size is bounded by their number, and it has
no other letters than the outputs. So there are finitely many sums that a saturation may generate.
Each step generates a new one, or takes a sum off those that are to be looked at; the latter may
generate a sum a second time, but then there is one less to be looked at. Each attempt ends by
itself, since boolean unification does, and so does the saturation under every budget from some
bound on.
-/

namespace SymbolicXor

open CoeffTerm

namespace Collision

variable {S : Set CoeffTerm} {m n : Nat}

namespace AttackerTerm

variable {a b z r : AttackerTerm} {t u : CoeffTerm} {γ : Assignment}

/-- A sum of different outputs out of some number, with some letters only. It is smaller than the
number of its outputs, taken some number of times. -/
structure Bounded (S : Set CoeffTerm) (m n : Nat) (a : AttackerTerm) : Prop where
  /-- The sum has these letters. -/
  spelled : Spelled S a.term
  /-- It is small. -/
  small : a.term.size < a.outputs.length * m
  /-- The places are those of outputs. -/
  places : ∀ i ∈ a.outputs, i < n
  /-- No output is taken twice. -/
  distinct : a.outputs.Nodup
  /-- The values are those of coefficients among the letters. -/
  assigned : a.assignment.AssignsIn S

theorem Bounded.length_le (h : a.Bounded S m n) : a.outputs.length ≤ n := by
  have hsub : a.outputs ⊆ List.range n := fun i hi => List.mem_range.2 (h.places i hi)
  exact (h.distinct.subperm hsub).length_le.trans_eq List.length_range

/-- There are finitely many bounded sums. -/
theorem finite_bounded (hS : S.Finite) (m n : Nat) : {a | Bounded S m n a}.Finite := by
  have hterms := finite_spelled hS (n * m)
  have houtputs := finite_lists (Set.finite_Iio n) n
  have hassignments := Assignment.finite_assignsIn hS
  refine ((hterms.prod (houtputs.prod hassignments)).image fun p =>
    { term := p.1, outputs := p.2.1, assignment := p.2.2 }).subset fun a h => ?_
  have hsize : a.term.size ≤ n * m :=
    h.small.le.trans (Nat.mul_le_mul_right m h.length_le)
  exact ⟨(a.term, a.outputs, a.assignment), ⟨⟨h.spelled, hsize⟩, ⟨h.length_le, h.places⟩,
    h.assigned⟩, rfl⟩

theorem Bounded.vanished (h : a.Bounded S m n) (hz : a.vanished? = some z) : z.Bounded S m n := by
  obtain ⟨ε, hε, rfl⟩ := Option.map_eq_some_iff.1 hz
  have hsize : CoeffTerm.zero.size ≤ a.term.size := a.term.size_pos
  have hzeroing : a.zeroing.AssignsIn S := by
    unfold zeroing
    split
    · rename_i b hb
      exact Assignment.assignsIn_singleton (h.spelled.coefficient hb) false
    · exact Assignment.assignsIn_empty S
  exact ⟨.zero, hsize.trans_lt h.small, h.places, h.distinct, hzeroing.compose h.assigned hε⟩

theorem Bounded.cancelled (h : a.Bounded S m n) (hpair : a.CancelPair t u)
    (hγ : (a.cancelling t u).Finds γ) (hr : (a.cancelling t u).result? γ = some r) :
    r.Bounded S m n := by
  obtain ⟨ε, hε, rfl⟩ := Attempt.result?_eq_some.1 hr
  obtain ⟨ts, hts, hsub, _⟩ := hpair
  have hsummand {v : CoeffTerm} (hv : v ∈ [t, u]) : Spelled S v := by
    refine h.spelled.summands v ?_
    rw [hts]
    exact List.mem_of_mem_filter (hsub.subset hv)
  obtain ⟨budget, hγ⟩ := hγ
  have hassigns : γ.AssignsIn S := assignsIn_of_mem_booleanUnifyWith
    (hsummand List.mem_cons_self) (hsummand (List.mem_cons_of_mem _ List.mem_cons_self)) hγ
  exact ⟨h.spelled.reduce γ, (size_reduce_le γ a.term).1.trans_lt h.small, h.places, h.distinct,
    hassigns.foldlM_compose (List.forall_mem_singleton.2 h.assigned) hε⟩

theorem Bounded.combined (ha : a.Bounded S m n) (hb : b.Bounded S m n)
    (hpair : a.CombinePair b t u) (hγ : (a.combining b t u).Finds γ)
    (hr : (a.combining b t u).result? γ = some r) : r.Bounded S m n := by
  obtain ⟨ε, hε, rfl⟩ := Attempt.result?_eq_some.1 hr
  obtain ⟨hdisjoint, ht, hu, _⟩ := hpair
  have hperm := perm_outputs ha.distinct hb.distinct hdisjoint
  obtain ⟨budget, hγ⟩ := hγ
  have hassigns : γ.AssignsIn S := assignsIn_of_mem_booleanUnifyWith
    (ha.spelled.summands t (List.mem_of_mem_filter ht))
    (hb.spelled.summands u (List.mem_of_mem_filter hu)) hγ
  have hspelled : Spelled S (CoeffTerm.sum (a.term.summands ++ b.term.summands)) :=
    .sum (List.forall_mem_append.2 ⟨ha.spelled.summands, hb.spelled.summands⟩)
  have hsize : (γ.reduce (CoeffTerm.sum (a.term.summands ++ b.term.summands))).size ≤
      a.term.size + b.term.size + 1 := by
    refine (size_reduce_le γ _).1.trans ?_
    have hsa := sizeAll_summands_le a.term
    have hsb := sizeAll_summands_le b.term
    rw [size, sizeAll_append]
    omega
  refine ⟨hspelled.reduce γ, hsize.trans_lt ?_, fun i hi => ?_, ?_,
    hassigns.foldlM_compose ?_ hε⟩
  · have hlen : (OrderedList.ofList (a.outputs ++ b.outputs)).length =
        a.outputs.length + b.outputs.length := hperm.length_eq.trans List.length_append
    have hsa := ha.small
    have hsb := hb.small
    change _ < (OrderedList.ofList (a.outputs ++ b.outputs)).length * m
    rw [hlen, Nat.add_mul]
    omega
  · exact (List.mem_append.1 (hperm.mem_iff.1 hi)).elim (ha.places i) (hb.places i)
  · exact hperm.nodup_iff.2 (ha.distinct.append hb.distinct hdisjoint)
  · exact List.forall_mem_cons.2 ⟨ha.assigned, List.forall_mem_singleton.2 hb.assigned⟩

end AttackerTerm

open AttackerTerm

namespace Saturation

variable {s next : Saturation} {terms : List CoeffTerm} {U : Finset AttackerTerm}

theorem inherited_bounded : Inherited (AttackerTerm.Bounded S m n) where
  vanish h _ hz := h.vanished hz
  cancel h hpair hγ hr := h.cancelled hpair hγ hr
  combine ha hb hpair hγ hr := ha.combined hb hpair hγ hr

/-- The outputs that a saturation begins with are bounded. -/
theorem exists_start_all (terms : List CoeffTerm) : ∃ (S : Set CoeffTerm) (m : Nat), S.Finite ∧
    (start terms).All (AttackerTerm.Bounded S m terms.length) := by
  obtain ⟨S, hS, hspelled⟩ := exists_spelled_of_forall fun t (_ : t ∈ terms) => exists_spelled t
  refine ⟨S, sizeAll terms + 1, hS, fun a ha => absurd ha List.not_mem_nil, fun a ha => ?_⟩
  obtain ⟨⟨t, i⟩, hi, rfl⟩ := List.mem_map.1 ha
  have hget : terms[i]? = some t := List.mem_zipIdx_iff_getElem?.1 hi
  have hmem : t ∈ terms := List.mem_of_getElem? hget
  obtain ⟨hlt, _⟩ := List.getElem?_eq_some_iff.1 hget
  have hsize := size_le_sizeAll hmem
  refine ⟨hspelled t hmem, ?_, by simpa using hlt, by simp, Assignment.assignsIn_empty S⟩
  simp only [List.length_cons, List.length_nil]
  omega

/-- The measure that the steps lower: the number of sums that may still be generated, then the
number of sums that are to be looked at. -/
def measure (U : Finset AttackerTerm) (s : Saturation) : Nat × Nat :=
  ((U \ s.generated.toFinset).card, s.raw.length)

/-- A new sum is one less to generate. -/
theorem measure_lt_of_new (hgen : s.generated ⊆ next.generated) {r : AttackerTerm} (hU : r ∈ U)
    (hr : r ∉ s.generated) (hnext : r ∈ next.generated) :
    Prod.Lex (· < ·) (· < ·) (next.measure U) (s.measure U) := by
  refine .left _ _ (Finset.card_lt_card ?_)
  refine (Finset.ssubset_iff_of_subset fun b hb => ?_).2 ⟨r, ?_, ?_⟩
  · simp only [Finset.mem_sdiff, List.mem_toFinset] at hb ⊢
    exact ⟨hb.1, fun h => hb.2 (hgen h)⟩
  · simpa using ⟨hU, hr⟩
  · simpa using fun _ => hnext

/-- Where nothing is lost, one sum less to be looked at is less to do. -/
theorem measure_lt_of_raw (hgen : s.generated ⊆ next.generated)
    (hraw : next.raw.length < s.raw.length) :
    Prod.Lex (· < ·) (· < ·) (next.measure U) (s.measure U) := by
  have hle : (U \ next.generated.toFinset).card ≤ (U \ s.generated.toFinset).card := by
    refine Finset.card_le_card (Finset.sdiff_subset_sdiff (Finset.Subset.refl U) fun b hb => ?_)
    simp only [List.mem_toFinset] at hb ⊢
    exact hgen hb
  rcases Nat.lt_or_eq_of_le hle with hlt | heq
  · exact .left _ _ hlt
  · rw [measure, measure, heq]
    exact .right _ hraw

/-- Every step lowers the measure, if all sums that it generates are among those that may be. -/
theorem Step.measure_lt (h : Step s next) (hnext : ∀ a ∈ next.raw, a ∈ U) :
    Prod.Lex (· < ·) (· < ·) (next.measure U) (s.measure U) := by
  cases h with
  | @vanish a rest l r hraw hterm =>
    rw [vanish_eq]
    split
    · exact measure_lt_of_raw (List.Subset.refl _) (by simp [hraw])
    · exact measure_lt_of_raw (List.subset_append_left _ _) (by simp [hraw])
  | @finish a rest hraw _ _ =>
    exact measure_lt_of_raw (List.Subset.refl _) (by simp [Saturation.finish, hraw])
  | @record att found _ _ hnew =>
    obtain ⟨r, hr, hrs⟩ := hnew
    obtain ⟨new, _, hall, heq⟩ := foldl_record (found.filterMap att.result?) s
    rw [heq] at hnext ⊢
    have hmem : r ∈ new := (hall r hr).resolve_left hrs
    exact measure_lt_of_new (List.subset_append_left _ _) (hnext r (List.mem_append_right _ hmem))
      hrs (List.mem_append_right _ hmem)

/-- One saturation comes from another by a step, under some budget. -/
def Next (next s : Saturation) : Prop := ∃ budget left, s.advance budget = .advanced next left

/-- A saturation of bounded sums does not go on for ever. -/
theorem acc_next (hS : S.Finite) (hs : s.All (AttackerTerm.Bounded S m n)) : Acc Next s := by
  have hU := finite_bounded hS m n
  induction s using (InvImage.wf (measure hU.toFinset)
    (wellFounded_lt.prod_lex wellFounded_lt)).induction with
  | _ s ih =>
    refine Acc.intro s fun next ⟨budget, left, hadvance⟩ => ?_
    have hstep := step_of_advance hadvance
    have hnext := hstep.all inherited_bounded hs
    exact ih next (hstep.measure_lt fun a ha => hU.mem_toFinset.2 (hnext.2 a ha)) hnext

end Saturation

namespace Progress

@[simp] theorem isCutOff_plus (k : Nat) (p : Progress) : (p.plus k).isCutOff = p.isCutOff := by
  cases p <;> rfl

/-- With enough steps left, looking for new sums is not cut off. -/
theorem OfAttempts.exists_uncut {look : Budget → Progress} (h : OfAttempts look) (spent : Nat) :
    ∃ n, (look ⟨n, spent⟩).isCutOff = false := by
  induction h generalizing spent with
  | nothingNew => exact ⟨0, rfl⟩
  | advanced next => exact ⟨0, rfl⟩
  | attempt s a =>
    obtain ⟨_, _, bound, hbound⟩ := booleanUnifyWith_ends a.left a.right
    refine ⟨bound, ?_⟩
    unfold Saturation.attempt
    rw [if_pos (hbound ⟨bound, spent⟩ (Nat.le_refl _))]
    dsimp only
    split <;> rfl
  | @orElse f g hf hg ihf ihg =>
    obtain ⟨m, hm⟩ := ihf spent
    cases hp : f ⟨m, spent⟩ with
    | nothingNew left =>
      obtain ⟨n, hn⟩ := ihg left.spent
      have hfirst : f ⟨m + n, spent⟩ = .nothingNew (left.plus n) := by
        have hmore := hf.steady.more ⟨m, spent⟩ n hm
        rwa [hp] at hmore
      have hleft : left.plus n = Budget.plus ⟨n, left.spent⟩ left.remaining := by
        rw [Budget.plus, Budget.plus, Nat.add_comm]
      refine ⟨m + n, ?_⟩
      simp only [hfirst, Progress.orElse]
      rw [hleft, hg.steady.more _ _ hn, isCutOff_plus, hn]
    | advanced next left => exact ⟨m, by simp only [hp]; rfl⟩
    | outOfSteps left =>
      rw [hp] at hm
      cases hm

end Progress

namespace Saturation

/-- Where a saturation does not go on for ever, it ends by itself under every budget from some bound
on. -/
theorem exists_isSaturated_of_acc {s : Saturation} (h : Acc Next s) (spent : Nat) :
    ∃ bound, ∀ remaining ≥ bound, (s.run ⟨remaining, spent⟩).isSaturated = true := by
  induction h generalizing spent with
  | intro s _ ih =>
    obtain ⟨n, hn⟩ := s.ofAttempts_advance.exists_uncut (spent + 1)
    have hspend (k : Nat) :
        Budget.spend? ⟨n + 1 + k, spent⟩ = some (Budget.plus ⟨n, spent + 1⟩ k) :=
      Budget.spend?_eq_some.2 ⟨Nat.add_right_comm n 1 k, rfl⟩
    have hmore (k : Nat) := s.steady_advance.more ⟨n, spent + 1⟩ k hn
    cases ha : s.advance ⟨n, spent + 1⟩ with
    | outOfSteps left =>
      rw [ha] at hn
      cases hn
    | nothingNew left =>
      refine ⟨n + 1, fun remaining hle => ?_⟩
      obtain ⟨k, rfl⟩ := Nat.exists_eq_add_of_le hle
      rw [run_of_spend? (hspend k), hmore, ha]
      rfl
    | advanced next left =>
      obtain ⟨bound, hbound⟩ := ih next ⟨_, _, ha⟩ left.spent
      refine ⟨n + 1 + bound, fun remaining hle => ?_⟩
      obtain ⟨k, rfl⟩ := Nat.exists_eq_add_of_le hle
      rw [Nat.add_assoc, run_of_spend? (hspend (bound + k)), hmore, ha]
      exact hbound (left.remaining + (bound + k)) (by omega)

end Saturation

end Collision

open Collision

/-- The collision search comes to an end. Under every budget from some bound on it is exhaustive;
the saturation does not go on for ever under any budgets of its steps; and each boolean unification,
of any two terms, meets finitely many states, has no infinite branch and is exhaustive under every
budget from some bound on. -/
theorem collisions_terminates (outputs : List Term) (constraints : Constraints) :
    (∃ bound, ∀ maxSteps ≥ bound, (collisions outputs constraints maxSteps).isExhaustive = true) ∧
    (¬ ∃ run : Nat → Saturation, run 0 = .start (rangedOutputs outputs constraints) ∧
      ∀ i, ∃ budget left, (run i).advance budget = .advanced (run (i + 1)) left) ∧
    ∀ s t : CoeffTerm,
      let start : BooleanUnification.State :=
        { goals := [{ term := (CoeffTerm.sum [s, t]).simplify }] }
      {u | Search.Leads BooleanUnification.State.expand start u}.Finite ∧
        (¬ ∃ branch : Nat → BooleanUnification.State, branch 0 = start ∧ ∀ i,
          ∃ states, (branch i).expand = .branches states ∧ branch (i + 1) ∈ states) ∧
        ∃ bound, ∀ budget : Budget, bound ≤ budget.remaining →
          (booleanUnifyWith s t budget).outcome.isExhaustive = true := by
  obtain ⟨S, m, hS, hall⟩ := Saturation.exists_start_all (rangedOutputs outputs constraints)
  have hacc := Saturation.acc_next hS hall
  refine ⟨?_, fun ⟨run, hstart, hrun⟩ => ?_, booleanUnifyWith_ends⟩
  · obtain ⟨bound, hbound⟩ := Saturation.exists_isSaturated_of_acc hacc 0
    refine ⟨bound, fun maxSteps hle => ?_⟩
    have hsaturated : (saturate outputs constraints maxSteps).isSaturated = true :=
      hbound maxSteps hle
    rw [collisions_eq, hsaturated]
    exact Outcome.isExhaustive_ofSolutions _
  · exact (acc_iff_isEmpty_descending_chain.1 hacc).false ⟨run, hstart, hrun⟩

end SymbolicXor
