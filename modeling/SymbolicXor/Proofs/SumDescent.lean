import Mathlib.Data.Finset.Max
import SymbolicXor.Proofs.BooleanSolutions
import SymbolicXor.Proofs.NestingDepth
import SymbolicXor.Proofs.SaturatedSums

/-!
# Descent along closed sums

Sums of different outputs out of a closed family do not add up to zero, if none of the family is
zero and terms and depths are compared reliably. The argument is a descent. Take such sums that add
up to zero under a valuation, with as few summands as possible. A deepest summand that is not zero
has a partner, in its own sum or in another one. Both reach as deep as anything in these sums, so it
was tried to cancel them, and what came of it has fewer summands.
-/

namespace SymbolicXor

open CoeffTerm Assignment

namespace CoeffTerm

variable {γ : Assignment} {ts : List CoeffTerm} {t u : CoeffTerm}

theorem summands_ofSummands (h : ∀ t ∈ ts, t.IsAtom) (hne : ofSummands ts ≠ zero) :
    (ofSummands ts).summands = ts := by
  match ts with
  | [] => exact absurd rfl hne
  | [t] => exact (h t List.mem_cons_self).summands
  | t :: u :: ts => rfl

theorem flatMap_summands (h : ∀ t ∈ ts, t.summands = [t]) : ts.flatMap summands = ts := by
  induction ts with
  | nil => rfl
  | cons t ts ih =>
    obtain ⟨ht, hts⟩ := List.forall_mem_cons.1 h
    rw [List.flatMap_cons, ht, ih hts, List.singleton_append]

/-- Only a product may have the value zero among atoms. -/
theorem exists_mul_of_value_eq_zero {α : Name → Option Bool} (h : Scaled IsRigid t) (ha : t.IsAtom)
    (hz : value α t = .zero) : ∃ l r, t = mul l r := by
  cases h with
  | const hc =>
    rw [value_const] at hz
    exact absurd hz hc
  | var v => simp [Term.zero] at hz
  | app _ => simp [Term.zero] at hz
  | mul _ _ => exact ⟨_, _, rfl⟩
  | _ => exact ha.elim

theorem value_eq_zero_or_atomic {β : Name → Bool} (h : Scaled IsRigid t) (ha : t.IsAtom) :
    value (some ∘ β) t = .zero ∨ (value (some ∘ β) t).Atomic := by
  by_cases hp : Present (some ∘ β) t
  · exact Or.inr (atomic_value h ha hp)
  · left
    cases h with
    | @mul b u _ _ =>
      have hb : (some ∘ β) b = some false := by
        refine congrArg some (Bool.eq_false_iff.2 fun htrue => hp fun c hc => ?_)
        cases hc
        exact congrArg some htrue
      rw [value_mul, hb]
      rfl
    | _ => exact absurd (fun b hb => by cases hb) hp

/-- If two summands are equal under an assignment, and the sum that is left has no two summands
that are printed alike, then it has fewer summands. -/
theorem length_reduce_lt (hs : ∀ t ∈ ts, Scaled IsRigid t ∧ t.IsAtom)
    (htu : List.Sublist [t, u] ts) (hvalue : value γ.get? t = value γ.get? u)
    (hne : γ.reduce (sum ts) ≠ zero)
    (hdistinct : ((γ.reduce (sum ts)).summands.map toTerm).Nodup) :
    (γ.reduce (sum ts)).summands.length < ts.length := by
  have hkind : ∀ r ∈ ts.map γ.reduce, OrZero IsAtom r := by
    rw [List.forall_mem_map]
    exact fun t ht => lasting_isAtom γ t ((hs t ht).1.mono fun _ h => Or.inr h.isAtom) (hs t ht).2
  have hreduce : γ.reduce (sum ts) = ofSummands ((ts.map γ.reduce).foldl toggle []) := by
    have hsingle : ∀ r ∈ ts.map γ.reduce, r.summands = [r] :=
      fun r hr => (hkind r hr).elim (fun h => h ▸ rfl) IsAtom.summands
    rw [reduce_sum, flatMap_summands hsingle]
  have hleft : ∀ r ∈ (ts.map γ.reduce).foldl toggle [], r.IsAtom := by
    intro r hr
    obtain ⟨hmem, hz⟩ := (mem_of_mem_foldl_toggle hr).resolve_left List.not_mem_nil
    exact (hkind r hmem).resolve_left hz
  rw [hreduce] at hne hdistinct ⊢
  rw [summands_ofSummands hleft hne] at hdistinct ⊢
  have hle : ((ts.map γ.reduce).foldl toggle []).length ≤ 0 + (ts.map γ.reduce).length :=
    length_foldl_toggle_le
  rw [Nat.zero_add, List.length_map] at hle
  refine Nat.lt_of_le_of_ne hle fun heq => ?_
  -- Nothing cancelled, so both summands are still there, and they are printed alike.
  have hkept : (ts.map γ.reduce).foldl toggle [] = ts.map γ.reduce :=
    foldl_toggle_eq_append (by rw [heq, List.length_nil, Nat.zero_add, List.length_map])
  rw [hkept, List.map_map] at hdistinct
  have hpair := (htu.map (toTerm ∘ γ.reduce)).nodup hdistinct
  have hprinted (r : CoeffTerm) (hr : r ∈ [t, u]) : (γ.reduce r).toTerm = value γ.get? r :=
    toTerm_reduce ((hs r (htu.subset hr)).1.mono fun _ h => Or.inr h.isAtom)
  have hsame : (γ.reduce t).toTerm = (γ.reduce u).toTerm := by
    rw [hprinted t (by simp), hprinted u (by simp), hvalue]
  simp [hsame] at hpair

end CoeffTerm

theorem Assignment.exists_foldlM_compose {γ : Assignment} {as : List Assignment}
    {α : Name → Option Bool} (hγ : γ.Within α) (has : ∀ δ ∈ as, δ.Within α) :
    ∃ ε, as.foldlM compose γ = some ε ∧ ε.Within α := by
  induction as generalizing γ with
  | nil => exact ⟨γ, rfl, hγ⟩
  | cons δ as ih =>
    obtain ⟨hδ, has⟩ := List.forall_mem_cons.1 has
    obtain ⟨η, hη⟩ := exists_compose hγ hδ
    obtain ⟨ε, hε, hα⟩ := ih ((within_compose hη).2 ⟨hγ, hδ⟩) has
    exact ⟨ε, Option.bind_eq_some_iff.2 ⟨η, hη, hε⟩, hα⟩

namespace Collision

/-- Closed sums of outputs of which none is zero, where comparing terms and depths is reliable. -/
structure Barren (terms : List CoeffTerm) (sums : List AttackerTerm) : Prop
    extends Closed terms sums where
  /-- The sums are made of outputs. -/
  represents : ∀ a ∈ sums, a.Represents IsRigid terms
  /-- No sum is zero. -/
  nonzero : ∀ a ∈ sums, a.term ≠ .zero
  /-- Different summands are printed differently. -/
  distinct : ∀ a ∈ sums, (a.term.summands.map toTerm).Nodup
  /-- No summand that is not zero is less deep than its lowest depth. -/
  depths : ∀ a ∈ sums, ∀ t ∈ a.term.summands, ∀ β : Name → Bool,
    value (some ∘ β) t ≠ .zero → t.depthRange.low ≤ (value (some ∘ β) t).nesting

/-- Sums of different outputs that add up to zero under a total valuation. -/
structure Cancels (sums : List AttackerTerm) (β : Name → Bool) (L : List AttackerTerm) : Prop where
  /-- There is a sum. -/
  nonempty : L ≠ []
  /-- They are among the given ones. -/
  mem : ∀ a ∈ L, a ∈ sums
  /-- No output is in two of them. -/
  disjoint : L.Pairwise fun a b => a.outputs.Disjoint b.outputs
  /-- The valuation gives the coefficients the values that they must have. -/
  within : ∀ a ∈ L, a.assignment.Within (some ∘ β)
  /-- The sums add up to zero. -/
  zero : (L.map fun a => (value (some ∘ β) a.term).vec).sum = 0

variable {terms : List CoeffTerm} {sums L M : List AttackerTerm} {β : Name → Bool}
  {a b : AttackerTerm} {t u : CoeffTerm}

theorem Cancels.perm (h : Cancels sums β L) (hLM : L.Perm M) : Cancels sums β M where
  nonempty := fun hM => h.nonempty (List.perm_nil.1 (hM ▸ hLM))
  mem := fun a ha => h.mem a (hLM.mem_iff.2 ha)
  disjoint := (hLM.pairwise_iff fun hab => hab.symm).1 h.disjoint
  within := fun a ha => h.within a (hLM.mem_iff.2 ha)
  zero := ((hLM.map _).sum_eq).symm.trans h.zero

/-- Some of the sums may be replaced by one sum of their outputs with their value. -/
theorem Cancels.replaced {old rest : List AttackerTerm} (h : Cancels sums β (old ++ rest))
    {r : AttackerTerm} (hr : r ∈ sums) (houtputs : ∀ i ∈ r.outputs, ∃ a ∈ old, i ∈ a.outputs)
    (hwithin : r.assignment.Within (some ∘ β))
    (hvalue : (value (some ∘ β) r.term).vec =
      (old.map fun a => (value (some ∘ β) a.term).vec).sum) : Cancels sums β (r :: rest) := by
  obtain ⟨_, hrest, hdisjoint⟩ := List.pairwise_append.1 h.disjoint
  refine ⟨List.cons_ne_nil _ _, ?_, ?_, ?_, ?_⟩
  · exact List.forall_mem_cons.2 ⟨hr, (List.forall_mem_append.1 h.mem).2⟩
  · refine List.pairwise_cons.2 ⟨fun c hc i hi hic => ?_, hrest⟩
    obtain ⟨a, ha, hia⟩ := houtputs i hi
    exact hdisjoint a ha c hc hia hic
  · exact List.forall_mem_cons.2 ⟨hwithin, (List.forall_mem_append.1 h.within).2⟩
  · rw [List.map_cons, List.sum_cons, hvalue, ← List.sum_append, ← List.map_append]
    exact h.zero

namespace Barren

variable (hb : Barren terms sums)

include hb

theorem summands_spec (ha : a ∈ sums) :
    ∀ t ∈ a.term.summands, Scaled IsRigid t ∧ t.IsAtom :=
  fun t ht => ⟨(hb.represents a ha).scaled.summands t ht,
    (hb.represents a ha).flat.atoms.resolve_left (hb.nonzero a ha) t ht⟩

/-- An attempt at two terms of one value has a result among the sums with fewer summands than the
sum it was made of. -/
theorem exists_result {att : Attempt} (hcovered : att.Covered sums) {ts : List CoeffTerm}
    (htotal : att.total = .sum ts) (hts : ∀ t ∈ ts, Scaled IsRigid t ∧ t.IsAtom)
    (hpair : List.Sublist [att.left, att.right] ts)
    (hassigned : ∀ δ ∈ att.assignments, δ.Within (some ∘ β))
    (hvalue : value (some ∘ β) att.left = value (some ∘ β) att.right) :
    ∃ r ∈ sums, r.outputs = att.outputs ∧ r.assignment.Within (some ∘ β) ∧
      value (some ∘ β) r.term = value (some ∘ β) att.total ∧
      r.term.summands.length < ts.length := by
  obtain ⟨budget, hex, hknown⟩ := hcovered
  have hl := (hts att.left (hpair.subset List.mem_cons_self)).1
  have hr := (hts att.right (hpair.subset (List.mem_cons_of_mem _ List.mem_cons_self))).1
  obtain ⟨γ, hγ, hwithin⟩ := booleanUnifyWith_complete hl hr hex hvalue
  obtain ⟨ε, hε, hα⟩ := Assignment.exists_foldlM_compose hwithin hassigned
  have hmem := hknown γ hγ _ (Attempt.result?_eq_some.2 ⟨ε, hε, rfl⟩)
  have hscaled : Scaled IsRigid att.total := htotal ▸ .sum fun t ht => (hts t ht).1
  refine ⟨_, hmem, rfl, hα, value_reduce lasting_isRigid hwithin hscaled.orZero, ?_⟩
  have hsound := booleanUnifyWith_sound hl hr hγ (within_get? γ)
  have hne := hb.nonzero _ hmem
  have hdistinct := hb.distinct _ hmem
  dsimp only at hne hdistinct ⊢
  rw [htotal] at hne hdistinct ⊢
  exact length_reduce_lt hts hpair hsound hne hdistinct

end Barren

/-- The summands of some sums, each with the sum that it is in. -/
def places (L : List AttackerTerm) : List (AttackerTerm × CoeffTerm) :=
  L.flatMap fun a => a.term.summands.map (a, ·)

theorem mem_places {p : AttackerTerm × CoeffTerm} :
    p ∈ places L ↔ p.1 ∈ L ∧ p.2 ∈ p.1.term.summands := by
  rw [places, List.mem_flatMap]
  constructor
  · rintro ⟨a, ha, hp⟩
    obtain ⟨t, ht, rfl⟩ := List.mem_map.1 hp
    exact ⟨ha, ht⟩
  · rintro ⟨ha, ht⟩
    exact ⟨p.1, ha, List.mem_map.2 ⟨p.2, ht, rfl⟩⟩

theorem sum_places {α : Name → Option Bool} (L : List AttackerTerm) :
    ((places L).map fun p => (value α p.2).vec).sum =
      (L.map fun a => (value α a.term).vec).sum := by
  induction L with
  | nil => rfl
  | cons a L ih =>
    rw [places, List.flatMap_cons, List.map_append, List.sum_append, ← places, ih, List.map_cons,
      List.sum_cons, List.map_map, (reads_value α).vec_eq_sum a.term]
    rfl

namespace Barren

variable (hb : Barren terms sums)

include hb

theorem nodup_places (hL : Cancels sums β L) : (places L).Nodup := by
  refine List.nodup_flatMap.2 ⟨fun a ha => ?_, hL.disjoint.imp_of_mem fun {a b} ha _ hab => ?_⟩
  · exact (hb.represents a (hL.mem a ha)).flat.nodup.map fun _ _ h => (Prod.mk.inj h).2
  · intro p hpa hpb
    obtain ⟨_, _, rfl⟩ := List.mem_map.1 hpa
    obtain ⟨_, _, heq⟩ := List.mem_map.1 hpb
    obtain ⟨rfl, _⟩ := Prod.mk.inj heq
    obtain ⟨i, hi⟩ := List.exists_mem_of_ne_nil _ (hb.represents _ (hL.mem _ ha)).nonempty
    exact hab hi hi

/-- If nothing in a sum has a value, then two of its summands vanish together. -/
theorem exists_two_products (ha : a ∈ sums)
    (hz : ∀ t ∈ a.term.summands, value (some ∘ β) t = .zero) :
    ∃ t ∈ a.term.summands, ∃ u ∈ a.term.summands, t ≠ u := by
  obtain ⟨hscaled, hflat⟩ := And.intro (hb.represents a ha).scaled (hb.represents a ha).flat
  cases hterm : a.term with
  | sum ts =>
    have hlen := hflat.proper ts hterm
    rw [hterm] at hflat
    match ts with
    | [] => exact absurd hlen (by decide)
    | [t] => exact absurd hlen (by simp)
    | t :: u :: ts =>
      have hnodup := List.nodup_cons.1 hflat.nodup
      exact ⟨t, List.mem_cons_self, u, List.mem_cons_of_mem _ List.mem_cons_self,
        fun htu => hnodup.1 (htu ▸ List.mem_cons_self)⟩
  | _ =>
    have hself : a.term ∈ a.term.summands := by
      rw [hterm]
      exact List.mem_cons_self
    obtain ⟨l, r, hmul⟩ := exists_mul_of_value_eq_zero (hb.summands_spec ha _ hself).1
      (hb.summands_spec ha _ hself).2 (hz _ hself)
    exact absurd hmul (hb.notProduct a ha l r)

/-- Two summands of one value reach as deep as all summands of the sums. -/
theorem exists_deepest_pair (hL : Cancels sums β L) : ∃ d, ∃ p ∈ places L, ∃ q ∈ places L,
    p ≠ q ∧ value (some ∘ β) p.2 = value (some ∘ β) q.2 ∧ d ≤ p.2.depthRange.high ∧
      d ≤ q.2.depthRange.high ∧ ∀ w ∈ places L, w.2.depthRange.low ≤ d := by
  have hspec (w : AttackerTerm × CoeffTerm) (hw : w ∈ places L) :
      Scaled IsRigid w.2 ∧ w.2.IsAtom :=
    hb.summands_spec (hL.mem _ (mem_places.1 hw).1) _ (mem_places.1 hw).2
  have hlow (w : AttackerTerm × CoeffTerm) (hw : w ∈ places L)
      (hz : value (some ∘ β) w.2 = .zero) : w.2.depthRange.low = 0 := by
    obtain ⟨l, r, hmul⟩ := exists_mul_of_value_eq_zero (hspec w hw).1 (hspec w hw).2 hz
    rw [hmul, depthRange]
  by_cases hall : ∀ w ∈ places L, value (some ∘ β) w.2 = .zero
  · obtain ⟨a, ha⟩ := List.exists_mem_of_ne_nil L hL.nonempty
    obtain ⟨t, ht, u, hu, htu⟩ := hb.exists_two_products (hL.mem a ha)
      fun t ht => hall (a, t) (mem_places.2 ⟨ha, ht⟩)
    have hp : (a, t) ∈ places L := mem_places.2 ⟨ha, ht⟩
    have hq : (a, u) ∈ places L := mem_places.2 ⟨ha, hu⟩
    refine ⟨0, (a, t), hp, (a, u), hq, fun h => htu (Prod.mk.inj h).2, ?_, Nat.zero_le _,
      Nat.zero_le _, fun w hw => (hlow w hw (hall w hw)).le⟩
    exact (hall _ hp).trans (hall _ hq).symm
  · obtain ⟨w, hw, hne⟩ : ∃ w ∈ places L, value (some ∘ β) w.2 ≠ .zero := by
      simpa only [not_forall, exists_prop] using hall
    obtain ⟨p, hp, hmax⟩ := Finset.exists_max_image
      ((places L).filter fun w => value (some ∘ β) w.2 ≠ .zero).toFinset
      (fun w => (value (some ∘ β) w.2).nesting)
      ⟨w, List.mem_toFinset.2 (List.mem_filter.2 ⟨hw, decide_eq_true hne⟩)⟩
    obtain ⟨hp, hpne⟩ := List.mem_filter.1 (List.mem_toFinset.1 hp)
    have hatomic := (value_eq_zero_or_atomic (hspec p hp).1 (hspec p hp).2).resolve_left
      (of_decide_eq_true hpne)
    obtain ⟨q, hq, hqp, hvalue⟩ := Term.exists_partner (hb.nodup_places hL)
      (fun w hw => value_eq_zero_or_atomic (hspec w hw).1 (hspec w hw).2)
      ((sum_places L).trans hL.zero) hp hatomic
    refine ⟨(value (some ∘ β) p.2).nesting, p, hp, q, hq, hqp.symm, hvalue.symm,
      nesting_value_le (hspec p hp).1, hvalue ▸ nesting_value_le (hspec q hq).1, fun w hw => ?_⟩
    by_cases hz : value (some ∘ β) w.2 = .zero
    · exact (hlow w hw hz).trans_le (Nat.zero_le _)
    · obtain ⟨hwL, hwt⟩ := mem_places.1 hw
      exact (hb.depths w.1 (hL.mem _ hwL) w.2 hwt β hz).trans
        (hmax w (List.mem_toFinset.2 (List.mem_filter.2 ⟨hw, decide_eq_true hz⟩)))

omit hb in
/-- Summands that reach as deep as all summands of a sum are among its deepest. -/
theorem mem_deepest {ts : List CoeffTerm} {d : Nat} (ht : t ∈ ts) (hd : d ≤ t.depthRange.high)
    (hall : ∀ w ∈ ts, w.depthRange.low ≤ d) : t ∈ deepest ts := by
  rw [deepest_eq_filter, List.mem_filter, isMaximal, List.all_eq_true]
  exact ⟨ht, fun w hw => decide_eq_true ((hall w hw).trans hd)⟩

/-- Two summands of one value are tried against each other, in one sum or in two. -/
theorem exists_pair (hL : Cancels sums β L) :
    (∃ a ∈ L, ∃ t u, a.CancelPair t u ∧ value (some ∘ β) t = value (some ∘ β) u) ∨
    ∃ a ∈ L, ∃ b ∈ L, a ≠ b ∧ List.Sublist [a, b] sums ∧ ∃ t u, a.CombinePair b t u ∧
      value (some ∘ β) t = value (some ∘ β) u := by
  obtain ⟨d, ⟨a, t⟩, hp, ⟨b, u⟩, hq, hpq, hvalue, hdt, hdu, hlow⟩ := hb.exists_deepest_pair hL
  obtain ⟨ha, ht⟩ := mem_places.1 hp
  obtain ⟨hbL, hu⟩ := mem_places.1 hq
  have hoverlap : t.overlaps u = true ∧ u.overlaps t = true := by
    have htu := (hlow _ hp).trans hdu
    have hut := (hlow _ hq).trans hdt
    simp only [overlaps, Bool.and_eq_true, decide_eq_true_iff]
    exact ⟨⟨hut, htu⟩, htu, hut⟩
  have hdeep {c : AttackerTerm} (hc : c ∈ L) {w : CoeffTerm} (hw : w ∈ c.term.summands)
      (hdw : d ≤ w.depthRange.high) : w ∈ deepest c.term.summands :=
    mem_deepest hw hdw fun x hx => hlow (c, x) (mem_places.2 ⟨hc, hx⟩)
  by_cases hab : a = b
  · subst hab
    have htu : t ≠ u := fun h => hpq (congrArg (Prod.mk a) h)
    obtain ⟨ts, hts⟩ := exists_eq_sum ht hu htu
    have hdt := hdeep ha ht hdt
    have hdu := hdeep ha hu hdu
    rw [hts] at hdt hdu
    rcases Selection.pair_sublist_or hdt hdu htu with hsub | hsub
    · exact Or.inl ⟨a, ha, t, u, ⟨ts, hts, hsub, hoverlap.1⟩, hvalue⟩
    · exact Or.inl ⟨a, ha, u, t, ⟨ts, hts, hsub, hoverlap.2⟩, hvalue.symm⟩
  · have : Std.Symm fun a b : AttackerTerm => a.outputs.Disjoint b.outputs :=
      ⟨fun _ _ h => h.symm⟩
    have hdisjoint := hL.disjoint.forall ha hbL hab
    rcases Selection.pair_sublist_or (hL.mem a ha) (hL.mem b hbL) hab with hsub | hsub
    · exact Or.inr ⟨a, ha, b, hbL, hab, hsub, t, u,
        ⟨hdisjoint, hdeep ha ht hdt, hdeep hbL hu hdu, hoverlap.1⟩, hvalue⟩
    · exact Or.inr ⟨b, hbL, a, ha, Ne.symm hab, hsub, u, t,
        ⟨hdisjoint.symm, hdeep hbL hu hdu, hdeep ha ht hdt, hoverlap.2⟩, hvalue.symm⟩

/-- Cancelling two summands leaves fewer. -/
theorem exists_cancelled {rest : List AttackerTerm} (hL : Cancels sums β ([a] ++ rest))
    (hpair : a.CancelPair t u) (hvalue : value (some ∘ β) t = value (some ∘ β) u) :
    ∃ r, Cancels sums β (r :: rest) ∧
      r.term.summands.length < a.term.summands.length := by
  have ha := hL.mem a List.mem_cons_self
  have hwithin := hL.within a List.mem_cons_self
  have hcovered := hb.cancelled a ha t u hpair
  obtain ⟨ts, hts, hsub, _⟩ := hpair
  have hspec := hb.summands_spec ha
  rw [hts] at hspec ⊢
  obtain ⟨r, hr, hout, hrw, hrvalue, hlen⟩ := hb.exists_result hcovered hts hspec
    (hsub.trans List.filter_sublist) (List.forall_mem_singleton.2 hwithin) hvalue
  refine ⟨r, hL.replaced hr (fun i hi => ⟨a, List.mem_cons_self, ?_⟩) hrw ?_, hlen⟩
  · rw [hout] at hi
    exact hi
  · rw [hrvalue, List.map_singleton, List.sum_singleton]
    rfl

/-- Adding up two sums so that summands cancel leaves fewer. -/
theorem exists_combined {rest : List AttackerTerm} (hL : Cancels sums β ([a, b] ++ rest))
    (hsub : List.Sublist [a, b] sums) (hpair : a.CombinePair b t u)
    (hvalue : value (some ∘ β) t = value (some ∘ β) u) :
    ∃ r, Cancels sums β (r :: rest) ∧
      r.term.summands.length < a.term.summands.length + b.term.summands.length := by
  have hmem : a ∈ sums ∧ b ∈ sums := by simpa using hsub.subset
  have hwithin := (List.forall_mem_append.1 hL.within).1
  have hcovered := hb.combined a b hsub t u hpair
  obtain ⟨_, ht, hu, _⟩ := hpair
  have hspec : ∀ w ∈ a.term.summands ++ b.term.summands, Scaled IsRigid w ∧ w.IsAtom :=
    List.forall_mem_append.2 ⟨hb.summands_spec hmem.1, hb.summands_spec hmem.2⟩
  have htu : List.Sublist [t, u] (a.term.summands ++ b.term.summands) :=
    (List.singleton_sublist.2 (List.mem_of_mem_filter ht)).append
      (List.singleton_sublist.2 (List.mem_of_mem_filter hu))
  have hassigned : ∀ δ ∈ (a.combining b t u).assignments, δ.Within (some ∘ β) := by
    simpa [AttackerTerm.combining] using hwithin
  obtain ⟨r, hr, hout, hrw, hrvalue, hlen⟩ :=
    hb.exists_result hcovered rfl hspec htu hassigned hvalue
  rw [List.length_append] at hlen
  refine ⟨r, hL.replaced hr (fun i hi => ?_) hrw ?_, hlen⟩
  · rw [hout] at hi
    rcases List.mem_append.1 (OrderedList.mem_ofList.1 hi) with hi | hi
    · exact ⟨a, List.mem_cons_self, hi⟩
    · exact ⟨b, List.mem_cons_of_mem _ List.mem_cons_self, hi⟩
  · rw [hrvalue, AttackerTerm.combining, (reads_value (some ∘ β)).vec_append]
    simp

/-- No sums of different outputs add up to zero. -/
theorem not_cancels (L : List AttackerTerm) : ¬ Cancels sums β L := by
  induction hn : (L.map fun a => a.term.summands.length).sum using Nat.strong_induction_on
    generalizing L with
  | _ n ih =>
    intro hL
    have hsize {M : List AttackerTerm} (hLM : L.Perm M) :
        (M.map fun a => a.term.summands.length).sum = n := ((hLM.map _).sum_eq).symm.trans hn
    rcases hb.exists_pair hL with ⟨a, ha, t, u, hpair, hvalue⟩ |
      ⟨a, ha, b, hbL, hab, hsub, t, u, hpair, hvalue⟩
    · have hperm := List.perm_cons_erase ha
      obtain ⟨r, hr, hlen⟩ := hb.exists_cancelled (hL.perm hperm) hpair hvalue
      have hsize := hsize hperm
      refine ih _ ?_ _ rfl hr
      rw [List.map_cons, List.sum_cons] at hsize ⊢
      omega
    · have hbErase : b ∈ L.erase a := (List.mem_erase_of_ne (Ne.symm hab)).2 hbL
      have hperm := (List.perm_cons_erase ha).trans ((List.perm_cons_erase hbErase).cons a)
      obtain ⟨r, hr, hlen⟩ := hb.exists_combined (hL.perm hperm) hsub hpair hvalue
      have hsize := hsize hperm
      refine ih _ ?_ _ rfl hr
      rw [List.map_cons, List.sum_cons, List.map_cons, List.sum_cons] at hsize
      rw [List.map_cons, List.sum_cons]
      omega

end Barren

end Collision

end SymbolicXor
