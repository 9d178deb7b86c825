import SymbolicXor.Collision.Range
import SymbolicXor.Proofs.AddedBindings
import SymbolicXor.Proofs.AssignedTerms

/-!
# Values of ranges

Under values for the coefficients, the ranges of the protocol variables make a substitution. A term
whose variables are replaced by their ranges has the value that the substitution gives to the term,
and the substitution that is read off an assignment is the one that the ranges make under it.
-/

namespace SymbolicXor

open CoeffTerm

namespace Collision

variable {α : Name → Option Bool} {p q : CoeffTerm → Prop} {ranges : FinMap Variable CoeffTerm}

/-- Each variable stands for the value of its range. -/
def valuation (ranges : FinMap Variable CoeffTerm) (α : Name → Option Bool) : Substitution :=
  ⟨ranges.map (value α)⟩

theorem canonical_valuation : (valuation ranges α).Into Term.Canonical := by
  intro t ht
  obtain ⟨v, hv⟩ := Substitution.mem_range.1 ht
  obtain ⟨r, _, rfl⟩ := Option.map_eq_some_iff.1 ((FinMap.get?_map _ _ _).symm.trans hv)
  exact canonical_value r

theorem get?_valuation (v : Variable) :
    (valuation ranges α).get? v = (ranges.get? v).map (value α) :=
  FinMap.get?_map _ _ _

theorem lookup_valuation (v : Variable) :
    (valuation ranges α).lookup v = value α ((ranges.get? v).getD (var v)) := by
  rw [Substitution.lookup, get?_valuation]
  cases ranges.get? v <;> simp

/-- Replacing variables by their ranges is applying the substitution that these make. -/
theorem value_substitute (t : Term) :
    value α ((ofTerm t).substitute ranges) = (valuation ranges α).apply t := by
  induction t using Term.induction with
  | var v =>
    rw [Substitution.apply_var, lookup_valuation]
    rfl
  | const c =>
    rw [ofTerm, Substitution.apply_const]
    split
    · rename_i hz
      rw [hz]
      rfl
    · exact value_const c
  | app f ts ih =>
    rw [ofTerm, substitute, mapLeaves, mapLeavesAll_eq_map, ofTerms_eq_map, List.map_map, value_app,
      List.map_map, Substitution.apply_app]
    exact congrArg _ (List.map_congr_left ih)
  | sum ts ih =>
    rw [ofTerm, substitute, mapLeaves, mapLeavesAll_eq_map, ofTerms_eq_map, List.map_map, value_sum,
      List.map_map, Substitution.apply_sum]
    exact congrArg _ (List.map_congr_left ih)

/-- All ranges are lists of atoms to add up, with coefficients in front of terms of a kind. -/
def RangesInto (p : CoeffTerm → Prop) (ranges : FinMap Variable CoeffTerm) : Prop :=
  ∀ v r, ranges.get? v = some r → Scaled p r ∧ r.Flat

theorem RangesInto.getD (h : RangesInto p ranges) (v : Variable) :
    Scaled p ((ranges.get? v).getD (var v)) ∧ ((ranges.get? v).getD (var v)).Flat := by
  cases hv : ranges.get? v with
  | none => exact ⟨.var v, IsAtom.flat trivial⟩
  | some r => exact h v r hv

theorem scaled_substitute (h : RangesInto p ranges) (t : Term) :
    Scaled p ((ofTerm t).substitute ranges) := by
  induction t using Term.induction with
  | var v => exact (h.getD v).1
  | const c =>
    rw [ofTerm]
    split
    · exact .zero
    · rename_i hc
      exact .const hc
  | app f ts ih =>
    rw [ofTerm, substitute, mapLeaves, mapLeavesAll_eq_map, ofTerms_eq_map, List.map_map]
    refine .app ?_
    rw [List.forall_mem_map]
    exact ih
  | sum ts ih =>
    rw [ofTerm, substitute, mapLeaves, mapLeavesAll_eq_map, ofTerms_eq_map, List.map_map]
    refine .sum ?_
    rw [List.forall_mem_map]
    exact ih

/-- A summand of a sum that is no variable is rigid. -/
theorem isRigid_substitute {t : Term} (ht : t.Atomic) (hv : t.isVar = false) :
    ((ofTerm t).substitute ranges).IsRigid := by
  obtain ⟨hz, hs⟩ := ht
  cases t with
  | var v => cases hv
  | const c =>
    rw [ofTerm, if_neg hz]
    trivial
  | app f ts => trivial
  | sum ts => cases hs

theorem orZero_of_mem_summands {t : Term} (ht : t.Canonical)
    (hv : ∀ a ∈ t.summands, a.isVar = false) {s : CoeffTerm}
    (hs : s ∈ ((ofTerm t).substitute ranges).summands) : OrZero IsRigid s := by
  rcases Term.eq_zero_or_atomic_or_sum t with rfl | ha | ⟨ts, rfl⟩
  · exact Or.inl (List.mem_singleton.1 hs)
  · have hr : ((ofTerm t).substitute ranges).IsRigid :=
      isRigid_substitute ha (hv t (by rw [Term.summands_of_atomic ha]; exact List.mem_cons_self))
    rw [hr.isAtom.summands, List.mem_singleton] at hs
    exact Or.inr (hs ▸ hr)
  · rw [ofTerm, substitute, mapLeaves, mapLeavesAll_eq_map, ofTerms_eq_map, List.map_map] at hs
    obtain ⟨a, ha, rfl⟩ := List.mem_map.1 hs
    exact Or.inr (isRigid_substitute (Term.atomic_of_mem_summands ht ha) (hv a ha))

/-- A sum without its variables is canonical, and none of its summands is a variable. -/
theorem dropTopVars_spec {t : Term} (ht : t.Canonical) (hv : t.isVar = false) :
    (dropTopVars t).Canonical ∧ ∀ a ∈ (dropTopVars t).summands, a.isVar = false := by
  cases t with
  | var v => cases hv
  | sum ts =>
    have hc : ∀ a ∈ ts.filter fun t => !t.isVar, a.Canonical := fun a ha =>
      ((Term.canonical_sum ts).1 ht).2 a (List.mem_filter.1 ha).1
    refine ⟨Term.canonical_xor hc, fun a ha => ?_⟩
    obtain ⟨u, hu, hau⟩ := Term.exists_of_mem_summands_xor hc ha
    obtain ⟨hmem, hnot⟩ := List.mem_filter.1 hu
    rw [Term.summands_of_atomic (Term.atomic_of_mem_summands ht hmem), List.mem_singleton] at hau
    rw [hau]
    simpa using hnot
  | const c =>
    refine ⟨ht, fun a ha => ?_⟩
    obtain ⟨_, rfl⟩ : Term.const c ≠ .zero ∧ a = .const c := by
      simpa [dropTopVars, Term.summands] using ha
    rfl
  | app f ts =>
    refine ⟨ht, fun a ha => ?_⟩
    obtain rfl : a = .app f ts := by simpa [dropTopVars, Term.summands, Term.zero] using ha
    rfl

/-- The kind takes in every rigid atom, and any atom if the term is a variable. -/
def Admits (p : CoeffTerm → Prop) (t : Term) : Prop :=
  t.Canonical ∧ (∀ s, IsRigid s → p s) ∧ (t.isVar = true → ∀ s, IsAtom s → p s)

theorem orZero_known {t : Term} (ht : Admits p t) (hr : RangesInto q ranges) {s : CoeffTerm}
    (hs : s ∈ ((ofTerm (dropTopVars t)).substitute ranges).summands) : OrZero p s := by
  obtain ⟨hc, hrigid, hatom⟩ := ht
  cases hv : t.isVar with
  | false =>
    obtain ⟨hc, hv⟩ := dropTopVars_spec hc hv
    exact (orZero_of_mem_summands hc hv hs).imp_right (hrigid s)
  | true =>
    cases t with
    | var v =>
      rcases (hr.getD v).2.atoms with hz | ha
      · change s ∈ ((ranges.get? v).getD (var v)).summands at hs
        rw [hz] at hs
        exact Or.inl (List.mem_singleton.1 hs)
      · exact Or.inr (hatom hv s (ha s hs))
    | _ => cases hv

/-- The summands of a range are products of coefficients with known terms. -/
theorem exists_of_mem_products {fresh : FreshNames} {known : List Term} {u : CoeffTerm}
    (h : u ∈ (products ranges fresh known).1) : ∃ b, ∃ t ∈ known,
      ∃ s ∈ ((ofTerm (dropTopVars t)).substitute ranges).summands, u = mul (coeff b) s := by
  induction known generalizing fresh with
  | nil => cases h
  | cons t ts ih =>
    rcases List.mem_append.1 h with h | h
    · obtain ⟨s, hs, rfl⟩ := List.mem_map.1 h
      exact ⟨_, t, List.mem_cons_self, s, hs, rfl⟩
    · obtain ⟨b, t', ht', hs⟩ := ih h
      exact ⟨b, t', List.mem_cons_of_mem _ ht', hs⟩

theorem rangesInto_empty : RangesInto p ∅ := by
  intro v r h
  cases h

theorem scaled_products (hr : RangesInto p ranges) {known : List Term}
    (hk : ∀ t ∈ known, Admits p t) (fresh : FreshNames) :
    Scaled (OrZero p) (CoeffTerm.sum (products ranges fresh known).1) := by
  refine .sum fun u hu => ?_
  obtain ⟨b, t, ht, s, hs, rfl⟩ := exists_of_mem_products hu
  exact .mul (orZero_known (hk t ht) hr hs) ((scaled_substitute hr _).summands s hs).orZero

/-- A range is a simplified sum of products with known terms. -/
theorem rangesInto_insert (hp : Lasting p) (hr : RangesInto p ranges) {known : List Term}
    (hk : ∀ t ∈ known, Admits p t) (v : Variable) (fresh : FreshNames) :
    RangesInto p (ranges.insert v (CoeffTerm.sum (products ranges fresh known).1).simplify) := by
  intro w r hw
  rw [FinMap.get?_insert] at hw
  split at hw
  · cases hw
    rw [← Assignment.reduce_empty]
    exact scaled_reduce hp (scaled_products hr hk fresh)
  · exact hr w r hw

theorem rangesInto_rangesFrom (hp : Lasting p) {entries : List (Variable × List Term)}
    (hk : ∀ e ∈ entries, ∀ t ∈ e.2, Admits p t) (hr : RangesInto p ranges) (fresh : FreshNames) :
    RangesInto p (rangesFrom ranges fresh entries) := by
  induction entries generalizing ranges fresh with
  | nil => exact hr
  | cons e rest ih =>
    obtain ⟨hk, hrest⟩ := List.forall_mem_cons.1 hk
    exact ih hrest (rangesInto_insert hp hr hk e.1 fresh) _

/-- The ranges have coefficients only in front of terms of a kind that admits the known terms. -/
theorem rangesInto_ranges (hp : Lasting p) (outputs : List Term) {constraints : Constraints}
    (hk : ∀ v known, constraints.get? v = some known → ∀ t ∈ known, Admits p t) :
    RangesInto p (Collision.ranges outputs constraints) :=
  rangesInto_rangesFrom hp (fun e he => hk e.1 e.2 (FinMap.get?_eq_some_iff.2 he))
    rangesInto_empty _

/-- A range belongs to a variable of the constraints. -/
theorem exists_of_get?_rangesFrom {entries : List (Variable × List Term)} {fresh : FreshNames}
    {v : Variable} {r : CoeffTerm} (h : (rangesFrom ranges fresh entries).get? v = some r) :
    (∃ r, ranges.get? v = some r) ∨ ∃ known, (v, known) ∈ entries := by
  induction entries generalizing ranges fresh with
  | nil => exact Or.inl ⟨r, h⟩
  | cons e rest ih =>
    rcases ih h with ⟨r', hr'⟩ | ⟨known, hknown⟩
    · rw [FinMap.get?_insert] at hr'
      split at hr'
      · rename_i hv
        exact Or.inr ⟨e.2, hv ▸ List.mem_cons_self⟩
      · exact Or.inl ⟨r', hr'⟩
    · exact Or.inr ⟨known, List.mem_cons_of_mem _ hknown⟩

theorem exists_of_get?_ranges {outputs : List Term} {constraints : Constraints} {v : Variable}
    {r : CoeffTerm} (h : (Collision.ranges outputs constraints).get? v = some r) :
    ∃ known, constraints.get? v = some known := by
  rcases exists_of_get?_rangesFrom h with ⟨_, hr⟩ | ⟨known, hknown⟩
  · cases hr
  · exact ⟨known, FinMap.get?_eq_some_iff.2 hknown⟩

/-- The bindings that an assignment makes of the ranges. -/
def bindings (ranges : FinMap Variable CoeffTerm) (γ : Assignment) : List (Variable × Term) :=
  ranges.entries.map fun e => (e.1, (γ.reduce e.2).toTerm)

theorem nodup_bindings (ranges : FinMap Variable CoeffTerm) (γ : Assignment) :
    ((bindings ranges γ).map Prod.fst).Nodup := by
  rw [bindings, List.map_map]
  exact ranges.nodup_keys

theorem instantiate_eq_some {γ : Assignment} {σ : Substitution} : instantiate ranges γ = some σ ↔
    (bindings ranges γ).foldlM (fun σ b => σ.add b.1 b.2) (∅ : Substitution) = .ok σ := by
  change (Substitution.ofBindings (bindings ranges γ)).toOption = some σ ↔
    Substitution.ofBindings (bindings ranges γ) = .ok σ
  cases Substitution.ofBindings (bindings ranges γ) <;> simp [Except.toOption]

/-- The substitution that an assignment makes of the ranges is the one of their values. -/
theorem instantiate_eq_valuation (hr : RangesInto IsAtom ranges) {γ : Assignment}
    {σ : Substitution} (h : instantiate ranges γ = some σ) : σ = valuation ranges γ.get? := by
  refine congrArg Substitution.mk (FinMap.ext_get? fun v => ?_)
  change σ.get? v = (valuation ranges γ.get?).get? v
  obtain ⟨hbound, hfree⟩ :=
    Substitution.get?_foldlM_add (nodup_bindings ranges γ) (instantiate_eq_some.1 h) v
  rw [get?_valuation]
  cases hv : ranges.get? v with
  | some r =>
    have hmem : (v, (γ.reduce r).toTerm) ∈ bindings ranges γ :=
      List.mem_map.2 ⟨(v, r), FinMap.get?_eq_some_iff.1 hv, rfl⟩
    rw [hbound _ hmem, toTerm_reduce (hr v r hv).1.orZero, Option.map_some]
  | none =>
    refine hfree fun t ht => ?_
    obtain ⟨e, he, hev⟩ := List.mem_map.1 ht
    obtain ⟨rfl, _⟩ := Prod.mk.inj hev
    rw [FinMap.get?_eq_some_iff.2 he] at hv
    cases hv

theorem lookup_instantiate (hr : RangesInto IsAtom ranges) {γ : Assignment} {σ : Substitution}
    (h : instantiate ranges γ = some σ) (v : Variable) :
    σ.lookup v = (valuation ranges γ.get?).lookup v := by
  rw [instantiate_eq_valuation hr h]

/-- Without sorts, every assignment makes a substitution of the ranges. -/
theorem exists_instantiate (hsort : ∀ v r, ranges.get? v = some r → v.sort = none)
    (γ : Assignment) : ∃ σ, instantiate ranges γ = some σ := by
  have hacc : ∀ e ∈ bindings ranges γ, e.1.accepts e.2 = true := by
    rw [bindings, List.forall_mem_map]
    intro e he
    simp [Variable.accepts, hsort e.1 e.2 (FinMap.get?_eq_some_iff.2 he)]
  have hfree : ∀ e ∈ bindings ranges γ, (∅ : Substitution).get? e.1 = none := fun _ _ => rfl
  obtain ⟨σ, hσ⟩ := Substitution.exists_foldlM_add (nodup_bindings ranges γ) hacc hfree
  exact ⟨σ, instantiate_eq_some.2 hσ⟩

end Collision

end SymbolicXor
