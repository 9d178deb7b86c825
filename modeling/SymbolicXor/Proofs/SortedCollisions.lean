import SymbolicXor.Proofs.RealCollisions
import SymbolicXor.Proofs.ResolvedProducts
import SymbolicXor.Proofs.SizedTerms
import SymbolicXor.Proofs.SortPreservation

/-!
# Collisions of well-sorted terms

Ranges are put into known terms without a check of sorts, and a range is a sum. But a collision is
dropped unless every variable accepts its term. So where a known term asks for the sort of a
variable below a function symbol, the range of the variable has become a term of a conforming sort,
and what is known and well-sorted gives well-sorted choices.
-/

namespace SymbolicXor

open CoeffTerm hiding compare

namespace CoeffTerm

variable {γ : Assignment} {s : TermSort} {t : CoeffTerm}

/-- The arguments of an application at the head of a term are read as terms of the sorts that its
symbol asks of them. -/
def HeadSorted : CoeffTerm → Prop
  | app f ts => ∀ i (h : i < ts.length), ∀ s ∈ f.domain.at? i, s.admits ts[i].toTerm = true
  | _ => True

/-- A term that is sorted everywhere is read as a well-sorted term. -/
theorem wellSorted_toTerm (h : t.Everywhere HeadSorted) : t.toTerm.WellSorted := by
  induction t using induction with
  | app f ts ih =>
    obtain ⟨hhead, hts⟩ := (everywhere_app f ts).1 h
    rw [toTerm_app, Term.wellSorted_app, List.forall_mem_map]
    refine ⟨fun i hi s hs => ?_, fun t ht => ih t ht (hts t ht)⟩
    rw [List.length_map] at hi
    rw [List.getElem_map]
    exact hhead i hi s hs
  | sum ts ih =>
    rw [reads_toTerm.sum]
    refine Term.wellSorted_xor (List.forall_mem_map.2 fun t ht => ih t ht ?_)
    exact ((everywhere_sum ts).1 h).2 t ht
  | mul s t hs ht =>
    obtain ⟨_, hS, hT⟩ := (everywhere_mul s t).1 h
    refine (Term.wellSorted_app productSymbol [s.toTerm, t.toTerm]).2 ⟨?_, ?_⟩
    · -- The symbol of products asks for no sort.
      intro i _ r hr
      cases hr
    · exact List.forall_mem_cons.2 ⟨hs hS, List.forall_mem_singleton.2 (ht hT)⟩
  | _ => simp [toTerm, Term.zero]

/-- A simplified term, or an application, that is read under an assignment as a term of a sort. -/
structure Suits (γ : Assignment) (s : TermSort) (t : CoeffTerm) : Prop where
  /-- The term stays as it is when it is simplified, but for the arguments of an application. -/
  settled : t.simplify = t ∨ ∃ f ts, t = app f ts
  /-- The sort admits the reading of the term. -/
  admits : s.admits (γ.reduce t).toTerm = true

/-- Simplifying keeps the sort. -/
theorem Suits.simplify (h : t.Suits γ s) : t.simplify.Suits γ s := by
  rcases h.settled with heq | ⟨f, ts, rfl⟩
  · rwa [heq]
  · refine ⟨Or.inr ⟨f, _, rfl⟩, ?_⟩
    have hadmits := h.admits
    rw [Assignment.reduce_app, toTerm_app] at hadmits
    rw [CoeffTerm.simplify, Assignment.reduce_app, toTerm_app]
    exact hadmits

/-- The arguments of an application at the head of a term suit the sorts that its symbol asks of
them. -/
def HeadSuits (γ : Assignment) : CoeffTerm → Prop
  | app f ts => ∀ i (h : i < ts.length), ∀ s ∈ f.domain.at? i, ts[i].Suits γ s
  | _ => True

theorem everywhere_headSuits_simplify (h : t.Everywhere (HeadSuits γ)) :
    t.simplify.Everywhere (HeadSuits γ) := by
  refine everywhere_simplify trivial (fun f ts hts i hi s hs => ?_) (fun _ => trivial)
    (fun _ _ _ => trivial) h
  rw [List.length_map] at hi
  rw [List.getElem_map]
  exact (hts i hi s hs).simplify

/-- If all arguments suit, the term is sorted under the assignment. -/
theorem everywhere_headSorted_reduce (h : t.Everywhere (HeadSuits γ)) :
    (γ.reduce t).Everywhere HeadSorted := by
  induction t using induction with
  | app f ts ih =>
    obtain ⟨hhead, hts⟩ := (everywhere_app f ts).1 h
    rw [Assignment.reduce_app, everywhere_app, List.forall_mem_map]
    refine ⟨fun i hi s hs => ?_, fun t ht => ih t ht (hts t ht)⟩
    rw [List.length_map] at hi
    rw [List.getElem_map]
    exact (hhead i hi s hs).admits
  | sum ts ih =>
    rw [Assignment.reduce_sum]
    refine everywhere_ofSummands trivial (fun _ => trivial) (everywhere_foldl_toggle ?_)
    exact List.forall_mem_map.2 fun t ht => ih t ht (((everywhere_sum ts).1 h).2 t ht)
  | mul s t hs ht =>
    obtain ⟨_, hS, hT⟩ := (everywhere_mul s t).1 h
    rw [Assignment.reduce_mul]
    exact everywhere_product trivial (fun _ _ _ _ => trivial) (hs hS) (ht hT)
  | coeff b =>
    rw [Assignment.reduce_coeff, Assignment.lookup]
    split <;> simp [CoeffTerm.simplify, HeadSorted]
  | _ => exact List.forall_mem_singleton.2 trivial

end CoeffTerm

namespace Collision

variable {ranges : FinMap Variable CoeffTerm} {γ : Assignment} {t : Term}

/-- The bindings of an instance are checked one by one. -/
theorem fits_of_instantiate {σ : Substitution} (h : instantiate ranges γ = some σ) :
    σ.Fits fun _ => True :=
  Substitution.foldlM_add_induction (fun _ hσ => hσ.add trivial) Substitution.fits_empty
    (instantiate_eq_some.1 h)

/-- Ranges that may be put into well-sorted terms: each is simplified, its arguments suit under an
assignment, and its variable accepts the term that it is read as. -/
def Fitting (γ : Assignment) (ranges : FinMap Variable CoeffTerm) : Prop :=
  ∀ v r, ranges.get? v = some r →
    r.simplify = r ∧ r.Everywhere (HeadSuits γ) ∧ v.accepts (γ.reduce r).toTerm = true

/-- A term that is admitted somewhere suits there when variables are replaced by their ranges. -/
theorem suits_substitute (hr : Fitting γ ranges) {s : TermSort} (h : s.admits t = true) :
    ((ofTerm t).substitute ranges).Suits γ s := by
  cases t with
  | var v =>
    change ((ranges.get? v).getD (var v)).Suits γ s
    cases hv : ranges.get? v with
    | none => exact ⟨Or.inl rfl, h⟩
    | some r =>
      obtain ⟨hsimp, _, hacc⟩ := hr v r hv
      refine ⟨Or.inl hsimp, ?_⟩
      obtain ⟨q, hq, hqs⟩ := (Option.any_eq_true _ _).1 h
      obtain ⟨p, hp, hpq⟩ := Variable.accepts_iff.1 hacc q hq
      exact (Option.any_eq_true _ _).2 ⟨p, hp, TermSort.conformsTo_trans hpq hqs⟩
  | const c =>
    have hne : Term.const c ≠ Term.zero := by
      intro hz
      rw [hz] at h
      cases h
    rw [ofTerm, if_neg hne]
    exact ⟨Or.inl rfl, h⟩
  | app f ts => exact ⟨Or.inr ⟨f, _, rfl⟩, h⟩
  | sum ts => cases h

/-- Ranges that fit are put into well-sorted terms so that all arguments suit. -/
theorem everywhere_headSuits_substitute (hr : Fitting γ ranges) (ht : t.WellSorted) :
    ((ofTerm t).substitute ranges).Everywhere (HeadSuits γ) := by
  induction t using Term.induction with
  | var v =>
    change ((ranges.get? v).getD (var v)).Everywhere (HeadSuits γ)
    cases hv : ranges.get? v with
    | none => exact List.forall_mem_singleton.2 trivial
    | some r => exact (hr v r hv).2.1
  | const c =>
    rw [ofTerm]
    split <;> exact List.forall_mem_singleton.2 trivial
  | app f ts ih =>
    obtain ⟨hhead, hts⟩ := (Term.wellSorted_app f ts).1 ht
    rw [ofTerm, ofTerms_eq_map, substitute, mapLeaves, mapLeavesAll_eq_map, everywhere_app,
      List.map_map, List.forall_mem_map]
    refine ⟨fun i hi s hs => ?_, fun t ht => ih t ht (hts t ht)⟩
    rw [List.length_map] at hi
    rw [List.getElem_map]
    exact suits_substitute hr (hhead i hi s hs)
  | sum ts ih =>
    rw [ofTerm, ofTerms_eq_map, substitute, mapLeaves, mapLeavesAll_eq_map, everywhere_sum,
      List.map_map, List.forall_mem_map]
    exact ⟨trivial, fun t ht => ih t ht ((Term.wellSorted_sum ts).1 ‹_› t ht)⟩

theorem wellSorted_dropTopVars (ht : t.WellSorted) : (dropTopVars t).WellSorted := by
  cases t with
  | sum ts =>
    exact Term.wellSorted_xor fun u hu =>
      (Term.wellSorted_sum ts).1 ht u (List.mem_of_mem_filter hu)
  | _ => exact ht

/-- All arguments suit in the range of a variable with well-sorted known terms. -/
theorem everywhere_headSuits_products (hr : Fitting γ ranges) {known : List Term}
    (hk : ∀ t ∈ known, t.WellSorted) (fresh : FreshNames) :
    (CoeffTerm.sum (products ranges fresh known).1).Everywhere (HeadSuits γ) := by
  refine (everywhere_sum _).2 ⟨trivial, fun u hu => ?_⟩
  obtain ⟨b, t, ht, s, hs, rfl⟩ := exists_of_mem_products hu
  refine (everywhere_mul _ _).2 ⟨trivial, List.forall_mem_singleton.2 trivial, ?_⟩
  exact (everywhere_headSuits_substitute hr (wellSorted_dropTopVars (hk t ht))).summands s hs

section Ranges

variable {outputs : List Term} {constraints : Constraints} {σ : Substitution}
  (hk : ∀ v known, constraints.get? v = some known → ∀ t ∈ known, t.WellSorted)

include hk

/-- If every variable accepts the term that its range is read as, the ranges fit. -/
theorem fitting_ranges
    (hacc : ∀ v r, (Collision.ranges outputs constraints).get? v = some r →
      v.accepts (γ.reduce r).toTerm = true) :
    Fitting γ (Collision.ranges outputs constraints) := by
  intro v r hv
  refine FinMap.keys_induction (m := Collision.ranges outputs constraints)
    (P := fun v => ∀ r, (Collision.ranges outputs constraints).get? v = some r →
      r.simplify = r ∧ r.Everywhere (HeadSuits γ) ∧ v.accepts (γ.reduce r).toTerm = true)
    (fun v _ ih r hv => ?_) v (FinMap.mem_keys.2 ⟨r, hv⟩) r hv
  obtain ⟨known, hknown⟩ := exists_of_get?_ranges hv
  obtain ⟨g, _, hget⟩ := get?_ranges outputs hknown
  cases hv.symm.trans hget
  -- The ranges of the variables before `v` fit.
  have hbefore : Fitting γ ((Collision.ranges outputs constraints).filterKeys
      fun w => Ord.compare w v == .lt) := by
    intro w r hw
    rw [FinMap.get?_filterKeys] at hw
    split at hw
    · rename_i hlt
      exact ih w (FinMap.mem_keys.2 ⟨r, hw⟩) (beq_iff_eq.1 hlt) r hw
    · cases hw
  exact ⟨simplify_simplify _,
    everywhere_headSuits_simplify (everywhere_headSuits_products hbefore (hk v known hknown) g),
    hacc v _ hv⟩

/-- The terms that are bound when the ranges are instantiated are well-sorted. -/
theorem wellSorted_of_instantiate
    (h : instantiate (Collision.ranges outputs constraints) γ = some σ) :
    σ.Into Term.WellSorted := by
  have hbindings := instantiate_eq_some.1 h
  have hget (v : Variable) := Substitution.get?_foldlM_add (nodup_bindings _ γ) hbindings v
  have hbound (v : Variable) (r : CoeffTerm)
      (hv : (Collision.ranges outputs constraints).get? v = some r) :
      σ.get? v = some (γ.reduce r).toTerm :=
    (hget v).1 _ (List.mem_map.2 ⟨(v, r), FinMap.get?_eq_some_iff.1 hv, rfl⟩)
  have hfitting : Fitting γ (Collision.ranges outputs constraints) :=
    fitting_ranges hk fun v r hv => (fits_of_instantiate h v _ (hbound v r hv)).1
  intro t ht
  obtain ⟨v, hv⟩ := Substitution.mem_range.1 ht
  cases hr : (Collision.ranges outputs constraints).get? v with
  | some r =>
    cases hv.symm.trans (hbound v r hr)
    exact wellSorted_toTerm (everywhere_headSorted_reduce (hfitting v r hr).2.1)
  | none =>
    have hfree : σ.get? v = none := (hget v).2 fun t ht => by
      obtain ⟨e, he, hev⟩ := List.mem_map.1 ht
      obtain ⟨rfl, _⟩ := Prod.mk.inj hev
      rw [FinMap.get?_eq_some_iff.2 he] at hr
      cases hr
    cases hfree.symm.trans hv

end Ranges

end Collision

/-- The variables accept the terms that a collision binds them to, and if all known terms are
well-sorted, these terms are. -/
theorem fits_of_mem_collisions {outputs : List Term} {constraints : Constraints} {maxSteps : Nat}
    {σ : Substitution} (h : σ ∈ (collisions outputs constraints maxSteps).solutions) :
    σ.WellSorted ∧ ((∀ v known, constraints.get? v = some known → ∀ t ∈ known, t.WellSorted) →
      σ.Into Term.WellSorted) := by
  rw [Collision.solutions_collisions] at h
  obtain ⟨a, _, _, hσ⟩ := Collision.exists_of_mem_solutions h
  exact ⟨(Substitution.fits_iff.1 (Collision.fits_of_instantiate hσ)).1,
    fun hk => Collision.wellSorted_of_instantiate hk hσ⟩

end SymbolicXor
