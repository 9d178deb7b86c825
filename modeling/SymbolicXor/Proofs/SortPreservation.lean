import SymbolicXor.Proofs.CanonicalTerms

/-!
# Sorts are preserved

Sorts are checked where a symbol is applied and where a binding is added, and nowhere else:
instances and compositions are built without a check. They need none. A sum has no sort, so it never
stands where a sort is asked, and a well-sorted substitution puts in the place of a term one whose
sort conforms to that of the term. An ill-sorted application in an instance was in a bound term
before.
-/

namespace SymbolicXor

open Term Substitution

namespace Term

/-- The arguments of an application at the head of a term have the sorts that its symbol asks of
them. -/
def HeadWellSorted : Term → Prop
  | app f ts => ∀ i (h : i < ts.length), ∀ s ∈ f.domain.at? i, s.admits ts[i] = true
  | _ => True

instance : DecidablePred HeadWellSorted
  | app f ts => inferInstanceAs
      (Decidable (∀ i (h : i < ts.length), ∀ s ∈ f.domain.at? i, s.admits ts[i] = true))
  | var _ | const _ | sum _ => isTrue trivial

/-- Every argument of every application in a term has the sort that is asked of it. -/
def WellSorted (t : Term) : Prop := t.Everywhere HeadWellSorted

instance (t : Term) : Decidable t.WellSorted := inferInstanceAs (Decidable (t.Everywhere _))

variable {t : Term} {σ : Substitution}

@[simp] theorem wellSorted_var (v : Variable) : (var v).WellSorted := by
  simp [WellSorted, HeadWellSorted]

@[simp] theorem wellSorted_const (c : Constant) : (const c).WellSorted := by
  simp [WellSorted, HeadWellSorted]

theorem wellSorted_app (f : FunctionSymbol) (ts : List Term) : (app f ts).WellSorted ↔
    (app f ts).HeadWellSorted ∧ ∀ t ∈ ts, t.WellSorted :=
  everywhere_app f ts

@[simp] theorem wellSorted_sum (ts : List Term) :
    (sum ts).WellSorted ↔ ∀ t ∈ ts, t.WellSorted := by
  simp [WellSorted, HeadWellSorted]

theorem wellSorted_xor {ts : List Term} (h : ∀ t ∈ ts, t.WellSorted) : (xor ts).WellSorted :=
  everywhere_xor trivial (fun _ => trivial) h

/-- The check of a symbol on its arguments finds nothing exactly if the application is
well-sorted. -/
theorem sortError?_eq_none {f : FunctionSymbol} {ts : List Term} :
    f.sortError? ts = none ↔ (app f ts).HeadWellSorted := by
  rw [FunctionSymbol.sortError?, List.findSome?_eq_none_iff]
  constructor
  · intro h i hi s hs
    have hmem : (ts[i], i) ∈ ts.zipIdx := by simp [List.mk_mem_zipIdx_iff_getElem?, hi]
    have hnone := h _ hmem
    rw [Option.mem_def] at hs
    simpa [hs] using hnone
  · rintro h ⟨t, i⟩ hmem
    obtain ⟨hi, rfl⟩ := List.getElem?_eq_some_iff.1 (List.mk_mem_zipIdx_iff_getElem?.1 hmem)
    cases hs : f.domain.at? i with
    | none => simp [hs]
    | some s => simp [hs, h i hi s hs]

end Term

/-- A checked application of a symbol to well-sorted arguments is well-sorted. -/
theorem FunctionSymbol.wellSorted_of_apply {f : FunctionSymbol} {ts : List Term} {t : Term}
    (hts : ∀ u ∈ ts, u.WellSorted) (h : f.apply ts = .ok t) : t.WellSorted := by
  unfold FunctionSymbol.apply at h
  split at h
  · cases h
    exact wellSorted_xor hts
  · split at h
    · split at h
      · cases h
      · rename_i hnone
        split at h <;> cases h
        · exact wellSorted_const _
        · exact (wellSorted_app f ts).2 ⟨sortError?_eq_none.1 hnone, hts⟩
    · cases h

namespace Substitution

variable {σ : Substitution} {t : Term}

/-- If a term has a sort, its well-sorted instances have a sort that conforms to it. -/
theorem exists_sort_apply (hσ : σ.WellSorted) {s : TermSort} (h : t.sort = some s) :
    ∃ r, (σ.apply t).sort = some r ∧ r.conformsTo s = true := by
  cases t with
  | var v => exact Variable.accepts_iff.1 (hσ.lookup v) s h
  | sum ts => cases h
  | _ =>
    refine ⟨s, ?_, s.conformsTo_self⟩
    rw [sort_apply_of_rigid rfl rfl, h]

theorem admits_apply (hσ : σ.WellSorted) {s : TermSort} (h : s.admits t = true) :
    s.admits (σ.apply t) = true := by
  rw [TermSort.admits, Option.any_eq_true] at *
  obtain ⟨r, hr, hrs⟩ := h
  obtain ⟨q, hq, hqr⟩ := exists_sort_apply hσ hr
  exact ⟨q, hq, TermSort.conformsTo_trans hqr hrs⟩

/-- The instances of the arguments have the sorts asked of them. -/
theorem headWellSorted_map_apply (hσ : σ.WellSorted) {f : FunctionSymbol} {ts : List Term}
    (h : (app f ts).HeadWellSorted) : (app f (ts.map σ.apply)).HeadWellSorted := by
  intro i hi s hs
  rw [List.getElem_map]
  rw [List.length_map] at hi
  exact admits_apply hσ (h i hi s hs)

/-- An ill-sorted application in an instance of a well-sorted term stands in a term that is bound to
one of its variables. -/
theorem everywhere_apply (hσ : σ.WellSorted) (ht : t.WellSorted) : (σ.apply t).Everywhere fun s =>
    s.HeadWellSorted ∨ ∃ v ∈ t.vars, s ∈ (σ.lookup v).subterms := by
  induction t using Term.induction with
  | var v => exact fun s hs => Or.inr ⟨v, by simp, hs⟩
  | const c => exact fun s hs => Or.inl (wellSorted_const c s hs)
  | app f ts ih =>
    obtain ⟨hhead, hts⟩ := (wellSorted_app f ts).1 ht
    rw [apply_app, everywhere_app]
    refine ⟨Or.inl (headWellSorted_map_apply hσ hhead), ?_⟩
    rw [List.forall_mem_map]
    intro t ht s hs
    refine (ih t ht (hts t ht) s hs).imp_right fun ⟨v, hv, hsv⟩ => ⟨v, ?_, hsv⟩
    rw [vars_app]
    exact List.mem_flatMap_of_mem ht hv
  | sum ts ih =>
    rw [apply_sum]
    refine everywhere_xor (Or.inl trivial) (fun _ => Or.inl trivial) ?_
    rw [List.forall_mem_map]
    intro t ht' s hs
    refine (ih t ht' ((wellSorted_sum ts).1 ht t ht') s hs).imp_right
      fun ⟨v, hv, hsv⟩ => ⟨v, ?_, hsv⟩
    rw [vars_sum]
    exact List.mem_flatMap_of_mem ht' hv

/-- The instance of a well-sorted term is well-sorted if the terms bound to its variables are. -/
theorem wellSorted_apply (hσ : σ.WellSorted) (ht : t.WellSorted)
    (hbound : ∀ v ∈ t.vars, (σ.lookup v).WellSorted) : (σ.apply t).WellSorted := fun s hs =>
  (everywhere_apply hσ ht s hs).elim id fun ⟨v, hv, hsv⟩ => hbound v hv s hsv

end Substitution

namespace Purifier

variable {p : Purifier}

/-- The sums that were named are well-sorted. -/
def NamesWellSorted (p : Purifier) : Prop := ∀ n ∈ p.named, n.2.WellSorted

/-- A term may stand for another one below a function symbol: it has the same sort, unless the other
one is a sum. -/
def StandsFor (u t : Term) : Prop := t.isSum = false → u.sort = t.sort

/-- Going through a well-sorted term gives a well-sorted one that may stand for it. -/
def KeepsSorts (t : Term) : Prop := ∀ p : Purifier, p.NamesWellSorted → t.WellSorted →
  (p.term t).1.NamesWellSorted ∧ (p.term t).2.WellSorted ∧ StandsFor (p.term t).2 t

theorem wellSorted_name (hp : p.NamesWellSorted) {t : Term} (ht : t.WellSorted) :
    (p.name t).1.NamesWellSorted ∧ (p.name t).2.WellSorted := by
  unfold name
  split
  · split
    · exact ⟨hp, wellSorted_var _⟩
    · exact ⟨List.forall_mem_append.2 ⟨hp, List.forall_mem_singleton.2 ht⟩, wellSorted_var _⟩
  · exact ⟨hp, ht⟩

theorem keepsSorts_arguments {ts : List Term} (ih : ∀ t ∈ ts, KeepsSorts t)
    (hp : p.NamesWellSorted) (hts : ∀ t ∈ ts, t.WellSorted) :
    (p.arguments ts).1.NamesWellSorted ∧ (∀ u ∈ (p.arguments ts).2, u.WellSorted) ∧
      List.Forall₂ StandsFor (p.arguments ts).2 ts := by
  induction ts generalizing p with
  | nil => exact ⟨hp, fun _ hu => absurd hu List.not_mem_nil, .nil⟩
  | cons t ts ihs =>
    obtain ⟨ht, hts⟩ := List.forall_mem_cons.1 hts
    obtain ⟨hq, hu, hstands⟩ := ih t List.mem_cons_self p hp ht
    have hrest {q : Purifier} (hq : q.NamesWellSorted) :=
      ihs (fun s hs => ih s (List.mem_cons_of_mem _ hs)) hq hts
    simp only [arguments]
    split
    · rename_i hsum
      obtain ⟨hn, hv⟩ := wellSorted_name hq hu
      obtain ⟨hr, hus, hall⟩ := hrest hn
      exact ⟨hr, List.forall_mem_cons.2 ⟨hv, hus⟩, .cons (fun hns => by simp [hsum] at hns) hall⟩
    · obtain ⟨hr, hus, hall⟩ := hrest hq
      exact ⟨hr, List.forall_mem_cons.2 ⟨hu, hus⟩, .cons hstands hall⟩

theorem keepsSorts_summands {ts : List Term} (ih : ∀ t ∈ ts, KeepsSorts t)
    (hp : p.NamesWellSorted) (hts : ∀ t ∈ ts, t.WellSorted) :
    (p.summands ts).1.NamesWellSorted ∧ ∀ u ∈ (p.summands ts).2, u.WellSorted := by
  induction ts generalizing p with
  | nil => exact ⟨hp, fun _ hu => absurd hu List.not_mem_nil⟩
  | cons t ts ihs =>
    obtain ⟨ht, hts⟩ := List.forall_mem_cons.1 hts
    obtain ⟨hq, hu, _⟩ := ih t List.mem_cons_self p hp ht
    obtain ⟨hr, hus⟩ := ihs (fun s hs => ih s (List.mem_cons_of_mem _ hs)) hq hts
    exact ⟨hr, List.forall_mem_cons.2 ⟨hu, hus⟩⟩

/-- Where a sort is asked of an argument, the argument is no sum and keeps its sort. -/
theorem headWellSorted_of_standsFor {f : FunctionSymbol} {us ts : List Term}
    (h : List.Forall₂ StandsFor us ts) (ht : (app f ts).HeadWellSorted) :
    (app f us).HeadWellSorted := by
  intro i hi s hs
  have hi' : i < ts.length := h.length_eq ▸ hi
  have hadmits := ht i hi' s hs
  have hsum : ts[i].isSum = false := by
    cases hti : ts[i] with
    | sum l =>
      rw [hti] at hadmits
      cases hadmits
    | _ => rfl
  have hsort : us[i].sort = ts[i].sort := h.get hi hi' hsum
  rw [TermSort.admits, hsort]
  exact hadmits

theorem keepsSorts (t : Term) : KeepsSorts t := by
  intro p hp ht
  induction t using Term.induction generalizing p with
  | var v => exact ⟨hp, ht, fun _ => rfl⟩
  | const c => exact ⟨hp, ht, fun _ => rfl⟩
  | app f ts ih =>
    obtain ⟨hhead, hts⟩ := (wellSorted_app f ts).1 ht
    obtain ⟨hq, hus, hall⟩ := keepsSorts_arguments ih hp hts
    exact ⟨hq, (wellSorted_app f _).2 ⟨headWellSorted_of_standsFor hall hhead, hus⟩, fun _ => rfl⟩
  | sum ts ih =>
    obtain ⟨hq, hus⟩ := keepsSorts_summands ih hp ((wellSorted_sum ts).1 ht)
    exact ⟨hq, wellSorted_xor hus, fun h => by cases h⟩

theorem wellSorted_equations (hp : p.NamesWellSorted) {es : List Equation}
    (hes : ∀ e ∈ es, e.Both WellSorted) :
    (p.equations es).1.NamesWellSorted ∧ ∀ e ∈ (p.equations es).2, e.Both WellSorted := by
  induction es generalizing p with
  | nil => exact ⟨hp, fun _ he => absurd he List.not_mem_nil⟩
  | cons e es ih =>
    obtain ⟨he, hes⟩ := List.forall_mem_cons.1 hes
    obtain ⟨hl, hleft, _⟩ := keepsSorts e.left p hp he.1
    obtain ⟨hr, hright, _⟩ := keepsSorts e.right _ hl he.2
    obtain ⟨hq, hrest⟩ := ih hr hes
    exact ⟨hq, List.forall_mem_cons.2 ⟨⟨hleft, hright⟩, hrest⟩⟩

theorem wellSorted_purify (fresh : FreshNames) {es : List Equation}
    (hes : ∀ e ∈ es, e.Both WellSorted) : ∀ e ∈ (purify es fresh).1, e.Both WellSorted := by
  have hstart : NamesWellSorted { fresh } := fun _ hn => absurd hn List.not_mem_nil
  obtain ⟨hp, hes⟩ := wellSorted_equations hstart hes
  refine List.forall_mem_append.2 ⟨hes, ?_⟩
  rw [definitions, List.forall_mem_map]
  exact fun n hn => ⟨wellSorted_var n.1, hp n hn⟩

end Purifier

/-- Searches keep terms well-sorted. -/
theorem Term.invariant_wellSorted : Invariant WellSorted where
  subterm ht hs := Everywhere.subterm ht hs
  xor := wellSorted_xor
  var := wellSorted_var
  apply hsort hθ ht := wellSorted_apply hsort ht fun v _ => hθ.lookup wellSorted_var v
  purify fresh hes := Purifier.wellSorted_purify fresh hes

namespace Substitution

variable {P : Term → Prop} {σ τ : Substitution} {v : Variable} {t : Term}

/-- Every variable is bound to a term with a property, which it accepts. -/
def Fits (P : Term → Prop) (σ : Substitution) : Prop :=
  ∀ v t, σ.get? v = some t → v.accepts t = true ∧ P t

theorem fits_iff : σ.Fits P ↔ σ.WellSorted ∧ σ.Into P := by
  constructor
  · refine fun h => ⟨fun v hv => ?_, fun t ht => ?_⟩
    · obtain ⟨t, ht⟩ := mem_domain.1 hv
      rw [lookup_of_get? ht]
      exact (h v t ht).1
    · obtain ⟨v, hv⟩ := mem_range.1 ht
      exact (h v t hv).2
  · intro h v t ht
    have hacc := h.1 v (mem_domain.2 ⟨t, ht⟩)
    rw [lookup_of_get? ht] at hacc
    exact ⟨hacc, h.2 t (mem_range.2 ⟨v, ht⟩)⟩

theorem fits_empty : (∅ : Substitution).Fits P := fun _ _ h => by cases h

theorem Fits.add (hσ : σ.Fits P) (ht : P t) (h : σ.add v t = .ok τ) : τ.Fits P := by
  have hacc : v.accepts t = true := by
    unfold Substitution.add at h
    split at h
    · assumption
    · cases h
  intro w s hs
  rw [get?_add h] at hs
  split at hs
  · rename_i hwv
    cases hs
    exact hwv ▸ ⟨hacc, ht⟩
  · exact hσ w s hs

theorem Fits.replace (hσ : σ.Fits P) (ht : P t) (h : σ.replace v t = .ok τ) : τ.Fits P := by
  unfold Substitution.replace at h
  split at h
  · rename_i hacc
    cases h
    intro w s hs
    rw [get?, FinMap.get?_insert] at hs
    split at hs
    · rename_i hwv
      cases hs
      exact hwv ▸ ⟨hacc, ht⟩
    · exact hσ w s hs
  · cases h

/-- Dropping bindings, as unbinding and restricting do, leaves the others as they are. -/
theorem Fits.filterKeys (hσ : σ.Fits P) (p : Variable → Bool) :
    Fits P ⟨σ.bindings.filterKeys p⟩ := by
  intro w s hs
  rw [get?, FinMap.get?_filterKeys] at hs
  split at hs
  · exact hσ w s hs
  · cases hs

end Substitution

end SymbolicXor
