import Mathlib.Tactic.TFAE
import SymbolicXor.Proofs.Freshness
import SymbolicXor.Proofs.SoundCollisions

/-!
# Collisions as choices of the adversary

A collision is real if each constrained variable is bound to a sum of some of its known terms, read
under the bindings of the variables before it. Where a sum of outputs became zero before all
coefficients had values, the substitution that is read off still mentions coefficients. It is real
exactly if it mentions none, and whatever values are given to the open coefficients, the
substitution that results is real and makes the same outputs cancel.
-/

namespace SymbolicXor

open CoeffTerm hiding compare

namespace Substitution

/-- The bindings of the variables before `v`. -/
def before (σ : Substitution) (v : Variable) : Substitution :=
  ⟨σ.bindings.filterKeys fun w => compare w v == .lt⟩

theorem get?_before (σ : Substitution) (v w : Variable) :
    (σ.before v).get? w = if compare w v == .lt then σ.get? w else none :=
  FinMap.get?_filterKeys _ _ _

end Substitution

namespace Collision

variable {ranges : FinMap Variable CoeffTerm} {fresh : FreshNames} {v : Variable}
  {known : List Term}

/-- Names that were reserved stay reserved while coefficients are generated. -/
theorem mem_reserved_products {n : Name} (h : n ∈ fresh.reserved) :
    n ∈ (products ranges fresh known).2.reserved := by
  induction known generalizing fresh with
  | nil => exact h
  | cons t ts ih => exact ih (List.mem_cons_of_mem _ h)

/-- The names of the constraints are reserved. -/
theorem mem_reserved_freshCoefficients (outputs : List Term) {constraints : Constraints}
    (h : constraints.get? v = some known) :
    v.symbol ∈ (freshCoefficients outputs constraints).reserved ∧
      ∀ t ∈ known, ∀ n ∈ t.symbols, n ∈ (freshCoefficients outputs constraints).reserved := by
  have hentry (g : FreshNames) (e : Variable × List Term) (n : Name) :
      n ∈ (e.2.foldl FreshNames.avoidTerm (g.avoid [e.1.symbol])).reserved ↔
        n ∈ g.reserved ∨ n = e.1.symbol ∨ ∃ t ∈ e.2, n ∈ t.symbols := by
    rw [FreshNames.mem_reserved_foldl _ FreshNames.mem_reserved_avoidTerm, FreshNames.avoid,
      List.mem_append, List.mem_singleton, or_comm (a := n = _), or_assoc]
  have hall (n : Name) (hn : n = v.symbol ∨ ∃ t ∈ known, n ∈ t.symbols) :
      n ∈ (freshCoefficients outputs constraints).reserved :=
    (FreshNames.mem_reserved_foldl _ hentry _ n).2
      (Or.inr ⟨(v, known), FinMap.get?_eq_some_iff.1 h, hn⟩)
  exact ⟨hall _ (Or.inl rfl), fun t ht n hn => hall n (Or.inr ⟨t, ht, hn⟩)⟩

theorem get?_rangesFrom_of_not_mem {entries : List (Variable × List Term)}
    (h : v ∉ entries.map Prod.fst) : (rangesFrom ranges fresh entries).get? v = ranges.get? v := by
  induction entries generalizing ranges fresh with
  | nil => rfl
  | cons e rest ih =>
    rw [List.map_cons, List.mem_cons, not_or] at h
    rw [rangesFrom, ih h.2, FinMap.get?_insert, if_neg h.1]

/-- If there are ranges of variables before `v` only, they stay the ranges of the variables before
`v` when none of these follows. -/
theorem filterKeys_rangesFrom {entries : List (Variable × List Term)}
    (hranges : ∀ w r, ranges.get? w = some r → compare w v = .lt)
    (hentries : ∀ e ∈ entries, compare e.1 v ≠ .lt) :
    (rangesFrom ranges fresh entries).filterKeys (fun w => compare w v == .lt) = ranges := by
  refine FinMap.ext_get? fun w => ?_
  rw [FinMap.get?_filterKeys]
  split
  · rename_i hw
    refine get?_rangesFrom_of_not_mem fun hmem => ?_
    obtain ⟨e, he, rfl⟩ := List.mem_map.1 hmem
    exact hentries e he (beq_iff_eq.1 hw)
  · rename_i hw
    cases hr : ranges.get? w with
    | none => rfl
    | some r => exact absurd (beq_iff_eq.2 (hranges w r hr)) hw

/-- The range of a variable is the sum of the products with its known terms, in which the variables
before it are replaced by their ranges. -/
theorem get?_rangesFrom {entries : List (Variable × List Term)}
    (hordered : entries.Pairwise fun a b => compare a.1 b.1 = .lt)
    (hranges : ∀ w r, ranges.get? w = some r → ∀ e ∈ entries, compare w e.1 = .lt)
    (h : (v, known) ∈ entries) :
    ∃ g : FreshNames, (∀ n ∈ fresh.reserved, n ∈ g.reserved) ∧
      (rangesFrom ranges fresh entries).get? v = some (CoeffTerm.sum (products
        ((rangesFrom ranges fresh entries).filterKeys fun w => compare w v == .lt) g
        known).1).simplify := by
  induction entries generalizing ranges fresh with
  | nil => cases h
  | cons e rest ih =>
    obtain ⟨hfirst, hrest⟩ := List.pairwise_cons.1 hordered
    rcases List.mem_cons.1 h with rfl | h
    · have hlater : ∀ e ∈ (v, known) :: rest, compare e.1 v ≠ .lt := by
        refine List.forall_mem_cons.2 ⟨?_, fun e he hlt => ?_⟩
        · simp [Std.ReflOrd.compare_self]
        · exact absurd hlt (Std.OrientedCmp.not_lt_of_lt (hfirst e he))
      have hbefore : (rangesFrom ranges fresh ((v, known) :: rest)).filterKeys
          (fun w => compare w v == .lt) = ranges :=
        filterKeys_rangesFrom (fun w r hw => hranges w r hw _ List.mem_cons_self) hlater
      have hnot : v ∉ rest.map Prod.fst := by
        intro hmem
        obtain ⟨e, he, hv⟩ := List.mem_map.1 hmem
        have hlt := hfirst e he
        rw [hv, Std.ReflOrd.compare_self] at hlt
        cases hlt
      refine ⟨fresh, fun _ => id, ?_⟩
      rw [hbefore, rangesFrom, get?_rangesFrom_of_not_mem hnot, FinMap.get?_insert, if_pos rfl]
    · have hstep : ∀ w r, (ranges.insert e.1
          (CoeffTerm.sum (products ranges fresh e.2).1).simplify).get? w = some r →
          ∀ e' ∈ rest, compare w e'.1 = .lt := by
        intro w r hw e' he'
        rw [FinMap.get?_insert] at hw
        split at hw
        · rename_i hwe
          exact hwe ▸ hfirst e' he'
        · exact hranges w r hw e' (List.mem_cons_of_mem _ he')
      obtain ⟨g, hg, hget⟩ := ih hrest hstep h
      exact ⟨g, fun n hn => hg n (mem_reserved_products hn), hget⟩

theorem get?_ranges (outputs : List Term) {constraints : Constraints}
    (h : constraints.get? v = some known) :
    ∃ g : FreshNames, (∀ n ∈ (freshCoefficients outputs constraints).reserved, n ∈ g.reserved) ∧
      (Collision.ranges outputs constraints).get? v = some (CoeffTerm.sum (products
        ((Collision.ranges outputs constraints).filterKeys fun w => compare w v == .lt) g
        known).1).simplify :=
  get?_rangesFrom constraints.ordered (fun _ _ hr => by cases hr) (FinMap.get?_eq_some_iff.1 h)

/-- A product that is left because its coefficient has no value: the coefficient has none of the
given names. -/
def IsOpenProduct (names : List Name) (t : Term) : Prop :=
  ∃ b u, b ∉ names ∧ t = .app productSymbol [.var { symbol := b }, u]

variable {α : Name → Option Bool}

/-- An open coefficient leaves products only. -/
theorem exists_of_vec_weigh_ne_zero {b : Name} {us : List Term} {a : Term}
    (h : (us.map fun u => (weigh b none u).vec).sum a ≠ 0) :
    ∃ u, a = .app productSymbol [.var { symbol := b }, u] := by
  induction us with
  | nil => exact absurd rfl h
  | cons u us ih =>
    rw [List.map_cons, List.sum_cons, Pi.add_apply] at h
    by_cases hrest : (us.map fun u => (weigh b none u).vec).sum a = 0
    · rw [hrest, add_zero] at h
      simp only [weigh] at h
      split at h
      · simp at h
      · rw [Term.vec_of_atomic ⟨Term.noConfusion, rfl⟩] at h
        by_contra hne
        exact h (Pi.single_eq_of_ne (fun ha => hne ⟨u, ha⟩) _)
    · exact ih hrest

/-- A sum that is weighed by a coefficient is there or not, up to open products, of which there are
none if the coefficient has a value. -/
theorem exists_vec_weigh {names : List Name} {b : Name} (hb : b ∉ names) (x : Option Bool)
    (us : List Term) :
    ∃ (present : Bool) (rest : Term → ZMod 2),
      (us.map fun u => (weigh b x u).vec).sum =
        (if present then (us.map Term.vec).sum else 0) + rest ∧
      (∀ a, rest a ≠ 0 → IsOpenProduct names a) ∧ (x ≠ none → rest = 0) := by
  cases x with
  | none =>
    refine ⟨false, _, (zero_add _).symm, fun a ha => ?_, fun hx => absurd rfl hx⟩
    obtain ⟨u, hu⟩ := exists_of_vec_weigh_ne_zero ha
    exact ⟨b, u, hb, hu⟩
  | some present =>
    refine ⟨present, 0, ?_, fun a ha => absurd rfl ha, fun _ => rfl⟩
    cases present <;> simp [weigh]

/-- The products with known terms are those with the first one and those with the others. -/
theorem vec_value_products_cons (ranges : FinMap Variable CoeffTerm) (fresh : FreshNames)
    (t : Term) (ts : List Term) (α : Name → Option Bool) :
    (value α (CoeffTerm.sum (products ranges fresh (t :: ts)).1)).vec =
      ((((ofTerm (dropTopVars t)).substitute ranges).summands.map (value α)).map fun u =>
        (weigh fresh.next.1 (α fresh.next.1) u).vec).sum +
      (value α (CoeffTerm.sum (products ranges fresh.next.2 ts).1)).vec := by
  rw [(reads_value α).vec_eq_sum, (reads_value α).vec_eq_sum (CoeffTerm.sum _)]
  simp only [CoeffTerm.summands, products, List.map_append, List.sum_append, List.map_map]
  refine congrArg (· + _) (congrArg List.sum (List.map_congr_left fun s _ => ?_))
  simp only [Function.comp_apply, value_mul]

/-- The summands of the range of a known term add up to its instance. -/
theorem vec_apply_dropTopVars (ranges : FinMap Variable CoeffTerm) (t : Term)
    (α : Name → Option Bool) : ((valuation ranges α).apply (dropTopVars t)).vec =
      ((((ofTerm (dropTopVars t)).substitute ranges).summands.map (value α)).map Term.vec).sum := by
  rw [← value_substitute, (reads_value α).vec_eq_sum, List.map_map]
  rfl

/-- The products with known terms add up to the instances of some of the terms, and to open
products. Where every coefficient has a value, nothing is open. -/
theorem exists_vec_products (ranges : FinMap Variable CoeffTerm) (fresh : FreshNames)
    (known : List Term) (α : Name → Option Bool) :
    ∃ chosen : List Term, ∃ rest : Term → ZMod 2, chosen.Sublist known ∧
      (value α (CoeffTerm.sum (products ranges fresh known).1)).vec =
        (chosen.map fun t => ((valuation ranges α).apply (dropTopVars t)).vec).sum + rest ∧
      (∀ a, rest a ≠ 0 → IsOpenProduct fresh.reserved a) ∧ ((∀ b, α b ≠ none) → rest = 0) := by
  induction known generalizing fresh with
  | nil =>
    refine ⟨[], 0, List.Sublist.slnil, ?_, fun a ha => absurd rfl ha, fun _ => rfl⟩
    rw [(reads_value α).vec_eq_sum]
    simp [products, CoeffTerm.summands]
  | cons t ts ih =>
    obtain ⟨chosen, rest, hsub, hvec, hopen, htotal⟩ := ih fresh.next.2
    have hfresh : fresh.next.1 ∉ fresh.reserved := fresh.name_nextNumber_not_mem
    obtain ⟨present, more, hweigh, hmore, hdecided⟩ :=
      exists_vec_weigh hfresh (α fresh.next.1)
        (((ofTerm (dropTopVars t)).substitute ranges).summands.map (value α))
    refine ⟨if present then t :: chosen else chosen, more + rest, ?_, ?_, fun a ha => ?_,
      fun hα => by rw [hdecided (hα _), htotal hα, add_zero]⟩
    · cases present
      · exact hsub.cons t
      · exact hsub.cons_cons t
    · rw [vec_value_products_cons, hvec, hweigh, ← vec_apply_dropTopVars]
      cases present
      · rw [if_neg Bool.false_ne_true, if_neg Bool.false_ne_true, zero_add, add_left_comm]
      · rw [if_pos rfl, if_pos rfl, List.map_cons, List.sum_cons, add_add_add_comm]
    · by_cases hrest : rest a = 0
      · rw [Pi.add_apply, hrest, add_zero] at ha
        exact hmore a ha
      · obtain ⟨b, u, hb, hu⟩ := hopen a hrest
        exact ⟨b, u, fun hmem => hb (List.mem_cons_of_mem _ hmem), hu⟩

variable {outputs : List Term} {constraints : Constraints} {σ : Substitution} {chosen : List Term}

/-- Known terms without the variables among their summands, under the bindings of the variables
before `v`. -/
def instances (σ : Substitution) (v : Variable) (known : List Term) : List Term :=
  known.map fun t => (σ.before v).apply (dropTopVars t)

/-- Every constrained variable is bound to the sum of some of its known terms. -/
def IsReal (constraints : Constraints) (σ : Substitution) : Prop :=
  ∀ v known, constraints.get? v = some known → ∃ chosen : List Term, chosen.Sublist known ∧
    σ.get? v = some (.xor (instances σ v chosen))

/-- The names that outputs and constraints mention; coefficients have other names. -/
def givenNames (outputs : List Term) (constraints : Constraints) : List Name :=
  (freshCoefficients outputs constraints).reserved

theorem mem_vars_dropTopVars {t : Term} {w : Variable} (h : w ∈ (dropTopVars t).vars) :
    w ∈ t.vars := by
  cases t with
  | sum ts =>
    obtain ⟨u, hu, hw⟩ := Term.mem_vars_xor h
    rw [Term.vars_sum]
    exact List.mem_flatMap_of_mem (List.mem_of_mem_filter hu) hw
  | _ => exact h

/-- If the variables before `v` are bound to terms over given names, so are the instances of the
terms known at `v`. -/
theorem mem_givenNames_of_mem_instances (hdomain : ∀ w ∈ σ.domain, w ∈ constraints.keys)
    (hbefore : ∀ w ∈ constraints.keys, compare w v = .lt → ∀ t, σ.get? w = some t →
      ∀ x ∈ t.vars, x.symbol ∈ givenNames outputs constraints)
    (hv : constraints.get? v = some known) (hsub : chosen.Sublist known) :
    ∀ u ∈ instances σ v chosen, ∀ x ∈ u.vars, x.symbol ∈ givenNames outputs constraints := by
  have hearlier {w : Variable} (hw : w ∈ (σ.before v).domain) :
      w ∈ constraints.keys ∧ compare w v = .lt ∧ (σ.before v).get? w = σ.get? w := by
    obtain ⟨t, ht⟩ := Substitution.mem_domain.1 hw
    rw [Substitution.get?_before] at ht ⊢
    split at ht
    · rename_i hlt
      rw [if_pos hlt]
      exact ⟨hdomain w (Substitution.mem_domain.2 ⟨t, ht⟩), beq_iff_eq.1 hlt, rfl⟩
    · cases ht
  have hover : (σ.before v).Over fun x => x.symbol ∈ givenNames outputs constraints := by
    refine ⟨fun w hw => ?_, fun t ht => ?_⟩
    · obtain ⟨_, hknown⟩ := FinMap.mem_keys.1 (hearlier hw).1
      exact (mem_reserved_freshCoefficients outputs hknown).1
    · obtain ⟨w, hw⟩ := Substitution.mem_range.1 ht
      obtain ⟨hmem, hlt, heq⟩ := hearlier (Substitution.mem_domain.2 ⟨t, hw⟩)
      exact hbefore w hmem hlt t (heq ▸ hw)
  rw [instances, List.forall_mem_map]
  intro t ht
  refine hover.vars_apply fun x hx => ?_
  exact (mem_reserved_freshCoefficients outputs hv).2 t (hsub.subset ht) _
    (Term.symbol_mem_symbols (mem_vars_dropTopVars hx))

/-- Real choices mention no coefficient. -/
theorem IsReal.over (h : IsReal constraints σ) (hdomain : ∀ w ∈ σ.domain, w ∈ constraints.keys) :
    σ.Over fun x => x.symbol ∈ givenNames outputs constraints := by
  have hvars : ∀ v ∈ constraints.keys, ∀ t, σ.get? v = some t →
      ∀ x ∈ t.vars, x.symbol ∈ givenNames outputs constraints := by
    refine FinMap.keys_induction fun v hv hbefore t ht x hx => ?_
    obtain ⟨known, hknown⟩ := FinMap.mem_keys.1 hv
    obtain ⟨chosen, hsub, hget⟩ := h v known hknown
    cases ht.symm.trans hget
    obtain ⟨u, hu, hxu⟩ := Term.mem_vars_xor hx
    exact mem_givenNames_of_mem_instances hdomain hbefore hknown hsub u hu x hxu
  refine ⟨fun v hv => ?_, fun t ht => ?_⟩
  · obtain ⟨known, hknown⟩ := FinMap.mem_keys.1 (hdomain v hv)
    exact (mem_reserved_freshCoefficients outputs hknown).1
  · obtain ⟨v, hv⟩ := Substitution.mem_range.1 ht
    exact hvars v (hdomain v (Substitution.mem_domain.2 ⟨t, hv⟩)) t hv

/-- A term that has the summands of others, up to some that neither it nor the others have, is the
sum of the others. -/
theorem eq_xor_of_vec_eq {t : Term} {us : List Term} {rest : Term → ZMod 2} {P : Term → Prop}
    (ht : t.Canonical) (hus : ∀ u ∈ us, u.Canonical) (hvec : t.vec = (us.map Term.vec).sum + rest)
    (hrest : ∀ a, rest a ≠ 0 → P a) (hPt : ∀ a ∈ t.summands, ¬ P a)
    (hPus : ∀ u ∈ us, ∀ a ∈ u.summands, ¬ P a) : t = .xor us := by
  have hzero : rest = 0 := by
    funext a
    by_contra hne
    have hleft : t.vec a = 0 := by
      by_contra hmem
      exact hPt a ((Term.vec_apply_ne_zero ht).1 hmem) (hrest a hne)
    have hright : (Term.xor us).vec a = 0 := by
      by_contra hmem
      obtain ⟨u, hu, hau⟩ := Term.exists_of_mem_summands_xor hus
        ((Term.vec_apply_ne_zero (Term.canonical_xor hus)).1 hmem)
      exact hPus u hu a hau (hrest a hne)
    have hat := congrFun hvec a
    rw [← Term.vec_xor hus, Pi.add_apply, hleft, hright, zero_add] at hat
    exact hne hat.symm
  rw [hzero, add_zero] at hvec
  rwa [← Term.vec_inj ht (Term.canonical_xor hus), Term.vec_xor hus]

/-- A term over given names has no open product. -/
theorem not_isOpenProduct {names : List Name} {t s : Term} (h : ∀ x ∈ t.vars, x.symbol ∈ names)
    (hs : s ∈ t.subterms) : ¬ IsOpenProduct names s := by
  rintro ⟨b, u, hb, rfl⟩
  have hvar : .var { symbol := b } ∈
      (Term.app productSymbol [.var { symbol := b }, u]).subterms := by simp
  exact hb (h { symbol := b } (Term.mem_vars_iff.2 (Term.mem_subterms_trans hs hvar)))

theorem before_valuation (v : Variable) : (valuation ranges α).before v =
    valuation (ranges.filterKeys fun w => compare w v == .lt) α := by
  refine congrArg Substitution.mk (FinMap.ext_get? fun w => ?_)
  change ((valuation ranges α).before v).get? w = (valuation _ α).get? w
  rw [Substitution.get?_before, get?_valuation, get?_valuation, FinMap.get?_filterKeys]
  split <;> rfl

theorem canonical_instances (v : Variable) (known : List Term) :
    ∀ u ∈ instances (valuation ranges α) v known, u.Canonical := by
  rw [instances, List.forall_mem_map, before_valuation]
  exact fun t _ => Substitution.canonical_apply canonical_valuation _

/-- The choice of the adversary under values for some coefficients. -/
abbrev choice (outputs : List Term) (constraints : Constraints) (α : Name → Option Bool) :
    Substitution := valuation (Collision.ranges outputs constraints) α

theorem mem_domain_choice : v ∈ (choice outputs constraints α).domain ↔ v ∈ constraints.keys := by
  rw [Substitution.mem_domain, FinMap.mem_keys]
  constructor
  · rintro ⟨t, ht⟩
    rw [get?_valuation] at ht
    obtain ⟨r, hr, _⟩ := Option.map_eq_some_iff.1 ht
    exact exists_of_get?_ranges hr
  · rintro ⟨known, hknown⟩
    obtain ⟨_, _, hget⟩ := get?_ranges outputs hknown
    exact ⟨_, by rw [get?_valuation, hget, Option.map_some]⟩

section Choice

variable (hknown : ∀ v known, constraints.get? v = some known → ∀ t ∈ known, t.Canonical)

include hknown

theorem admits_known (hv : constraints.get? v = some known) : ∀ t ∈ known, Admits IsAtom t :=
  fun t ht => ⟨hknown v known hv t ht, fun _ => IsRigid.isAtom, fun _ _ => id⟩

theorem rangesInto_isAtom (outputs : List Term) :
    RangesInto IsAtom (Collision.ranges outputs constraints) :=
  rangesInto_ranges lasting_isAtom outputs fun _ _ hv => admits_known hknown hv

/-- A variable stands for a sum of instances of its known terms and of open products. -/
theorem exists_get?_choice (outputs : List Term) (α : Name → Option Bool)
    (hv : constraints.get? v = some known) :
    ∃ t, (choice outputs constraints α).get? v = some t ∧ t.Canonical ∧
      ∃ chosen : List Term, ∃ rest : Term → ZMod 2, chosen.Sublist known ∧
        t.vec = ((instances (choice outputs constraints α) v chosen).map Term.vec).sum + rest ∧
        (∀ a, rest a ≠ 0 → IsOpenProduct (givenNames outputs constraints) a) ∧
        ((∀ b, α b ≠ none) → rest = 0) := by
  obtain ⟨g, hg, hget⟩ := get?_ranges outputs hv
  have hbefore : RangesInto IsAtom
      ((Collision.ranges outputs constraints).filterKeys fun w => compare w v == .lt) := by
    intro w r hw
    rw [FinMap.get?_filterKeys] at hw
    split at hw
    · exact rangesInto_isAtom hknown outputs w r hw
    · cases hw
  have hscaled := scaled_products hbefore (admits_known hknown hv) g
  obtain ⟨chosen, rest, hsub, hvec, hopen, htotal⟩ := exists_vec_products
    ((Collision.ranges outputs constraints).filterKeys fun w => compare w v == .lt) g known α
  refine ⟨_, by rw [get?_valuation, hget, Option.map_some], canonical_value _, chosen, rest, hsub,
    ?_, fun a ha => ?_, htotal⟩
  · rw [value_simplify lasting_isAtom hscaled, hvec, instances, List.map_map, before_valuation]
    rfl
  · obtain ⟨b, u, hb, hu⟩ := hopen a ha
    exact ⟨b, u, fun hmem => hb (hg b hmem), hu⟩

/-- Values for all coefficients make real choices. -/
theorem isReal_choice_of_total (outputs : List Term) (hα : ∀ b, α b ≠ none) :
    IsReal constraints (choice outputs constraints α) := by
  intro v known hv
  obtain ⟨t, ht, hc, chosen, rest, hsub, hvec, _, htotal⟩ := exists_get?_choice hknown outputs α hv
  refine ⟨chosen, hsub, ht.trans (congrArg some ?_)⟩
  rw [htotal hα, add_zero] at hvec
  rwa [← Term.vec_inj hc (Term.canonical_xor (canonical_instances v chosen)),
    Term.vec_xor (canonical_instances v chosen)]

/-- Choices are real if no product is left open. -/
theorem isReal_choice_of_not_isOpenProduct
    (h : ∀ t ∈ (choice outputs constraints α).range, ∀ s ∈ t.subterms,
      ¬ IsOpenProduct (givenNames outputs constraints) s) :
    IsReal constraints (choice outputs constraints α) := by
  have hall : ∀ v ∈ constraints.keys,
      (∀ known, constraints.get? v = some known → ∃ chosen : List Term, chosen.Sublist known ∧
        (choice outputs constraints α).get? v =
          some (.xor (instances (choice outputs constraints α) v chosen))) ∧
      ∀ t, (choice outputs constraints α).get? v = some t →
        ∀ x ∈ t.vars, x.symbol ∈ givenNames outputs constraints := by
    refine FinMap.keys_induction fun v hv hbefore => ?_
    obtain ⟨known, hv⟩ := FinMap.mem_keys.1 hv
    obtain ⟨t, ht, hc, chosen, rest, hsub, hvec, hopen, _⟩ :=
      exists_get?_choice hknown outputs α hv
    have hgiven : ∀ u ∈ instances (choice outputs constraints α) v chosen, ∀ x ∈ u.vars,
        x.symbol ∈ givenNames outputs constraints :=
      mem_givenNames_of_mem_instances (fun w => mem_domain_choice.1)
        (fun w hw hlt => (hbefore w hw hlt).2) hv hsub
    have hbound : t ∈ (choice outputs constraints α).range := Substitution.mem_range.2 ⟨v, ht⟩
    -- an open product is a summand neither of what is bound nor of an instance
    obtain rfl : t = .xor (instances (choice outputs constraints α) v chosen) :=
      eq_xor_of_vec_eq hc (canonical_instances v chosen) hvec hopen
        (fun a ha => h t hbound a (Term.mem_subterms_of_mem_summands ha))
        fun u hu a ha => not_isOpenProduct (hgiven u hu) (Term.mem_subterms_of_mem_summands ha)
    refine ⟨fun known' hv' => ?_, fun t' ht' x hx => ?_⟩
    · cases hv.symm.trans hv'
      exact ⟨chosen, hsub, ht⟩
    · cases ht.symm.trans ht'
      obtain ⟨u, hu, hxu⟩ := Term.mem_vars_xor hx
      exact hgiven u hu x hxu
  exact fun v known hv => (hall v (FinMap.mem_keys.2 ⟨known, hv⟩)).1 known hv

/-- A sum that became zero makes its outputs cancel under all values of the coefficients that its
assignment leaves open. -/
theorem exists_cancelled_outputs {maxSteps : Nat} {a : AttackerTerm}
    (ha : a ∈ (saturate outputs constraints maxSteps).saturation.finished) (hz : a.term = .zero) :
    ∃ I : List (Fin outputs.length), I ≠ [] ∧ I.Nodup ∧ ∀ α, a.assignment.Within α →
      Term.xor (I.map fun i => (choice outputs constraints α).apply (outputs.get i)) = .zero := by
  have hranges := rangesInto_isAtom hknown outputs
  have hrep := represents_of_mem_finished lasting_isAtom hranges ha
  obtain ⟨I, hI⟩ := exists_map_val fun i hi => (hrep.places i hi).trans_eq (List.length_map _)
  refine ⟨I, ?_, List.Nodup.of_map Fin.val (hI ▸ hrep.distinct), fun α hα => ?_⟩
  · rintro rfl
    exact hrep.nonempty hI.symm
  · rw [hrep.xor_outputs lasting_isAtom hranges hα hI, hz, value_zero]

end Choice

end Collision

open Collision

/-- A collision binds the constrained variables. It is real exactly if it mentions no coefficient,
and exactly if no product is left open; and all values for the coefficients that were left open make
real choices of it, under which the same outputs cancel. -/
theorem collisions_real {outputs : List Term} {constraints : Constraints}
    (hknown : ∀ v known, constraints.get? v = some known → ∀ t ∈ known, t.Canonical)
    {maxSteps : Nat} {σ : Substitution}
    (hσ : σ ∈ (collisions outputs constraints maxSteps).solutions) :
    (∀ v, v ∈ σ.domain ↔ v ∈ constraints.keys) ∧
      [IsReal constraints σ,
        σ.Over fun x => x.symbol ∈ givenNames outputs constraints,
        ∀ t ∈ σ.range, ∀ s ∈ t.subterms,
          ¬ IsOpenProduct (givenNames outputs constraints) s].TFAE ∧
      ∃ γ : Assignment, σ = choice outputs constraints γ.get? ∧
        ∃ I : List (Fin outputs.length), I ≠ [] ∧ I.Nodup ∧ ∀ β : Name → Bool,
          γ.Within (some ∘ β) → IsReal constraints (choice outputs constraints (some ∘ β)) ∧
            Term.xor (I.map fun i =>
              (choice outputs constraints (some ∘ β)).apply (outputs.get i)) = .zero := by
  rw [solutions_collisions] at hσ
  obtain ⟨a, ha, hzero, hσ⟩ := exists_of_mem_solutions hσ
  obtain ⟨I, hne, hnodup, hcancel⟩ := exists_cancelled_outputs hknown ha hzero
  have hchoice : σ = choice outputs constraints a.assignment.get? :=
    instantiate_eq_valuation (rangesInto_isAtom hknown outputs) hσ
  subst hchoice
  refine ⟨fun v => mem_domain_choice, ?_, a.assignment, rfl, I, hne, hnodup, fun β hβ =>
    ⟨isReal_choice_of_total hknown outputs fun _ => Option.some_ne_none _, hcancel _ hβ⟩⟩
  tfae_have 1 → 2 := fun h => h.over fun _ => mem_domain_choice.1
  tfae_have 2 → 3 := fun h t ht s hs => not_isOpenProduct (h.range t ht) hs
  tfae_have 3 → 1 := isReal_choice_of_not_isOpenProduct hknown
  tfae_finish

section Samples

open Sample

theorem collisions_real_reusedOutputs :
    (∀ v known, chosenX.get? v = some known → ∀ t ∈ known, t.Canonical) ∧
      Substitution.single x a ∈ (collisions reusedOutputs chosenX 50).solutions ∧
      (Substitution.single x a).Over (fun w => w.symbol ∈ givenNames reusedOutputs chosenX) ∧
      IsReal chosenX (Substitution.single x a) := by
  have hknown : ∀ v known, chosenX.get? v = some known → ∀ t ∈ known, t.Canonical := by
    intro v known hv
    rw [(eq_of_get?_chosenX hv).2]
    decide
  have hfound : Substitution.single x a ∈ (collisions reusedOutputs chosenX 50).solutions := by
    rw [solutions_collisions, saturate_eq]
    decide +kernel
  have hover : (Substitution.single x a).Over fun w =>
      w.symbol ∈ givenNames reusedOutputs chosenX := by
    refine ⟨fun v hv => ?_, fun t ht => ?_⟩
    · rw [Substitution.mem_domain_single.1 hv]
      decide +kernel
    · rw [Substitution.mem_range_single.1 ht]
      simp [a]
  obtain ⟨_, htfae, _⟩ := collisions_real hknown hfound
  exact ⟨hknown, hfound, hover, (htfae.out 0 1).2 hover⟩

/-- A message that is sent twice cancels whatever is received. -/
def untouchedOutputs : List Term := [b, b]

/-- The product of the known term with its coefficient `b1`. -/
def openProduct : Term := .app CoeffTerm.productSymbol
  [.var { symbol := (freshCoefficients untouchedOutputs chosenX).next.1 }, a]

/-- The coefficient of a variable that the collision does not touch is never decided. -/
theorem collisions_not_real :
    Substitution.single x openProduct ∈ (collisions untouchedOutputs chosenX 50).solutions ∧
      ¬ IsReal chosenX (Substitution.single x openProduct) ∧
      IsOpenProduct (givenNames untouchedOutputs chosenX) openProduct := by
  refine ⟨?_, fun h => ?_, ?_⟩
  · rw [solutions_collisions, saturate_eq]
    decide +kernel
  · obtain ⟨chosen, hsub, hget⟩ := h x [a] rfl
    rcases List.sublist_singleton.1 hsub with rfl | rfl
    · exact absurd hget (by decide)
    · exact absurd hget (by decide)
  · exact ⟨_, _, by decide +kernel, rfl⟩

end Samples

end SymbolicXor
