import SymbolicXor.Proofs.AllowedValues
import SymbolicXor.Proofs.FollowedDecisions

/-!
# Tasks that are given up

At a task without a decision left, every candidate for a bad subterm is zero or was refused, so it
does not vanish under a solution that has gone on to the task. A constant has no candidate, an
application is compared with what is known, and the summands of a sum without variables are compared
in pairs. So if the term of a variable can be built from known constants and known applications that
the adversary cannot evaluate, nothing is missing for it, unless a bad subterm has a variable that
does not vanish, or was recorded as known but is not read so.
-/

namespace SymbolicXor

open Term Substitution

namespace Adversary

/-- Whether a term is a constant or an application of a symbol that the adversary cannot evaluate.
-/
def isSealed (a : Adversary) : Term → Bool
  | .const _ => true
  | .app f _ => !a.computes f
  | _ => false

/-- A bad subterm for the term of a variable that no decision repairs: a variable, or a sum with a
variable, that does not vanish; or a term that was recorded as known. -/
def Overlooked (constraints : Constraints) (Θ ρ : Substitution) (v : Variable) (m : Term) : Prop :=
  (∃ w, .var w ∈ m.summands ∧ ρ.lookup w ≠ zero) ∨
    ∃ ts, constraints.get? v = some ts ∧ m ∈ ts.map Θ.apply

section Stuck

variable {a : Adversary} {es : List Equation} {constraints : Constraints}
  {θ Θ ρ : Substitution} {g : FreshNames} {s : State} {v w : Variable} {f : FunctionSymbol}
  {t c : Term} {ts us : List Term}

/-- An instance of a sealed term has no summand but itself. -/
theorem eq_of_mem_summands_of_isSealed (hc : a.isSealed c = true) :
    ∀ s ∈ (θ.apply c).summands, s = θ.apply c := by
  intro s hs
  rcases eq_zero_or_atomic_or_sum (θ.apply c) with hz | hatom | ⟨us, hsum⟩
  · simp [hz] at hs
  · rw [summands_of_atomic hatom] at hs
    exact List.mem_singleton.1 hs
  · cases c with
    | const d => cases hsum
    | app f us =>
      rw [apply_app] at hsum
      cases hsum
    | _ => cases hc

/-- If the instance of a sealed term is a constant, so is the term. -/
theorem eq_const_of_isSealed (hc : a.isSealed c = true) {d : Constant}
    (h : θ.apply c = .const d) : c = .const d := by
  cases c with
  | const e => exact h
  | app f us => simp at h
  | _ => cases hc

/-- If it is an application, the term is one of the same symbol, which the adversary cannot
evaluate. -/
theorem exists_app_of_isSealed (hc : a.isSealed c = true) (h : θ.apply c = .app f us) :
    a.computes f = false ∧ ∃ vs, c = .app f vs := by
  cases c with
  | const e => simp at h
  | app g vs =>
    rw [apply_app, app.injEq] at h
    obtain ⟨rfl, _⟩ := h
    exact ⟨by simpa [isSealed] using hc, vs, rfl⟩
  | _ => cases hc

/-- The terms from which an attack that can be found is built: the sealed ones among the known
terms. -/
def sealedTerms (a : Adversary) (θ : Substitution) (ts : List Term) : List Term :=
  (ts.filter a.isSealed).map θ.apply

theorem mem_sealedTerms :
    t ∈ a.sealedTerms θ ts ↔ ∃ c ∈ ts, a.isSealed c = true ∧ θ.apply c = t := by
  simp [sealedTerms, and_assoc]

/-- Of a bad subterm no candidate is left. -/
theorem State.Stuck.candidate?_eq_none (h : s.Stuck a)
    (hbad : (v, t) ∈ a.badSubterms s.constraints s.substitution) :
    a.candidate? s.constraints (fun lhs => !lhs.isZero && !s.refused.contains lhs) v t = none :=
  List.findSome?_eq_none_iff.1 h.2 (v, t) hbad

section Follows

variable (h : Follows es constraints θ g s Θ ρ)

include h

/-- A left side that is not accepted is zero, or does not vanish. -/
theorem Follows.of_not_accepted
    (hno : Option.guard (fun lhs => !lhs.isZero && !s.refused.contains lhs) t = none) :
    t = zero ∨ ρ.apply t ≠ zero := by
  have haccept := Option.guard_eq_none_iff.1 hno
  rw [Bool.and_eq_false_iff, Bool.not_eq_false', Bool.not_eq_false', isZero, beq_iff_eq,
    List.contains_iff_mem] at haccept
  exact haccept.imp_right (h.refutes t)

/-- Two terms whose sum is not accepted have the same instance only if they are the same. -/
theorem Follows.eq_of_not_accepted {b d : Term} (hb : b.Canonical) (hd : d.Canonical)
    (hno : Option.guard (fun lhs => !lhs.isZero && !s.refused.contains lhs) (.xor [b, d]) = none)
    (heq : ρ.apply b = ρ.apply d) : b = d := by
  rcases h.of_not_accepted hno with hzero | hne
  · exact (xor_pair_eq_zero hb hd).1 hzero
  · refine absurd ?_ hne
    rw [apply_xor h.canonical (canonical_pair hb hd)]
    exact (xor_pair_eq_zero (canonical_apply h.canonical b) (canonical_apply h.canonical d)).2 heq

variable (hstuck : s.Stuck a)

include hstuck

/-- A variable that is bad does not vanish. -/
theorem Follows.lookup_ne_zero
    (hbad : (v, .var w) ∈ a.badSubterms s.constraints s.substitution) : ρ.lookup w ≠ zero :=
  (h.of_not_accepted (hstuck.candidate?_eq_none hbad)).resolve_left (by simp [zero])

/-- Nor does a variable in a sum that is bad. -/
theorem Follows.lookup_ne_zero_of_mem
    (hbad : (v, .sum us) ∈ a.badSubterms s.constraints s.substitution) (hw : .var w ∈ us) :
    ρ.lookup w ≠ zero := by
  have hno := hstuck.candidate?_eq_none hbad
  have hmem : .var w ∈ us.filter isVar := List.mem_filter.2 ⟨hw, rfl⟩
  simp only [candidate?, sumCandidate?] at hno
  split at hno
  · rename_i hnil
    rw [hnil] at hmem
    cases hmem
  · have hnone := Selection.findSubset?_eq_none.1 (List.findSome?_eq_none_iff.1 hno _ hmem)
    have hnil := hnone [] (List.nil_sublist us)
    rw [if_neg (by simp), List.nil_append, xor_singleton (canonical_var w)] at hnil
    exact (h.of_not_accepted hnil).resolve_left (by simp [zero])

/-- In a bad sum without variables all summands have different instances. -/
theorem Follows.nodup_map_apply (hc : Canonical (.sum us))
    (hbad : (v, .sum us) ∈ a.badSubterms s.constraints s.substitution)
    (hvars : ∀ u ∈ us, u.isVar = false) : (us.map ρ.apply).Nodup := by
  have hno := hstuck.candidate?_eq_none hbad
  have hnil : us.filter isVar = [] := by simpa using hvars
  simp only [candidate?, sumCandidate?, hnil] at hno
  have hpairs := Selection.pairwise_of_choose (List.findSome?_eq_none_iff.1 hno)
  have hnodup : us.Nodup := ((canonical_sum us).1 hc).1.2.1.nodup
  refine List.pairwise_map.2 ((hpairs.and hnodup).imp_of_mem fun {b d} hb hd hbd heq => ?_)
  exact hbd.2 (h.eq_of_not_accepted (((canonical_sum us).1 hc).2 b hb)
    (((canonical_sum us).1 hc).2 d hd) hbd.1 heq)

/-- A bad application differs, unless it is the same, in its instance from every known term that is
no variable. -/
theorem Follows.eq_of_apply_eq (hcan : (Term.app f us).Canonical) (hf : a.computes f = false)
    (hbad : (v, .app f us) ∈ a.badSubterms s.constraints s.substitution)
    (hts : s.constraints.get? v = some ts) (hc : c ∈ ts) (hcc : c.Canonical)
    (hvar : c.isVar = false) (heq : ρ.apply (.app f us) = ρ.apply c) : .app f us = c := by
  have hno := hstuck.candidate?_eq_none hbad
  simp only [candidate?, hf, Bool.false_eq_true, if_false, hts, Option.getD_some] at hno
  have hguard := List.findSome?_eq_none_iff.1 hno c hc
  rw [hvar, if_neg Bool.false_ne_true] at hguard
  exact h.eq_of_not_accepted hcan hcc hguard heq

end Follows

section Derivable

variable (hplain : ∀ v ts, constraints.get? v = some ts →
    ∀ c ∈ ts, ∀ w ∈ c.vars, Plain (freshNames es constraints) w)
  (hθ : θ.Into Canonical) (h : Follows es constraints θ g s Θ ρ) (hstuck : s.Stuck a)
  (hts : constraints.get? v = some ts)

include hplain h hts in
/-- A known term keeps its instance under the solution when the unifiers of the decisions are
applied. -/
theorem Follows.apply_decided (hmem : c ∈ ts) : ρ.apply (Θ.apply c) = θ.apply c := by
  have hspec := h.specializes
  rw [h.absorbs_decided.apply hspec.canonical_decided h.canonical]
  exact h.agrees.apply fun w hw => (hplain v ts hts c hmem w hw).1

theorem canonical_of_mem_sealedTerms (hθ : θ.Into Canonical) (ts : List Term) :
    ∀ k ∈ a.sealedTerms θ ts, k.Canonical := by
  intro k hk
  obtain ⟨c, _, _, rfl⟩ := mem_sealedTerms.1 hk
  exact canonical_apply hθ c

/-- An instance of a sealed term has no summand but itself. -/
theorem eq_of_mem_sealedTerms {k : Term} (hk : k ∈ a.sealedTerms θ ts) :
    ∀ s ∈ k.summands, s = k := by
  obtain ⟨c, _, hsealed, rfl⟩ := mem_sealedTerms.1 hk
  exact eq_of_mem_summands_of_isSealed hsealed

include hθ in
/-- A constant that can be built from the sealed terms is one of the known terms. -/
theorem const_mem_of_derivable {d : Constant} (hd : Term.const d ≠ zero)
    (hder : a.Derivable (· ∈ a.sealedTerms θ ts) (.const d)) : .const d ∈ ts := by
  have hmem : Term.const d ∈ (Term.const d).summands := by
    rw [summands_of_atomic ⟨hd, rfl⟩]
    exact List.mem_singleton_self _
  rcases hder.exists_of_mem_summands (canonical_of_mem_sealedTerms hθ ts) hmem with
    ⟨k, hk, hdk⟩ | ⟨f, us, heq, _⟩
  · obtain ⟨c, hcts, hsealed, rfl⟩ := mem_sealedTerms.1 hk
    exact eq_const_of_isSealed hsealed (eq_of_mem_summands_of_isSealed hsealed _ hdk).symm ▸ hcts
  · cases heq

include hθ in
/-- An application that can be built from the sealed terms is the instance of one of the known
terms, or evaluated from arguments that can be built. -/
theorem app_cases_of_derivable (hder : a.Derivable (· ∈ a.sealedTerms θ ts) (.app f us)) :
    (a.computes f = false ∧ ∃ vs, .app f vs ∈ ts ∧ θ.apply (.app f vs) = .app f us) ∨
      a.computes f = true ∧ ∀ u ∈ us, a.Derivable (· ∈ a.sealedTerms θ ts) u := by
  have hmem : Term.app f us ∈ (Term.app f us).summands := by
    rw [summands_of_atomic ⟨by simp [zero], rfl⟩]
    exact List.mem_singleton_self _
  rcases hder.exists_of_mem_summands (canonical_of_mem_sealedTerms hθ ts) hmem with
    ⟨k, hk, hfk⟩ | ⟨f', us', heq, hf, _, hargs⟩
  · obtain ⟨c, hcts, hsealed, rfl⟩ := mem_sealedTerms.1 hk
    have heq := eq_of_mem_summands_of_isSealed hsealed _ hfk
    obtain ⟨hf, vs, rfl⟩ := exists_app_of_isSealed hsealed heq.symm
    exact Or.inl ⟨hf, vs, hcts, heq.symm⟩
  · rw [app.injEq] at heq
    obtain ⟨rfl, rfl⟩ := heq
    exact Or.inr ⟨hf, hargs⟩

include hθ h hstuck in
/-- If a bad sum without variables can be built from the sealed terms under a solution that got
stuck, so can its summands, as no two of them cancel. -/
theorem Follows.derivable_of_mem (hcan : (Term.sum us).Canonical)
    (hbad : (v, .sum us) ∈ a.badSubterms s.constraints s.substitution)
    (hvars : ∀ u ∈ us, u.isVar = false)
    (hder : a.Derivable (· ∈ a.sealedTerms θ ts) (ρ.apply (.sum us))) :
    ∀ u ∈ us, a.Derivable (· ∈ a.sealedTerms θ ts) (ρ.apply u) := by
  have hatoms := ((canonical_sum us).1 hcan).1.2.2
  refine fun u hu => hder.of_mem_summands (canonical_of_mem_sealedTerms hθ ts)
    (fun k => eq_of_mem_sealedTerms) ?_
  rw [apply_sum]
  refine mem_summands_xor_of_nodup (h.nodup_map_apply hstuck hcan hbad hvars)
    (canonical_map_apply h.canonical us) (List.forall_mem_map.2 fun b hb => ?_)
    (List.mem_map_of_mem hu)
  exact atomic_apply (hatoms b hb) (hvars b hb)

include hplain h hstuck hts in
/-- A bad application has, unless it was recorded, another instance than every known term of its
symbol. -/
theorem Follows.ne_apply (hcan : (Term.app f us).Canonical) (hf : a.computes f = false)
    (hbad : (v, .app f us) ∈ a.badSubterms s.constraints s.substitution)
    (hnew : .app f us ∉ ts.map Θ.apply) {vs : List Term} (hmem : .app f vs ∈ ts) :
    θ.apply (.app f vs) ≠ ρ.apply (.app f us) := by
  intro heq
  have hspec := h.specializes
  have hget : s.constraints.get? v = some (ts.map Θ.apply) := by
    rw [hspec.constraints, hts, Option.map_some]
  have hsame : Term.app f us = Θ.apply (.app f vs) :=
    h.eq_of_apply_eq hstuck hcan hf hbad hget (List.mem_map_of_mem hmem)
      (canonical_apply hspec.canonical_decided _) (by rw [apply_app]; rfl)
      (heq.symm.trans (h.apply_decided hplain hts hmem).symm)
  exact hnew (hsame ▸ List.mem_map_of_mem hmem)

include hplain hθ h hstuck hts in
/-- At a task without a decision, if no bad subterm for a variable is overlooked, nothing is missing
for a term whose instance can be built from the sealed terms. -/
theorem Follows.missing_eq_nil
    (hno : ∀ m, (v, m) ∈ a.badSubterms s.constraints s.substitution →
      ¬ Overlooked constraints Θ ρ v m)
    (hcan : t.Canonical)
    (hbad : ∀ m ∈ a.missing (recorded s.substitution Θ v ts) t,
      (v, m) ∈ a.badSubterms s.constraints s.substitution)
    (hder : a.Derivable (· ∈ a.sealedTerms θ ts) (ρ.apply t)) :
    a.missing (recorded s.substitution Θ v ts) t = [] := by
  induction t using Term.induction with
  | var w =>
    by_contra hne
    have hw := hbad _ (mem_missing_self hne)
    exact hno _ hw (Or.inl ⟨w, List.mem_singleton_self _, h.lookup_ne_zero hstuck hw⟩)
  | const d =>
    -- A constant comes from a known one only, and that is recorded as it is.
    by_cases hd : Term.const d = zero
    · rw [hd]
      simp [missing, zero, isZero]
    · have hmem : Term.const d ∈ ts := const_mem_of_derivable hθ hd (by simpa using hder)
      exact missing_of_mem (List.mem_map.2 ⟨_, hmem, by rw [apply_const, apply_const]⟩)
  | app f us ih =>
    by_contra hne
    have hself := hbad _ (mem_missing_self hne)
    rcases app_cases_of_derivable hθ (by simpa using hder) with ⟨hf, vs, hmem, heq⟩ | ⟨hf, hargs⟩
    · refine h.ne_apply hplain hstuck hts hcan hf hself (fun hrec => ?_) hmem
        (heq.trans (apply_app f us).symm)
      exact hno _ hself (Or.inr ⟨ts, hts, hrec⟩)
    · have hn : Term.app f us ∉ recorded s.substitution Θ v ts := mt missing_of_mem hne
      refine hne (missing_app_eq_nil hf fun u hu => ih u hu ?_ (fun m hm => ?_) ?_)
      · exact (canonical_app f us).1 hcan u hu
      · exact hbad m (mem_missing_app hf hn hu hm)
      · exact hargs _ (List.mem_map_of_mem hu)
  | sum us ih =>
    by_contra hne
    have hself := hbad _ (mem_missing_self hne)
    have hvars : ∀ u ∈ us, u.isVar = false := by
      intro u hu
      cases u with
      | var w =>
        exact absurd (Or.inl ⟨w, hu, h.lookup_ne_zero_of_mem hstuck hself hu⟩) (hno _ hself)
      | _ => rfl
    have hn : Term.sum us ∉ recorded s.substitution Θ v ts := mt missing_of_mem hne
    have hparts := h.derivable_of_mem hθ hstuck hcan hself hvars hder
    refine hne (missing_sum_eq_nil fun u hu => ih u hu ?_ (fun m hm => ?_) (hparts u hu))
    · exact ((canonical_sum us).1 hcan).2 u hu
    · exact hbad m (mem_missing_sum hn hu hm)

include hplain hθ h hstuck in
/-- If a solution from whose sealed terms the constrained variables can be built goes on to a task
that is given up, then a bad subterm there is overlooked. -/
theorem Follows.exists_overlooked
    (hder : ∀ v ts, constraints.get? v = some ts →
      a.Derivable (· ∈ a.sealedTerms θ ts) (θ.lookup v)) :
    ∃ v m, (v, m) ∈ a.badSubterms s.constraints s.substitution ∧
      Overlooked constraints Θ ρ v m := by
  by_contra hnone
  have hspec := h.specializes
  obtain ⟨⟨v, m⟩, hbad⟩ := List.exists_mem_of_ne_nil _ hstuck.1
  obtain ⟨u, known, hu, hknown, hm⟩ := mem_badSubterms.1 hbad
  obtain ⟨ts, hts, rfl⟩ := Option.map_eq_some_iff.1 ((hspec.constraints v).symm.trans hknown)
  have hvalue : ρ.apply u = θ.lookup v :=
    calc ρ.apply u = ρ.apply (s.substitution.lookup v) := by rw [lookup_of_get? hu]
      _ = ρ.lookup v := h.absorbs v
      _ = θ.lookup v := h.agrees v (symbol_mem_freshNames_of_get? hts)
  have hmissing : a.missing (recorded s.substitution Θ v ts) u = [] := by
    refine h.missing_eq_nil hplain hθ hstuck hts
      (fun m' hm' hover => hnone ⟨v, m', hm', hover⟩)
      (hspec.canonical u (mem_range.2 ⟨v, hu⟩)) (fun m' hm' => ?_) (hvalue ▸ hder v ts hts)
    refine mem_badSubterms.2 ⟨u, ts.map Θ.apply, hu, hknown, ?_⟩
    rwa [List.map_map]
  rw [List.map_map] at hm
  exact List.not_mem_nil (hmissing ▸ hm)

end Derivable

end Stuck

end Adversary

end SymbolicXor
