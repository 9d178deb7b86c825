import SymbolicXor.Adversary.Syntactic
import SymbolicXor.Proofs.Presentations

/-!
# Exchanged sides

Exchanging the two terms that an adversary is to make equal does not change what their unifiers are,
but it can change which of them is found: of two variables that are to be equal the other one is
bound, and every other binding is spelled with the one that is left. Known terms are compared as
they are spelled, so a binding to a known term can become one to a term that is not known. Where all
sums are ground and no known term shares a variable with the two terms, the sides do not matter.
-/

namespace SymbolicXor

open Term Substitution

namespace Substitution

variable {θ : Substitution} {t : Term} {v : Variable}

/-- An instance of a term that is no variable is none either, if no sum can cancel. -/
theorem isVar_apply (hc : t.Canonical) (hs : t.SumsGround) (h : t.isVar = false) :
    (θ.apply t).isVar = false := by
  cases t with
  | var v => cases h
  | const c => exact h
  | app f ts =>
    rw [apply_app]
    rfl
  | sum ts => rwa [apply_of_sumsGround hc hs]

/-- A variable that does not stand for a variable is bound. -/
theorem get?_of_isVar_lookup (h : (θ.lookup v).isVar = false) :
    θ.get? v = some (θ.lookup v) := by
  cases hv : θ.get? v with
  | none => simp [lookup, hv, isVar] at h
  | some t => rw [lookup_of_get? hv]

end Substitution

namespace Adversary

open Unification

section Exchange

variable {σ τ : Substitution} {s t u : Term} {x : Variable} {constraints : Constraints}

theorem violates_eq_true : violates constraints x u = true ↔
    u.isVar = false ∧ ∃ known, constraints.get? x = some known ∧ u ∉ known := by
  simp [violates, Option.any_eq_true]

/-- A unifier is answered, unless one of its bindings violates a constraint. -/
theorem unifySyntactic_of_unify (constraints : Constraints) (h : unifyTerms s t = .ok σ) :
    unifySyntactic s t constraints = .ok σ ∧
        (∀ x u, σ.get? x = some u → violates constraints x u = false) ∨
      ∃ x u, unifySyntactic s t constraints = .error (.constraintViolation x u) ∧
        σ.get? x = some u ∧ violates constraints x u = true := by
  cases hfind : σ.bindings.entries.find? fun e => violates constraints e.1 e.2 with
  | none =>
    have hok : unifySyntactic s t constraints = .ok σ := by simp only [unifySyntactic, h, hfind]
    rw [List.find?_eq_none] at hfind
    refine .inl ⟨hok, fun x u hx => ?_⟩
    simpa using hfind (x, u) (FinMap.get?_eq_some_iff.1 hx)
  | some e =>
    have herr : unifySyntactic s t constraints = .error (.constraintViolation e.1 e.2) := by
      simp only [unifySyntactic, h, hfind]
    have hmem := FinMap.get?_eq_some_iff.2 (List.mem_of_find?_eq_some hfind)
    have hviolates := List.find?_some hfind
    exact .inr ⟨e.1, e.2, herr, hmem, hviolates⟩

/-- An answer is a unifier whose bindings violate no constraint. -/
theorem unify_of_unifySyntactic (h : unifySyntactic s t constraints = .ok σ) :
    unifyTerms s t = .ok σ ∧
      ∀ x u, σ.get? x = some u → violates constraints x u = false := by
  cases hσ : unifyTerms s t with
  | error e =>
    rw [unifySyntactic, hσ] at h
    cases h
  | ok ρ =>
    rcases unifySyntactic_of_unify constraints hσ with ⟨hok, hall⟩ | ⟨x, u, herr, _⟩
    · obtain rfl : ρ = σ := Except.ok.inj (hok.symm.trans h)
      exact ⟨rfl, hall⟩
    · rw [h] at herr
      cases herr

theorem unifySyntactic_of_unify_error {e : UnifyError} (h : unifyTerms s t = .error e) :
    unifySyntactic s t constraints = .error (.notUnifiable e) := by
  rw [unifySyntactic, h]

theorem both_pair {P : Term → Prop} (hs : P s) (ht : P t) :
    ∀ e ∈ [(⟨s, t⟩ : Equation)], e.Both P :=
  List.forall_mem_singleton.2 ⟨hs, ht⟩

theorem solves_pair : σ.Solves [⟨s, t⟩] ↔ σ.apply s = σ.apply t := List.forall_mem_singleton

/-- The two presentations of an equation. -/
theorem rearranged_pair (s t : Term) : Rearranged [⟨s, t⟩] [⟨t, s⟩] :=
  ⟨[⟨s, t⟩], .refl _, .cons (.inr rfl) .nil⟩

/-- The unification of two terms the other way round, if the first one makes them equal. -/
theorem unifyTerms_exchanged (hs : s.Canonical) (ht : t.Canonical) (hsa : s.RespectsArity)
    (hta : t.RespectsArity) (hσ : unifyTerms s t = .ok σ) (heq : σ.apply s = σ.apply t) :
    (∃ τ, unifyTerms t s = .ok τ ∧ τ.apply t = τ.apply s ∧ σ.Absorbs τ ∧ τ.Absorbs σ) ∨
      ∃ err, unifyTerms t s = .error err ∧ err.LeavesOpen σ ∧ ¬ (s.SumsGround ∧ t.SumsGround) := by
  have hc := both_pair hs ht
  have hcan : σ.Into Canonical := unify_into kept_canonical hc hσ
  have hsolves : σ.Solves [⟨t, s⟩] := solves_pair.2 heq.symm
  rcases unify_or_leavesOpen (both_pair ht hs) (both_pair hta hsa) hcan (unify_wellSorted hσ)
    hsolves with ⟨τ, hτ, hsτ, _⟩ | ⟨err, herr, hopen⟩
  · have hcan' : τ.Into Canonical := unify_into kept_canonical (both_pair ht hs) hτ
    have heq' : τ.apply t = τ.apply s := solves_pair.1 hsτ
    exact .inl ⟨τ, hτ, heq', unify_absorbs (both_pair ht hs) hτ hcan hsolves,
      unify_absorbs hc hσ hcan' (solves_pair.2 heq'.symm)⟩
  · refine .inr ⟨err, herr, hopen, fun ⟨hgs, hgt⟩ => ?_⟩
    obtain ⟨τ, hτ, _⟩ := exists_unify_of_rearranged (rearranged_pair s t) hc (both_pair hsa hta)
      (both_pair hgs hgt) ⟨σ, hσ, solves_pair.2 heq⟩
    rw [herr] at hτ
    cases hτ

/-- A term that is not known at a variable is the value of the variable in another spelling: it
holds a variable that is bound, and if the value itself is no variable then it is known. -/
structure Respells (constraints : Constraints) (σ : Substitution) (x : Variable) (u : Term) :
    Prop where
  /-- The term is no variable. -/
  nonvar : u.isVar = false
  /-- It has the value of the variable. -/
  value : σ.apply u = σ.lookup x
  /-- It is not known, in contrast to the value. -/
  known : ∃ known, constraints.get? x = some known ∧ u ∉ known ∧
    ((σ.lookup x).isVar = false → σ.lookup x ∈ known)
  /-- A variable of the term is bound. -/
  bound : ∃ v ∈ u.vars, v ∈ σ.domain

/-- A binding that violates a constraint while another unifier of the terms violates none respells
the value that this one gives to the variable. -/
theorem respells_of_violates (hτ : τ.Into Canonical) (habs : σ.Absorbs τ)
    (hall : ∀ x u, σ.get? x = some u → violates constraints x u = false)
    (hx : τ.get? x = some u) (hu : violates constraints x u = true) :
    Respells constraints σ x u := by
  obtain ⟨hvar, known, hknown, hmem⟩ := violates_eq_true.1 hu
  have hcu : u.Canonical := hτ u (mem_range.2 ⟨x, hx⟩)
  have hvalue : σ.apply u = σ.lookup x := by
    have h := habs x
    rwa [lookup_of_get? hx] at h
  have hallowed : (σ.lookup x).isVar = false → σ.lookup x ∈ known := by
    intro hlookup
    by_contra hnot
    have hw := hall x _ (get?_of_isVar_lookup hlookup)
    rw [violates_eq_true.2 ⟨hlookup, known, hknown, hnot⟩] at hw
    cases hw
  refine ⟨hvar, hvalue, ⟨known, hknown, hmem, hallowed⟩, ?_⟩
  by_contra hfree
  push Not at hfree
  -- Without a bound variable the term is the value itself, which is known.
  have hself : σ.apply u = u := apply_eq_self hcu fun v hv => lookup_of_not_mem_domain (hfree v hv)
  have heq : σ.lookup x = u := hvalue.symm.trans hself
  exact hmem (heq ▸ hallowed (heq ▸ hvar))

/-- If no sum can cancel, a bound variable of a term that another unifier assigns is bound to a
variable. -/
theorem exists_var_of_bound (hσ : σ.Into fun t => t.Canonical ∧ t.SumsGround) (hτ : τ.SolvedForm)
    (habs : τ.Absorbs σ) (hx : τ.get? x = some u) {v : Variable} (hv : v ∈ u.vars)
    (hbound : v ∈ σ.domain) : ∃ w, σ.get? v = some (.var w) := by
  obtain ⟨t, ht⟩ := mem_domain.1 hbound
  have hfree : v ∉ τ.domain := fun hd => hτ v hd u (mem_range.2 ⟨x, hx⟩) hv
  have hself : τ.apply t = .var v := by
    have h := habs v
    rwa [lookup_of_get? ht, lookup_of_not_mem_domain hfree] at h
  obtain ⟨hc, hg⟩ := hσ t (mem_range.2 ⟨v, ht⟩)
  cases t with
  | var w => exact ⟨w, ht⟩
  | _ =>
    have hvar : (τ.apply _).isVar = false := isVar_apply hc hg rfl
    rw [hself] at hvar
    cases hvar

/-- No known term shares a variable with two terms, unless it is a variable itself. -/
def KnownApart (constraints : Constraints) (s t : Term) : Prop :=
  ∀ known ∈ constraints.values, ∀ u ∈ known, u.isVar = false →
    ∀ v ∈ u.vars, v ∉ s.vars ∧ v ∉ t.vars

instance : Decidable (KnownApart constraints s t) :=
  inferInstanceAs (Decidable (∀ known ∈ constraints.values, ∀ u ∈ known, u.isVar = false →
    ∀ v ∈ u.vars, v ∉ s.vars ∧ v ∉ t.vars))

theorem KnownApart.symm (h : KnownApart constraints s t) : KnownApart constraints t s :=
  fun known hknown u hu hvar v hv => (h known hknown u hu hvar v hv).symm

/-- A known term that a unifier assigns has no other spelling if it has variables of its own. -/
theorem not_respells_of_knownApart (h : KnownApart constraints s t) (hs : s.Canonical)
    (ht : t.Canonical) (hσ : unifyTerms s t = .ok σ) (habs : τ.Absorbs σ)
    (hx : τ.get? x = some u) (hu : u.Canonical ∧ u.SumsGround) : ¬ Respells constraints σ x u := by
  intro hspell
  obtain ⟨known, hknown, hmem, hallowed⟩ := hspell.known
  obtain ⟨_, _, hrange⟩ := unify_apart hσ
  have hlookup : (σ.lookup x).isVar = false := by
    rw [← hspell.value]
    exact isVar_apply hu.1 hu.2 hspell.nonvar
  have hin := hallowed hlookup
  have hw : σ.lookup x ∈ σ.range := mem_range.2 ⟨x, get?_of_isVar_lookup hlookup⟩
  have hground : ∀ v, v ∉ (σ.lookup x).vars := by
    intro v hv
    obtain ⟨hvs, hvt⟩ := h known (FinMap.mem_values.2 ⟨x, hknown⟩) _ hin hlookup v hv
    obtain ⟨e, he, hve⟩ := mem_uniqueVars.1 (hrange _ hw v hv)
    obtain rfl := List.mem_singleton.1 he
    exact hve.elim hvs hvt
  have hself : τ.apply (σ.lookup x) = σ.lookup x :=
    apply_eq_self (unify_into kept_canonical (both_pair hs ht) hσ _ hw)
      fun v hv => absurd hv (hground v)
  have heq : σ.lookup x = u := by rw [← hself, habs x, lookup_of_get? hx]
  exact hmem (heq ▸ hin)

/-- The answer for the terms the other way round, if a unifier is found there as well. -/
theorem unifySyntactic_of_unifiers (hs : s.Canonical) (ht : t.Canonical)
    (hσ : unifySyntactic s t constraints = .ok σ) (hτ : unifyTerms t s = .ok τ)
    (hστ : σ.Absorbs τ) (hτσ : τ.Absorbs σ) :
    unifySyntactic t s constraints = .ok τ ∨
      ∃ x u, unifySyntactic t s constraints = .error (.constraintViolation x u) ∧
        Respells constraints σ x u ∧ (s.SumsGround → t.SumsGround →
          (∃ v ∈ u.vars, ∃ w, σ.get? v = some (.var w)) ∧ ¬ KnownApart constraints s t) := by
  obtain ⟨hunify, hall⟩ := unify_of_unifySyntactic hσ
  rcases unifySyntactic_of_unify constraints hτ with
    ⟨hok, _⟩ | ⟨x, u, herr, hx, hviolates⟩
  · exact .inl hok
  · have hspell : Respells constraints σ x u :=
      respells_of_violates (unify_into kept_canonical (both_pair ht hs) hτ) hστ hall hx hviolates
    refine .inr ⟨x, u, herr, hspell, fun hgs hgt => ⟨?_, fun hapart => ?_⟩⟩
    · obtain ⟨v, hv, hbound⟩ := hspell.bound
      exact ⟨v, hv, exists_var_of_bound
        (unify_into kept_sumsGround (both_pair ⟨hs, hgs⟩ ⟨ht, hgt⟩) hunify) (unify_apart hτ).1 hτσ
        hx hv hbound⟩
    · exact not_respells_of_knownApart hapart hs ht hunify hτσ hx
        (unify_into kept_sumsGround (both_pair ⟨ht, hgt⟩ ⟨hs, hgs⟩) hτ u (mem_range.2 ⟨x, hx⟩))
        hspell

/-- Where all sums are ground and the known terms have variables of their own, a unifier is answered
for both orders of sides or for none. -/
theorem exists_unifySyntactic_exchanged (hs : s.Canonical) (ht : t.Canonical)
    (hsa : s.RespectsArity) (hta : t.RespectsArity) (hgs : s.SumsGround) (hgt : t.SumsGround)
    (hapart : KnownApart constraints s t)
    (hfound : ∃ σ, unifySyntactic s t constraints = .ok σ ∧ σ.apply s = σ.apply t) :
    ∃ τ, unifySyntactic t s constraints = .ok τ ∧ τ.apply t = τ.apply s := by
  obtain ⟨σ, hσ, heq⟩ := hfound
  rcases unifyTerms_exchanged hs ht hsa hta (unify_of_unifySyntactic hσ).1 heq with
    ⟨τ, hτ, heq', hστ, hτσ⟩ | ⟨_, _, _, hopen⟩
  · rcases unifySyntactic_of_unifiers hs ht hσ hτ hστ hτσ with hok | ⟨_, _, _, _, hground⟩
    · exact ⟨τ, hok, heq'⟩
    · exact absurd hapart (hground hgs hgt).2
  · exact absurd ⟨hgs, hgt⟩ hopen

/-- If a unifier is answered for two terms, one is answered for the terms the other way round, and
the two are instances of each other; or a binding of the other unifier violates a constraint because
it is spelled in another way than the one that is known; or a sum with variables is compared that
may cancel. Where all sums are ground and the known terms have variables of their own, the sides do
not matter. -/
theorem unifySyntactic_exchanged (hs : s.Canonical) (ht : t.Canonical) (hsa : s.RespectsArity)
    (hta : t.RespectsArity) (constraints : Constraints) :
    (∀ σ, unifySyntactic s t constraints = .ok σ → σ.apply s = σ.apply t →
      (∃ τ, unifySyntactic t s constraints = .ok τ ∧ τ.apply t = τ.apply s ∧
        (∀ u, σ.apply (τ.apply u) = σ.apply u) ∧ ∀ u, τ.apply (σ.apply u) = τ.apply u) ∨
      (∃ x u, unifySyntactic t s constraints = .error (.constraintViolation x u) ∧
        Respells constraints σ x u ∧ (s.SumsGround → t.SumsGround →
          (∃ v ∈ u.vars, ∃ w, σ.get? v = some (.var w)) ∧ ¬ KnownApart constraints s t)) ∨
      ∃ err, unifySyntactic t s constraints = .error (.notUnifiable err) ∧ err.LeavesOpen σ ∧
        ¬ (s.SumsGround ∧ t.SumsGround)) ∧
    (s.SumsGround → t.SumsGround → KnownApart constraints s t →
      ((∃ σ, unifySyntactic s t constraints = .ok σ ∧ σ.apply s = σ.apply t) ↔
        ∃ τ, unifySyntactic t s constraints = .ok τ ∧ τ.apply t = τ.apply s)) := by
  constructor
  · intro σ hσ heq
    have hunify := (unify_of_unifySyntactic hσ).1
    rcases unifyTerms_exchanged hs ht hsa hta hunify heq with
      ⟨τ, hτ, heq', hστ, hτσ⟩ | ⟨err, herr, hopen⟩
    · have hcan : σ.Into Canonical := unify_into kept_canonical (both_pair hs ht) hunify
      have hcan' : τ.Into Canonical := unify_into kept_canonical (both_pair ht hs) hτ
      exact (unifySyntactic_of_unifiers hs ht hσ hτ hστ hτσ).imp
        (fun hok => ⟨τ, hok, heq', hστ.apply hcan' hcan, hτσ.apply hcan hcan'⟩) .inl
    · exact .inr (.inr ⟨err, unifySyntactic_of_unify_error herr, hopen⟩)
  · intro hgs hgt hapart
    exact ⟨exists_unifySyntactic_exchanged hs ht hsa hta hgs hgt hapart,
      exists_unifySyntactic_exchanged ht hs hta hsa hgt hgs hapart.symm⟩

end Exchange

open Sample

/-- Two variables. -/
def variablePair : Term := .app p [.var x, .var z]

/-- A variable, and an image of one of the two variables. -/
def imagePair : Term := .app p [.var y, .app f [.var x]]

/-- The image is known with the other variable in it. -/
def knownImage : Constraints := ⟨[(z, [.app f [.var y]])], by decide⟩

/-- The known image is assigned. -/
def imageAssigned : Substitution := ⟨⟨[(x, .var y), (z, .app f [.var y])], by decide⟩⟩

/-- With the variables on the left, the image is spelled as it is known. -/
theorem unifySyntactic_variablePair :
    unifySyntactic variablePair imagePair knownImage = .ok imageAssigned := by
  cbv

/-- With the variables on the right, the image is spelled as it stands. -/
theorem unifySyntactic_imagePair : unifySyntactic imagePair variablePair knownImage =
    .error (.constraintViolation z (.app f [.var x])) := by
  cbv

/-- A variable, and an image without variables. -/
def groundPair : Term := .app p [.var y, .app g [a]]

/-- The image without variables is known. -/
def knownGround : Constraints := ⟨[(z, [.app g [a]])], by decide⟩

/-- The known image without variables is assigned. -/
def groundAssigned : Substitution := ⟨⟨[(x, .var y), (z, .app g [a])], by decide⟩⟩

theorem unifySyntactic_exchanged_pairs :
    (variablePair.Canonical ∧ imagePair.Canonical ∧ variablePair.RespectsArity ∧
      imagePair.RespectsArity ∧
      unifySyntactic variablePair imagePair knownImage = .ok imageAssigned ∧
      imageAssigned.apply variablePair = imageAssigned.apply imagePair ∧
      variablePair.SumsGround ∧ imagePair.SumsGround ∧
      ∃ v u, unifySyntactic imagePair variablePair knownImage = .error (.constraintViolation v u) ∧
        Respells knownImage imageAssigned v u ∧
        ∃ v ∈ u.vars, ∃ w, imageAssigned.get? v = some (.var w)) ∧
    (groundPair.Canonical ∧ groundPair.RespectsArity ∧ groundPair.SumsGround ∧
      KnownApart knownGround variablePair groundPair ∧
      unifySyntactic variablePair groundPair knownGround = .ok groundAssigned ∧
      groundAssigned.apply variablePair = groundAssigned.apply groundPair ∧
      ∃ τ, unifySyntactic groundPair variablePair knownGround = .ok τ ∧
        τ.apply groundPair = τ.apply variablePair) := by
  have hc : variablePair.Canonical := by decide
  have hci : imagePair.Canonical := by decide
  have hcg : groundPair.Canonical := by decide
  have ha : variablePair.RespectsArity := by decide
  have hai : imagePair.RespectsArity := by decide
  have hag : groundPair.RespectsArity := by decide
  have hs : variablePair.SumsGround := by decide
  have hsi : imagePair.SumsGround := by decide
  have hsg : groundPair.SumsGround := by decide
  have hapart : KnownApart knownGround variablePair groundPair := by decide
  have heq : imageAssigned.apply variablePair = imageAssigned.apply imagePair := by decide
  have hokg : unifySyntactic variablePair groundPair knownGround = .ok groundAssigned := by cbv
  have heqg : groundAssigned.apply variablePair = groundAssigned.apply groundPair := by decide
  refine ⟨⟨hc, hci, ha, hai, unifySyntactic_variablePair, heq, hs, hsi, ?_⟩,
    hcg, hag, hsg, hapart, hokg, heqg, ?_⟩
  · rcases (unifySyntactic_exchanged hc hci ha hai knownImage).1 _ unifySyntactic_variablePair heq
      with ⟨τ, hτ, _⟩ | ⟨v, u, hu, hspell, hground⟩ | ⟨err, hopen, _⟩
    · rw [unifySyntactic_imagePair] at hτ
      cases hτ
    · exact ⟨v, u, hu, hspell, (hground hs hsi).1⟩
    · rw [unifySyntactic_imagePair] at hopen
      cases hopen
  · exact ((unifySyntactic_exchanged hc hcg ha hag knownGround).2 hs hsg hapart).1
      ⟨_, hokg, heqg⟩

/-- A sum with a variable, and a value for the variable. -/
def openSumPair : Term := .app p [.app f [.sum [.var x, b]], .var x]

/-- The sum with the value in it, and the value. -/
def valuePair : Term := .app p [.app f [.sum [a, b]], a]

/-- Whether the terms are made equal can depend on which is on the left: a binding is spelled in a
way that is not known, or a sum with a variable is compared before the variable is bound. -/
theorem unifySyntactic_depends_on_sides :
    (variablePair.Canonical ∧ imagePair.Canonical ∧ variablePair.RespectsArity ∧
      imagePair.RespectsArity ∧
      unifySyntactic variablePair imagePair knownImage = .ok imageAssigned ∧
      unifySyntactic imagePair variablePair knownImage =
        .error (.constraintViolation z (.app f [.var x]))) ∧
    (openSumPair.Canonical ∧ valuePair.Canonical ∧ openSumPair.RespectsArity ∧
      valuePair.RespectsArity ∧ unifySyntactic openSumPair valuePair ∅ = .ok (single x a) ∧
      unifySyntactic valuePair openSumPair ∅ =
        .error (.notUnifiable (.outsideTheory (.sum [a, b]) (.sum [.var x, b])))) :=
  ⟨⟨by decide, by decide, by decide, by decide, unifySyntactic_variablePair,
    unifySyntactic_imagePair⟩, by decide, by decide, by decide, by decide, by cbv, by cbv⟩

end Adversary

end SymbolicXor
