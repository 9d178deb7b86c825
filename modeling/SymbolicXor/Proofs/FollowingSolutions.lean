import Mathlib.Data.Finset.Max
import SymbolicXor.Proofs.SearchInvariants
import SymbolicXor.Proofs.SolvableSystems
import SymbolicXor.Proofs.WellSorted

/-!
# Following a solution through the search

Every rule passes a solution of a state on to one of the next states, if the variables accept their
values: the solution decides whether two summands are unified or refused. A state to which no rule
applies has no solution unless it is held up by a sort: the instance of an application with a
variable weighs more than that of the variable, and could only be cancelled by a variable with a
heavier instance, which again occurs in an application. What can hold up a state is a variable in a
sum of three or more that does not accept the sum of the others. So an exhaustive search finds a
unifier through which the solution factors, or gives up a state that is held up.
-/

namespace SymbolicXor

open Term Substitution

namespace Substitution

variable {θ : Substitution}

/-- If a term vanishes, each summand has the same instance as the sum of the others. -/
theorem apply_eq_of_perm (hθ : θ.Into Canonical) {t a : Term} {l : List Term} (ht : t.Canonical)
    (hl : t.summands.Perm (a :: l)) (h : θ.apply t = zero) : θ.apply a = θ.apply (xor l) := by
  have hmem : ∀ b ∈ a :: l, b.Canonical :=
    fun b hb => canonical_of_mem_summands ht (hl.mem_iff.2 hb)
  have hrest : ∀ b ∈ l, b.Canonical := fun b hb => hmem b (List.mem_cons_of_mem _ hb)
  have ha := canonical_apply hθ a
  have hxor := canonical_apply hθ (xor l)
  rw [← xor_pair_eq_zero ha hxor, eq_zero_iff_vec (canonical_xor (canonical_pair ha hxor)),
    vec_xor_pair ha hxor, vec_apply_xor hθ hrest]
  have hsum := vec_apply_eq_sum hθ t
  rwa [h, vec_zero, (hl.map fun b => vec (θ.apply b)).sum_eq, List.map_cons, List.sum_cons,
    eq_comm] at hsum

/-- If a sum of two terms vanishes, they have the same instance. -/
theorem apply_eq_of_pair (hθ : θ.Into Canonical) {t a b : Term} (ht : t.Canonical)
    (hl : t = .sum [a, b]) (h : θ.apply t = zero) : θ.apply a = θ.apply b := by
  have hb : b.Canonical := canonical_of_mem_summands ht (mem_summands_of_pair hl).2
  have hperm : t.summands.Perm (a :: [b]) := by simp [hl, summands]
  rw [apply_eq_of_perm hθ ht hperm h, xor_singleton hb]

/-- If a term vanishes in which two summands have the same instance, so does the sum of the
others. -/
theorem apply_rest_eq_zero (hθ : θ.Into Canonical) {t a b : Term} {l : List Term}
    (ht : t.Canonical) (hl : t.summands.Perm (a :: b :: l)) (h : θ.apply t = zero)
    (hab : θ.apply a = θ.apply b) : θ.apply (xor l) = zero := by
  have hrest : ∀ c ∈ l, c.Canonical := fun c hc =>
    canonical_of_mem_summands ht ((mem_summands_of_perm hl).2.2 c hc)
  rw [eq_zero_iff_vec (canonical_apply hθ _), vec_apply_xor hθ hrest]
  have hsum := vec_apply_eq_sum hθ t
  rwa [h, vec_zero, (hl.map fun c => vec (θ.apply c)).sum_eq, List.map_cons, List.map_cons,
    List.sum_cons, List.sum_cons, hab, ← add_assoc, add_self_eq_zero, zero_add, eq_comm] at hsum

/-- Instances of constants and applications are atomic. -/
theorem atomic_apply {a : Term} (ha : a.Atomic) (hvar : a.isVar = false) :
    (θ.apply a).Atomic := by
  cases a with
  | var v => simp [isVar] at hvar
  | const c => exact ha
  | app f ts =>
    rw [apply_app]
    exact ⟨by simp [zero], rfl⟩
  | sum ts => exact absurd ha.2 (by simp [isSum])

end Substitution

namespace XorUnification

namespace State

variable {s : State} {θ δ : Substitution}

/-- A substitution follows a state over variables that accept their values: it solves the equations,
absorbs the bindings, and keeps the disequations apart. -/
structure Followed (θ : Substitution) (s : State) : Prop where
  /-- The state is well-formed, over variables that accept their values. -/
  wellFormed : s.WellFormed θ.AcceptedAt
  /-- The equations are solved. -/
  solves : θ.Solves s.equations
  /-- The bindings are absorbed. -/
  absorbs : θ.Absorbs s.substitution
  /-- Terms decided to be different have different instances. -/
  refutes : ∀ d ∈ s.disequations, θ.apply d.left ≠ θ.apply d.right

theorem solves_normalize (hθ : θ.Into Canonical) {e : Equation} (he : e.Both Canonical) :
    θ.apply (normalize e).left = θ.apply (normalize e).right ↔
      θ.apply e.left = θ.apply e.right := by
  unfold normalize
  split
  · exact Iff.rfl
  · rw [apply_zero, apply_xor hθ (canonical_pair he.1 he.2)]
    exact xor_pair_eq_zero (canonical_apply hθ _) (canonical_apply hθ _)

theorem Followed.normalized (hθ : θ.Into Canonical) (h : s.Followed θ) :
    s.normalized.Followed θ := by
  refine ⟨h.wellFormed.normalized, List.forall_mem_map.2 fun e he => ?_, h.absorbs, h.refutes⟩
  exact (solves_normalize hθ (h.wellFormed.both_canonical he)).2 (h.solves e he)

/-- Bindings that the substitution absorbs may be applied. -/
theorem Followed.apply (hθ : θ.Into Canonical) (h : s.Followed θ) (hδ : δ.Into Canonical)
    (habs : θ.Absorbs δ) (hwf : (s.apply δ).WellFormed θ.AcceptedAt) :
    (s.apply δ).Followed θ := by
  refine ⟨hwf, ?_, h.absorbs.compose habs hδ hθ, ?_⟩
  · exact (Unification.solves_map_apply habs hδ hθ).2 h.solves
  · refine List.forall_mem_map.2 fun d hd => ?_
    simp only [Disequation.map]
    rw [habs.apply hδ hθ, habs.apply hδ hθ]
    exact h.refutes d hd

/-- A left side that is to be zero vanishes. -/
theorem Followed.apply_left_eq_zero (h : s.Followed θ) (hn : ∀ e ∈ s.equations, e.right = zero)
    {e : Equation} (he : e ∈ s.equations) : θ.apply e.left = zero := by
  rw [h.solves e he, hn e he, apply_zero]

/-- A variable that is a summand accepts its value. -/
theorem Followed.accepts (h : s.Followed θ) {e : Equation} (he : e ∈ s.equations) {v : Variable}
    (hv : .var v ∈ e.left.summands) : v.accepts (θ.lookup v) = true :=
  ((h.wellFormed.summand he hv).2.2 v (by simp)).1

theorem isRefused_comm (s : State) (t u : Term) : s.isRefused t u = s.isRefused u t := by
  simp only [isRefused, Bool.or_comm]

theorem sameHead_comm (t u : Term) : sameHead t u = sameHead u t := by
  cases t <;> cases u <;> simp [sameHead, Bool.beq_comm]

/-- A variable that occurs below no function symbol stands in a sum of three or more, and does not
accept the sum of the others. -/
def HeldUp (s : State) : Prop :=
  ∃ e ∈ s.equations, 3 ≤ e.left.summands.length ∧ ∃ v : Variable,
    .var v ∈ e.left.summands ∧ v ∉ constrainedVars s.equations ∧
      v.accepts (xor (e.left.summands.erase (.var v))) = false

/-- Without sorts no state is held up. -/
theorem WellFormed.not_heldUp (h : s.WellFormed (·.sort = none)) : ¬ s.HeldUp := by
  rintro ⟨e, he, _, v, hv, _, hrejects⟩
  have hsort : v.sort = none := ((h.summand he hv).2.2 v (by simp)).1
  rw [Variable.accepts_of_unsorted hsort] at hrejects
  cases hrejects

section Dead

variable (hθ : θ.Into Canonical) (h : s.Followed θ) (hn : ∀ e ∈ s.equations, e.right = zero)
  (hv : ∀ e ∈ s.equations, ∀ v : Variable, .var v ∈ e.left.summands →
    v ∈ constrainedVars s.equations ∨ v.accepts (xor (e.left.summands.erase (.var v))) = false)
  (hp : ∀ e ∈ s.equations, e.left.summands.Pairwise fun t u =>
    sameHead t u = true → s.isRefused t u = true)
  (hup : ¬ s.HeldUp)

include h hp in
/-- Different summands that are no variables have different instances. -/
theorem apply_ne_of_dead {e : Equation} (he : e ∈ s.equations) {a b : Term}
    (ha : a ∈ e.left.summands) (hb : b ∈ e.left.summands) (hne : a ≠ b)
    (hva : a.isVar = false) (hvb : b.isVar = false) : θ.apply a ≠ θ.apply b := by
  intro hab
  have hcan := (h.wellFormed.both_canonical he).1
  have hpair : sameHead a b = true → s.isRefused a b = true := by
    have hsymm : Std.Symm fun t u => sameHead t u = true → s.isRefused t u = true := by
      refine ⟨fun t u htu hut => ?_⟩
      rw [isRefused_comm]
      exact htu (sameHead_comm t u ▸ hut)
    exact (hp e he).forall ha hb hne
  cases a with
  | var v => simp [isVar] at hva
  | const c =>
    cases b with
    | const d => exact hne hab
    | app g us => simp at hab
    | var w => simp [isVar] at hvb
    | sum us => exact absurd (atomic_of_mem_summands hcan hb).2 (by simp [isSum])
  | app f ts =>
    cases b with
    | app g us =>
      have hfg : f = g := by
        rw [apply_app, apply_app, app.injEq] at hab
        exact hab.1
      have href := hpair (by simp [sameHead, hfg])
      obtain ⟨d, hd, hdab⟩ := List.any_eq_true.1 href
      simp only [Bool.or_eq_true, Bool.and_eq_true, beq_iff_eq] at hdab
      rcases hdab with ⟨hl, hr⟩ | ⟨hl, hr⟩
      · exact h.refutes d hd (by rw [hl, hr, hab])
      · exact h.refutes d hd (by rw [hl, hr, hab])
    | const d => simp at hab
    | var w => simp [isVar] at hvb
    | sum us => exact absurd (atomic_of_mem_summands hcan hb).2 (by simp [isSum])
  | sum ts => exact absurd (atomic_of_mem_summands hcan ha).2 (by simp [isSum])

include hθ h hn hv

/-- A variable that stands alone is constrained, since it accepts zero. -/
theorem mem_constrainedVars_of_alone {e : Equation} (he : e ∈ s.equations) {v : Variable}
    (hl : e.left.summands = [.var v]) : v ∈ constrainedVars s.equations := by
  have hmem : .var v ∈ e.left.summands := hl ▸ List.mem_singleton_self _
  have hcan := (h.wellFormed.both_canonical he).1
  have hvalue : θ.apply (.var v) = θ.apply (xor []) :=
    apply_eq_of_perm hθ hcan (hl ▸ List.Perm.refl _) (h.apply_left_eq_zero hn he)
  have haccepts := h.accepts he hmem
  refine (hv e he v hmem).resolve_right fun hrejects => ?_
  rw [hl, List.erase_cons_head] at hrejects
  rw [← apply_var, hvalue] at haccepts
  exact absurd (haccepts.symm.trans hrejects) (by decide)

/-- A variable beside a term that is no variable is constrained, since its value has the sort of
that term. -/
theorem mem_constrainedVars_of_beside {e : Equation} (he : e ∈ s.equations) {v : Variable}
    {a : Term} (hperm : e.left.summands.Perm [.var v, a]) (hvar : a.isVar = false) :
    v ∈ constrainedVars s.equations := by
  have hcan := (h.wellFormed.both_canonical he).1
  obtain ⟨hmem, ha, _⟩ := mem_summands_of_perm hperm
  have hvalue : θ.apply (.var v) = θ.apply (xor [a]) :=
    apply_eq_of_perm hθ hcan hperm (h.apply_left_eq_zero hn he)
  rw [xor_singleton (canonical_of_mem_summands hcan ha)] at hvalue
  have haccepts := h.accepts he hmem
  rw [← apply_var, hvalue,
    accepts_apply_of_rigid (atomic_of_mem_summands hcan ha).2 hvar] at haccepts
  refine (hv e he v hmem).resolve_right fun hrejects => ?_
  have herase : (e.left.summands.erase (.var v)).Perm [a] :=
    (hperm.erase _).trans (by rw [List.erase_cons_head])
  rw [List.perm_singleton.1 herase, xor_singleton (canonical_of_mem_summands hcan ha),
    haccepts] at hrejects
  cases hrejects

/-- Of two variables alone with each other one is constrained, since one accepts the other. -/
theorem exists_constrained_of_vars {e : Equation} (he : e ∈ s.equations) {v w : Variable}
    (hl : e.left.summands = [.var v, .var w]) :
    v ∈ constrainedVars s.equations ∨ w ∈ constrainedVars s.equations := by
  have hcan := (h.wellFormed.both_canonical he).1
  have hperm : e.left.summands.Perm [.var v, .var w] := hl ▸ List.Perm.refl _
  obtain ⟨hmemv, hmemw, _⟩ := mem_summands_of_perm hperm
  have hvalue : θ.apply (.var v) = θ.apply (xor [.var w]) :=
    apply_eq_of_perm hθ hcan hperm (h.apply_left_eq_zero hn he)
  rw [xor_singleton (canonical_var w)] at hvalue
  have hacceptsv := h.accepts he hmemv
  rw [← apply_var, hvalue] at hacceptsv
  have hne : Term.var v ≠ .var w := by
    intro heq
    have hnodup := (ordered_summands hcan).nodup
    simp [hl, heq] at hnodup
  rcases Variable.accepts_or_accepts hacceptsv (h.accepts he hmemw) with hvw | hwv
  · refine Or.inl ((hv e he v hmemv).resolve_right fun hrejects => ?_)
    rw [hl, List.erase_cons_head, xor_singleton (canonical_var w), hvw] at hrejects
    cases hrejects
  · refine Or.inr ((hv e he w hmemw).resolve_right fun hrejects => ?_)
    rw [hl, List.erase_cons_tail (by simpa using hne), List.erase_cons_head,
      xor_singleton (canonical_var v), hwv] at hrejects
    cases hrejects

omit hθ h hn in
include hup in
/-- In a sum of three or more, a variable is constrained. -/
theorem mem_constrainedVars_of_dead {e : Equation} (he : e ∈ s.equations)
    (hlen : 3 ≤ e.left.summands.length) {v : Variable} (hmem : .var v ∈ e.left.summands) :
    v ∈ constrainedVars s.equations := by
  by_contra hfree
  exact hup ⟨e, he, hlen, v, hmem, hfree, (hv e he v hmem).resolve_left hfree⟩

include hp hup

/-- The instance of a summand that is no variable is cancelled by that of a constrained one. -/
theorem exists_constrained_of_dead {e : Equation} (he : e ∈ s.equations) {a : Term}
    (ha : a ∈ e.left.summands) (hvar : a.isVar = false) :
    ∃ w ∈ constrainedVars s.equations, θ.apply a ∈ (θ.lookup w).summands := by
  have hcan := (h.wellFormed.both_canonical he).1
  have hatom := atomic_apply (θ := θ) (atomic_of_mem_summands hcan ha) hvar
  have hperm := List.perm_cons_erase ha
  have hzero := h.apply_left_eq_zero hn he
  have hothers : ∀ b ∈ e.left.summands.erase a, b.Canonical :=
    fun b hb => canonical_of_mem_summands hcan (List.mem_of_mem_erase hb)
  -- Some other summand `b` has the instance of `a` as a summand of its own instance.
  obtain ⟨b, hb, hab⟩ : ∃ b ∈ e.left.summands.erase a, θ.apply a ∈ (θ.apply b).summands := by
    have heq := apply_eq_of_perm hθ hcan hperm hzero
    rw [apply_xor hθ hothers] at heq
    have hmem : θ.apply a ∈ (xor ((e.left.summands.erase a).map θ.apply)).summands := by
      rw [← heq, summands_of_atomic hatom]
      exact List.mem_singleton_self _
    obtain ⟨u, hu, hau⟩ := exists_of_mem_summands_xor (canonical_map_apply hθ _) hmem
    obtain ⟨b, hb, rfl⟩ := List.mem_map.1 hu
    exact ⟨b, hb, hau⟩
  have hbe := List.mem_of_mem_erase hb
  have hne : a ≠ b := by
    rintro rfl
    exact (ordered_summands hcan).nodup.not_mem_erase hb
  by_cases hbvar : b.isVar = true
  · cases b with
    | var w =>
      refine ⟨w, ?_, hab⟩
      by_cases hlen : 3 ≤ e.left.summands.length
      · exact mem_constrainedVars_of_dead hv hup he hlen hbe
      -- The equation says that the two summands are equal.
      · have hpair := hperm.trans ((List.perm_cons_erase hb).cons a)
        have hcount := hpair.length_eq
        rw [List.length_cons, List.length_cons] at hcount
        have hnil : (e.left.summands.erase a).erase (.var w) = [] :=
          List.eq_nil_of_length_eq_zero (by omega)
        rw [hnil] at hpair
        exact mem_constrainedVars_of_beside hθ h hn hv he
          (hpair.trans (List.Perm.swap _ _ _)) hvar
    | _ => simp [isVar] at hbvar
  -- Otherwise the instances are equal, which the rules would have found out.
  · rw [Bool.not_eq_true] at hbvar
    have hbatom := atomic_apply (θ := θ) (atomic_of_mem_summands hcan hbe) hbvar
    rw [summands_of_atomic hbatom, List.mem_singleton] at hab
    exact absurd hab (apply_ne_of_dead h hp he ha hbe hne hvar hbvar)

/-- No constrained variable has an instance of greatest weight. -/
theorem exists_heavier_of_dead {v : Variable} (hmem : v ∈ constrainedVars s.equations) :
    ∃ w ∈ constrainedVars s.equations, (θ.lookup v).weight < (θ.lookup w).weight := by
  obtain ⟨e, he, hve⟩ := List.mem_flatMap.1 hmem
  rw [hn e he] at hve
  have hargs : v ∈ e.left.varsInArguments := by
    simpa [zero, varsInArguments] using hve
  obtain ⟨a, ha, hvar, hva⟩ :=
    (mem_varsInArguments (h.wellFormed.both_canonical he).1).1 hargs
  obtain ⟨w, hw, haw⟩ := exists_constrained_of_dead hθ h hn hv hp hup he ha hvar
  have hlt := weight_lookup_lt (θ := θ) (h.wellFormed.summand he ha).2.1.sumsGround hvar hva
  have hle := weight_le_of_mem_summands haw
  exact ⟨w, hw, by omega⟩

/-- An equation has a constrained variable. -/
theorem exists_mem_constrainedVars_of_dead {e : Equation} (he : e ∈ s.equations)
    (hz : e.left ≠ zero) : ∃ v, v ∈ constrainedVars s.equations := by
  by_cases hvars : ∀ a ∈ e.left.summands, a.isVar = true
  · -- The summands are variables, and there are one, two or more of them.
    have hmem {a : Term} (ha : a ∈ e.left.summands) : ∃ v, a = .var v := by
      cases a with
      | var v => exact ⟨v, rfl⟩
      | _ => exact absurd (hvars _ ha) (by simp [isVar])
    rcases hl : e.left.summands with _ | ⟨a, _ | ⟨b, _ | ⟨c, l⟩⟩⟩
    · have heq := ofSummands_summands (h.wellFormed.both_canonical he).1
      rw [hl, ofSummands] at heq
      exact absurd heq.symm hz
    · obtain ⟨v, rfl⟩ := hmem (hl ▸ List.mem_singleton_self a)
      exact ⟨v, mem_constrainedVars_of_alone hθ h hn hv he hl⟩
    · obtain ⟨v, rfl⟩ := hmem (hl ▸ List.mem_cons_self)
      obtain ⟨w, rfl⟩ := hmem (hl ▸ List.mem_cons_of_mem _ List.mem_cons_self)
      exact (exists_constrained_of_vars hθ h hn hv he hl).elim (⟨v, ·⟩) (⟨w, ·⟩)
    · have ha : a ∈ e.left.summands := hl ▸ List.mem_cons_self
      obtain ⟨v, rfl⟩ := hmem ha
      exact ⟨v, mem_constrainedVars_of_dead hv hup he (by simp [hl]) ha⟩
  · push Not at hvars
    obtain ⟨a, ha, hvar⟩ := hvars
    obtain ⟨w, hw, _⟩ :=
      exists_constrained_of_dead hθ h hn hv hp hup he ha (by simpa using hvar)
    exact ⟨w, hw⟩

/-- A dead state with a solution is held up. -/
theorem false_of_dead (hz : ∀ e ∈ s.equations, e.left ≠ zero) (hne : s.equations ≠ []) :
    False := by
  obtain ⟨e, he⟩ := List.exists_mem_of_ne_nil _ hne
  obtain ⟨v₀, hv₀⟩ := exists_mem_constrainedVars_of_dead hθ h hn hv hp hup he (hz e he)
  obtain ⟨v, hmem, hmax⟩ := (constrainedVars s.equations).toFinset.exists_max_image
    (fun v => (θ.lookup v).weight) ⟨v₀, List.mem_toFinset.2 hv₀⟩
  obtain ⟨w, hw, hlt⟩ := exists_heavier_of_dead hθ h hn hv hp hup (List.mem_toFinset.1 hmem)
  have hle := hmax w (List.mem_toFinset.2 hw)
  omega

end Dead

/-- Two summands with the same instance unify, and the solution absorbs their unifier. -/
theorem Followed.exists_unifyTerms (hθ : θ.Into Canonical) (h : s.Followed θ) {e : Equation}
    (he : e ∈ s.equations) {t u : Term} (ht : t ∈ e.left.summands) (hu : u ∈ e.left.summands)
    (heq : θ.apply t = θ.apply u) :
    ∃ δ, Unification.unifyTerms t u = .ok δ ∧ θ.Absorbs δ := by
  obtain ⟨hlt, hst, hvt⟩ := h.wellFormed.summand he ht
  obtain ⟨hlu, hsu, hvu⟩ := h.wellFormed.summand he hu
  have hc : ∀ d ∈ [Equation.mk t u], d.Both Canonical :=
    List.forall_mem_singleton.2 ⟨hlt.canonical, hlu.canonical⟩
  have hsolves : θ.Solves [⟨t, u⟩] := List.forall_mem_singleton.2 heq
  have hsorts : ∀ v ∈ Unification.uniqueVars [⟨t, u⟩], v.accepts (θ.lookup v) = true := by
    intro v hv
    obtain ⟨d, hd, hvd⟩ := Unification.mem_uniqueVars.1 hv
    rw [List.mem_singleton.1 hd] at hvd
    exact hvd.elim (fun hv => (hvt v hv).1) fun hv => (hvu v hv).1
  obtain ⟨δ, hδ⟩ := Unification.exists_unify_of_solves hc
    (List.forall_mem_singleton.2 ⟨hst.sumsGround, hsu.sumsGround⟩) hsorts hθ hsolves
  exact ⟨δ, hδ, Unification.unify_absorbs hc hδ hθ hsolves⟩

/-- Two summands with the same instance may be struck out. -/
theorem Followed.strike (hθ : θ.Into Canonical) (h : s.Followed θ)
    (hn : ∀ e ∈ s.equations, e.right = zero) {before after : List Equation} {e : Equation}
    {t u : Term} {rest : List Term} (hs : s.equations = before ++ e :: after)
    (hsum : e.left.summands.Perm (t :: u :: rest)) (heq : θ.apply t = θ.apply u) :
    ({ s with equations := before ++ ⟨xor rest, .zero⟩ :: after } : State).Followed θ := by
  have he : e ∈ s.equations := hs ▸ List.mem_append_cons_self
  have hcan := (h.wellFormed.both_canonical he).1
  have hrest : θ.apply (xor rest) = zero :=
    apply_rest_eq_zero hθ hcan hsum (h.apply_left_eq_zero hn he) heq
  have hsolves := h.solves
  rw [hs, Unification.solves_append, Unification.solves_cons] at hsolves
  refine ⟨h.wellFormed.strike hs hsum, ?_, h.absorbs, h.refutes⟩
  exact Unification.solves_append.2
    ⟨hsolves.1, Unification.solves_cons.2 ⟨hrest, hsolves.2.2⟩⟩

/-- Two summands with different instances may be decided to be different. -/
theorem Followed.refuse (h : s.Followed θ) {e : Equation} (he : e ∈ s.equations) {t u : Term}
    (ht : t ∈ e.left.summands) (hu : u ∈ e.left.summands) (hne : θ.apply t ≠ θ.apply u) :
    (s.refuse t u).Followed θ := by
  refine ⟨h.wellFormed.refuse he ht hu, h.solves, h.absorbs, ?_⟩
  exact List.forall_mem_append.2 ⟨h.refutes, List.forall_mem_singleton.2 hne⟩

/-- A substitution follows a state to one of the states after a rule, unless there is none because
the state is held up. -/
theorem Followed.rule (hθ : θ.Into Canonical) (h : s.Followed θ)
    (hn : ∀ e ∈ s.equations, e.right = zero) (hne : s.equations ≠ []) {states : List State}
    (hr : Rule s states) : (∃ s' ∈ states, s'.Followed θ) ∨ states = [] ∧ s.HeldUp := by
  have hwf {s' : State} (hs' : s' ∈ states) : s'.WellFormed θ.AcceptedAt :=
    h.wellFormed.rule hr hs'
  cases hr with
  | @trivial before after e hs he =>
    refine Or.inl ⟨_, List.mem_cons_self, hwf List.mem_cons_self, fun d hd => h.solves d ?_,
      h.absorbs, h.refutes⟩
    rw [hs, List.mem_append, List.mem_cons]
    exact (List.mem_append.1 hd).imp id Or.inr
  | @decompose e t u δ he hl hh hδ =>
    obtain ⟨ht, hu⟩ := mem_summands_of_pair hl
    have hcan := (h.wellFormed.both_canonical he).1
    have heq := apply_eq_of_pair hθ hcan hl (h.apply_left_eq_zero hn he)
    obtain ⟨δ', hδ', habs⟩ := h.exists_unifyTerms hθ he ht hu heq
    rw [hδ] at hδ'
    cases hδ'
    have hbinds := (h.wellFormed.binds_unifyTerms he ht hu hδ).1
    have hnext := h.apply hθ hbinds.canonical habs (hwf List.mem_cons_self)
    exact Or.inl ⟨_, List.mem_cons_self, hnext⟩
  | @clash e t u err he hl hh herr =>
    obtain ⟨ht, hu⟩ := mem_summands_of_pair hl
    have hcan := (h.wellFormed.both_canonical he).1
    have heq := apply_eq_of_pair hθ hcan hl (h.apply_left_eq_zero hn he)
    obtain ⟨δ, hδ, _⟩ := h.exists_unifyTerms hθ he ht hu heq
    rw [herr] at hδ
    cases hδ
  | @substitute e v he hv hfree =>
    have hcan := (h.wellFormed.both_canonical he).1
    have hzero := h.apply_left_eq_zero hn he
    have habs : θ.Absorbs (single v (xor (e.left.summands.erase (.var v)))) :=
      absorbs_single (apply_eq_of_perm hθ hcan (List.perm_cons_erase hv) hzero)
    have hbinds := (h.wellFormed.binds_single he hv hfree).1
    have hnext := h.apply hθ hbinds.canonical habs (hwf List.mem_cons_self)
    exact Or.inl ⟨_, List.mem_cons_self, hnext⟩
  | @split before after e t u rest δ hs hsum hh hδ =>
    have he : e ∈ s.equations := hs ▸ List.mem_append_cons_self
    obtain ⟨ht, hu, _⟩ := mem_summands_of_perm hsum
    -- The solution decides which of the two states to go on with.
    by_cases heq : θ.apply t = θ.apply u
    · obtain ⟨δ', hδ', habs⟩ := h.exists_unifyTerms hθ he ht hu heq
      rw [hδ] at hδ'
      cases hδ'
      have hbinds := (h.wellFormed.binds_unifyTerms he ht hu hδ).1
      have hstruck := h.strike hθ hn hs hsum heq
      have hnext := hstruck.apply hθ hbinds.canonical habs (hwf List.mem_cons_self)
      exact Or.inl ⟨_, List.mem_cons_self, hnext⟩
    · exact Or.inl ⟨_, List.mem_cons_of_mem _ List.mem_cons_self, h.refuse he ht hu heq⟩
  | @refute e t u err he ht hu hh herr =>
    refine Or.inl ⟨_, List.mem_cons_self, h.refuse he ht hu fun heq => ?_⟩
    obtain ⟨δ, hδ, _⟩ := h.exists_unifyTerms hθ he ht hu heq
    rw [herr] at hδ
    cases hδ
  | dead hz hv hp =>
    by_cases hup : s.HeldUp
    · exact Or.inr ⟨rfl, hup⟩
    · exact (false_of_dead hθ h hn hv hp hup hz hne).elim

/-- An exhaustive search finds a unifier that the substitution absorbs, or the substitution follows
it to a state that is given up and held up. -/
theorem Followed.exists_absorbed (hθ : θ.Into Canonical) (h : s.Followed θ) {budget : Budget}
    (hex : (Search.explore expand s budget).outcome.isExhaustive = true) :
    (∃ σ ∈ (Search.explore expand s budget).outcome.solutions, θ.Absorbs σ) ∨
      ∃ t, Search.Leads expand s t ∧ t.expand = .branches [] ∧ t.Followed θ ∧
        t.normalized.HeldUp := by
  refine Search.exists_or_stuck_of_explore (fun {s σ} hs hexp => ?_) (fun {s states} hs hexp => ?_)
    hex h
  · rw [(expand_eq_solved hexp).2]
    exact hs.absorbs
  · obtain ⟨hne, hr⟩ := expand_eq_branches hexp
    exact (hs.normalized hθ).rule hθ (fun e he => right_normalized he) hne hr

end State

end XorUnification

end SymbolicXor
