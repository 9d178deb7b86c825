import Mathlib.Data.Finset.Card
import Mathlib.Data.Prod.Lex
import Mathlib.Order.WellFounded
import SymbolicXor.Proofs.Samples
import SymbolicXor.Proofs.SearchInvariants

/-!
# Searches without an infinite branch

Every step of the search for unifiers modulo exclusive or makes a triple of numbers smaller: the
number of variables in the equations, that of equations, and that of pairs of summands with one head
that may still be tried. A unifier of two different summands binds a variable, which disappears from
the equations; what may grow instead, the sums, is not counted. So no branch of the search is
infinite, and since every state has finitely many next states, some budget lets it end by itself.
-/

namespace SymbolicXor

open Term Substitution

namespace Search

variable {σ α : Type} {expand : σ → Expansion σ α}

/-- A state is one of the next states of another. -/
def Next (expand : σ → Expansion σ α) (t s : σ) : Prop :=
  ∃ states, expand s = .branches states ∧ t ∈ states

/-- No branch goes on for ever from a state where all branches end. -/
theorem not_exists_branch_of_acc {s : σ} (h : Acc (Next expand) s) :
    ¬ ∃ branch : Nat → σ, branch 0 = s ∧ ∀ i, Next expand (branch (i + 1)) (branch i) := by
  rintro ⟨branch, rfl, hbranch⟩
  have hall (s : σ) (hs : Acc (Next expand) s) : ∀ i, branch i ≠ s := by
    induction hs with
    | intro s _ ih =>
      rintro i rfl
      exact ih _ (hbranch i) (i + 1) rfl
  exact hall _ h 0 rfl

variable [DecidableEq α]

/-- A number of steps is enough to search the branches from some open states, with any other states
open besides. -/
def Suffices (expand : σ → Expansion σ α) (n : Nat) (states : List σ) : Prop :=
  ∀ remaining spent rest found, ∃ found',
    exploreFrom expand (remaining + n) spent (states ++ rest) found =
      exploreFrom expand remaining (spent + n) rest found'

theorem exists_suffices_of_forall {states : List σ} (h : ∀ s ∈ states, ∃ n, Suffices expand n [s]) :
    ∃ n, Suffices expand n states := by
  induction states with
  | nil => exact ⟨0, fun _ _ _ found => ⟨found, rfl⟩⟩
  | cons s states ih =>
    obtain ⟨m, hm⟩ := h s List.mem_cons_self
    obtain ⟨n, hn⟩ := ih fun t ht => h t (List.mem_cons_of_mem _ ht)
    refine ⟨n + m, fun remaining spent rest found => ?_⟩
    obtain ⟨found', hfirst⟩ := hm (remaining + n) spent (states ++ rest) found
    obtain ⟨found'', hrest⟩ := hn remaining (spent + m) rest found'
    refine ⟨found'', ?_⟩
    calc exploreFrom expand (remaining + (n + m)) spent (s :: states ++ rest) found
        = exploreFrom expand (remaining + n) (spent + m) (states ++ rest) found' := by
          rw [← hfirst, Nat.add_assoc]
          rfl
      _ = exploreFrom expand remaining (spent + (n + m)) rest found'' := by
          rw [hrest, Nat.add_assoc, Nat.add_comm m n]

/-- Where all branches end, some number of steps is enough. -/
theorem exists_suffices_of_acc {s : σ} (h : Acc (Next expand) s) :
    ∃ n, Suffices expand n [s] := by
  induction h with
  | intro s _ ih =>
    cases hexp : expand s with
    | solved a =>
      refine ⟨1, fun remaining spent rest found => ⟨record found a, ?_⟩⟩
      rw [List.singleton_append, exploreFrom, hexp]
    | branches states =>
      obtain ⟨n, hn⟩ := exists_suffices_of_forall fun t ht => ih t ⟨states, hexp, ht⟩
      refine ⟨n + 1, fun remaining spent rest found => ?_⟩
      obtain ⟨found', heq⟩ := hn remaining (spent + 1) rest found
      refine ⟨found', ?_⟩
      rw [List.singleton_append, ← Nat.add_assoc, exploreFrom, hexp]
      simp only
      rw [heq, Nat.add_assoc, Nat.add_comm 1 n]

/-- Under every budget from some bound on, a search whose branches all end is exhaustive. -/
theorem exists_isExhaustive_of_acc {start : σ} (h : Acc (Next expand) start) :
    ∃ bound, ∀ budget : Budget, bound ≤ budget.remaining →
      (explore expand start budget).outcome.isExhaustive = true := by
  obtain ⟨n, hn⟩ := exists_suffices_of_acc h
  refine ⟨n, fun budget hle => ?_⟩
  obtain ⟨found, heq⟩ := hn (budget.remaining - n) budget.spent [] []
  rw [Nat.sub_add_cancel hle, List.append_nil] at heq
  rw [explore, heq]
  cases found <;> simp [exploreFrom, Outcome.ofSolutions, Outcome.isExhaustive]

end Search

namespace Unification

variable {es : List Equation} {δ : Substitution}

theorem headsAgree_of_forall
    (h : ∀ f ss g ts, (⟨.app f ss, .app g ts⟩ : Equation) ∈ es → f = g) : HeadsAgree es := by
  fun_induction HeadsAgree es with
  | case1 => trivial
  | case2 f ss g ts es => exact h f ss g ts List.mem_cons_self
  | case3 e es _ ih => exact ih fun f ss g ts hmem => h f ss g ts (List.mem_cons_of_mem _ hmem)

/-- Equations without an obstacle stand between applications of one symbol, if they stand between
applications, and orienting them does not change that. -/
theorem headsAgree_of_obstacle? (h : obstacle? es = none) : HeadsAgree (es.map orient) := by
  refine headsAgree_of_forall fun f ss g ts hmem => ?_
  obtain ⟨⟨l, r⟩, he, heq⟩ := List.mem_map.1 hmem
  have hclash := clashes_of_obstacle? h he
  unfold orient at heq
  split at heq
  -- A side that is moved is a variable.
  · rename_i hmoved
    cases heq
    simp [isVar] at hmoved
  · cases heq
    simpa [clashes] using hclash

namespace Problem

variable {p q : Problem} {S : Variable → Prop}

/-- In a round after which no variable is bound, no clash is lost, because nothing was bound in the
round itself. -/
theorem headsAgree_of_unbound (hp : p.All Canonical) (hv : p.Apart S) (hstep : p.step = .ok q)
    (h : (∅ : Substitution).Absorbs q.solved) :
    ∀ r, p.eliminated = .ok r → HeadsAgree (r.equations.map orient) := by
  intro r hr
  obtain ⟨hob, r', hr', rfl⟩ := exists_of_step hstep
  cases hr.symm.trans hr'
  rcases eq_or_exists_of_eliminate hr with rfl | ⟨x, t, rest, y, u, hes, hb, rfl⟩
  · exact headsAgree_of_obstacle? hob
  · have hmem : ⟨.var x, t⟩ ∈ p.different := (hes _).2 (Or.inl rfl)
    have hne : .var x ≠ t := by simpa using (List.mem_filter.1 hmem).2
    have hu : u.Canonical := of_binding kept_canonical hb (hp.different _ hmem).2
    have hyu : .var y = u :=
      (hv.satisfies_of_absorbs hmem hb h).trans (apply_eq_self hu fun _ _ => rfl)
    rcases eq_or_eq_of_binding hb with ⟨rfl, rfl⟩ | ⟨rfl, rfl⟩
    · exact absurd hyu hne
    · exact absurd hyu.symm hne

/-- If rounds bind no variable, their equations held before. -/
theorem SolvedBy.of_reaches (hp : p.All Canonical) (ha : p.All RespectsArity) (hv : p.Apart S)
    (hpq : p.Reaches q) (h : q.SolvedBy ∅) : p.SolvedBy ∅ := by
  induction hpq with
  | refl => exact h
  | tail hpr hstep ih =>
    have hcan := hp.reaches kept_canonical hpr
    have hapart := hv.reaches hpr
    refine ih (solvedBy_of_step hcan (ha.reaches kept_respectsArity hpr) hapart (into_empty _) hstep
      (headsAgree_of_unbound hcan hapart hstep h.absorbs) h)

end Problem

/-- A unifier of different terms changes a variable. -/
theorem exists_lookup_ne_of_unifyTerms {t u : Term} (ht : t.Canonical ∧ t.RespectsArity)
    (hu : u.Canonical ∧ u.RespectsArity) (hne : t ≠ u) (h : unifyTerms t u = .ok δ) :
    ∃ x, δ.lookup x ≠ .var x := by
  by_contra hall
  push Not at hall
  have habs : (∅ : Substitution).Absorbs δ := fun v => by rw [hall v]; rfl
  obtain ⟨q, hq, hnil, rfl⟩ := Problem.exists_reaches_of_solve h
  have hend : q.SolvedBy ∅ := ⟨hnil ▸ fun _ he => absurd he List.not_mem_nil, habs⟩
  have hstart : (start [⟨t, u⟩]).SolvedBy ∅ := hend.of_reaches
    (all_start (List.forall_mem_singleton.2 ⟨ht.1, hu.1⟩))
    (all_start (List.forall_mem_singleton.2 ⟨ht.2, hu.2⟩)) (apart_start _) hq
  have heq := hstart.solves _ List.mem_cons_self
  rw [apply_eq_self ht.1 fun _ _ => rfl, apply_eq_self hu.1 fun _ _ => rfl] at heq
  exact hne heq

end Unification

namespace XorUnification

open Unification

variable {Q : Variable → Prop}

theorem normalize_eq_self {e : Equation} (h : e.right = zero) : normalize e = e := by
  simp [normalize, isZero, h]

/-- A substitution that changes a variable, and speaks of variables of the equations only, leaves
fewer of them. -/
theorem length_uniqueVars_apply_lt {es ds : List Equation} {δ : Substitution}
    (hδ : Binds (· ∈ uniqueVars es) ∅ δ) (hds : ∀ d ∈ ds, ∀ v ∈ d.vars, v ∈ uniqueVars es)
    {x : Variable} (hx : δ.lookup x ≠ .var x) :
    (uniqueVars ((ds.map (Equation.map δ.apply)).map normalize)).length <
      (uniqueVars es).length := by
  have hxd : x ∈ δ.domain := by
    by_contra hn
    exact hx (lookup_of_not_mem_domain hn)
  have hleft (v : Variable)
      (hv : v ∈ uniqueVars ((ds.map (Equation.map δ.apply)).map normalize)) :
      v ∈ uniqueVars es ∧ v ∉ δ.domain := by
    obtain ⟨e, he, hve⟩ := mem_uniqueVars.1 hv
    rw [List.map_map, List.mem_map] at he
    obtain ⟨d, hd, rfl⟩ := he
    obtain ⟨w, hw, hvw⟩ : ∃ w ∈ d.vars, v ∈ (δ.lookup w).vars := by
      rcases List.mem_append.1 (State.mem_vars_normalize (List.mem_append.2 hve)) with hv | hv
      · obtain ⟨w, hw, hvw⟩ := mem_vars_apply hv
        exact ⟨w, List.mem_append_left _ hw, hvw⟩
      · obtain ⟨w, hw, hvw⟩ := mem_vars_apply hv
        exact ⟨w, List.mem_append_right _ hw, hvw⟩
    by_cases hwd : w ∈ δ.domain
    · have hmem := lookup_mem_range hwd
      exact ⟨(hδ.range _ hmem v hvw).1, fun hvd => hδ.solvedForm v hvd _ hmem hvw⟩
    · rw [lookup_of_not_mem_domain hwd, vars_var, List.mem_singleton] at hvw
      exact hvw ▸ ⟨hds d hd w hw, hwd⟩
  exact length_uniqueVars_lt (fun v hv => (hleft v hv).1) (hδ.domain x hxd).1
    fun hv => (hleft x hv).2 hxd

namespace State

/-- The pairs of summands of one equation. -/
def pairs (s : State) : List (Term × Term) :=
  s.equations.flatMap fun e => e.left.summands.product e.left.summands

/-- The pairs of summands with one head that were not decided to be different. -/
def openPairs (s : State) : Finset (Term × Term) :=
  s.pairs.toFinset.filter fun p => sameHead p.1 p.2 = true ∧ s.isRefused p.1 p.2 = false

/-- The measure that the steps lower: the numbers of variables, of equations, and of pairs to
try. -/
def size (s : State) : Nat × Nat × Nat :=
  ((uniqueVars s.normalized.equations).length, s.normalized.equations.length,
    s.normalized.openPairs.card)

/-- One state is of smaller size than another. -/
def Smaller : State → State → Prop :=
  InvImage (Prod.Lex (· < ·) (Prod.Lex (· < ·) (· < ·))) size

theorem wellFounded_smaller : WellFounded Smaller :=
  InvImage.wf _ (wellFounded_lt.prod_lex (wellFounded_lt.prod_lex wellFounded_lt))

variable {s t : State}

/-- A state with fewer variables is smaller. -/
theorem smaller_of_vars (h : (uniqueVars s.normalized.equations).length <
    (uniqueVars t.normalized.equations).length) : s.Smaller t := .left _ _ h

/-- A state with no more variables and fewer equations is smaller. -/
theorem smaller_of_equations (hv : (uniqueVars s.normalized.equations).length ≤
    (uniqueVars t.normalized.equations).length)
    (h : s.normalized.equations.length < t.normalized.equations.length) : s.Smaller t := by
  rcases Nat.lt_or_eq_of_le hv with hlt | heq
  · exact smaller_of_vars hlt
  · rw [Smaller, InvImage, size, heq]
    exact .right _ (.left _ _ h)

/-- A state with the same equations and fewer pairs to try is smaller. -/
theorem smaller_of_pairs (hs : s.normalized.equations = t.normalized.equations)
    (h : s.normalized.openPairs.card < t.normalized.openPairs.card) : s.Smaller t := by
  rw [Smaller, InvImage, size, hs]
  exact .right _ (.right _ h)

theorem normalized_eq_self (h : ∀ e ∈ s.equations, e.right = zero) : s.normalized = s := by
  have hmap : s.equations.map normalize = s.equations :=
    (List.map_congr_left fun e he => normalize_eq_self (h e he)).trans (List.map_id _)
  rw [normalized, hmap]

/-- The equations alone, as a state whose variables are those of the equations. -/
theorem WellFormed.equationsOnly (h : s.WellFormed Q) :
    ({ equations := s.equations } : State).WellFormed (· ∈ uniqueVars s.equations) :=
  wellFormed_start h.equations fun e he _ hv =>
    mem_uniqueVars.2 ⟨e, he, List.mem_append.1 hv⟩

/-- Different places in the summands of an equation hold different terms. -/
theorem WellFormed.ne_of_perm (h : s.WellFormed Q) {e : Equation} (he : e ∈ s.equations)
    {a b : Term} {rest : List Term} (hsum : e.left.summands.Perm (a :: b :: rest)) : a ≠ b := by
  have hnodup := (ordered_summands (h.equations e he).1.canonical).nodup
  rw [hsum.nodup_iff, List.nodup_cons] at hnodup
  exact fun heq => hnodup.1 (heq ▸ List.mem_cons_self)

/-- A unifier of two summands of an equation leaves fewer variables, in these equations and in
others over the same variables. -/
theorem WellFormed.length_vars_unifyTerms_lt (h : s.WellFormed Q) {e : Equation}
    (he : e ∈ s.equations) {a b : Term} {rest : List Term} {δ : Substitution}
    (hsum : e.left.summands.Perm (a :: b :: rest)) (hδ : unifyTerms a b = .ok δ)
    {ds : List Equation} (hds : ∀ d ∈ ds, ∀ v ∈ d.vars, v ∈ uniqueVars s.equations) :
    (uniqueVars ((ds.map (Equation.map δ.apply)).map normalize)).length <
      (uniqueVars s.equations).length := by
  obtain ⟨ha, hb, _⟩ := mem_summands_of_perm hsum
  have hla := (h.summand he ha).1
  have hlb := (h.summand he hb).1
  obtain ⟨x, hx⟩ := exists_lookup_ne_of_unifyTerms ⟨hla.canonical, hla.arity⟩
    ⟨hlb.canonical, hlb.arity⟩ (h.ne_of_perm he hsum) hδ
  exact length_uniqueVars_apply_lt (h.equationsOnly.binds_unifyTerms he ha hb hδ).1 hds hx

theorem isRefused_refuse {a b c d : Term} : (s.refuse a b).isRefused c d = true ↔
    s.isRefused c d = true ∨ a = c ∧ b = d ∨ a = d ∧ b = c := by
  simp [isRefused, refuse]

/-- Refusing a pair that was open leaves fewer pairs to try. -/
theorem card_openPairs_refuse_lt {e : Equation} (he : e ∈ s.equations) {a b : Term}
    (ha : a ∈ e.left.summands) (hb : b ∈ e.left.summands) (hh : sameHead a b = true)
    (hr : s.isRefused a b = false) : (s.refuse a b).openPairs.card < s.openPairs.card := by
  have hmem : (a, b) ∈ s.pairs :=
    List.mem_flatMap.2 ⟨e, he, List.mem_product.2 ⟨ha, hb⟩⟩
  refine Finset.card_lt_card ((Finset.ssubset_iff_of_subset fun p hp => ?_).2 ⟨(a, b), ?_, ?_⟩)
  · rw [openPairs, Finset.mem_filter] at hp ⊢
    refine ⟨hp.1, hp.2.1, ?_⟩
    rw [Bool.eq_false_iff, ne_eq, isRefused_refuse, not_or] at hp
    exact Bool.eq_false_iff.2 hp.2.2.1
  · exact Finset.mem_filter.2 ⟨List.mem_toFinset.2 hmem, hh, hr⟩
  · intro hp
    have hfalse := (Finset.mem_filter.1 hp).2.2
    rw [Bool.eq_false_iff, ne_eq, isRefused_refuse] at hfalse
    exact hfalse (Or.inr (Or.inl ⟨rfl, rfl⟩))

/-- Refusing a pair that was open leads to a smaller state. -/
theorem smaller_refuse (hz : ∀ e ∈ s.equations, e.right = zero) {e : Equation}
    (he : e ∈ s.equations) {a b : Term} (ha : a ∈ e.left.summands) (hb : b ∈ e.left.summands)
    (hh : sameHead a b = true) (hr : s.isRefused a b = false) : (s.refuse a b).Smaller s := by
  have hs := normalized_eq_self hz
  have hrefuse : (s.refuse a b).normalized = s.refuse a b := normalized_eq_self hz
  refine smaller_of_pairs ?_ ?_
  · rw [hs, hrefuse]
    rfl
  · rw [hs, hrefuse]
    exact card_openPairs_refuse_lt he ha hb hh hr

/-- Every rule leads to smaller states. -/
theorem WellFormed.smaller_of_rule (h : s.WellFormed Q) (hz : ∀ e ∈ s.equations, e.right = zero)
    {states : List State} (hr : Rule s states) (ht : t ∈ states) : t.Smaller s := by
  have hs := normalized_eq_self hz
  have hvars {e : Equation} (he : e ∈ s.equations) (v : Variable) (hv : v ∈ e.vars) :
      v ∈ uniqueVars s.equations := mem_uniqueVars.2 ⟨e, he, List.mem_append.1 hv⟩
  cases hr with
  | @trivial before after e heq _ =>
    rw [List.mem_singleton.1 ht]
    have hsub {d : Equation} (hd : d ∈ before ++ after) : d ∈ s.equations := by
      rw [heq, List.mem_append, List.mem_cons]
      exact (List.mem_append.1 hd).imp id Or.inr
    have hleft : ({ s with equations := before ++ after } : State).normalized =
        { s with equations := before ++ after } := normalized_eq_self fun d hd => hz d (hsub hd)
    refine smaller_of_equations ?_ ?_
    · rw [hs, hleft]
      refine length_uniqueVars_le fun v hv => ?_
      obtain ⟨d, hd, hvd⟩ := mem_uniqueVars.1 hv
      exact mem_uniqueVars.2 ⟨d, hsub hd, hvd⟩
    · rw [hs, hleft, heq]
      simp
  | decompose he hl hh hδ =>
    rw [List.mem_singleton.1 ht]
    refine smaller_of_vars ?_
    rw [hs]
    have hsum := List.Perm.of_eq (congrArg summands hl)
    exact h.length_vars_unifyTerms_lt he hsum hδ fun d hd => hvars hd
  | clash => cases ht
  | @substitute e v he hv hfree _ =>
    rw [List.mem_singleton.1 ht]
    refine smaller_of_vars ?_
    rw [hs]
    have hbinds := (h.equationsOnly.binds_single he hv hfree).1
    refine length_uniqueVars_apply_lt hbinds (fun d hd => hvars hd) (x := v) fun hx => ?_
    rw [lookup_single, if_pos rfl] at hx
    refine hbinds.solvedForm v (mem_domain_single.2 rfl) _ (mem_range_single.2 rfl) ?_
    rw [hx]
    simp
  | @split before after e a b rest δ heq hsum hh hδ hr =>
    have he : e ∈ s.equations := heq ▸ List.mem_append_cons_self
    rcases List.mem_cons.1 ht with rfl | ht
    · refine smaller_of_vars ?_
      rw [hs]
      exact h.length_vars_unifyTerms_lt he hsum hδ fun d hd v hv =>
        ((h.equationsOnly.strike heq hsum).vars d hd v hv).1
    · rw [List.mem_singleton.1 ht]
      obtain ⟨ha, hb, _⟩ := mem_summands_of_perm hsum
      exact smaller_refuse hz he ha hb hh hr
  | refute he ha hb hh _ hr =>
    rw [List.mem_singleton.1 ht]
    exact smaller_refuse hz he ha hb hh hr
  | dead => cases ht

/-- Every next state is smaller. -/
theorem WellFormed.smaller_of_next (h : s.WellFormed Q) (ht : Search.Next expand t s) :
    t.Smaller s := by
  obtain ⟨states, hexp, hmem⟩ := ht
  have hz : ∀ e ∈ s.normalized.equations, e.right = zero := fun e he => right_normalized he
  have hsmaller := h.normalized.smaller_of_rule hz (expand_eq_branches hexp).2 hmem
  have hsize : size s.normalized = size s := by rw [size, size, normalized_eq_self hz]
  rwa [Smaller, InvImage, hsize] at hsmaller

/-- All branches from a well-formed state end. -/
theorem WellFormed.acc (h : s.WellFormed Q) : Acc (Search.Next expand) s := by
  induction s using wellFounded_smaller.induction with
  | _ s ih =>
    refine Acc.intro s fun t ht => ih t (h.smaller_of_next ht) ?_
    obtain ⟨states, hexp, hmem⟩ := ht
    exact h.normalized.rule (expand_eq_branches hexp).2 hmem

end State

end XorUnification

section Answer

open XorUnification

variable {es : List Equation}

/-- Unification modulo exclusive or comes to an end: under every budget from some bound on it is
exhaustive, and no branch of the search goes on for ever. -/
theorem xorUnify_terminates (hc : ∀ e ∈ es, e.Both Canonical)
    (ha : ∀ e ∈ es, e.Both RespectsArity) :
    (∃ bound, ∀ maxSteps ≥ bound, (xorUnify es maxSteps).isExhaustive = true) ∧
      ¬ ∃ branch : Nat → State, branch 0 = { equations := (purify es (.forEquations es)).1 } ∧
        ∀ i, ∃ states, (branch i).expand = .branches states ∧ branch (i + 1) ∈ states := by
  have hacc := (wellFormed_purify hc ha (.forEquations es)).acc
  obtain ⟨bound, hbound⟩ := Search.exists_isExhaustive_of_acc hacc
  exact ⟨⟨bound, fun maxSteps hle => hbound { remaining := maxSteps } hle⟩,
    Search.not_exists_branch_of_acc hacc⟩

end Answer

open Sample

/-- Four applications of one symbol may cancel in pairs in several ways. -/
def severalPairs : List Equation :=
  [⟨.sum [.app f [.var x], .app f [.var y], .app f [.var z], .app f [a]], zero⟩]

theorem xorUnify_terminates_severalPairs :
    (∀ e ∈ severalPairs, e.Both Canonical) ∧ (∀ e ∈ severalPairs, e.Both RespectsArity) ∧
      ∃ bound, ∀ maxSteps ≥ bound, (xorUnify severalPairs maxSteps).isExhaustive = true := by
  have hc : ∀ e ∈ severalPairs, e.Both Canonical := by decide
  have ha : ∀ e ∈ severalPairs, e.Both RespectsArity := by decide
  exact ⟨hc, ha, (xorUnify_terminates hc ha).1⟩

end SymbolicXor
