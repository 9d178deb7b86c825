import SymbolicXor.Proofs.SearchInvariants

/-!
# Summands struck out

A unifier that the search finds solves the equations up to the summands that were struck out on the
way. Each equation is followed through a branch as a line, which keeps the pairs that were struck
out of it; what the two sides of the equation differ by is, under every substitution that absorbs
the bindings, the sum of these pairs. A pair cancels if its terms can be unified at all, but the
unification that lets it be struck out may overlook that they cannot.
-/

namespace SymbolicXor

open Term Substitution

namespace XorUnification

/-- An equation of a problem as a branch of the search works on it. -/
structure Line where
  /-- The equation of the problem. -/
  origin : Equation
  /-- The equation as it stands now; none once it was dropped. -/
  rest : Option Equation := some origin
  /-- The pairs of summands that were struck out of it, as they stood then. -/
  struck : List (Term × Term) := []

namespace Line

/-- Change the current equation. -/
def map (f : Equation → Equation) (l : Line) : Line := { l with rest := l.rest.map f }

/-- Strike a pair out, so that a given equation is left. -/
def strike (l : Line) (t u : Term) (rest : Equation) : Line :=
  { l with rest := some rest, struck := l.struck ++ [(t, u)] }

/-- The sum of all terms in the struck pairs under a substitution. -/
def owed (θ : Substitution) (l : Line) : Term :=
  xor (l.struck.flatMap fun p => [θ.apply p.1, θ.apply p.2])

end Line

/-- The lines before and after a rule. -/
inductive Posts : State → State → List Line → List Line → Prop
  /-- The line of an equation that is dropped has nothing left. -/
  | drop {s : State} {before after : List Line} {l : Line} {e : Equation} (hl : l.rest = some e)
      (he : e.left = zero) :
      Posts s { s with equations := (before ++ after).filterMap Line.rest }
        (before ++ l :: after) (before ++ { l with rest := none } :: after)
  /-- New bindings are applied to the current equations. -/
  | bind {s : State} {lines : List Line} (δ : Substitution)
      (hδ : (∃ e ∈ s.equations, ∃ t ∈ e.left.summands, ∃ u ∈ e.left.summands,
          Unification.unifyTerms t u = .ok δ) ∨
        ∃ e ∈ s.equations, ∃ v, .var v ∈ e.left.summands ∧ v ∉ constrainedVars s.equations ∧
          δ = single v (xor (e.left.summands.erase (.var v)))) :
      Posts s (s.apply δ) lines (lines.map (Line.map (Equation.map δ.apply)))
  /-- Two summands are struck out, and their unifier is applied to the current equations. -/
  | strike {s : State} {before after : List Line} {l : Line} {e : Equation} {t u : Term}
      {rest : List Term} {δ : Substitution} (hl : l.rest = some e)
      (hsum : e.left.summands.Perm (t :: u :: rest))
      (hδ : Unification.unifyTerms t u = .ok δ) :
      Posts s (({ s with equations := before.filterMap Line.rest ++
            ⟨xor rest, .zero⟩ :: after.filterMap Line.rest } : State).apply δ)
        (before ++ l :: after)
        ((before ++ l.strike t u ⟨xor rest, .zero⟩ :: after).map
          (Line.map (Equation.map δ.apply)))
  /-- Deciding that two terms are different leaves the lines alone. -/
  | refuse {s : State} {lines : List Line} (t u : Term) : Posts s (s.refuse t u) lines lines

/-- A branch of the search from a system of equations, with its lines. -/
inductive Branch (es : List Equation) : State → List Line → Prop
  /-- A line for every equation. -/
  | start : Branch es { equations := es } (es.map fun e => { origin := e })
  /-- The lines go along with every step. -/
  | step {s s' : State} {lines lines' : List Line} {states : List State} (h : Branch es s lines)
      (hexp : s.expand = .branches states) (hs' : s' ∈ states)
      (hp : Posts s.normalized s' (lines.map (Line.map normalize)) lines') : Branch es s' lines'

variable {es : List Equation} {s s' : State} {lines lines' : List Line}

theorem Branch.leads (h : Branch es s lines) :
    Search.Leads State.expand { equations := es } s := by
  induction h with
  | start => exact .refl
  | step _ hexp hs' _ ih => exact ih.tail ⟨_, hexp, hs'⟩

/-- The current equations of the lines are those of the state. -/
theorem Posts.rest (hp : Posts s s' lines lines') (h : lines.filterMap Line.rest = s.equations) :
    lines'.filterMap Line.rest = s'.equations := by
  have hmap (f : Equation → Equation) (ls : List Line) :
      (ls.map (Line.map f)).filterMap Line.rest = (ls.filterMap Line.rest).map f := by
    rw [List.filterMap_map, List.map_filterMap]
    rfl
  cases hp with
  | drop hl he => simp
  | bind δ hδ => simp [hmap, h, State.apply]
  | strike hl hsum hδ =>
    simp only [List.map_append, List.map_cons, List.filterMap_append, State.apply, hmap]
    rw [List.filterMap_cons_some (show Line.rest (Line.map _ (Line.strike _ _ _ _)) = some _ from
      rfl), hmap]
  | refuse t u => exact h

theorem rest_normalized (h : lines.filterMap Line.rest = s.equations) :
    (lines.map (Line.map normalize)).filterMap Line.rest = s.normalized.equations := by
  rw [List.filterMap_map, State.normalized, ← h, List.map_filterMap]
  rfl

theorem Branch.rest (h : Branch es s lines) : lines.filterMap Line.rest = s.equations := by
  induction h with
  | start => simp [List.filterMap_map]
  | step _ _ _ hp ih => exact hp.rest (rest_normalized ih)

/-- The line in which an equation of a state stands. -/
theorem exists_line {before after : List Equation} {e : Equation}
    (h : lines.filterMap Line.rest = before ++ e :: after) : ∃ l₁ l l₂, lines = l₁ ++ l :: l₂ ∧
      l.rest = some e ∧ l₁.filterMap Line.rest = before ∧ l₂.filterMap Line.rest = after := by
  obtain ⟨l₁, l', rfl, hbefore, hl'⟩ := List.filterMap_eq_append_iff.1 h
  obtain ⟨l₂, l, l₃, rfl, hnone, hl, hafter⟩ := List.filterMap_eq_cons_iff.1 hl'
  refine ⟨l₁ ++ l₂, l, l₃, by simp, hl, ?_, hafter⟩
  rw [List.filterMap_append, hbefore, List.filterMap_eq_nil_iff.2 hnone, List.append_nil]

/-- The lines can go along with every rule. -/
theorem exists_posts {states : List State} (hr : State.Rule s states) (hs' : s' ∈ states)
    (h : lines.filterMap Line.rest = s.equations) : ∃ lines', Posts s s' lines lines' := by
  cases hr with
  | trivial hs he =>
    rw [hs] at h
    obtain ⟨l₁, l, l₂, rfl, hl, rfl, rfl⟩ := exists_line h
    rw [List.mem_singleton.1 hs', ← List.filterMap_append]
    exact ⟨_, .drop hl he⟩
  | @decompose e t u δ he hl hh hδ =>
    obtain ⟨ht, hu⟩ := mem_summands_of_pair hl
    rw [List.mem_singleton.1 hs']
    exact ⟨_, .bind δ (Or.inl ⟨e, he, t, ht, u, hu, hδ⟩)⟩
  | clash => cases hs'
  | @substitute e v he hv hfree =>
    rw [List.mem_singleton.1 hs']
    exact ⟨_, .bind _ (Or.inr ⟨e, he, v, hv, hfree, rfl⟩)⟩
  | split hs hsum hh hδ =>
    rcases List.mem_cons.1 hs' with rfl | hs'
    · rw [hs] at h
      obtain ⟨l₁, l, l₂, rfl, hl, rfl, rfl⟩ := exists_line h
      exact ⟨_, .strike hl hsum hδ⟩
    · rw [List.mem_singleton.1 hs']
      exact ⟨_, .refuse _ _⟩
  | refute he ht hu =>
    rw [List.mem_singleton.1 hs']
    exact ⟨_, .refuse _ _⟩
  | dead => cases hs'

/-- To every state that the search leads to there is a branch. -/
theorem exists_branch (h : Search.Leads State.expand { equations := es } s) :
    ∃ lines, Branch es s lines := by
  induction h with
  | refl => exact ⟨_, .start⟩
  | tail _ hstep ih =>
    obtain ⟨lines, hb⟩ := ih
    obtain ⟨states, hexp, hs'⟩ := hstep
    obtain ⟨lines', hp⟩ :=
      exists_posts (State.expand_eq_branches hexp).2 hs' (rest_normalized hb.rest)
    exact ⟨lines', .step hb hexp hs' hp⟩

/-- The difference of the sides of an equation under a substitution. -/
def gap (θ : Substitution) (e : Equation) : Term → ZMod 2 :=
  vec (θ.apply e.left) + vec (θ.apply e.right)

variable {θ δ : Substitution} {Q : Variable → Prop}

/-- The sides differ by nothing if they are equal. -/
theorem gap_eq_zero (hθ : θ.Into Canonical) {e : Equation} :
    gap θ e = 0 ↔ θ.apply e.left = θ.apply e.right := by
  have hl := canonical_apply hθ e.left
  have hr := canonical_apply hθ e.right
  rw [gap, ← vec_xor_pair hl hr, ← eq_zero_iff_vec (canonical_xor (canonical_pair hl hr)),
    xor_pair_eq_zero hl hr]

theorem gap_normalize (hθ : θ.Into Canonical) {e : Equation} (he : e.Both Canonical) :
    gap θ (normalize e) = gap θ e := by
  unfold normalize
  split
  · rfl
  · rw [gap, vec_apply_xor hθ (canonical_pair he.1 he.2), gap]
    simp

theorem gap_map_apply (habs : θ.Absorbs δ) (hδ : δ.Into Canonical) (hθ : θ.Into Canonical)
    (e : Equation) : gap θ (e.map δ.apply) = gap θ e := by
  rw [gap, Equation.map, habs.apply hδ hθ, habs.apply hδ hθ, gap]

/-- Striking out two summands takes their difference from that of the sides. -/
theorem gap_strike (hθ : θ.Into Canonical) {e : Equation} (he : e.left.Canonical)
    (hz : e.right = zero) {t u : Term} {rest : List Term}
    (hsum : e.left.summands.Perm (t :: u :: rest)) :
    gap θ e = gap θ ⟨xor rest, .zero⟩ + gap θ ⟨t, u⟩ := by
  have hrest : ∀ r ∈ rest, r.Canonical := fun r hr =>
    canonical_of_mem_summands he ((mem_summands_of_perm hsum).2.2 r hr)
  simp only [gap, hz, apply_zero, vec_zero, add_zero]
  rw [vec_apply_eq_sum hθ, (hsum.map fun c => vec (θ.apply c)).sum_eq, List.map_cons,
    List.map_cons, List.sum_cons, List.sum_cons, vec_apply_xor hθ hrest, ← add_assoc, add_comm]

/-- A pair was struck out because its terms were unified, and a substitution absorbs the unifier. -/
def Unified (θ : Substitution) (p : Term × Term) : Prop :=
  p.1.WellLayered ∧ p.2.WellLayered ∧
    ∃ δ, Unification.unifyTerms p.1 p.2 = .ok δ ∧ θ.Absorbs δ

/-- Terms of a pair that was struck out have the same instance if they are unifiable at all. -/
theorem Unified.apply_eq_iff (hθ : θ.Into Canonical) {p : Term × Term} (h : Unified θ p) :
    θ.apply p.1 = θ.apply p.2 ↔
      ∃ ρ : Substitution, ρ.Into Canonical ∧ ρ.apply p.1 = ρ.apply p.2 := by
  refine ⟨fun heq => ⟨θ, hθ, heq⟩, fun ⟨ρ, hρ, heq⟩ => ?_⟩
  obtain ⟨h₁, h₂, δ, hδ, habs⟩ := h
  have hc : ∀ e ∈ [Equation.mk p.1 p.2], e.Both Canonical :=
    List.forall_mem_singleton.2 ⟨h₁.canonical, h₂.canonical⟩
  have hcδ := Unification.unify_into Unification.kept_canonical hc hδ
  have hsolves := Unification.unify_solves_of_solves hc
    (List.forall_mem_singleton.2 ⟨h₁.arity, h₂.arity⟩) hδ hρ (List.forall_mem_singleton.2 heq)
  have hδeq : δ.apply p.1 = δ.apply p.2 := hsolves _ (List.mem_singleton_self _)
  rw [← habs.apply hcδ hθ, hδeq, habs.apply hcδ hθ]

/-- A line keeps account under a substitution: the difference of the sides of its equation is that
of the current equation and of the struck pairs, and every pair was struck out as unified. -/
structure Line.Accounts (θ : Substitution) (l : Line) : Prop where
  /-- The original difference is that of the current equation and of the struck pairs. -/
  gap_origin : gap θ l.origin =
    (l.rest.map (gap θ)).getD 0 + (l.struck.map fun p => gap θ ⟨p.1, p.2⟩).sum
  /-- Pairs that were struck out were unified. -/
  unified : ∀ p ∈ l.struck, Unified θ p

/-- Changing the current equation without changing the difference keeps account. -/
theorem Line.Accounts.map {l : Line} (h : l.Accounts θ) {f : Equation → Equation}
    (hf : ∀ e, l.rest = some e → gap θ (f e) = gap θ e) : (l.map f).Accounts θ := by
  refine ⟨h.gap_origin.trans ?_, h.unified⟩
  simp only [Line.map]
  cases hl : l.rest with
  | none => rfl
  | some e => simp [hf e hl]

/-- Bindings that are absorbed may be applied to the current equation. -/
theorem Line.Accounts.bind {l : Line} (h : l.Accounts θ) (habs : θ.Absorbs δ)
    (hδ : δ.Into Canonical) (hθ : θ.Into Canonical) :
    (l.map (Equation.map δ.apply)).Accounts θ :=
  h.map fun e _ => gap_map_apply habs hδ hθ e

/-- The equation of a line may be dropped if its sides do not differ. -/
theorem Line.Accounts.drop {l : Line} (h : l.Accounts θ) {e : Equation} (hl : l.rest = some e)
    (he : gap θ e = 0) : Line.Accounts θ { l with rest := none } := by
  refine ⟨h.gap_origin.trans ?_, h.unified⟩
  simp [hl, he]

/-- Striking out a unified pair keeps account. -/
theorem Line.Accounts.strike (hθ : θ.Into Canonical) {l : Line} (h : l.Accounts θ) {e : Equation}
    (hl : l.rest = some e) (he : e.left.Canonical) (hz : e.right = zero) {t u : Term}
    {rest : List Term} (hsum : e.left.summands.Perm (t :: u :: rest)) (hp : Unified θ (t, u)) :
    (l.strike t u ⟨xor rest, .zero⟩).Accounts θ := by
  refine ⟨h.gap_origin.trans ?_, List.forall_mem_append.2 ⟨h.unified,
    List.forall_mem_singleton.2 hp⟩⟩
  simp only [Line.strike, hl, Option.map_some, Option.getD_some, List.map_append, List.sum_append,
    List.map_singleton, List.sum_singleton]
  rw [gap_strike hθ he hz hsum, add_assoc, add_comm (gap θ ⟨t, u⟩)]

theorem mem_equations_of_mem_lines (h : lines.filterMap Line.rest = s.equations) {l : Line}
    (hl : l ∈ lines) {e : Equation} (he : l.rest = some e) : e ∈ s.equations :=
  h ▸ List.mem_filterMap.2 ⟨l, hl, he⟩

/-- Lines keep account under every substitution that absorbs the bindings. -/
theorem Posts.accounts (hwf : s.WellFormed Q) (hz : ∀ e ∈ s.equations, e.right = zero)
    (hrest : lines.filterMap Line.rest = s.equations) (hθ : θ.Into Canonical)
    (hp : Posts s s' lines lines') (habs : θ.Absorbs s'.substitution)
    (ih : θ.Absorbs s.substitution → ∀ l ∈ lines, l.Accounts θ) :
    θ.Absorbs s.substitution ∧ ∀ l ∈ lines', l.Accounts θ := by
  cases hp with
  | @drop before after l e hl he =>
    have hacc := ih habs
    rw [List.forall_mem_append, List.forall_mem_cons] at hacc ⊢
    have hmem := mem_equations_of_mem_lines hrest List.mem_append_cons_self hl
    have hgap : gap θ e = 0 := by simp [gap, he, hz e hmem]
    exact ⟨habs, hacc.1, hacc.2.1.drop hl hgap, hacc.2.2⟩
  | bind δ hδ =>
    have hbinds : Binds Q s.substitution δ := by
      rcases hδ with ⟨e, he, t, ht, u, hu, hδ⟩ | ⟨e, he, v, hv, hfree, rfl⟩
      · exact (hwf.binds_unifyTerms he ht hu hδ).1
      · exact (hwf.binds_single he hv hfree).1
    obtain ⟨habs', hδabs⟩ := (hbinds.absorbs_compose_iff hθ).1 habs
    refine ⟨habs', List.forall_mem_map.2 fun l hl => ?_⟩
    exact (ih habs' l hl).bind hδabs hbinds.canonical hθ
  | @strike before after l e t u rest δ hl hsum hδ =>
    have he := mem_equations_of_mem_lines hrest List.mem_append_cons_self hl
    obtain ⟨ht, hu, _⟩ := mem_summands_of_perm hsum
    obtain ⟨hbinds, _⟩ := hwf.binds_unifyTerms he ht hu hδ
    obtain ⟨habs', hδabs⟩ := (hbinds.absorbs_compose_iff hθ).1 habs
    have hpair : Unified θ (t, u) :=
      ⟨(hwf.summand he ht).1, (hwf.summand he hu).1, δ, hδ, hδabs⟩
    have hacc := ih habs'
    rw [List.forall_mem_append, List.forall_mem_cons] at hacc
    have hstruck := hacc.2.1.strike hθ hl (hwf.both_canonical he).1 (hz e he) hsum hpair
    refine ⟨habs', ?_⟩
    rw [List.forall_mem_map, List.forall_mem_append, List.forall_mem_cons]
    exact ⟨fun l' hl' => (hacc.1 l' hl').bind hδabs hbinds.canonical hθ,
      hstruck.bind hδabs hbinds.canonical hθ,
      fun l' hl' => (hacc.2.2 l' hl').bind hδabs hbinds.canonical hθ⟩
  | refuse t u => exact ⟨habs, ih habs⟩

/-- A line that lost nothing keeps account. -/
theorem accounts_start (e : Equation) : Line.Accounts θ { origin := e } where
  gap_origin := by simp
  unified _ hp := absurd hp List.not_mem_nil

/-- Along a branch every line keeps account. -/
theorem Branch.accounts (h : Branch es s lines)
    (hwf : State.WellFormed Q { equations := es }) (hθ : θ.Into Canonical)
    (habs : θ.Absorbs s.substitution) : ∀ l ∈ lines, l.Accounts θ := by
  induction h with
  | start => exact List.forall_mem_map.2 fun e _ => accounts_start e
  | @step s s' lines lines' states hb hexp hs' hp ih =>
    have hwfs := (hwf.leads hb.leads).normalized
    refine (hp.accounts hwfs (fun e he => State.right_normalized he) (rest_normalized hb.rest) hθ
      habs fun habs' => List.forall_mem_map.2 fun l hl => (ih habs' l hl).map fun e he => ?_).2
    have hmem := mem_equations_of_mem_lines hb.rest hl he
    exact gap_normalize hθ ((hwf.leads hb.leads).both_canonical hmem)

/-- The lines of a branch are the equations in their order. -/
theorem Posts.origin (hp : Posts s s' lines lines') :
    lines'.map Line.origin = lines.map Line.origin := by
  cases hp <;> simp [Line.map, Line.strike, Function.comp_def]

theorem Branch.origin (h : Branch es s lines) : lines.map Line.origin = es := by
  induction h with
  | start =>
    rw [List.map_map]
    exact List.map_id _
  | step _ _ _ hp ih =>
    rw [hp.origin, ← ih, List.map_map]
    rfl

theorem canonical_of_mem_struck (hθ : θ.Into Canonical) (l : Line) :
    ∀ t ∈ l.struck.flatMap fun p => [θ.apply p.1, θ.apply p.2], t.Canonical := by
  intro t ht
  obtain ⟨p, _, hp⟩ := List.mem_flatMap.1 ht
  exact canonical_pair (canonical_apply hθ p.1) (canonical_apply hθ p.2) t hp

theorem canonical_owed (hθ : θ.Into Canonical) (l : Line) : (l.owed θ).Canonical :=
  canonical_xor (canonical_of_mem_struck hθ l)

/-- The sum of the struck pairs is the sum of their differences. -/
theorem vec_owed (hθ : θ.Into Canonical) (l : Line) :
    vec (l.owed θ) = (l.struck.map fun p => gap θ ⟨p.1, p.2⟩).sum := by
  rw [Line.owed, vec_xor (canonical_of_mem_struck hθ l)]
  induction l.struck with
  | nil => rfl
  | cons p ps ih => simp [gap, ih, add_assoc]

/-- At the end of a branch, a substitution that absorbs the bindings solves the equations exactly if
in every line the pairs that were struck out cancel. -/
theorem Branch.solves_iff (h : Branch es s lines)
    (hwf : State.WellFormed Q { equations := es }) (hnil : s.equations = [])
    (hθ : θ.Into Canonical) (habs : θ.Absorbs s.substitution) :
    θ.Solves es ↔ ∀ l ∈ lines, l.owed θ = zero := by
  have hacc := h.accounts hwf hθ habs
  have hline (l : Line) (hl : l ∈ lines) :
      θ.apply l.origin.left = θ.apply l.origin.right ↔ l.owed θ = zero := by
    have hrest : l.rest = none := by
      cases hr : l.rest with
      | none => rfl
      | some e =>
        have he := mem_equations_of_mem_lines h.rest hl hr
        rw [hnil] at he
        cases he
    rw [← gap_eq_zero hθ, eq_zero_iff_vec (canonical_owed hθ l), vec_owed hθ,
      (hacc l hl).gap_origin, hrest]
    simp
  rw [← h.origin, Solves, List.forall_mem_map]
  exact forall₂_congr hline

/-- The pairs that were struck out cancel if each of them is unifiable. -/
theorem Branch.owed_eq_zero (h : Branch es s lines)
    (hwf : State.WellFormed Q { equations := es }) (hθ : θ.Into Canonical)
    (habs : θ.Absorbs s.substitution) (hu : ∀ l ∈ lines, ∀ p ∈ l.struck,
      ∃ ρ : Substitution, ρ.Into Canonical ∧ ρ.apply p.1 = ρ.apply p.2) :
    ∀ l ∈ lines, l.owed θ = zero := by
  have hacc := h.accounts hwf hθ habs
  intro l hl
  rw [eq_zero_iff_vec (canonical_owed hθ l), vec_owed hθ]
  refine List.sum_eq_zero ?_
  rw [List.forall_mem_map]
  intro p hp
  refine (gap_eq_zero hθ).2 ?_
  exact (((hacc l hl).unified p hp).apply_eq_iff hθ).2 (hu l hl p hp)

end XorUnification

end SymbolicXor
