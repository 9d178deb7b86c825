import SymbolicXor.Proofs.AllowedValues
import SymbolicXor.Proofs.OverlookedAttacks
import SymbolicXor.Proofs.SpecializedUnifiers

/-!
# When attacks are in solved form

The unifiers from which an adversary starts are in solved form. A decision keeps them so if its left
side has no bound variable, for then its unifiers bind other variables, and new ones. Terms of the
unifier have no bound variables, so only a known term can bring one into a decision. Known terms are
not read under the first unifier: if one of them mentions a variable that the first unifier binds,
a decision may bind it again, or bind others to terms in which it occurs, and what is found need not
be in solved form.
-/

namespace SymbolicXor

open Term Substitution XorUnification

namespace Adversary

section Instances

variable {σ σ₀ Θ : Substitution}

/-- An instance of a solved form gives an open variable the term that the instantiation does. -/
theorem lookup_of_not_mem_first (h : ∀ v, σ.lookup v = Θ.apply (σ₀.lookup v)) {v : Variable}
    (hv : v ∉ σ₀.domain) : Θ.lookup v = σ.lookup v := by
  rw [h, lookup_of_not_mem_domain hv, apply_var]

/-- An instance of a solved form is in solved form exactly if no bound variable occurs in its terms
for the variables that were left open. -/
theorem solvedForm_iff_unbound (hσ₀ : σ₀.SolvedForm)
    (h : ∀ v, σ.lookup v = Θ.apply (σ₀.lookup v)) :
    σ.SolvedForm ↔ ∀ v ∉ σ₀.domain, Unbound σ (σ.lookup v) := by
  constructor
  · intro hform v hv w hw
    by_cases hvd : v ∈ σ.domain
    · exact fun hwd => hform w hwd _ (lookup_mem_range hvd) hw
    · rw [lookup_of_not_mem_domain hvd, vars_var, List.mem_singleton] at hw
      exact hw ▸ hvd
  · intro hall w hw t ht hwt
    obtain ⟨v, hv⟩ := mem_range.1 ht
    rw [← lookup_of_get? hv, h] at hwt
    obtain ⟨u, hu, hwu⟩ := mem_vars_apply hwt
    -- The term comes from one of the first unifier, which has open variables only.
    have hopen : u ∉ σ₀.domain := by
      intro hud
      by_cases hvd : v ∈ σ₀.domain
      · exact hσ₀ u hud _ (lookup_mem_range hvd) hu
      · rw [lookup_of_not_mem_domain hvd, vars_var, List.mem_singleton] at hu
        exact hvd (hu ▸ hud)
    rw [lookup_of_not_mem_first h hopen] at hwu
    exact hall u hopen w hwu hw

/-- The unifier absorbs itself exactly if it leaves its terms for the open variables alone. -/
theorem absorbs_self_iff (hσ₀ : σ₀.SolvedForm) (hΘ : Θ.Into Canonical) (hσ : σ.Into Canonical)
    (h : ∀ v, σ.lookup v = Θ.apply (σ₀.lookup v)) :
    σ.Absorbs σ ↔ ∀ v ∉ σ₀.domain, σ.apply (σ.lookup v) = σ.lookup v := by
  refine ⟨fun habs v _ => habs v, fun hall v => ?_⟩
  by_cases hv : v ∈ σ₀.domain
  · calc σ.apply (σ.lookup v)
        = (Θ.compose σ).apply (σ₀.lookup v) := by rw [h, apply_compose hΘ hσ]
      _ = Θ.apply (σ₀.lookup v) := apply_congr fun u hu => by
          have hopen : u ∉ σ₀.domain := fun hud => hσ₀ u hud _ (lookup_mem_range hv) hu
          rw [lookup_compose, lookup_of_not_mem_first h hopen]
          exact hall u hopen
      _ = σ.lookup v := (h v).symm
  · exact hall v hv

end Instances

section Decided

variable {a : Adversary} {es : List Equation} {constraints : Constraints}
  {σ σ₀ : Substitution} {g : FreshNames} {s t : State} {lhs : Term}

/-- The first unifier binds a variable that a known term mentions. -/
def Mentions (constraints : Constraints) (σ₀ : Substitution) (w : Variable) : Prop :=
  w ∈ σ₀.domain ∧ ∃ v ts, constraints.get? v = some ts ∧ ∃ c ∈ ts, w ∈ c.vars

/-- A unifier in solved form, and known terms in which no variable is bound unless the first unifier
binds it and an original known term mentions it. All names are reserved. -/
structure Tidy (constraints : Constraints) (σ₀ : Substitution) (g : FreshNames) (s : State) :
    Prop where
  /-- The unifier is in solved form. -/
  solvedForm : s.substitution.SolvedForm
  /-- The names in the unifier are reserved. -/
  scope : s.substitution.Over (·.symbol ∈ g.reserved)
  /-- So are those in the known terms, in which no other variables are bound. -/
  known : ∀ v ts, s.constraints.get? v = some ts → ∀ c ∈ ts, ∀ w ∈ c.vars,
    w.symbol ∈ g.reserved ∧ (w ∉ s.substitution.domain ∨ Mentions constraints σ₀ w)

/-- A decision is made about a variable that is bound: it leads from a unifier in solved form on to
a state. The first unifier binds the variable, and a known term mentions it. -/
structure Rebinds (a : Adversary) (constraints : Constraints) (σ₀ : Substitution) (s : State)
    (w : Variable) (t : State) : Prop where
  /-- Decisions lead from the first unifier to the state in which the decision is made. -/
  reached : Relation.ReflTransGen a.Decides { substitution := σ₀, constraints } s
  /-- Its unifier is in solved form. -/
  solvedForm : s.substitution.SolvedForm
  /-- The left side of the decision has the variable. -/
  occurs : ∃ lhs, s.decision? a (a.badSubterms s.constraints s.substitution) = some lhs ∧
    w ∈ lhs.vars
  /-- The unifier binds the variable. -/
  bound : w ∈ s.substitution.domain
  /-- So does the first one, and a known term mentions it. -/
  mentions : Mentions constraints σ₀ w
  /-- The decision is made with one of its unifiers, and leads on. -/
  made : ∃ θ, a.Decides s (s.instantiate θ) ∧ Relation.ReflTransGen a.Decides (s.instantiate θ) t

theorem Rebinds.tail {w : Variable} {u : State} (h : Rebinds a constraints σ₀ s w t)
    (ht : a.Decides t u) : Rebinds a constraints σ₀ s w u :=
  have ⟨θ, hmade, hon⟩ := h.made
  { h with made := ⟨θ, hmade, hon.tail ht⟩ }

/-- Known terms and the unifier have the variables of the next decision. -/
theorem Tidy.vars_of_decision? (h : Tidy constraints σ₀ g s)
    (hd : s.decision? a (a.badSubterms s.constraints s.substitution) = some lhs) :
    ∀ w ∈ lhs.vars, w.symbol ∈ g.reserved ∧
      (w ∉ s.substitution.domain ∨ Mentions constraints σ₀ w) := by
  refine (hereditary_vars _).decision? (fun t ht w hw => ⟨h.scope.range t ht w hw, ?_⟩) h.known hd
  exact Or.inl fun hwd => h.solvedForm w hwd t ht hw

theorem Tidy.keep (h : Tidy constraints σ₀ g s) {g' : FreshNames}
    (hg : g.reserved ⊆ g'.reserved) : Tidy constraints σ₀ g' s where
  solvedForm := h.solvedForm
  scope := h.scope.mono fun _ hv => hg hv
  known v ts hts c hc w hw := ⟨hg (h.known v ts hts c hc w hw).1, (h.known v ts hts c hc w hw).2⟩

/-- A decision on variables that are not bound keeps a state tidy. -/
theorem Tidy.instantiate (h : Tidy constraints σ₀ g s) (hlhs : Built lhs)
    (hd : s.decision? a (a.badSubterms s.constraints s.substitution) = some lhs)
    (hfree : ∀ w ∈ lhs.vars, w ∉ s.substitution.domain) {θ : Substitution} {budget : Budget}
    (hθ : θ ∈ (xorUnifyWith [⟨lhs, .zero⟩] g budget).1.outcome.solutions) :
    Tidy constraints σ₀ (xorUnifyWith [⟨lhs, .zero⟩] g budget).2 (s.instantiate θ) := by
  have hc : ∀ e ∈ [Equation.mk lhs zero], e.Both Canonical :=
    List.forall_mem_singleton.2 ⟨hlhs.1, canonical_zero⟩
  have ha : ∀ e ∈ [Equation.mk lhs zero], e.Both RespectsArity :=
    List.forall_mem_singleton.2 ⟨hlhs.2, respectsArity_const _⟩
  have hvars {e : Equation} (he : e ∈ [Equation.mk lhs zero]) {v : Variable} (hv : v ∈ e.vars) :
      v ∈ lhs.vars := by
    rw [List.mem_singleton.1 he] at hv
    simpa [Equation.vars, zero] using hv
  have hreserved := reserved_xorUnifyWith [⟨lhs, .zero⟩] g budget
  have hover : θ.Over (·.symbol ∈ (xorUnifyWith [⟨lhs, .zero⟩] g budget).2.reserved) :=
    over_of_mem_xorUnifyWith Purifier.kind_reserved hc ha
      (fun e he v hv => (h.vars_of_decision? hd v (hvars he hv)).1) hθ
  -- What the unifier of the decision speaks of was not bound: it is of the left side, or new.
  have hunbound : θ.Over (· ∉ s.substitution.domain) := by
    refine (over_problem_or_new hc ha hθ).mono fun v hv hvd => ?_
    rcases hv with ⟨e, he, hve⟩ | hnew
    · exact hfree v (hvars he hve) hvd
    · exact hnew (h.scope.domain v hvd)
  have hform := (wellFormed_of_mem_xorUnifyWith hc ha hθ).2.2
  have hscope := (h.keep hreserved).scope
  refine ⟨h.solvedForm.compose hform hunbound.domain hunbound.range, hscope.compose hover,
    fun v ts hts c hmem w hw => ?_⟩
  rw [State.instantiate, FinMap.get?_map] at hts
  obtain ⟨ts', hts', rfl⟩ := Option.map_eq_some_iff.1 hts
  obtain ⟨c', hc', rfl⟩ := List.mem_map.1 hmem
  have hknown := h.known v ts' hts' c' hc'
  refine ⟨hover.vars_apply (fun u hu => hreserved (hknown u hu).1) w hw, ?_⟩
  obtain ⟨u, hu, hwu⟩ := mem_vars_apply hw
  by_cases hud : u ∈ θ.domain
  · have hmemr := lookup_mem_range hud
    refine Or.inl fun hwd => ?_
    rcases mem_domain_of_mem_domain_compose hwd with hwd | hwd
    · exact hunbound.range _ hmemr w hwu hwd
    · exact hform w hwd _ hmemr hwu
  · rw [lookup_of_not_mem_domain hud, vars_var, List.mem_singleton] at hwu
    subst hwu
    refine (hknown w hu).2.imp_left fun hwd hwc => ?_
    exact (mem_domain_of_mem_domain_compose hwc).elim hwd hud

variable (hc : ∀ e ∈ es, e.Both Canonical) (ha : ∀ e ∈ es, e.Both RespectsArity)

include hc ha

/-- The repair starts from tidy states. -/
theorem tidy_start {budget : Budget}
    (h : σ₀ ∈ (xorUnifyWith es (freshNames es constraints) budget).1.outcome.solutions) :
    Tidy constraints σ₀ (xorUnifyWith es (freshNames es constraints) budget).2
      { substitution := σ₀, constraints } where
  solvedForm := (wellFormed_of_mem_xorUnifyWith hc ha h).2.2
  scope := over_of_mem_xorUnifyWith Purifier.kind_reserved hc ha
    (fun _ he _ hv => symbol_mem_freshNames (mentioned_of_mem_vars he hv)) h
  known v ts hts c hmem w hw := by
    refine ⟨reserved_xorUnifyWith _ _ _ (symbol_mem_freshNames (mentioned_of_get? hts hmem hw)), ?_⟩
    by_cases hwd : w ∈ σ₀.domain
    · exact Or.inr ⟨hwd, v, ts, hts, c, hmem, hw⟩
    · exact Or.inl hwd

/-- Decisions keep a state tidy, until one is made about a bound variable that a known term
mentions. -/
theorem maintains_tidy_or_rebinds (a : Adversary) {budget : Budget}
    (hC : ∀ v ts, constraints.get? v = some ts → ∀ c ∈ ts, Built c) :
    a.Maintains fun g t => ∃ σ₀ ∈ (xorUnifyWith es (freshNames es constraints)
        budget).1.outcome.solutions,
      Relation.ReflTransGen a.Decides { substitution := σ₀, constraints } t ∧
        (Tidy constraints σ₀ g t ∨ ∃ s w, Rebinds a constraints σ₀ s w t) where
  keep := fun ⟨σ₀, hσ₀, ht, hor⟩ hg => ⟨σ₀, hσ₀, ht, hor.imp_left fun htidy => htidy.keep hg⟩
  refuse := fun ⟨σ₀, hσ₀, ht, hor⟩ hd => by
    refine ⟨σ₀, hσ₀, ht.tail (.refuse hd), hor.imp (fun htidy => ?_) fun ⟨s, w, hs⟩ => ?_⟩
    · exact ⟨htidy.solvedForm, htidy.scope, htidy.known⟩
    · exact ⟨s, w, hs.tail (.refuse hd)⟩
  instantiate := fun {g t lhs θ budget'} ⟨σ₀, hσ₀, ht, hor⟩ hd hθ => by
    have hnext : a.Decides t (t.instantiate θ) := .instantiate hd hθ
    refine ⟨σ₀, hσ₀, ht.tail hnext, ?_⟩
    rcases hor with htidy | ⟨s, w, hs⟩
    · obtain ⟨Θ, hΘ⟩ := exists_descends hc ha hC hσ₀ ht
      by_cases hfree : ∀ w ∈ lhs.vars, w ∉ t.substitution.domain
      · exact Or.inl (htidy.instantiate (hΘ.built_of_decision? hC hd) hd hfree hθ)
      · push Not at hfree
        obtain ⟨w, hw, hwd⟩ := hfree
        have hment := (htidy.vars_of_decision? hd w hw).2.resolve_left fun hn => hn hwd
        exact Or.inr ⟨t, w, ht, htidy.solvedForm, ⟨lhs, hd, hw⟩, hwd, hment, θ, hnext, .refl⟩
    · exact Or.inr ⟨s, w, hs.tail hnext⟩

/-- Every attack is in solved form, unless on the way to it a decision was made about a variable
that was bound by the first unifier and is mentioned by a known term. It is in solved form exactly
if no bound variable occurs in its terms for the variables that the first unifier leaves open, and
it is idempotent exactly if it leaves these terms alone. In solved form it is idempotent and binds
no variable to a term in which the variable occurs. -/
theorem unify_solvedForm_or_rebinds
    (hC : ∀ ts ∈ constraints.values, ∀ c ∈ ts, c.Canonical ∧ c.RespectsArity) {maxSteps : Nat}
    (h : σ ∈ (a.unify es constraints maxSteps).solutions) :
    ∃ σ₀ ∈ (xorUnifyWith es (freshNames es constraints)
        { remaining := maxSteps }).1.outcome.solutions,
      ∃ t, Relation.ReflTransGen a.Decides { substitution := σ₀, constraints } t ∧
        t.substitution = σ ∧
        (σ.isIdempotent = true ∨ ∃ s w, Rebinds a constraints σ₀ s w t) ∧
        (σ.isIdempotent = true ↔ ∀ v ∉ σ₀.domain, Unbound σ (σ.lookup v)) ∧
        ((∀ u, u.Canonical → σ.apply (σ.apply u) = σ.apply u) ↔
          ∀ v ∉ σ₀.domain, σ.apply (σ.lookup v) = σ.lookup v) ∧
        (σ.isIdempotent = true → (∀ u, u.Canonical → σ.apply (σ.apply u) = σ.apply u) ∧
          ∀ v u, σ.get? v = some u → v ∉ u.vars) := by
  have hC' (v : Variable) (ts : List Term) (hts : constraints.get? v = some ts) :
      ∀ c ∈ ts, Built c := hC ts (FinMap.mem_values.2 ⟨v, hts⟩)
  obtain ⟨g, t, ⟨σ₀, hfirst, ht, hor⟩, _, rfl⟩ :=
    (maintains_tidy_or_rebinds hc ha a hC').exists_of_mem_unify
      (fun σ₀ hσ₀ => ⟨σ₀, hσ₀, .refl, Or.inl (tidy_start hc ha hσ₀)⟩) h
  obtain ⟨Θ, hΘ⟩ := exists_descends hc ha hC' hfirst ht
  have hσ₀ := (wellFormed_of_mem_xorUnifyWith hc ha hfirst).2.2
  have hidem : (∀ u, u.Canonical → t.substitution.apply (t.substitution.apply u) =
      t.substitution.apply u) ↔ t.substitution.Absorbs t.substitution :=
    ⟨fun hall v => hall (.var v) (canonical_var v),
      fun habs u _ => habs.apply hΘ.canonical hΘ.canonical u⟩
  refine ⟨σ₀, hfirst, t, ht, rfl, ?_, ?_, ?_, fun hform => ?_⟩
  · exact hor.imp_left fun htidy => isIdempotent_eq_true.2 htidy.solvedForm
  · rw [isIdempotent_eq_true]
    exact solvedForm_iff_unbound hσ₀ hΘ.lookup_first
  · rw [hidem]
    exact absorbs_self_iff hσ₀ hΘ.canonical_decided hΘ.canonical hΘ.lookup_first
  · have hsolved := isIdempotent_eq_true.1 hform
    exact ⟨hidem.2 (hsolved.absorbs hΘ.canonical), fun _ _ => hsolved.not_mem_vars⟩

end Decided

open Sample

/-- The argument of an application is open. -/
def openArgument : List Equation := [⟨.var y, .app f [.var x]⟩]

/-- An application to another open variable is known. -/
def knownOpen : Constraints := ⟨[(y, [.app f [.var z]])], by decide⟩

/-- The open variable bound to the other one. -/
def joined : Substitution := ⟨⟨[(x, .var z), (y, .app f [.var z])], by decide⟩⟩

theorem unify_solvedForm_openArgument :
    (∀ e ∈ openArgument, e.Both Canonical) ∧ (∀ e ∈ openArgument, e.Both RespectsArity) ∧
      (∀ ts ∈ knownOpen.values, ∀ c ∈ ts, c.Canonical ∧ c.RespectsArity) ∧
      joined ∈ (unify {} openArgument knownOpen 100).solutions ∧ joined.isIdempotent = true := by
  have hc : ∀ e ∈ openArgument, e.Both Canonical := by decide
  have ha : ∀ e ∈ openArgument, e.Both RespectsArity := by decide
  have hC : ∀ ts ∈ knownOpen.values, ∀ c ∈ ts, c.Canonical ∧ c.RespectsArity := by decide
  have hfound : (unify {} openArgument knownOpen 100).solutions = [joined] := by cbv
  have hmem : joined ∈ (unify {} openArgument knownOpen 100).solutions :=
    hfound ▸ List.mem_singleton_self _
  obtain ⟨σ₀, hσ₀, t, _, _, hor, _⟩ := unify_solvedForm_or_rebinds hc ha hC hmem
  refine ⟨hc, ha, hC, hmem, hor.resolve_right ?_⟩
  -- No known term mentions the only variable that the first unifier binds.
  rintro ⟨s, w, hs⟩
  obtain ⟨hw, v, ts, hts, c, hcts, hwc⟩ := hs.mentions
  have hone : (xorUnifyWith openArgument (freshNames openArgument knownOpen)
      { remaining := 100 }).1.outcome.solutions = [single y (.app f [.var x])] := by cbv
  rw [hone, List.mem_singleton] at hσ₀
  rw [hσ₀, mem_domain_single] at hw
  have hall : ∀ ts ∈ knownOpen.values, ∀ c ∈ ts, y ∉ c.vars := by decide
  exact hall ts (FinMap.mem_values.2 ⟨v, hts⟩) c hcts (hw ▸ hwc)

/-- Two variables are applications to a third. -/
def sharedArgument : List Equation := [⟨.var x, .app f [.var y]⟩, ⟨.var z, .app g [.var y]⟩]

/-- The term that is known at one of them mentions the other, which is bound. -/
def knownBound : Constraints := ⟨[(x, [.app f [.var z]])], by decide⟩

/-- A decision binds the third variable to one that is bound to an application to it, and a variable
occurs in the term to which it is bound. -/
theorem unify_sharedArgument : ∃ σ : Substitution,
    (∀ e ∈ sharedArgument, e.Both Canonical) ∧ (∀ e ∈ sharedArgument, e.Both RespectsArity) ∧
      (∀ ts ∈ knownBound.values, ∀ c ∈ ts, c.Canonical ∧ c.RespectsArity) ∧
      σ ∈ (unify {} sharedArgument knownBound 100).solutions ∧
      (∃ u, u.Canonical ∧ σ.apply (σ.apply u) ≠ σ.apply u) ∧
      ∃ v u, σ.get? v = some u ∧ u ≠ .var v ∧ v ∈ u.vars := by
  have hfound : (unify {} sharedArgument knownBound 100).solutions =
      [⟨⟨[(x, .app f [.var z]), (y, .var z), (z, .app g [.var z])], by decide⟩⟩] := by cbv
  refine ⟨⟨⟨[(x, .app f [.var z]), (y, .var z), (z, .app g [.var z])], by decide⟩⟩, by decide,
    by decide, by decide, ?_, ⟨.var z, by decide, by decide⟩, z, .app g [.var z], by decide,
    by decide, by decide⟩
  rw [hfound]
  exact List.mem_singleton_self _

end Adversary

end SymbolicXor
