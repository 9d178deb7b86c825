import SymbolicXor.Proofs.CanonicalTerms
import SymbolicXor.Proofs.FoundUnifiers

/-!
# Results of rules are instances

The term that a rule puts in the place of a subterm is an instance of its conclusion. The same
instance of its hypothesis is the subterm as far as the substitution that was found unifies the
hypothesis with the frozen subterm: renaming, freezing and thawing lose nothing on the way.
-/

namespace SymbolicXor

open Term Substitution

/-- A substitution takes variables to variables of the same sort, and different ones among some
given variables to different ones. -/
structure Substitution.Renames (ν : Substitution) (vs : List Variable) (f : Variable → Variable) :
    Prop where
  /-- Variables stand for variables. -/
  lookup : ∀ v, ν.lookup v = .var (f v)
  /-- The sorts stay. -/
  sort : ∀ v, (f v).sort = v.sort
  /-- The given variables remain different. -/
  inj : ∀ v ∈ vs, ∀ w ∈ vs, f v = f w → v = w

namespace Substitution.Renames

variable {ν : Substitution} {vs : List Variable} {f : Variable → Variable} (h : ν.Renames vs f)

include h

theorem into {P : Term → Prop} (hP : ∀ v, P (.var v)) : ν.Into P := by
  intro t ht
  obtain ⟨v, hv⟩ := mem_range.1 ht
  rw [← lookup_of_get? hv, h.lookup]
  exact hP _

theorem wellSorted : ν.WellSorted := by
  intro v _
  rw [h.lookup, Variable.accepts_iff]
  exact fun s hs => ⟨s, (h.sort v).trans hs, s.conformsTo_self⟩

/-- The renamed variables may be given any values. -/
theorem exists_lookup {g : Variable → Term} (hg : ∀ v, (g v).Canonical) (hvs : vs.Nodup) :
    ∃ θ : Substitution, θ.Into Canonical ∧ (∀ v ∈ vs, θ.lookup (f v) = g v) ∧
      ((∀ v ∈ vs, v.accepts (g v) = true) → θ.WellSorted) := by
  have hkeys : ((vs.map fun v => (f v, g v)).map Prod.fst).Nodup := by
    rw [List.map_map]
    exact hvs.map_on h.inj
  have hbound {w : Variable} {t : Term}
      (hw : (FinMap.ofList (vs.map fun v => (f v, g v))).get? w = some t) :
      ∃ v ∈ vs, f v = w ∧ g v = t := by
    obtain ⟨v, hv, heq⟩ := List.mem_map.1 ((FinMap.get?_ofList hkeys).1 hw)
    exact ⟨v, hv, congrArg Prod.fst heq, congrArg Prod.snd heq⟩
  refine ⟨⟨.ofList (vs.map fun v => (f v, g v))⟩, fun t ht => ?_, fun v hv => ?_,
    fun hsorted w hw => ?_⟩
  · obtain ⟨w, hw⟩ := mem_range.1 ht
    obtain ⟨v, _, _, rfl⟩ := hbound hw
    exact hg v
  · exact lookup_of_get? ((FinMap.get?_ofList hkeys).2 (List.mem_map_of_mem hv))
  · obtain ⟨t, ht⟩ := mem_domain.1 hw
    obtain ⟨v, hv, rfl, rfl⟩ := hbound ht
    rw [lookup_of_get? ht, Variable.accepts, h.sort]
    exact hsorted v hv

end Substitution.Renames

namespace Rule

variable {r r' : Rule} {s t u : Term} {p : Position}

theorem nodup_uniqueVars (r : Rule) : r.uniqueVars.Nodup :=
  (OrderedList.ordered_ofList _).nodup

/-- The variables that a rule shares with a term. -/
def sharedVars (r : Rule) (s : Term) : List Variable := r.uniqueVars.filter s.uniqueVars.contains

/-- The names of the variables of a rule and of a term. -/
def usedNames (r : Rule) (s : Term) : List Name :=
  (s.uniqueVars ++ r.uniqueVars).map Variable.symbol

/-- The new names of the shared variables. -/
def newNames (r : Rule) (s : Term) : List (Variable × Name) :=
  Variable.namesApart (r.usedNames s) (r.sharedVars s)

theorem mem_sharedVars {v : Variable} : v ∈ r.sharedVars s ↔ v ∈ r.uniqueVars ∧ v ∈ s.vars := by
  simp [sharedVars, List.mem_filter]

theorem symbol_mem_usedNames {v : Variable} (h : v ∈ s.vars ∨ v ∈ r.uniqueVars) :
    v.symbol ∈ r.usedNames s :=
  List.mem_map_of_mem (List.mem_append.2 (h.imp_left mem_uniqueVars.2))

/-- A renamed copy of a variable of a rule: a variable of its sort with its name and suffixes, which
no variable of the rule or of the term has. -/
structure RenamedCopy (r : Rule) (s : Term) (v w : Variable) : Prop where
  /-- The sort stays. -/
  sort : w.sort = v.sort
  /-- The name has suffixes, at least one. -/
  symbol : ∃ i, w.symbol = v.symbol.suffixed (i + 1)
  /-- No variable of the rule or of the term has that name. -/
  apart : ∀ x, x ∈ s.vars ∨ x ∈ r.uniqueVars → x.symbol ≠ w.symbol

/-- A new name makes a renamed copy, because the old name is used. -/
theorem renamedCopy_of_mem_newNames {v w : Variable} (hsort : w.sort = v.sort)
    (h : (v, w.symbol) ∈ r.newNames s) : r.RenamedCopy s v w := by
  obtain ⟨hfree, i, hi⟩ := Variable.exists_of_mem_namesApart h
  have hv : v ∈ r.sharedVars s := Variable.exists_mem_namesApart.1 ⟨_, h⟩
  refine ⟨hsort, ?_, fun x hx heq => hfree (heq ▸ symbol_mem_usedNames hx)⟩
  cases i with
  | zero => exact absurd (hi ▸ symbol_mem_usedNames (Or.inl (mem_sharedVars.1 hv).2)) hfree
  | succ i => exact ⟨i, hi⟩

/-- A rule is renamed apart from a term: its variables that are in the term become renamed copies,
and all others stay. -/
structure RenamesApart (r : Rule) (s : Term) (ν : Substitution) (f : Variable → Variable) : Prop
    extends ν.Renames r.uniqueVars f where
  /-- Shared variables become renamed copies. -/
  copy : ∀ v ∈ r.uniqueVars, v ∈ s.vars → r.RenamedCopy s v (f v)
  /-- Variables that are not in the term stay. -/
  keep : ∀ v ∉ s.vars, f v = v

/-- With the new names in the places of the shared variables, different variables of the rule remain
different. -/
theorem eq_of_newNames_eq {f : Variable → Variable} (hsort : ∀ v, (f v).sort = v.sort)
    (hnew : ∀ v ∈ r.sharedVars s, (v, (f v).symbol) ∈ r.newNames s)
    (hkeep : ∀ v ∉ r.sharedVars s, f v = v) :
    ∀ v ∈ r.uniqueVars, ∀ w ∈ r.uniqueVars, f v = f w → v = w := by
  -- A copy is no variable of the rule.
  have hne {v w : Variable} (hv : v ∈ r.sharedVars s) (hw : w ∈ r.uniqueVars) : f v ≠ w :=
    fun heq => (renamedCopy_of_mem_newNames (hsort v) (hnew v hv)).apart w (Or.inr hw)
      (congrArg Variable.symbol heq.symm)
  intro v hv w hw heq
  by_cases hv' : v ∈ r.sharedVars s <;> by_cases hw' : w ∈ r.sharedVars s
  · exact congrArg Prod.fst (List.inj_on_of_nodup_map Variable.nodup_namesApart
      (hnew v hv') (hnew w hw') (congrArg Variable.symbol heq))
  · exact absurd (heq.trans (hkeep w hw')) (hne hv' hw)
  · exact absurd (heq.symm.trans (hkeep v hv')) (hne hw' hv)
  · rw [← hkeep v hv', heq, hkeep w hw']

/-- The bindings of shared variables to their new names rename the rule apart. -/
theorem exists_renamesApart_of_ofBindings {ν : Substitution}
    (h : Substitution.ofBindings ((r.newNames s).map fun e =>
      (e.1, .var { symbol := e.2, sort := e.1.sort })) = .ok ν) :
    ∃ f, r.RenamesApart s ν f := by
  obtain ⟨hlookup, hother⟩ := Variable.lookup_ofBindings_namesApart
    (fun v n => .var { symbol := n, sort := v.sort }) (r.nodup_uniqueVars.filter _) h
  have hnamed (v : Variable) : ∃ w, ν.lookup v = .var w ∧ w.sort = v.sort ∧
      (v ∈ r.sharedVars s → (v, w.symbol) ∈ r.newNames s) ∧ (v ∉ r.sharedVars s → w = v) := by
    by_cases hv : v ∈ r.sharedVars s
    · obtain ⟨n, hn⟩ := Variable.exists_mem_namesApart.2 hv
      exact ⟨_, hlookup v n hn, rfl, fun _ => hn, fun hnot => absurd hv hnot⟩
    · exact ⟨v, hother v hv, rfl, fun hmem => absurd hmem hv, fun _ => rfl⟩
  choose f hf hsort hnew hkeep using hnamed
  refine ⟨f, ⟨hf, hsort, eq_of_newNames_eq hsort hnew hkeep⟩, fun v hv hvs => ?_, fun v hvs => ?_⟩
  · exact renamedCopy_of_mem_newNames (hsort v) (hnew v (mem_sharedVars.2 ⟨hv, hvs⟩))
  · exact hkeep v fun hmem => hvs (mem_sharedVars.1 hmem).2

theorem renamedApart_eq (r : Rule) (s : Term) : r.renamedApart s =
    (Substitution.ofBindings ((r.newNames s).map fun e =>
      (e.1, .var { symbol := e.2, sort := e.1.sort }))).map fun ν =>
        ⟨ν.apply r.hypothesis, ν.apply r.conclusion⟩ := rfl

/-- A rule that is renamed apart is an instance of the rule under such a renaming. -/
theorem exists_renamesApart (h : r.renamedApart s = .ok r') :
    ∃ (ν : Substitution) (f : Variable → Variable), r.RenamesApart s ν f ∧
      r' = ⟨ν.apply r.hypothesis, ν.apply r.conclusion⟩ := by
  rw [renamedApart_eq] at h
  cases hν : Substitution.ofBindings ((r.newNames s).map fun e =>
      (e.1, .var { symbol := e.2, sort := e.1.sort })) with
  | error e =>
    rw [hν] at h
    cases h
  | ok ν =>
    rw [hν] at h
    cases h
    obtain ⟨f, hf⟩ := exists_renamesApart_of_ofBindings hν
    exact ⟨ν, f, hf, rfl⟩

/-- A rule that is renamed apart is an instance of the rule under a renaming. -/
theorem exists_renames (h : r.renamedApart s = .ok r') :
    ∃ (ν : Substitution) (f : Variable → Variable), ν.Renames r.uniqueVars f ∧
      r' = ⟨ν.apply r.hypothesis, ν.apply r.conclusion⟩ :=
  have ⟨ν, f, hν, heq⟩ := exists_renamesApart h
  ⟨ν, f, hν.toRenames, heq⟩

/-- Every rule can be renamed, because its variables accept others of their sorts. -/
theorem exists_renamedApart (r : Rule) (s : Term) : ∃ r', r.renamedApart s = .ok r' := by
  obtain ⟨ν, hν⟩ := Variable.exists_ofBindings_namesApart (r.usedNames s)
    (fun v n => .var { symbol := n, sort := v.sort })
    (r.nodup_uniqueVars.filter s.uniqueVars.contains) fun _ _ => Variable.accepts_of_sort_eq rfl
  refine ⟨⟨ν.apply r.hypothesis, ν.apply r.conclusion⟩, ?_⟩
  rw [renamedApart_eq, newNames, sharedVars, hν]
  rfl

/-- If a term is an instance of the hypothesis, the renamed hypothesis and the frozen term have a
unifier: a renamed variable gets the frozen value of the variable that it was. -/
theorem exists_solves_of_instance {ν φ ρ : Substitution} {f : Variable → Variable}
    {frozen : Frozen} {taken : List Name} (hν : ν.Renames r.uniqueVars f)
    (hφ : frozen.Freezes taken s φ) (hρ : ρ.Into Canonical) (h : ρ.apply r.hypothesis = s) :
    ∃ θ : Substitution, θ.Into Canonical ∧ θ.Solves [⟨ν.apply r.hypothesis, frozen.term⟩] ∧
      (ρ.WellSorted → θ.WellSorted) := by
  obtain ⟨θ, hθ, hlookup, hsorted⟩ := hν.exists_lookup
    (fun v => canonical_apply hφ.canonical (ρ.lookup v)) r.nodup_uniqueVars
  refine ⟨θ, hθ, List.forall_mem_singleton.2 ?_, fun hρs => hsorted fun v _ =>
    accepts_apply hφ.wellSorted (hρs.lookup v)⟩
  have hvars : ∀ v ∈ r.hypothesis.vars, (ρ.compose φ).lookup v = θ.apply (ν.lookup v) := by
    intro v hv
    have hmem : v ∈ r.uniqueVars := OrderedList.mem_ofList.2 (List.mem_append_left _ hv)
    rw [lookup_compose, hν.lookup, apply_var, hlookup v hmem]
  calc θ.apply (ν.apply r.hypothesis)
      = (ρ.compose φ).apply r.hypothesis :=
        (apply_eq_apply_apply (hν.into canonical_var) hθ hvars).symm
    _ = φ.apply (ρ.apply r.hypothesis) := apply_compose hρ hφ.canonical _
    _ = frozen.term := by rw [h, hφ.term_eq]
    _ = θ.apply frozen.term := (hφ.apply_term θ).symm

/-- A substitution that matches a pattern with a frozen term comes from syntactic unification, or,
where that fails, from unification modulo exclusive or. -/
theorem matching?_eq_some {pattern frozen : Term} {σ : Substitution}
    (h : matching? pattern frozen = some σ) :
    Unification.unify [⟨pattern, frozen⟩] = .ok σ ∨
      (∀ τ, Unification.unify [⟨pattern, frozen⟩] ≠ .ok τ) ∧
        σ ∈ (xorUnify [⟨pattern, frozen⟩]).solutions := by
  unfold matching? at h
  split at h
  · rename_i τ hτ
    cases h
    exact Or.inl hτ
  · rename_i herr
    refine Or.inr ⟨fun τ hτ => ?_, List.mem_of_head? h⟩
    rw [Unification.unifyTerms, hτ] at herr
    cases herr
  · cases h

/-- A way to apply a rule at the root of a term. -/
structure Match (r : Rule) (s : Term) where
  /-- The rule, renamed apart from the term. -/
  renamed : Rule
  /-- The term, frozen apart from the rule. -/
  frozen : Frozen
  /-- The unifier of the hypothesis and the frozen term. -/
  unifier : Substitution
  /-- The rule was renamed. -/
  renames : r.renamedApart s = .ok renamed
  /-- The term was frozen. -/
  freezes : s.freezeApart (s.constants.map Constant.symbol ++ renamed.constantNames) = .ok frozen
  /-- The unifier was found. -/
  found : matching? renamed.hypothesis frozen.term = some unifier

namespace Match

/-- The equation that is to be unified. -/
def equations (m : r.Match s) : List Equation := [⟨m.renamed.hypothesis, m.frozen.term⟩]

/-- The term that takes the place of the matched one. -/
def result (m : r.Match s) : Term :=
  (m.unifier.apply m.renamed.conclusion).thaw m.frozen.thawing

theorem exists_match (h : r.applyAtRoot s = .ok (some u)) : ∃ m : r.Match s, u = m.result := by
  obtain ⟨r', frozen, σ, hr, hf, hm, rfl⟩ := applyAtRoot_eq_ok_some.1 h
  exact ⟨⟨r', frozen, σ, hr, hf, hm⟩, rfl⟩

section WellFormed

variable (m : r.Match s)

/-- The names that the constants of the frozen term are apart from. -/
def taken : List Name := s.constants.map Constant.symbol ++ m.renamed.constantNames

theorem exists_freezes : ∃ φ, m.frozen.Freezes m.taken s φ := Frozen.exists_freezes m.freezes

theorem symbol_mem_taken {c : Constant} (h : c ∈ s.constants ∨ c ∈ m.renamed.hypothesis.constants ∨
    c ∈ m.renamed.conclusion.constants) : c.symbol ∈ m.taken := by
  rcases h with h | h | h
  · exact List.mem_append_left _ (List.mem_map_of_mem h)
  · exact List.mem_append_right _ (List.mem_map_of_mem (List.mem_append_left _ h))
  · exact List.mem_append_right _ (List.mem_map_of_mem (List.mem_append_right _ h))

theorem both_canonical : ∀ e ∈ m.equations, e.Both Canonical := by
  obtain ⟨ν, f, hν, hrenamed⟩ := exists_renames m.renames
  obtain ⟨φ, hφ⟩ := m.exists_freezes
  refine List.forall_mem_singleton.2 ⟨?_, hφ.canonical_term⟩
  rw [hrenamed]
  exact canonical_apply (hν.into canonical_var) _

theorem both_respectsArity (hr : r.hypothesis.RespectsArity) (hs : s.RespectsArity) :
    ∀ e ∈ m.equations, e.Both RespectsArity := by
  obtain ⟨ν, f, hν, hrenamed⟩ := exists_renames m.renames
  obtain ⟨φ, hφ⟩ := m.exists_freezes
  refine List.forall_mem_singleton.2 ⟨?_, hφ.respectsArity_term hs⟩
  rw [hrenamed]
  exact respectsArity_apply (hν.into respectsArity_var) hr

/-- Whichever way it was found, the unifier is well-sorted and canonical. -/
theorem unifier_spec : m.unifier.WellSorted ∧ m.unifier.Into Canonical := by
  rcases matching?_eq_some m.found with h | ⟨_, h⟩
  · exact invariant_canonical.unify m.both_canonical h
  · exact invariant_canonical.xorUnifyWith m.both_canonical h

end WellFormed

/-- The substitution under which a match takes instances of the rule: the variables are renamed, and
the terms found for the new ones are thawed. -/
def instantiation (m : r.Match s) (ν : Substitution) : Substitution :=
  ν.compose (m.unifier.thawed m.frozen.thawing)

theorem lookup_instantiation (m : r.Match s) {ν : Substitution} {vs : List Variable}
    {f : Variable → Variable} (hν : ν.Renames vs f) (v : Variable) :
    (m.instantiation ν).lookup v = (m.unifier.lookup (f v)).thaw m.frozen.thawing := by
  rw [instantiation, lookup_compose, hν.lookup, apply_var, lookup_thawed]

/-- The result of a match is the instance of the conclusion under a substitution, and the frozen
instance of the hypothesis thaws to the same instance of that. -/
structure Instantiates (m : r.Match s) (ρ : Substitution) : Prop where
  /-- The values are canonical. -/
  canonical : ρ.Into Canonical
  /-- They have the sorts of their variables. -/
  wellSorted : ρ.WellSorted
  /-- The result is the instance of the conclusion. -/
  conclusion : m.result = ρ.apply r.conclusion
  /-- The instance of the hypothesis under the unifier thaws to the instance of the original one. -/
  hypothesis : (m.unifier.apply m.renamed.hypothesis).thaw m.frozen.thawing =
    ρ.apply r.hypothesis

/-- If the term is any instance of the hypothesis, the equation has a solution. -/
theorem exists_solves (m : r.Match s) {ρ : Substitution} (hρ : ρ.Into Canonical)
    (h : ρ.apply r.hypothesis = s) :
    ∃ θ : Substitution, θ.Into Canonical ∧ θ.Solves m.equations := by
  obtain ⟨ν, f, hν, hrenamed⟩ := exists_renames m.renames
  obtain ⟨φ, hφ⟩ := m.exists_freezes
  obtain ⟨θ, hθ, hsolves, _⟩ := exists_solves_of_instance hν hφ hρ h
  rw [equations, hrenamed]
  exact ⟨θ, hθ, hsolves⟩

section Instance

variable {m : r.Match s} {ρ : Substitution} (hz : Variable.likeZero ∉ s.vars)

include hz

/-- Under whichever renaming the rule was renamed, the match takes its instances so. -/
theorem instantiates {ν : Substitution} {f : Variable → Variable} (hν : ν.Renames r.uniqueVars f)
    (hrenamed : m.renamed = ⟨ν.apply r.hypothesis, ν.apply r.conclusion⟩) :
    m.Instantiates (m.instantiation ν) := by
  obtain ⟨φ, hφ⟩ := m.exists_freezes
  obtain ⟨hsorted, hσ⟩ := m.unifier_spec
  have hthawed := canonical_thawed m.unifier m.frozen.thawing
  have hinstance {side renamed : Term} (hside : renamed = ν.apply side)
      (hnames : ∀ c ∈ renamed.constants, c.symbol ∈ m.taken) :
      (m.unifier.apply renamed).thaw m.frozen.thawing = (m.instantiation ν).apply side := by
    rw [hφ.thaw_apply hz hσ hnames, hside, instantiation,
      apply_compose (hν.into canonical_var) hthawed]
  refine ⟨canonical_compose hthawed, hν.wellSorted.compose (hsorted.thawed hφ.sort_eq), ?_, ?_⟩
  · exact hinstance (congrArg conclusion hrenamed) fun c hc =>
      m.symbol_mem_taken (Or.inr (Or.inr hc))
  · exact hinstance (congrArg hypothesis hrenamed) fun c hc =>
      m.symbol_mem_taken (Or.inr (Or.inl hc))

theorem exists_instantiates (m : r.Match s) : ∃ ρ, m.Instantiates ρ :=
  have ⟨ν, _, hν, hrenamed⟩ := exists_renames m.renames
  ⟨m.instantiation ν, instantiates hz hν hrenamed⟩

variable (h : m.Instantiates ρ) (hs : s.Canonical)

include h hs

/-- If the unifier solves its equation, the instance of the hypothesis is the term. -/
theorem Instantiates.hypothesis_eq (hsolves : m.unifier.Solves m.equations) :
    ρ.apply r.hypothesis = s := by
  obtain ⟨φ, hφ⟩ := m.exists_freezes
  have heq : m.unifier.apply m.renamed.hypothesis = m.unifier.apply m.frozen.term :=
    hsolves _ (List.mem_singleton_self _)
  rw [← h.hypothesis, heq, hφ.apply_term,
    hφ.thaw_term hz hs fun c hc => m.symbol_mem_taken (Or.inl hc)]

variable (hr : r.hypothesis.RespectsArity) (hs' : s.RespectsArity)

include hr hs'

/-- If syntactic unification found the unifier, the instance of the hypothesis is the term exactly
if any is, which is the case exactly if no round lost a clash of symbols. -/
theorem Instantiates.hypothesis_eq_tfae (hunify : Unification.unify m.equations = .ok m.unifier) :
    [ρ.apply r.hypothesis = s,
      ∃ ρ' : Substitution, ρ'.Into Canonical ∧ ρ'.apply r.hypothesis = s,
      Unification.LosesNoClash m.equations].TFAE := by
  tfae_have 1 → 2 := fun heq => ⟨ρ, h.canonical, heq⟩
  tfae_have 2 → 3 := fun ⟨ρ', hρ', heq⟩ =>
    have ⟨θ, hθ, hsolves⟩ := m.exists_solves hρ' heq
    Unification.losesNoClash_of_solves m.both_canonical hθ hsolves
  tfae_have 3 → 1 := fun hclash => h.hypothesis_eq hz hs
    (Unification.unify_solves m.both_canonical (m.both_respectsArity hr hs') hunify hclash)
  tfae_finish

/-- If unification modulo exclusive or found the unifier, the instance of the hypothesis is the term
if the pairs that were struck out cancel, as they do if they are unifiable. -/
theorem Instantiates.hypothesis_eq_of_foundAlong {fresh : FreshNames}
    {lines : List XorUnification.Line}
    (hlines : FoundAlong m.equations fresh m.unifier lines) :
    ((∀ l ∈ lines, l.owed m.unifier = zero) → ρ.apply r.hypothesis = s) ∧
      ((∀ l ∈ lines, ∀ q ∈ l.struck,
          ∃ ρ' : Substitution, ρ'.Into Canonical ∧ ρ'.apply q.1 = ρ'.apply q.2) →
        ρ.apply r.hypothesis = s) := by
  have hc := m.both_canonical
  have ha := m.both_respectsArity hr hs'
  refine ⟨fun howed => ?_, fun hunifiable => ?_⟩
  · exact h.hypothesis_eq hz hs ((hlines.solves_iff hc ha).2 howed).1
  · exact h.hypothesis_eq hz hs (hlines.solves_of_unifiable hc ha hunifiable)

end Instance

end Match

/-- A rule that is applied puts an instance of its conclusion in the place of the subterm. The same
instance of the hypothesis is the subterm if the unifier that was found solves its equation. An
answer of syntactic unification does so exactly if the subterm is any instance of the hypothesis,
which is the case exactly if no round lost a clash of symbols. An answer of unification modulo
exclusive or does so if the pairs that were struck out cancel, as they do if they are unifiable. -/
theorem applyAt_instance (hr : r.hypothesis.RespectsArity) (ht : t.Canonical)
    (ht' : t.RespectsArity) (hs : t.subtermAt p = .ok s) (hz : Variable.likeZero ∉ s.vars)
    (h : r.applyAt t p = .ok (some u)) :
    ∃ (m : r.Match s) (ρ : Substitution), ρ.Into Canonical ∧ ρ.WellSorted ∧
      t.replaceAt p (ρ.apply r.conclusion) = .ok u ∧
      (m.unifier.Solves m.equations → ρ.apply r.hypothesis = s) ∧
      (Unification.unify m.equations = .ok m.unifier →
        [ρ.apply r.hypothesis = s,
          ∃ ρ' : Substitution, ρ'.Into Canonical ∧ ρ'.apply r.hypothesis = s,
          Unification.LosesNoClash m.equations].TFAE) ∧
      ((∀ τ, Unification.unify m.equations ≠ .ok τ) →
        (∃ lines, FoundAlong m.equations (.forEquations m.equations) m.unifier lines) ∧
        ∀ lines, FoundAlong m.equations (.forEquations m.equations) m.unifier lines →
          ((∀ l ∈ lines, l.owed m.unifier = zero) → ρ.apply r.hypothesis = s) ∧
          ((∀ l ∈ lines, ∀ q ∈ l.struck,
              ∃ ρ' : Substitution, ρ'.Into Canonical ∧ ρ'.apply q.1 = ρ'.apply q.2) →
            ρ.apply r.hypothesis = s)) := by
  obtain ⟨s', new, hs', hnew, hu⟩ := applyAt_eq_ok_some.1 h
  obtain rfl : s' = s := Except.ok.inj (hs'.symm.trans hs)
  have hsub : s'.Canonical := everywhere_subtermAt ht hs
  have hsub' : s'.RespectsArity := everywhere_subtermAt ht' hs
  obtain ⟨m, rfl⟩ := Match.exists_match hnew
  obtain ⟨ρ, hρ⟩ := m.exists_instantiates hz
  refine ⟨m, ρ, hρ.canonical, hρ.wellSorted, hρ.conclusion ▸ hu, hρ.hypothesis_eq hz hsub,
    hρ.hypothesis_eq_tfae hz hsub hr hsub', fun hfails => ?_⟩
  have hfound : m.unifier ∈ (xorUnify m.equations).solutions :=
    ((matching?_eq_some m.found).resolve_left (hfails _)).2
  exact ⟨exists_foundAlong hfound, fun lines => hρ.hypothesis_eq_of_foundAlong hz hsub hr hsub'⟩

end Rule

namespace Rule

open Sample

/-- A pair becomes the sum of its parts. -/
def adding : Rule := ⟨.app p [.var x, .var y], .sum [.var x, .var y]⟩

/-- A pair whose second part is also added to it. -/
def maskedPair : Term := .app f [.sum [a, .app p [.var x, a]]]

/-- The place of the pair. -/
def pairPlace : Position := ⟨[1, 2]⟩

/-- The variable `x` of the rule under its new name. -/
def x₁ : Variable := { symbol := ⟨"x_1", by decide⟩ }

theorem applyAt_instance_maskedPair :
    adding.hypothesis.RespectsArity ∧ maskedPair.Canonical ∧ maskedPair.RespectsArity ∧
      maskedPair.subtermAt pairPlace = .ok (.app p [.var x, a]) ∧
      Variable.likeZero ∉ (Term.app p [.var x, a]).vars ∧
      adding.applyAt maskedPair pairPlace = .ok (some (.app f [.var x])) ∧
      ∃ ρ : Substitution, ρ.Into Canonical ∧ ρ.apply adding.hypothesis = .app p [.var x, a] ∧
        maskedPair.replaceAt pairPlace (ρ.apply adding.conclusion) = .ok (.app f [.var x]) := by
  have hr : adding.hypothesis.RespectsArity := by decide
  have ht : maskedPair.Canonical := by decide
  have ht' : maskedPair.RespectsArity := by decide
  have hs : maskedPair.subtermAt pairPlace = .ok (.app p [.var x, a]) := by rfl
  have hz : Variable.likeZero ∉ (Term.app p [.var x, a]).vars := by decide
  have happly : adding.applyAt maskedPair pairPlace = .ok (some (.app f [.var x])) := by cbv
  refine ⟨hr, ht, ht', hs, hz, happly, ?_⟩
  obtain ⟨m, ρ, hρ, _, hu, _, hunify, _⟩ := applyAt_instance hr ht ht' hs hz happly
  have hrenamed : m.renamed = ⟨.app p [.var x₁, .var y], .sum [.var x₁, .var y]⟩ :=
    Except.ok.inj (m.renames.symm.trans (by cbv))
  have hfrozen : m.frozen.term = .app p [.const { symbol := x.symbol }, a] := by
    have hfreezes := congrArg (Except.map Frozen.term) m.freezes
    rw [hrenamed] at hfreezes
    exact Except.ok.inj (hfreezes.symm.trans (by cbv))
  have hunified : Unification.unify m.equations =
      .ok ⟨⟨[(x₁, .const { symbol := x.symbol }), (y, a)], by decide⟩⟩ := by
    rw [Match.equations, hrenamed, hfrozen]
    cbv
  have hfound := (matching?_eq_some m.found).resolve_right fun hfails => hfails.1 _ hunified
  have hinstance : ∃ ρ' : Substitution, ρ'.Into Canonical ∧
      ρ'.apply adding.hypothesis = .app p [.var x, a] := ⟨single y a, by decide, by decide⟩
  exact ⟨ρ, hρ, ((hunify hfound).out 0 1).2 hinstance, hu⟩

/-- A pair of equal parts becomes one of them. -/
def diagonal : Rule := ⟨.app p [.var x, .var x], .var x⟩

/-- A pair whose parts are applications of different symbols. -/
def unequalPair : Term := .app p [.app f [a], .app g [a]]

/-- A rule is applied to a pair that is no instance of its hypothesis, because the binding of the
variable hides that the symbols clash. -/
theorem applyAt_unequalPair :
    diagonal.hypothesis.Canonical ∧ diagonal.hypothesis.RespectsArity ∧
      diagonal.conclusion.Canonical ∧ diagonal.conclusion.RespectsArity ∧
      unequalPair.Canonical ∧ unequalPair.RespectsArity ∧
      unequalPair.subtermAt .root = .ok unequalPair ∧ Variable.likeZero ∉ unequalPair.vars ∧
      diagonal.applyAt unequalPair .root = .ok (some (.app f [a])) ∧
      ¬ ∃ ρ : Substitution, ρ.apply diagonal.hypothesis = unequalPair ∧
        unequalPair.replaceAt .root (ρ.apply diagonal.conclusion) = .ok (.app f [a]) := by
  refine ⟨by decide, by decide, by decide, by decide, by decide, by decide, rfl, by decide, by cbv,
    ?_⟩
  rintro ⟨ρ, hρ, _⟩
  simp only [diagonal, unequalPair, apply_app, List.map_cons, List.map_nil, app.injEq,
    List.cons.injEq, true_and] at hρ
  have hparts := hρ.1.symm.trans hρ.2.1
  rw [app.injEq] at hparts
  exact absurd hparts.1 (by decide)

end Rule

end SymbolicXor
