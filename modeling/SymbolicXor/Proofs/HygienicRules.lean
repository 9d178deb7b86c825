import SymbolicXor.Proofs.RuleInstances

/-!
# Variables of conclusions only

A variable of the conclusion that the hypothesis does not have stays in the result, under another
name if the term has it too. The unifier binds variables of the renamed hypothesis, which are
others, and names that unification modulo exclusive or generates. Those avoid the names in the
hypothesis and in the term, and no renamed copy is spelled like one, but the conclusion may have a
variable that is: this variable is captured.
-/

namespace SymbolicXor

open Term Substitution

namespace Name

/-- Suffixes leave the characters of a name. -/
theorem mem_suffixed {c : Char} {n : Name} (h : c ∈ n.text.toList) (i : Nat) :
    c ∈ (n.suffixed i).text.toList := by
  induction i generalizing n with
  | zero => exact h
  | succ i ih =>
    refine ih ?_
    rw [append, String.toList_append]
    exact List.mem_append_left _ h

/-- A suffix brings an underscore. -/
theorem underscore_mem_suffixed (n : Name) (i : Nat) :
    '_' ∈ (n.suffixed (i + 1)).text.toList := by
  refine mem_suffixed ?_ i
  rw [append, String.toList_append]
  exact List.mem_append_right _ (by decide)

/-- Numbers bring no underscore. -/
theorem underscore_not_mem_numbered {stem : String} (h : Spelling.isStem stem.toList = true)
    (hstem : '_' ∉ stem.toList) (k : Nat) : '_' ∉ (numbered stem h k).text.toList := by
  rw [numbered, String.toList_append, List.mem_append, not_or, Nat.toList_repr]
  exact ⟨hstem, fun hmem =>
    absurd (Nat.isDigit_of_mem_toDigits (by decide) (by decide) hmem) (by decide)⟩

end Name

namespace Purifier

variable {K : Purifier → Term → Prop} {p q : Purifier}

/-- The generator numbers its names in the same way after sums were named. -/
theorem Extends.name_eq (h : p.Extends K q) (k : Nat) : q.fresh.name k = p.fresh.name k := by
  induction h with
  | refl => rfl
  | tail _ hstep ih =>
    obtain ⟨t, _, rfl⟩ := hstep
    exact ih

/-- Names that were introduced are numbered. -/
theorem Extends.numbered (h : p.Extends K q) {v : Variable} (hv : v ∈ q.names) :
    v ∈ p.names ∨ ∃ k, v = { symbol := p.fresh.name k } := by
  induction h with
  | refl => exact Or.inl hv
  | @tail r _ hpr hstep ih =>
    obtain ⟨t, _, rfl⟩ := hstep
    rcases mem_names_introduce.1 hv with hv | rfl
    · exact ih hv
    · exact Or.inr ⟨r.fresh.nextNumber, congrArg (Variable.mk · none) (Extends.name_eq hpr _)⟩

end Purifier

namespace Rule

variable {r : Rule} {s t u : Term} {p : Position}

namespace Match

variable (m : r.Match s)

/-- The variables that unification modulo exclusive or generates as names of sums. -/
def generated : List Variable := (purifier m.equations (.forEquations m.equations)).names

/-- The variables that are generated are spelled with an `N` and a number. -/
theorem exists_number_of_mem_generated {v : Variable} (h : v ∈ m.generated) :
    ∃ k, v = { symbol := .numbered "N" (by decide) k } :=
  ((purifies_canonical m.both_canonical _).extension.numbered h).resolve_left List.not_mem_nil

/-- Renamed copies are not among the generated variables. -/
theorem not_mem_generated_of_renamedCopy {v w : Variable} (h : r.RenamedCopy s v w) :
    w ∉ m.generated := by
  intro hw
  obtain ⟨k, rfl⟩ := m.exists_number_of_mem_generated hw
  obtain ⟨i, hi⟩ := h.symbol
  have hsome := v.symbol.underscore_mem_suffixed i
  rw [← hi] at hsome
  have hstem : Spelling.isStem "N".toList = true := by decide
  exact Name.underscore_not_mem_numbered hstem (by decide) k hsome

/-- A variable is captured if syntactic unification does not decide, and the unifier that is found
instead binds it as the generated name of a sum. -/
structure Captures (v : Variable) : Prop where
  /-- Syntactic unification found no unifier. -/
  undecided : ∀ τ, Unification.unify m.equations ≠ .ok τ
  /-- The variable was generated. -/
  generated : v ∈ m.generated
  /-- The unifier binds it. -/
  bound : v ∈ m.unifier.domain

section Unifier

variable (hr : r.hypothesis.RespectsArity) (hs : s.RespectsArity)

include hr hs

/-- No bound variable occurs in the terms that are bound. -/
theorem unifier_solvedForm : m.unifier.SolvedForm := by
  rcases matching?_eq_some m.found with h | ⟨_, h⟩
  · exact (Unification.unify_apart h).1
  · exact (wellFormed_of_mem_xorUnifyWith m.both_canonical (m.both_respectsArity hr hs) h).2.2

/-- A variable that the unifier binds is in the renamed hypothesis or captured. -/
theorem mem_vars_or_captures {v : Variable} (h : v ∈ m.unifier.domain) :
    v ∈ m.renamed.hypothesis.vars ∨ m.Captures v := by
  obtain ⟨φ, hφ⟩ := m.exists_freezes
  have hvars : ∀ e ∈ m.equations, ∀ w ∈ e.vars, w ∈ m.renamed.hypothesis.vars := by
    refine List.forall_mem_singleton.2 fun w hw => ?_
    simpa [Equation.vars, hφ.vars_term] using hw
  rcases matching?_eq_some m.found with hunify | ⟨hfails, hfound⟩
  · obtain ⟨e, he, hve⟩ := Unification.mem_uniqueVars.1 ((Unification.unify_apart hunify).2.1 v h)
    exact Or.inl (hvars e he v (List.mem_append.2 hve))
  · obtain ⟨_, hleads, _, heq⟩ := exists_leads_of_mem_xorUnifyWith hfound
    have hscope := (wellFormed_of_leads (Purifier.termKind_names _) m.both_canonical
      (m.both_respectsArity hr hs) (fun e he w hw => Or.inl (hvars e he w hw)) hleads).scope
    exact (hscope.domain v (heq ▸ h)).imp_right fun hgen => ⟨hfails, hgen, h⟩

end Unifier

section Hygiene

variable {ν : Substitution} {f : Variable → Variable} (hν : r.RenamesApart s ν f)
  (hrenamed : m.renamed = ⟨ν.apply r.hypothesis, ν.apply r.conclusion⟩)

include hν hrenamed

/-- A variable that the hypothesis does not have is not renamed to one that the renamed hypothesis
has. -/
theorem not_mem_vars_renamed {v : Variable} (hv : v ∈ r.conclusion.vars)
    (hnew : v ∉ r.hypothesis.vars) : f v ∉ m.renamed.hypothesis.vars := by
  intro hmem
  rw [hrenamed] at hmem
  obtain ⟨w, hw, hvw⟩ := mem_vars_apply hmem
  rw [hν.lookup, vars_var, List.mem_singleton] at hvw
  have hwr : w ∈ r.uniqueVars := OrderedList.mem_ofList.2 (List.mem_append_left _ hw)
  have hvr : v ∈ r.uniqueVars := OrderedList.mem_ofList.2 (List.mem_append_right _ hv)
  exact hnew (hν.inj v hvr w hwr hvw ▸ hw)

variable (hr : r.hypothesis.RespectsArity) (hs : s.RespectsArity)

include hr hs

/-- A variable of the conclusion only becomes its renamed copy if the term has it. Otherwise it
stays, unless it is captured. -/
theorem hygienic {v : Variable} (hv : v ∈ r.conclusion.vars) (hnew : v ∉ r.hypothesis.vars) :
    (v ∈ s.vars → ∃ w, (m.instantiation ν).lookup v = .var w ∧ r.RenamedCopy s v w) ∧
      (v ∉ s.vars → ((m.instantiation ν).lookup v = .var v ↔ ¬ m.Captures v)) := by
  have hbound := m.not_mem_vars_renamed hν hrenamed hv hnew
  have hunbound (h : f v ∉ m.unifier.domain) : (m.instantiation ν).lookup v = .var (f v) := by
    rw [m.lookup_instantiation hν.toRenames, lookup_of_not_mem_domain h]
    rfl
  refine ⟨fun hvs => ?_, fun hvs => ⟨fun heq hcap => ?_, fun hcap => ?_⟩⟩
  · have hvr : v ∈ r.uniqueVars := OrderedList.mem_ofList.2 (List.mem_append_right _ hv)
    have hcopy := hν.copy v hvr hvs
    refine ⟨f v, hunbound fun hdom => ?_, hcopy⟩
    rcases m.mem_vars_or_captures hr hs hdom with hmem | hcap
    · exact hbound hmem
    · exact m.not_mem_generated_of_renamedCopy hcopy hcap.generated
  · -- A bound variable is in no term that is bound, and none of the term thaws to it.
    rw [m.lookup_instantiation hν.toRenames, hν.keep v hvs] at heq
    have hthawed : v ∈ ((m.unifier.lookup v).thaw m.frozen.thawing).vars := by simp [heq]
    obtain ⟨φ, hφ⟩ := m.exists_freezes
    rcases mem_vars_thaw hthawed with hmem | ⟨c, hc⟩
    · exact m.unifier_solvedForm hr hs v hcap.bound _ (lookup_mem_range hcap.bound) hmem
    · exact hvs (hφ.thaws c v hc).1
  · have hkeep := hν.keep v hvs
    rw [hkeep] at hbound hunbound
    exact hunbound fun hdom => hcap ((m.mem_vars_or_captures hr hs hdom).resolve_left hbound)

end Hygiene

end Match

/-- A rule that is applied puts an instance of its conclusion in the place of the subterm. In it a
variable that the hypothesis does not have is its renamed copy if the subterm has it, and otherwise
itself exactly if it is not captured; only variables that are spelled like generated names are. The
same instance of the hypothesis is the subterm exactly if any is, where syntactic unification
decides; otherwise it is if the pairs that were struck out cancel. -/
theorem applyAt_hygienic (hr : r.hypothesis.RespectsArity) (ht : t.Canonical)
    (ht' : t.RespectsArity) (hs : t.subtermAt p = .ok s) (hz : Variable.likeZero ∉ s.vars)
    (h : r.applyAt t p = .ok (some u)) :
    ∃ (m : r.Match s) (ρ : Substitution), ρ.Into Canonical ∧ ρ.WellSorted ∧
      t.replaceAt p (ρ.apply r.conclusion) = .ok u ∧
      (Unification.unify m.equations = .ok m.unifier →
        [ρ.apply r.hypothesis = s,
          ∃ ρ' : Substitution, ρ'.Into Canonical ∧ ρ'.apply r.hypothesis = s,
          Unification.LosesNoClash m.equations].TFAE) ∧
      (∀ lines, FoundAlong m.equations (.forEquations m.equations) m.unifier lines →
        (∀ l ∈ lines, l.owed m.unifier = zero) → ρ.apply r.hypothesis = s) ∧
      ∀ v ∈ r.conclusion.vars, v ∉ r.hypothesis.vars →
        (v ∈ s.vars → ∃ w, ρ.lookup v = .var w ∧ r.RenamedCopy s v w) ∧
          (v ∉ s.vars → (ρ.lookup v = .var v ↔ ¬ m.Captures v)) ∧
          (m.Captures v → ∃ k, v = { symbol := .numbered "N" (by decide) k }) := by
  obtain ⟨s', new, hs', hnew, hu⟩ := applyAt_eq_ok_some.1 h
  obtain rfl : s' = s := Except.ok.inj (hs'.symm.trans hs)
  have hsub : s'.Canonical := everywhere_subtermAt ht hs
  have hsub' : s'.RespectsArity := everywhere_subtermAt ht' hs
  obtain ⟨m, rfl⟩ := Match.exists_match hnew
  obtain ⟨ν, f, hν, hrenamed⟩ := exists_renamesApart m.renames
  have hρ := m.instantiates hz hν.toRenames hrenamed
  exact ⟨m, m.instantiation ν, hρ.canonical, hρ.wellSorted, hρ.conclusion ▸ hu,
    hρ.hypothesis_eq_tfae hz hsub hr hsub',
    fun _ hlines => (hρ.hypothesis_eq_of_foundAlong hz hsub hr hsub' hlines).1,
    fun v hv hnew =>
      have ⟨hshared, hother⟩ := m.hygienic hν hrenamed hr hsub' hv hnew
      ⟨hshared, hother, fun hcap => m.exists_number_of_mem_generated hcap.generated⟩⟩

end Rule

namespace Rule

open Sample

/-- An application becomes a pair of new variables. -/
def forgetting : Rule := ⟨.app f [.var x], .app p [.var y, .var z]⟩

/-- An application with one of these variables, below a symbol. -/
def sharedArgument : Term := .app g [.app f [.var y]]

/-- The variable `y` of the rule under its new name. -/
def y₁ : Variable := { symbol := ⟨"y_1", by decide⟩ }

theorem applyAt_hygienic_sharedArgument :
    forgetting.hypothesis.RespectsArity ∧ sharedArgument.Canonical ∧
      sharedArgument.RespectsArity ∧ sharedArgument.subtermAt ⟨[1]⟩ = .ok (.app f [.var y]) ∧
      Variable.likeZero ∉ (Term.app f [.var y]).vars ∧
      forgetting.applyAt sharedArgument ⟨[1]⟩ =
        .ok (some (.app g [.app p [.var y₁, .var z]])) ∧
      ∃ ρ : Substitution, ρ.apply forgetting.hypothesis = .app f [.var y] ∧
        sharedArgument.replaceAt ⟨[1]⟩ (ρ.apply forgetting.conclusion) =
          .ok (.app g [.app p [.var y₁, .var z]]) ∧
        (∃ w, ρ.lookup y = .var w ∧ forgetting.RenamedCopy (.app f [.var y]) y w) ∧
        ρ.lookup z = .var z := by
  have hr : forgetting.hypothesis.RespectsArity := by decide
  have ht : sharedArgument.Canonical := by decide
  have ht' : sharedArgument.RespectsArity := by decide
  have hs : sharedArgument.subtermAt ⟨[1]⟩ = .ok (.app f [.var y]) := by rfl
  have hz : Variable.likeZero ∉ (Term.app f [.var y]).vars := by decide
  have happly : forgetting.applyAt sharedArgument ⟨[1]⟩ =
      .ok (some (.app g [.app p [.var y₁, .var z]])) := by cbv
  refine ⟨hr, ht, ht', hs, hz, happly, ?_⟩
  obtain ⟨m, ρ, _, _, hu, hunify, _, hvars⟩ := applyAt_hygienic hr ht ht' hs hz happly
  have hrenamed : m.renamed = ⟨.app f [.var x], .app p [.var y₁, .var z]⟩ :=
    Except.ok.inj (m.renames.symm.trans (by cbv))
  have hfrozen : m.frozen.term = .app f [.const { symbol := y.symbol }] := by
    have hfreezes := congrArg (Except.map Frozen.term) m.freezes
    rw [hrenamed] at hfreezes
    exact Except.ok.inj (hfreezes.symm.trans (by cbv))
  have hunified : Unification.unify m.equations =
      .ok ⟨⟨[(x, .const { symbol := y.symbol })], by decide⟩⟩ := by
    rw [Match.equations, hrenamed, hfrozen]
    cbv
  have hfound := (matching?_eq_some m.found).resolve_right fun hfails => hfails.1 _ hunified
  have hinstance : ∃ ρ' : Substitution, ρ'.Into Canonical ∧
      ρ'.apply forgetting.hypothesis = .app f [.var y] :=
    ⟨single x (.var y), by decide, by decide⟩
  refine ⟨ρ, ((hunify hfound).out 0 1).2 hinstance, hu, ?_, ?_⟩
  · exact (hvars y (by decide) (by decide)).1 (by decide)
  · exact ((hvars z (by decide) (by decide)).2.1 (by decide)).2 fun hcap =>
      hcap.undecided _ hunified

/-- The variable `N1`, which is generated first. -/
def n₁ : Variable := (FreshNames.forEquations []).nextVariable.1

/-- An application to a sum becomes a new variable. -/
def unmasking : Rule := ⟨.app f [.sum [.var x, a]], .var n₁⟩

/-- The new variable is spelled like the generated name of the sum, and the term that the sum is
matched with comes in its place. -/
theorem applyAt_captured :
    unmasking.hypothesis.Canonical ∧ unmasking.hypothesis.RespectsArity ∧
      unmasking.conclusion.Canonical ∧ unmasking.conclusion.RespectsArity ∧
      (Term.app f [b]).Canonical ∧ (Term.app f [b]).RespectsArity ∧
      n₁ ∉ unmasking.hypothesis.vars ∧
      unmasking.applyAt (.app f [b]) .root = .ok (some b) ∧
      ¬ ∃ (ρ : Substitution) (w : Variable),
        (Term.app f [b]).replaceAt .root (ρ.apply unmasking.conclusion) = .ok b ∧
        ρ.lookup n₁ = .var w := by
  refine ⟨by decide, by decide, by decide, by decide, by decide, by decide, by decide, by cbv, ?_⟩
  rintro ⟨ρ, w, hu, hw⟩
  rw [unmasking, apply_var, hw] at hu
  cases hu

end Rule

end SymbolicXor
