import SymbolicXor.Proofs.RuleInstances
import SymbolicXor.Proofs.Traversals

/-!
# Positions where rules apply

A rule can be tried at every position of a term: its variables can be renamed, the subterm can be
frozen, and what becomes of the subterm can take its place, whatever the names and the sorts of the
variables. So the only error is a position that is not in the term, and nothing is lost where the
positions at which the rule fails are left out.
-/

namespace SymbolicXor

open Term

namespace Rule

variable {r : Rule} {s t u : Term} {p : Position}

/-- The names from which the constants of a frozen term are kept apart. -/
def takenNames (r' : Rule) (s : Term) : List Name :=
  s.constants.map Constant.symbol ++ r'.constantNames

theorem applyAtRoot_eq {r' : Rule} {frozen : Frozen} (hr : r.renamedApart s = .ok r')
    (hf : s.freezeApart (r'.takenNames s) = .ok frozen) :
    r.applyAtRoot s = .ok ((matching? r'.hypothesis frozen.term).map fun σ =>
      (σ.apply r'.conclusion).thaw frozen.thawing) := by
  rw [takenNames] at hf
  simp only [applyAtRoot, hr, hf, Bind.bind, Except.bind, pure, Except.pure]

/-- The results of a rule that is tried at a position. -/
inductive Attempt (r : Rule) (t : Term) (p : Position) : Except RuleError (Option Term) → Prop where
  /-- The position is not in the term. -/
  | missing (h : ¬ ∃ s, t.PathTo p.indices s) : Attempt r t p (.error (.noSubterm (.missing p t)))
  /-- The renamed hypothesis does not match the frozen subterm. -/
  | unmatched {s : Term} {r' : Rule} {frozen : Frozen} (hs : t.PathTo p.indices s)
    (hr : r.renamedApart s = .ok r') (hf : s.freezeApart (r'.takenNames s) = .ok frozen)
    (hm : matching? r'.hypothesis frozen.term = none) : Attempt r t p (.ok none)
  /-- The instance of the conclusion is thawed and takes the place of the subterm. -/
  | rewritten {s u : Term} {r' : Rule} {frozen : Frozen} {σ : Substitution}
    (hs : t.PathTo p.indices s) (hr : r.renamedApart s = .ok r')
    (hf : s.freezeApart (r'.takenNames s) = .ok frozen)
    (hm : matching? r'.hypothesis frozen.term = some σ)
    (hu : t.replaceAt p ((σ.apply r'.conclusion).thaw frozen.thawing) = .ok u) :
    Attempt r t p (.ok (some u))

theorem applyAt_of_missing (h : ¬ ∃ s, t.PathTo p.indices s) :
    r.applyAt t p = .error (.noSubterm (.missing p t)) := by
  have hsub : t.subtermAt p = .error (.missing p t) :=
    subtermAt_eq_error.2 ⟨descend_eq_none.2 h, rfl⟩
  simp only [applyAt, hsub, Except.mapError, Bind.bind, Except.bind]

theorem applyAt_of_pathTo (h : t.PathTo p.indices s) : r.applyAt t p =
    ((r.applyAtRoot s).mapError .refusedBinding).bind fun
      | none => .ok none
      | some new => ((t.replaceAt p new).mapError .noSubterm).map some := by
  have hsub : t.subtermAt p = .ok s := subtermAt_eq_ok.2 h
  simp only [applyAt, hsub, Except.mapError, Bind.bind, Except.bind]
  rfl

theorem Attempt.applyAt_eq {result : Except RuleError (Option Term)} (h : r.Attempt t p result) :
    r.applyAt t p = result := by
  cases h with
  | missing h => exact applyAt_of_missing h
  | unmatched hs hr hf hm =>
    rw [applyAt_of_pathTo hs, applyAtRoot_eq hr hf, hm]
    rfl
  | rewritten hs hr hf hm hu =>
    rw [applyAt_of_pathTo hs, applyAtRoot_eq hr hf, hm]
    simp only [Option.map_some, Except.mapError, Except.bind, hu, Except.map]

/-- A rule can be tried everywhere, because renaming, freezing and replacing never fail. -/
theorem exists_attempt (r : Rule) (t : Term) (p : Position) : ∃ result, r.Attempt t p result := by
  by_cases h : ∃ s, t.PathTo p.indices s
  · obtain ⟨s, hs⟩ := h
    obtain ⟨r', hr⟩ := exists_renamedApart r s
    obtain ⟨frozen, _, hf, _⟩ := Frozen.exists_freezeApart s (r'.takenNames s)
    cases hm : matching? r'.hypothesis frozen.term with
    | none => exact ⟨_, .unmatched hs hr hf hm⟩
    | some σ =>
      obtain ⟨u, hu⟩ := exists_replaceAt ((σ.apply r'.conclusion).thaw frozen.thawing)
        (subtermAt_eq_ok.2 hs)
      exact ⟨_, .rewritten hs hr hf hm hu⟩
  · exact ⟨_, .missing h⟩

theorem applyAt_eq_iff {result : Except RuleError (Option Term)} :
    r.applyAt t p = result ↔ r.Attempt t p result := by
  refine ⟨?_, Attempt.applyAt_eq⟩
  rintro rfl
  obtain ⟨result, h⟩ := exists_attempt r t p
  rwa [h.applyAt_eq]

/-- A rule fails at a position exactly if the position is not in the term. -/
theorem exists_applyAt_eq_error :
    (∃ e, r.applyAt t p = .error e) ↔ ¬ ∃ s, t.PathTo p.indices s := by
  refine ⟨fun ⟨e, he⟩ => ?_, fun h => ⟨_, applyAt_of_missing h⟩⟩
  cases applyAt_eq_iff.1 he with
  | missing h => exact h

theorem mem_apply : (p, u) ∈ r.apply t ↔ r.applyAt t p = .ok (some u) := by
  rw [apply, List.mem_filterMap]
  constructor
  · rintro ⟨q, _, hq⟩
    split at hq
    · next happly =>
      cases hq
      exact happly
    · cases hq
  · intro h
    obtain ⟨s, _, hs, _⟩ := applyAt_eq_ok_some.1 h
    exact ⟨p, mem_positions.2 ⟨s, hs⟩, by rw [h]⟩

/-- The positions at which a rule applies come in order, each once. -/
theorem pairwise_apply (r : Rule) (t : Term) :
    (r.apply t).Pairwise fun a b => a.1.indices < b.1.indices := by
  refine List.pairwise_filterMap.2 ((pairwise_positions t).imp fun {p q} hpq a ha b hb => ?_)
  split at ha
  · split at hb
    · cases ha
      cases hb
      exact hpq
    · cases hb
  · cases ha

/-- Applying a rule to a term is trying it at all positions of the term. It fails exactly where
there is no position, at every other position the hypothesis decides, and only the positions at
which it does not match are left out. -/
theorem apply_exact (r : Rule) (t : Term) :
    (∀ p, (∃ e, r.applyAt t p = .error e) ↔ ¬ ∃ s, t.PathTo p.indices s) ∧
    (∀ p result, r.applyAt t p = result ↔ r.Attempt t p result) ∧
    (∀ p u, (p, u) ∈ r.apply t ↔ r.applyAt t p = .ok (some u)) ∧
    (r.apply t).Pairwise fun a b => a.1.indices < b.1.indices :=
  ⟨fun _ => exists_applyAt_eq_error, fun _ _ => applyAt_eq_iff, fun _ _ => mem_apply,
    pairwise_apply r t⟩

end Rule

end SymbolicXor
