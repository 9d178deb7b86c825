import Mathlib.Data.List.Basic
import SymbolicXor.Proofs.UnifierRounds
import SymbolicXor.Unification.Modulo

/-!
# The rules of unification modulo exclusive or

Each rule of the search with its guards and with the states that it leads to, and last the states to
which no rule applies.
-/

namespace SymbolicXor

open Term Substitution

namespace Selection

variable {α : Type} [BEq α] [LawfulBEq α] {p : α → α → Bool}

/-- The first pair and the other elements make up the list, and the pair passes the test. -/
theorem perm_of_firstPair? {l rest : List α} {a b : α}
    (h : firstPair? p l = some (a, b, rest)) : l.Perm (a :: b :: rest) ∧ p a b = true := by
  induction l generalizing rest with
  | nil => cases h
  | cons c l ih =>
    simp only [firstPair?] at h
    split at h
    · rename_i d hd
      cases h
      have hmem := List.mem_of_find?_eq_some hd
      exact ⟨(List.perm_cons_erase hmem).cons a, List.find?_some hd⟩
    · obtain ⟨⟨d, e, rest'⟩, hd, heq⟩ := Option.map_eq_some_iff.1 h
      cases heq
      obtain ⟨hperm, hp⟩ := ih hd
      refine ⟨(hperm.cons c).trans ?_, hp⟩
      exact (List.Perm.swap d c _).trans ((List.Perm.swap e c rest').cons d)

omit [LawfulBEq α] in
/-- If there is no first pair, no pair passes the test. -/
theorem pairwise_of_firstPair? {l : List α} (h : firstPair? p l = none) :
    l.Pairwise fun a b => p a b = false := by
  induction l with
  | nil => exact List.Pairwise.nil
  | cons c l ih =>
    simp only [firstPair?] at h
    split at h
    · cases h
    · rename_i hnone
      refine List.pairwise_cons.2 ⟨fun d hd => ?_, ih (Option.map_eq_none_iff.1 h)⟩
      simpa using List.find?_eq_none.1 hnone d hd

end Selection

namespace XorUnification

namespace State

variable {s : State}

/-- The state after two terms were decided to be different. -/
def refuse (s : State) (t u : Term) : State :=
  { s with disequations := s.disequations ++ [⟨t, u⟩] }

/-- The rules, with their guards and the states that they lead to. -/
inductive Rule (s : State) : List State → Prop
  /-- An equation whose left side is zero is dropped. -/
  | trivial {before after : List Equation} {e : Equation} (hs : s.equations = before ++ e :: after)
      (he : e.left = zero) : Rule s [{ s with equations := before ++ after }]
  /-- The only two summands of an equation are unified. -/
  | decompose {e : Equation} {t u : Term} {θ : Substitution} (he : e ∈ s.equations)
      (hl : e.left = .sum [t, u]) (hh : sameHead t u = true)
      (hθ : Unification.unifyTerms t u = .ok θ) : Rule s [s.apply θ]
  /-- The only two summands of an equation are found not to unify. -/
  | clash {e : Equation} {t u : Term} {err : UnifyError} (he : e ∈ s.equations)
      (hl : e.left = .sum [t, u]) (hh : sameHead t u = true)
      (herr : Unification.unifyTerms t u = .error err) : Rule s []
  /-- An equation is solved for a summand that is a variable without constraint and accepts the
  others. -/
  | substitute {e : Equation} {v : Variable} (he : e ∈ s.equations)
      (hv : .var v ∈ e.left.summands) (hfree : v ∉ constrainedVars s.equations)
      (hacc : v.accepts (xor (e.left.summands.erase (.var v))) = true) :
      Rule s [s.apply (single v (xor (e.left.summands.erase (.var v))))]
  /-- Two summands of an equation that were not decided to be different are unified and struck out,
  or decided to be different. -/
  | split {before after : List Equation} {e : Equation} {t u : Term} {rest : List Term}
      {θ : Substitution} (hs : s.equations = before ++ e :: after)
      (hsum : e.left.summands.Perm (t :: u :: rest)) (hh : sameHead t u = true)
      (hθ : Unification.unifyTerms t u = .ok θ) (hr : s.isRefused t u = false) :
      Rule s [({ s with equations := before ++ ⟨xor rest, .zero⟩ :: after } : State).apply θ,
        s.refuse t u]
  /-- Two summands that do not unify are decided to be different, if they were not before. -/
  | refute {e : Equation} {t u : Term} {err : UnifyError} (he : e ∈ s.equations)
      (ht : t ∈ e.left.summands) (hu : u ∈ e.left.summands) (hh : sameHead t u = true)
      (herr : Unification.unifyTerms t u = .error err) (hr : s.isRefused t u = false) :
      Rule s [s.refuse t u]
  /-- No rule applies: no left side is zero, every summand that is a variable is constrained or
  does not accept the others, and summands with one head were decided to be different. -/
  | dead (hz : ∀ e ∈ s.equations, e.left ≠ zero)
      (hv : ∀ e ∈ s.equations, ∀ v : Variable, .var v ∈ e.left.summands →
        v ∈ constrainedVars s.equations ∨
          v.accepts (xor (e.left.summands.erase (.var v))) = false)
      (hp : ∀ e ∈ s.equations, e.left.summands.Pairwise fun t u =>
        sameHead t u = true → s.isRefused t u = true) : Rule s []

theorem twoApplications?_eq_some {e : Equation} {t u : Term}
    (h : twoApplications? e = some (t, u)) : e.left = .sum [t, u] ∧ sameHead t u = true := by
  unfold twoApplications? at h
  split at h
  · rename_i t' u' hl
    split at h
    · rename_i hh
      cases h
      exact ⟨hl, hh⟩
    · cases h
  · cases h

theorem solveFor?_eq_some {constrained : List Variable} {summands : List Term} {t : Term}
    {θ : Substitution} (h : solveFor? constrained summands t = some θ) :
    ∃ v, t = .var v ∧ v ∉ constrained ∧ v.accepts (xor (summands.erase t)) = true ∧
      θ = single v (xor (summands.erase t)) := by
  unfold solveFor? at h
  split at h
  · rename_i v
    dsimp only at h
    split at h
    · rename_i hg
      cases h
      simp only [Bool.and_eq_true, Bool.not_eq_true', List.contains_eq_mem,
        decide_eq_false_iff_not] at hg
      exact ⟨v, rfl, hg.1, hg.2, rfl⟩
    · cases h
  · cases h

theorem solveFor?_eq_none {constrained : List Variable} {summands : List Term} {v : Variable}
    (h : solveFor? constrained summands (.var v) = none) :
    v ∈ constrained ∨ v.accepts (xor (summands.erase (.var v))) = false := by
  simp only [solveFor?, ite_eq_right_iff, Bool.and_eq_true, Bool.not_eq_true',
    List.contains_eq_mem, decide_eq_false_iff_not, reduceCtorEq, imp_false, not_and,
    Bool.not_eq_true] at h
  by_cases hv : v ∈ constrained
  · exact Or.inl hv
  · exact Or.inr (h hv)

/-- The pair that is found stands in one of the equations, from which it is struck out, and was not
decided to be different. -/
theorem exists_of_findPair? {es ds : List Equation} {t u : Term}
    (h : findPair? s es = some ((t, u), ds)) : ∃ before e after rest, es = before ++ e :: after ∧
      ds = before ++ ⟨xor rest, .zero⟩ :: after ∧ e.left.summands.Perm (t :: u :: rest) ∧
      sameHead t u = true ∧ s.isRefused t u = false := by
  induction es generalizing ds with
  | nil => cases h
  | cons e es ih =>
    simp only [findPair?] at h
    split at h
    · rename_i hpair
      cases h
      obtain ⟨hperm, hp⟩ := Selection.perm_of_firstPair? hpair
      rw [Bool.and_eq_true, Bool.not_eq_true'] at hp
      exact ⟨[], e, es, _, rfl, rfl, hperm, hp⟩
    · obtain ⟨⟨pr, ds'⟩, hrest, heq⟩ := Option.map_eq_some_iff.1 h
      cases heq
      obtain ⟨before, d, after, rest, rfl, rfl, hperm, hh⟩ := ih hrest
      exact ⟨e :: before, d, after, rest, rfl, rfl, hperm, hh⟩

theorem pairwise_of_findPair? {es : List Equation} (h : findPair? s es = none) :
    ∀ e ∈ es, e.left.summands.Pairwise fun t u =>
      sameHead t u = true → s.isRefused t u = true := by
  induction es with
  | nil => exact fun _ he => absurd he List.not_mem_nil
  | cons e es ih =>
    simp only [findPair?] at h
    split at h
    · cases h
    · rename_i hnone
      refine List.forall_mem_cons.2 ⟨?_, ih (Option.map_eq_none_iff.1 h)⟩
      refine (Selection.pairwise_of_firstPair? hnone).imp ?_
      intro t u hpair hh
      simpa [hh] using hpair

theorem rule_of_trivialRule? {states : List State} (h : s.trivialRule? = some states) :
    Rule s states := by
  unfold trivialRule? at h
  split at h
  · rename_i hany
    cases h
    obtain ⟨e, he, hz⟩ := List.any_eq_true.1 hany
    obtain ⟨d, before, after, _, hd, hs, herase⟩ :=
      List.exists_of_eraseP (p := fun e => e.left.isZero) he hz
    rw [herase]
    exact .trivial hs (by simpa [isZero] using hd)
  · cases h

theorem rule_of_decomposeRule? {states : List State} (h : s.decomposeRule? = some states) :
    Rule s states := by
  obtain ⟨⟨t, u⟩, hfind, rfl⟩ := Option.map_eq_some_iff.1 h
  obtain ⟨e, he, htwo⟩ := List.exists_of_findSome?_eq_some hfind
  obtain ⟨hl, hh⟩ := twoApplications?_eq_some htwo
  cases hunify : Unification.unifyTerms t u with
  | ok θ =>
    simp only [hunify]
    exact .decompose he hl hh hunify
  | error err =>
    simp only [hunify]
    exact .clash he hl hh hunify

theorem rule_of_substituteRule? {states : List State} (h : s.substituteRule? = some states) :
    Rule s states := by
  obtain ⟨θ, hfind, rfl⟩ := Option.map_eq_some_iff.1 h
  obtain ⟨e, he, hfind⟩ := List.exists_of_findSome?_eq_some hfind
  obtain ⟨t, ht, hsolve⟩ := List.exists_of_findSome?_eq_some hfind
  obtain ⟨v, rfl, hfree, hacc, rfl⟩ := solveFor?_eq_some hsolve
  exact .substitute he ht hfree hacc

theorem rule_of_splitRule? {states : List State} (h : s.splitRule? = some states) :
    Rule s states := by
  obtain ⟨⟨⟨t, u⟩, ds⟩, hfind, rfl⟩ := Option.map_eq_some_iff.1 h
  obtain ⟨before, e, after, rest, hs, rfl, hperm, hh, hr⟩ := exists_of_findPair? hfind
  have he : e ∈ s.equations := hs ▸ List.mem_append_cons_self
  cases hunify : Unification.unifyTerms t u with
  | ok θ =>
    simp only [hunify]
    exact .split hs hperm hh hunify hr
  | error err =>
    simp only [hunify]
    refine .refute he (hperm.mem_iff.2 List.mem_cons_self) (hperm.mem_iff.2 ?_) hh hunify hr
    exact List.mem_cons_of_mem _ List.mem_cons_self

/-- Every step follows one of the rules. -/
theorem rule_step (s : State) : Rule s s.step := by
  rw [step]
  cases htriv : s.trivialRule? with
  | some states => exact rule_of_trivialRule? htriv
  | none =>
    cases hdec : s.decomposeRule? with
    | some states => exact rule_of_decomposeRule? hdec
    | none =>
      cases hsub : s.substituteRule? with
      | some states => exact rule_of_substituteRule? hsub
      | none =>
        cases hsplit : s.splitRule? with
        | some states => exact rule_of_splitRule? hsplit
        | none =>
          refine .dead (fun e he hz => ?_) (fun e he v hv => ?_) ?_
          · simp only [trivialRule?, ite_eq_right_iff, reduceCtorEq, imp_false,
              Bool.not_eq_true, List.any_eq_false] at htriv
            have hne := htriv e he
            simp [isZero, hz] at hne
          · rw [substituteRule?, Option.map_eq_none_iff, List.findSome?_eq_none_iff] at hsub
            have hnone := List.findSome?_eq_none_iff.1 (hsub e he) _ hv
            exact solveFor?_eq_none hnone
          · exact pairwise_of_findPair? (Option.map_eq_none_iff.1 hsplit)

end State

end XorUnification

end SymbolicXor
