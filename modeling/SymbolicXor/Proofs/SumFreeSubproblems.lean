import SymbolicXor.Proofs.DefinitiveFailure
import SymbolicXor.Proofs.SearchInvariants

/-!
# Subproblems without sums

Unification modulo exclusive or hands pairs of summands to syntactic unification, which has nothing
to say about sums that may cancel. It never has to: purification names the sums below function
symbols, a unifier of terms without sums binds variables to such terms, and an equation is solved
for a variable only if no equation has it below a function symbol. So in all states that the search
leads to sums stand at the top, and syntactic unification is asked about terms without sums only.
-/

namespace SymbolicXor

open Term Substitution

namespace Term

/-- Every application in the term is without sums. -/
def PureBelow (t : Term) : Prop := ∀ f ts, .app f ts ∈ t.subterms → (app f ts).SumFree

/-- In a layered term the applications are without sums. -/
theorem Layered.pureBelow {t : Term} (h : t.Layered) : t.PureBelow := by
  intro f ts hmem
  rcases eq_zero_or_atomic_or_sum t with rfl | ht | ⟨us, rfl⟩
  · simp [zero] at hmem
  · exact Everywhere.subterm (h t (by simp [summands_of_atomic ht])) hmem
  · rw [subterms_sum] at hmem
    obtain ⟨u, hu, hmem⟩ := List.mem_flatMap.1 ((List.mem_cons.1 hmem).resolve_left (by simp))
    exact Everywhere.subterm (h u hu) hmem

end Term

namespace Unification

/-- Equations without sums are not outside the theory. -/
theorem unify_ne_outsideTheory {es : List Equation} (hc : ∀ e ∈ es, e.Both Canonical)
    (hs : ∀ e ∈ es, e.Both SumFree) (s t : Term) : unify es ≠ .error (.outsideTheory s t) := by
  intro h
  obtain ⟨ds, hob, _, hkept, _⟩ := exists_obstacle_of_unify hc h (by simp)
  have hfree : ∀ d ∈ ds, d.Both SumFree := hkept SumFree kept_sumFree hs
  exact not_obstacle_outsideTheory
    (fun d hd => ⟨(hfree d hd).1.sumsGround, (hfree d hd).2.sumsGround⟩) hob

end Unification

namespace XorUnification

namespace State

/-- The pairs of terms that the rules hand to syntactic unification. -/
inductive Unifies (s : State) (t u : Term) : Prop
  /-- The summands of the first equation that is decomposed. -/
  | decompose (h : s.equations.findSome? twoApplications? = some (t, u))
  /-- The first pair of summands that may cancel. -/
  | split {es : List Equation} (h : s.findPair? s.equations = some ((t, u), es))

variable {s : State} {t u : Term}

/-- The two terms that are unified are summands of one equation. -/
theorem Unifies.mem_summands (h : s.Unifies t u) :
    ∃ e ∈ s.equations, t ∈ e.left.summands ∧ u ∈ e.left.summands := by
  cases h with
  | decompose h =>
    obtain ⟨e, he, htwo⟩ := List.exists_of_findSome?_eq_some h
    exact ⟨e, he, mem_summands_of_pair (twoApplications?_eq_some htwo).1⟩
  | split h =>
    obtain ⟨before, e, after, rest, hs, _, hperm, _⟩ := exists_of_findPair? h
    obtain ⟨ht, hu, _⟩ := mem_summands_of_perm hperm
    exact ⟨e, hs ▸ List.mem_append_cons_self, ht, hu⟩

variable {Q : Variable → Prop}

theorem WellFormed.pureBelow (h : s.WellFormed Q) : ∀ e ∈ s.equations, e.Both PureBelow :=
  fun e he => ⟨(h.equations e he).1.layered.pureBelow, (h.equations e he).2.layered.pureBelow⟩

/-- From a well-formed state syntactic unification gets terms that it can deal with. -/
theorem WellFormed.unifies (h : s.WellFormed Q) (htu : s.Unifies t u) :
    (t.SumFree ∧ u.SumFree) ∧
      ∀ l r, Unification.unifyTerms t u ≠ .error (.outsideTheory l r) := by
  obtain ⟨e, he, ht, hu⟩ := htu.mem_summands
  obtain ⟨hlt, hst, _⟩ := h.summand he ht
  obtain ⟨hlu, hsu, _⟩ := h.summand he hu
  exact ⟨⟨hst, hsu⟩, Unification.unify_ne_outsideTheory
    (List.forall_mem_singleton.2 ⟨hlt.canonical, hlu.canonical⟩)
    (List.forall_mem_singleton.2 ⟨hst, hsu⟩)⟩

end State

end XorUnification

open XorUnification

/-- The search never leaves the syntactic theory. In every state that it leads to, before and after
the equations are brought into the form of a sum that is zero, no application has a sum below it; so
the pairs that are handed to syntactic unification are without sums, and it never answers that their
sums may cancel. -/
theorem xorUnify_syntactic {es : List Equation} (hc : ∀ e ∈ es, e.Both Canonical)
    (ha : ∀ e ∈ es, e.Both RespectsArity) (fresh : FreshNames) {s : State}
    (h : Search.Leads State.expand { equations := (purify es fresh).1 } s) :
    (∀ e ∈ s.equations, e.Both PureBelow) ∧ (∀ e ∈ s.normalized.equations, e.Both PureBelow) ∧
      ∀ t u, s.normalized.Unifies t u → (t.SumFree ∧ u.SumFree) ∧
        ∀ l r, Unification.unifyTerms t u ≠ .error (.outsideTheory l r) := by
  have hwf := (wellFormed_purify hc ha fresh).leads h
  exact ⟨hwf.pureBelow, hwf.normalized.pureBelow, fun t u => hwf.normalized.unifies⟩

open Sample

/-- A sum below a function symbol, and two pairs of applications. -/
def nestedPairs : List Equation :=
  [⟨.app f [.sum [.var x, a]], .app f [.var y]⟩, ⟨.app g [.var z], .app g [.app f [b]]⟩]

/-- The state after the first pair is unified, which binds the name of the sum. -/
def firstPairUnified : State where
  equations := [⟨zero, zero⟩, ⟨.sum [.app g [.var z], .app g [.app f [b]]], zero⟩,
    ⟨.sum [.var x, .var y, a], zero⟩]
  substitution := single { symbol := ⟨"N1", by decide⟩ } (.var y)

theorem xorUnify_syntactic_nestedPairs :
    (∀ e ∈ nestedPairs, e.Both Canonical) ∧ (∀ e ∈ nestedPairs, e.Both RespectsArity) ∧
      Search.Leads State.expand { equations := (purify nestedPairs (.forEquations nestedPairs)).1 }
        firstPairUnified ∧
      firstPairUnified.normalized.Unifies (.app g [.var z]) (.app g [.app f [b]]) ∧
      ∀ l r, Unification.unifyTerms (.app g [.var z]) (.app g [.app f [b]]) ≠
        .error (.outsideTheory l r) := by
  have hc : ∀ e ∈ nestedPairs, e.Both Canonical := by decide
  have ha : ∀ e ∈ nestedPairs, e.Both RespectsArity := by decide
  have hleads : Search.Leads State.expand
      { equations := (purify nestedPairs (.forEquations nestedPairs)).1 } firstPairUnified :=
    .single ⟨[firstPairUnified], by cbv, List.mem_singleton_self _⟩
  have hpair : firstPairUnified.normalized.Unifies (.app g [.var z]) (.app g [.app f [b]]) :=
    .decompose (by decide)
  exact ⟨hc, ha, hleads, hpair, ((xorUnify_syntactic hc ha _ hleads).2.2 _ _ hpair).2⟩

end SymbolicXor
