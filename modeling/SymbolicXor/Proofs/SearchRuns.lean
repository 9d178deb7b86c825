import Mathlib.Logic.Relation
import SymbolicXor.Search

/-!
# Runs of a bounded search

A solution that a search finds was read off a state that the steps of the search lead to. In the
other direction, a search that ended within its budget has followed every branch: if every state of
some kind is solved as wanted or has a next state of that kind, then a search that starts from such
a state finds what is wanted.
-/

namespace SymbolicXor

namespace Outcome

variable {α : Type}

@[simp] theorem solutions_ofSolutions (found : List α) : (ofSolutions found).solutions = found := by
  cases found <;> rfl

end Outcome

namespace Search

variable {σ α : Type} [DecidableEq α] {expand : σ → Expansion σ α}

theorem mem_record {found : List α} {a b : α} : b ∈ record found a ↔ b ∈ found ∨ b = a := by
  unfold record
  split
  · rename_i ha
    exact ⟨Or.inl, fun h => h.elim id fun hba => hba ▸ ha⟩
  · simp

theorem mem_foldl_record {found as : List α} {b : α} :
    b ∈ as.foldl record found ↔ b ∈ found ∨ b ∈ as := by
  induction as generalizing found with
  | nil => simp
  | cons a as ih => rw [List.foldl_cons, ih, mem_record, List.mem_cons, or_assoc]

/-- The steps of a search lead from one state to another. -/
def Leads (expand : σ → Expansion σ α) : σ → σ → Prop :=
  Relation.ReflTransGen fun s t => ∃ states, expand s = .branches states ∧ t ∈ states

/-- A solution that a search finds was found before or is that of a state that an open state leads
to. -/
theorem exists_leads_of_mem_exploreFrom {remaining spent : Nat} {states : List σ}
    {found : List α} {a : α}
    (h : a ∈ (exploreFrom expand remaining spent states found).outcome.solutions) :
    a ∈ found ∨ ∃ s ∈ states, ∃ t, Leads expand s t ∧ expand t = .solved a := by
  fun_induction exploreFrom expand remaining spent states found with
  | case1 => exact Or.inl (by simpa using h)
  | case2 => exact Or.inl h
  | case3 n spent s rest found b hs ih =>
    rcases ih h with hf | ⟨t, ht, u, htu, hu⟩
    · rcases mem_record.1 hf with hf | rfl
      · exact Or.inl hf
      · exact Or.inr ⟨s, List.mem_cons_self, s, .refl, hs⟩
    · exact Or.inr ⟨t, List.mem_cons_of_mem _ ht, u, htu, hu⟩
  | case4 n spent s rest found states hs ih =>
    rcases ih h with hf | ⟨t, ht, u, htu, hu⟩
    · exact Or.inl hf
    · rcases List.mem_append.1 ht with ht | ht
      · exact Or.inr ⟨s, List.mem_cons_self, u, .head ⟨states, hs, ht⟩ htu, hu⟩
      · exact Or.inr ⟨t, List.mem_cons_of_mem _ ht, u, htu, hu⟩

/-- A solution is read off a state that the start leads to. -/
theorem exists_leads_of_mem_explore {start : σ} {budget : Budget} {a : α}
    (h : a ∈ (explore expand start budget).outcome.solutions) :
    ∃ s, Leads expand start s ∧ expand s = .solved a := by
  rcases exists_leads_of_mem_exploreFrom h with hf | ⟨s, hs, t, hst, ht⟩
  · cases hf
  · rw [List.mem_singleton.1 hs] at hst
    exact ⟨t, hst, ht⟩

/-- The states of a kind are solved as wanted or have a next state of that kind. -/
structure Pursues (expand : σ → Expansion σ α) (Good : σ → Prop) (Wanted : α → Prop) : Prop where
  /-- The solution of a solved state is wanted. -/
  solved : ∀ {s a}, Good s → expand s = .solved a → Wanted a
  /-- One of the next states is of the kind. -/
  branches : ∀ {s states}, Good s → expand s = .branches states → ∃ t ∈ states, Good t

variable {Good : σ → Prop} {Wanted : α → Prop}

/-- An exhaustive search finds a solution that it pursues. -/
theorem Pursues.exists_of_exploreFrom (hp : Pursues expand Good Wanted) {remaining spent : Nat}
    {states : List σ} {found : List α}
    (hex : (exploreFrom expand remaining spent states found).outcome.isExhaustive = true)
    (h : (∃ s ∈ states, Good s) ∨ ∃ a ∈ found, Wanted a) :
    ∃ a ∈ (exploreFrom expand remaining spent states found).outcome.solutions, Wanted a := by
  fun_induction exploreFrom expand remaining spent states found with
  | case1 remaining spent found =>
    rcases h with ⟨s, hs, _⟩ | hf
    · cases hs
    · simpa using hf
  | case2 => cases hex
  | case3 n spent s rest found b hs ih =>
    refine ih hex ?_
    rcases h with ⟨t, ht, hgood⟩ | ⟨a, ha, hwanted⟩
    · rcases List.mem_cons.1 ht with rfl | ht
      · exact Or.inr ⟨b, mem_record.2 (Or.inr rfl), hp.solved hgood hs⟩
      · exact Or.inl ⟨t, ht, hgood⟩
    · exact Or.inr ⟨a, mem_record.2 (Or.inl ha), hwanted⟩
  | case4 n spent s rest found states hs ih =>
    refine ih hex ?_
    rcases h with ⟨t, ht, hgood⟩ | hf
    · rcases List.mem_cons.1 ht with rfl | ht
      · obtain ⟨u, hu, hgood⟩ := hp.branches hgood hs
        exact Or.inl ⟨u, List.mem_append_left _ hu, hgood⟩
      · exact Or.inl ⟨t, List.mem_append_right _ ht, hgood⟩
    · exact Or.inr hf

theorem Pursues.exists_of_explore (hp : Pursues expand Good Wanted) {start : σ} {budget : Budget}
    (hex : (explore expand start budget).outcome.isExhaustive = true) (h : Good start) :
    ∃ a ∈ (explore expand start budget).outcome.solutions, Wanted a :=
  hp.exists_of_exploreFrom hex (Or.inl ⟨start, List.mem_singleton_self _, h⟩)

/-- If states of a kind may also be stuck, an exhaustive search that finds no solution that it
pursues has led to a stuck state of the kind. -/
theorem exists_or_stuck_of_explore {Stuck : σ → Prop} {start : σ} {budget : Budget}
    (hsolved : ∀ {s a}, Good s → expand s = .solved a → Wanted a)
    (hbranches : ∀ {s states}, Good s → expand s = .branches states →
      (∃ t ∈ states, Good t) ∨ states = [] ∧ Stuck s)
    (hex : (explore expand start budget).outcome.isExhaustive = true) (h : Good start) :
    (∃ a ∈ (explore expand start budget).outcome.solutions, Wanted a) ∨
      ∃ s, Leads expand start s ∧ expand s = .branches [] ∧ Good s ∧ Stuck s := by
  by_cases hstuck : ∃ s, Leads expand start s ∧ expand s = .branches [] ∧ Good s ∧ Stuck s
  · exact Or.inr hstuck
  · have hp : Pursues expand (fun s => Leads expand start s ∧ Good s) Wanted := by
      refine ⟨fun hs => hsolved hs.2, fun {s states} hs hexp => ?_⟩
      rcases hbranches hs.2 hexp with ⟨t, ht, hgood⟩ | ⟨rfl, hs'⟩
      · exact ⟨t, ht, hs.1.tail ⟨states, hexp, ht⟩, hgood⟩
      · exact absurd ⟨s, hs.1, hexp, hs.2, hs'⟩ hstuck
    exact Or.inl (hp.exists_of_explore hex ⟨.refl, h⟩)

end Search

end SymbolicXor
