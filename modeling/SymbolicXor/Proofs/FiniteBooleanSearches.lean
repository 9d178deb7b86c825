import SymbolicXor.Proofs.BooleanRules
import SymbolicXor.Proofs.FiniteSearches
import SymbolicXor.Proofs.SizedTerms

/-!
# Boolean searches through finitely many states

A step of boolean unification gives values to coefficients, after which less is left to cancel, or
it decides that a summand is kept or that two summands are different, after which less is left to
decide. The goals move from the front to the back and their records grow, but neither changes what
is counted. So no branch is infinite, for any two terms; as every state has finitely many next ones,
the search meets finitely many states and ends by itself under every budget from some bound on.
-/

namespace SymbolicXor

open CoeffTerm

namespace Search

variable {σ α : Type} {expand : σ → Expansion σ α}

/-- Where all branches end, finitely many states are met. -/
theorem finite_leads_of_acc {s : σ} (h : Acc (Next expand) s) : {t | Leads expand s t}.Finite := by
  induction h with
  | intro s _ ih =>
    cases hexp : expand s with
    | solved a =>
      refine (Set.finite_singleton s).subset fun t ht => ?_
      rcases ht.cases_head with rfl | ⟨u, ⟨states, hstates, _⟩, _⟩
      · rfl
      · rw [hexp] at hstates
        cases hstates
    | branches states =>
      have hnext : (⋃ u ∈ {u | u ∈ states}, {t | Leads expand u t}).Finite :=
        (List.finite_toSet states).biUnion fun u hu => ih u ⟨states, hexp, hu⟩
      refine (hnext.insert s).subset fun t ht => ?_
      rcases ht.cases_head with rfl | ⟨u, ⟨states', hstates, hu⟩, hut⟩
      · exact Set.mem_insert _ _
      · cases hexp.symm.trans hstates
        exact Set.mem_insert_of_mem _ (Set.mem_biUnion hu hut)

end Search

namespace BooleanUnification

variable {goals rest instead : List Goal} {g left : Goal} {new old : Assignment} {s t : CoeffTerm}

/-- The load of some goals together. -/
def totalLoad (goals : List Goal) : Nat := (goals.map fun g => g.term.load).sum

@[simp] theorem totalLoad_nil : totalLoad [] = 0 := rfl

@[simp] theorem totalLoad_cons (g : Goal) (goals : List Goal) :
    totalLoad (g :: goals) = g.term.load + totalLoad goals := by
  rw [totalLoad, List.map_cons, List.sum_cons, totalLoad]

@[simp] theorem totalLoad_append (goals rest : List Goal) :
    totalLoad (goals ++ rest) = totalLoad goals + totalLoad rest := by
  rw [totalLoad, List.map_append, List.sum_append, totalLoad, totalLoad]

/-- Giving values to coefficients leaves no more to cancel. -/
theorem totalLoad_simplifyGoals_le (γ : Assignment) (goals : List Goal) :
    totalLoad (simplifyGoals (goals.map fun g => { g with term := γ.apply g.term })) ≤
      totalLoad goals := by
  induction goals with
  | nil => exact Nat.le_refl _
  | cons g goals ih =>
    have hload : (γ.apply g.term).simplify.load ≤ g.term.load := (size_reduce_le γ g.term).2
    simp only [simplifyGoals, List.map_cons, List.filter_cons] at ih ⊢
    split <;> simp only [totalLoad_cons] <;> omega

theorem totalLoad_of_assign {st : State} (h : assign goals old new = some st) :
    totalLoad (simplifyGoals st.goals) ≤ totalLoad goals := by
  have hsimp (gs : List Goal) : totalLoad (simplifyGoals gs) ≤ totalLoad gs := by
    have hle := totalLoad_simplifyGoals_le ∅ gs
    simpa only [Assignment.apply_empty, List.map_id'] using hle
  rw [(assign_eq_some h).2]
  exact (hsimp _).trans (totalLoad_simplifyGoals_le new goals)

/-- Cancelling two applications leaves their arguments to cancel, without the symbols. -/
theorem totalLoad_zipWith_le (ss ts : List CoeffTerm) :
    totalLoad (List.zipWith (fun s t => { term := (CoeffTerm.sum [s, t]).simplify }) ss ts) ≤
      sizeAll ss + sizeAll ts := by
  induction ss generalizing ts with
  | nil => simp
  | cons s ss ih =>
    cases ts with
    | nil => simp
    | cons t ts =>
      have hpair : (CoeffTerm.sum [s, t]).simplify.load ≤ s.size + t.size :=
        (load_simplify_le _).trans_eq (by simp [load, sizeAll])
      have hrest := ih ts
      simp only [List.zipWith_cons_cons, totalLoad_cons, sizeAll]
      omega

theorem totalLoad_argumentGoals_lt (s t : CoeffTerm) :
    totalLoad (argumentGoals s t) < s.size + t.size := by
  unfold argumentGoals
  split
  · rename_i f ss g ts
    have hzip := totalLoad_zipWith_le ss ts
    simp only [size]
    omega
  · have hpos := s.size_pos
    rw [totalLoad_nil]
    omega

/-- The goals that a rule puts in place of one leave less to cancel. -/
theorem Rule.totalLoad_lt (h : Rule g new instead left) : totalLoad instead < g.term.load := by
  cases h with
  | @disappear b t _ h =>
    obtain ⟨_, _, ⟨l, r, hterm, rfl, rfl⟩ | ⟨ts, hterm, hmem, rfl⟩⟩ := vanishing?_cases h
    · rw [hterm]
      exact size_pos (.mul l r)
    · have herase := sizeAll_erase hmem
      have hpos := t.size_pos
      rw [hterm, totalLoad_cons, totalLoad_nil]
      simp only [load]
      omega
  | @duplicate s t ts hterm ht =>
    have herase := sizeAll_erase ht
    have hargs := totalLoad_argumentGoals_lt s.realTerm t.realTerm
    have hs := size_realTerm_le s
    have hu := size_realTerm_le t
    rw [hterm, totalLoad_cons]
    simp only [load, sizeAll]
    omega

/-- The summands of a goal that may still disappear. -/
def Goal.unkept (g : Goal) : List CoeffTerm :=
  g.term.summands.filter fun t => t.coefficient?.isSome && !g.kept.contains t

/-- The pairs of summands of a goal that may still cancel. -/
def Goal.untried (g : Goal) : List (CoeffTerm × CoeffTerm) :=
  (g.term.summands.product g.term.summands).filter fun p => !g.isRefused p.1 p.2

/-- The number of decisions that are left about a goal. -/
def Goal.undecided (g : Goal) : Nat := g.unkept.length + g.untried.length

theorem length_filter_lt {α : Type} {p q : α → Bool} {l : List α} {a : α} (ha : a ∈ l)
    (hp : p a = true) (hq : q a = false) (h : ∀ b, q b = true → p b = true) :
    (l.filter q).length < (l.filter p).length := by
  have hq' : l.filter q = (l.filter p).filter q := by
    rw [List.filter_filter]
    exact List.filter_congr fun b _ => by cases hb : q b <;> simp [h b, hb]
  rw [hq', List.length_filter_lt_length_iff_exists]
  exact ⟨a, List.mem_filter.2 ⟨ha, hp⟩, by simp [hq]⟩

/-- Keeping a summand leaves less to decide. -/
theorem undecided_of_kept (ht : t ∈ g.term.summands) (hc : t.coefficient?.isSome = true)
    (hk : t ∉ g.kept) : Goal.undecided { g with kept := g.kept ++ [t] } < g.undecided := by
  refine Nat.add_lt_add_right ?_ _
  refine length_filter_lt ht (by simp [hc, hk]) (by simp) fun u hu => ?_
  simp only [List.contains_eq_mem, List.mem_append, Bool.and_eq_true, Bool.not_eq_true',
    decide_eq_false_iff_not, not_or] at hu ⊢
  exact ⟨hu.1, hu.2.1⟩

theorem isRefused_distinct {l r : CoeffTerm} :
    Goal.isRefused { g with distinct := g.distinct ++ [(s, t)] } l r = true ↔
      g.isRefused l r = true ∨ s = l ∧ t = r ∨ s = r ∧ t = l := by
  simp [Goal.isRefused]

/-- Deciding that two summands are different leaves less to decide. -/
theorem undecided_of_distinct (hs : s ∈ g.term.summands) (ht : t ∈ g.term.summands)
    (hr : g.isRefused s t = false) :
    Goal.undecided { g with distinct := g.distinct ++ [(s, t)] } < g.undecided := by
  refine Nat.add_lt_add_left ?_ _
  refine length_filter_lt (List.mem_product.2 ⟨hs, ht⟩) (by simp [hr]) ?_ fun p hp => ?_
  · rw [Bool.not_eq_false', isRefused_distinct]
    exact Or.inr (Or.inl ⟨rfl, rfl⟩)
  · rw [Bool.not_eq_true', Bool.eq_false_iff, ne_eq, isRefused_distinct, not_or] at hp
    simpa using hp.1

/-- The record that a rule makes leaves less to decide. -/
theorem Rule.undecided_lt (h : Rule g new instead left) : left.undecided < g.undecided := by
  cases h with
  | disappear h =>
    obtain ⟨hc, hkept, hplace⟩ := vanishing?_cases h
    refine undecided_of_kept ?_ (by rw [hc]; rfl) hkept
    rcases hplace with ⟨l, r, hterm, rfl, _⟩ | ⟨ts, hterm, hmem, _⟩
    · rw [hterm]
      exact List.mem_singleton_self _
    · rw [hterm]
      exact hmem
  | @duplicate s t ts hterm ht _ hopen =>
    refine undecided_of_distinct ?_ ?_ hopen
    · rw [hterm]
      exact List.mem_cons_self
    · rw [hterm]
      exact List.mem_cons_of_mem _ ht

theorem settled_of_mem (h : g ∈ simplifyGoals goals) :
    g.term.simplify = g.term ∧ g.term ≠ .zero := by
  obtain ⟨hne, d, _, rfl⟩ := mem_simplifyGoals.1 h
  exact ⟨simplify_simplify d.term, hne⟩

/-- Goals that are simplified stay as they are. -/
theorem simplifyGoals_eq_self (h : ∀ g ∈ goals, g.term.simplify = g.term ∧ g.term ≠ .zero) :
    simplifyGoals goals = goals := by
  have hmap : (goals.map fun g => { g with term := g.term.simplify }) = goals := by
    conv_rhs => rw [← List.map_id goals]
    exact List.map_congr_left fun g hg => by rw [(h g hg).1]; rfl
  rw [simplifyGoals, hmap, List.filter_eq_self]
  exact fun g hg => by simpa using (h g hg).2

namespace State

/-- The measure that the steps lower: the load of the goals, then the number of their decisions. -/
def measure (s : State) : Nat × Nat :=
  (totalLoad (simplifyGoals s.goals), ((simplifyGoals s.goals).map Goal.undecided).sum)

/-- Every next state is of smaller measure. -/
theorem measure_lt_of_next {s t : State} (h : Search.Next expand t s) :
    Prod.Lex (· < ·) (· < ·) t.measure s.measure := by
  obtain ⟨states, hexp, ht⟩ := h
  obtain ⟨g, goals, hgoals, ⟨rfl, _⟩ | ⟨new, instead, left, hrule, rfl⟩⟩ := expand_branches hexp
  · cases ht
  rcases List.mem_append.1 ht with ht | ht
  · have hassign := totalLoad_of_assign (Option.mem_toList.1 ht)
    have hlt := hrule.totalLoad_lt
    refine .left _ _ ?_
    rw [totalLoad_append] at hassign
    rw [hgoals, totalLoad_cons]
    omega
  · have hsettled : ∀ d ∈ goals ++ [left], d.term.simplify = d.term ∧ d.term ≠ .zero := by
      have hall : ∀ d ∈ g :: goals, d.term.simplify = d.term ∧ d.term ≠ .zero :=
        fun d hd => settled_of_mem (hgoals ▸ hd)
      obtain ⟨hg, hrest⟩ := List.forall_mem_cons.1 hall
      refine List.forall_mem_append.2 ⟨hrest, List.forall_mem_singleton.2 ?_⟩
      rwa [hrule.left_term]
    have hlt := hrule.undecided_lt
    rw [List.mem_singleton.1 ht]
    have hload : totalLoad (goals ++ [left]) = totalLoad (g :: goals) := by
      simp only [totalLoad_append, totalLoad_cons, totalLoad_nil, hrule.left_term]
      omega
    rw [measure, measure, simplifyGoals_eq_self hsettled, hgoals, hload]
    refine .right _ ?_
    simp only [List.map_append, List.map_cons, List.map_nil, List.sum_append, List.sum_cons,
      List.sum_nil]
    omega

/-- All branches end. -/
theorem acc_next (s : State) : Acc (Search.Next expand) s :=
  (Subrelation.wf measure_lt_of_next
    (InvImage.wf measure (wellFounded_lt.prod_lex wellFounded_lt))).apply s

end State

end BooleanUnification

/-- Boolean unification of any two terms meets finitely many states, no branch of it is infinite,
and under every budget from some bound on it is exhaustive. -/
theorem booleanUnifyWith_ends (s t : CoeffTerm) :
    let start : BooleanUnification.State :=
      { goals := [{ term := (CoeffTerm.sum [s, t]).simplify }] }
    {u | Search.Leads BooleanUnification.State.expand start u}.Finite ∧
      (¬ ∃ branch : Nat → BooleanUnification.State, branch 0 = start ∧ ∀ i,
        ∃ states, (branch i).expand = .branches states ∧ branch (i + 1) ∈ states) ∧
      ∃ bound, ∀ budget : Budget, bound ≤ budget.remaining →
        (booleanUnifyWith s t budget).outcome.isExhaustive = true :=
  have hacc := BooleanUnification.State.acc_next _
  ⟨Search.finite_leads_of_acc hacc, Search.not_exists_branch_of_acc hacc,
    Search.exists_isExhaustive_of_acc hacc⟩

end SymbolicXor
