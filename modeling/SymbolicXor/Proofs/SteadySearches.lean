import SymbolicXor.Adversary.Unify
import SymbolicXor.Coefficient.Unify
import SymbolicXor.Proofs.SearchRuns

/-!
# Searches under larger budgets

A search does not look at its budget but to spend a step of it or to hand it to another search. So
it goes the same way under a larger budget as under a smaller one, until the smaller one is used up.
A search of this kind is steady: every step is accounted for, only a used-up budget cuts it off,
once it ends by itself more steps make no difference, and with more steps it finds more, after what
it found before.
-/

namespace SymbolicXor

namespace Budget

variable {b left : Budget}

/-- The budget with more steps left. -/
def plus (b : Budget) (k : Nat) : Budget := { b with remaining := b.remaining + k }

/-- The steps left and the steps made. -/
def total (b : Budget) : Nat := b.remaining + b.spent

@[simp] theorem remaining_plus (b : Budget) (k : Nat) :
    (b.plus k).remaining = b.remaining + k := rfl

@[simp] theorem spent_plus (b : Budget) (k : Nat) : (b.plus k).spent = b.spent := rfl

theorem spend?_eq_none : b.spend? = none ↔ b.remaining = 0 := by
  unfold spend?
  split <;> simp_all

theorem spend?_eq_some : b.spend? = some left ↔
    b.remaining = left.remaining + 1 ∧ left.spent = b.spent + 1 := by
  obtain ⟨n, s⟩ := left
  unfold spend?
  split <;> simp_all [eq_comm]

/-- A step that can be made can be made with more steps left. -/
theorem spend?_plus (h : b.spend? = some left) (k : Nat) :
    (b.plus k).spend? = some (left.plus k) := by
  obtain ⟨hrem, hspent⟩ := spend?_eq_some.1 h
  exact spend?_eq_some.2 ⟨by simp only [remaining_plus]; omega, hspent⟩

theorem total_of_spend? (h : b.spend? = some left) : left.total = b.total := by
  obtain ⟨hrem, hspent⟩ := spend?_eq_some.1 h
  unfold total
  omega

end Budget

namespace Outcome

variable {α : Type}

@[simp] theorem isExhaustive_ofSolutions (found : List α) :
    (ofSolutions found).isExhaustive = true := by
  cases found <;> rfl

end Outcome

namespace Search

variable {σ α : Type}

/-- A run has made the steps that it has not left, and is cut off only if none is left. -/
structure Run.Accounts (b : Budget) (r : Run α) : Prop where
  /-- No step is lost or gained. -/
  total : r.budget.total = b.total
  /-- A run is cut off only when no step is left. -/
  used : r.outcome.isExhaustive = false → r.budget.remaining = 0

/-- A run from a budget that has the same steps left and made accounts for these. -/
theorem Run.Accounts.of_total {b left : Budget} {r : Run α} (h : r.Accounts left)
    (ht : left.total = b.total) : r.Accounts b :=
  ⟨h.total.trans ht, h.used⟩

/-- A run with more steps goes on from where the other one was cut off. -/
structure Run.Continues (k : Nat) (r r' : Run α) : Prop where
  /-- Its solutions begin with those of the other one. -/
  grows : r.outcome.solutions <+: r'.outcome.solutions
  /-- If the other one was exhaustive, the steps are left over. -/
  more : r.outcome.isExhaustive = true → r' = ⟨r.outcome, r.budget.plus k⟩

/-- A search that looks at its budget only to spend it. -/
structure Steady (search : Budget → Run α) : Prop where
  /-- It accounts for every step. -/
  accounts : ∀ b, (search b).Accounts b
  /-- With more steps it goes on. -/
  continues : ∀ b k, (search b).Continues k (search (b.plus k))

/-- A run that is cut off at once may go on in any way that keeps its solutions. -/
theorem Run.continues_of_boundExceeded {k : Nat} {found : List α} {b : Budget} {r : Run α}
    (h : found <+: r.outcome.solutions) : Run.Continues k ⟨.boundExceeded found, b⟩ r :=
  ⟨h, fun hex => by cases hex⟩

theorem Run.continues_self {k : Nat} {o : Outcome α} {b : Budget} :
    Run.Continues k ⟨o, b⟩ ⟨o, b.plus k⟩ :=
  ⟨List.prefix_rfl, fun _ => rfl⟩

variable [DecidableEq α] {expand : σ → Expansion σ α}

theorem isPrefix_record (found : List α) (a : α) : found <+: record found a := by
  unfold record
  split
  · exact List.prefix_rfl
  · exact List.prefix_append _ _

/-- Solutions that were found stay in front. -/
theorem isPrefix_exploreFrom (expand : σ → Expansion σ α) (remaining spent : Nat) (states : List σ)
    (found : List α) :
    found <+: (exploreFrom expand remaining spent states found).outcome.solutions := by
  fun_induction exploreFrom expand remaining spent states found with
  | case1 => simp
  | case2 => exact List.prefix_rfl
  | case3 _ _ _ _ _ a _ ih => exact (isPrefix_record _ a).trans ih
  | case4 _ _ _ _ _ _ _ ih => exact ih

theorem remaining_exploreFrom {remaining spent : Nat} {states : List σ} {found : List α}
    (h : (exploreFrom expand remaining spent states found).outcome.isExhaustive = false) :
    (exploreFrom expand remaining spent states found).budget.remaining = 0 := by
  fun_induction exploreFrom expand remaining spent states found with
  | case1 => simp at h
  | case2 => rfl
  | case3 _ _ _ _ _ _ _ ih => exact ih h
  | case4 _ _ _ _ _ _ _ ih => exact ih h

/-- Both runs expand the same states until one is cut off. -/
theorem continues_exploreFrom (expand : σ → Expansion σ α) (k remaining spent : Nat)
    (states : List σ) (found : List α) :
    (exploreFrom expand remaining spent states found).Continues k
      (exploreFrom expand (remaining + k) spent states found) := by
  fun_induction exploreFrom expand remaining spent states found with
  | case1 =>
    rw [exploreFrom]
    exact Run.continues_self
  | case2 => exact Run.continues_of_boundExceeded (isPrefix_exploreFrom _ _ _ _ _)
  | case3 _ _ _ _ _ _ hs ih =>
    rw [Nat.succ_add, exploreFrom, hs]
    exact ih
  | case4 _ _ _ _ _ _ hs ih =>
    rw [Nat.succ_add, exploreFrom, hs]
    exact ih

theorem steady_explore (expand : σ → Expansion σ α) (start : σ) :
    Steady (explore expand start) where
  accounts _ := ⟨exploreFrom_budget expand _ _ _ _, remaining_exploreFrom⟩
  continues _ k := continues_exploreFrom expand k _ _ _ _

end Search

theorem steady_booleanUnifyWith (s t : CoeffTerm) : Search.Steady (booleanUnifyWith s t) :=
  Search.steady_explore _ _

/-- Purification spends nothing. -/
theorem steady_xorUnifyWith (es : List Equation) (fresh : FreshNames) :
    Search.Steady fun b => (xorUnifyWith es fresh b).1 :=
  Search.steady_explore _ _

namespace Adversary

variable {a : Adversary} {fresh : FreshNames} {budget left : Budget} {s : State}
  {rest : List State} {found : List Substitution}

/-- One step of the check, if a step can be made. -/
theorem repair_cons (h : budget.spend? = some left) :
    a.repair fresh budget (s :: rest) found =
      let bad := a.badSubterms s.constraints s.substitution
      if bad.isEmpty then a.repair fresh left rest (Search.record found s.substitution)
      else
        match s.decision? a bad with
        | none => a.repair fresh left rest found
        | some lhs =>
          let run := xorUnifyWith [⟨lhs, .zero⟩] fresh left
          if run.1.outcome.isExhaustive then
            a.repair run.2 run.1.budget
              (run.1.outcome.solutions.map s.instantiate ++ s.refuse lhs :: rest) found
          else ⟨.boundExceeded found, run.1.budget⟩ := by
  rw [repair]
  split
  · rename_i hnone
    rw [h] at hnone
    cases hnone
  · rename_i left' hleft
    rw [h] at hleft
    cases hleft
    rfl

/-- Solutions that were found stay in front. -/
theorem isPrefix_repair (a : Adversary) (fresh : FreshNames) (budget : Budget)
    (states : List State) (found : List Substitution) :
    found <+: (a.repair fresh budget states found).outcome.solutions := by
  fun_induction a.repair fresh budget states found with
  | case1 => simp
  | case2 => exact List.prefix_rfl
  | case3 _ _ _ s _ _ _ _ _ ih => exact (Search.isPrefix_record _ s.substitution).trans ih
  | case4 _ _ _ _ _ _ _ _ _ _ ih => exact ih
  | case5 _ _ _ _ _ _ _ _ _ _ _ _ _ ih => exact ih
  | case6 => exact List.prefix_rfl

/-- Every step is accounted for, those of nested searches included. -/
theorem accounts_repair (a : Adversary) (fresh : FreshNames) (budget : Budget)
    (states : List State) (found : List Substitution) :
    (a.repair fresh budget states found).Accounts budget := by
  fun_induction a.repair fresh budget states found with
  | case1 => exact ⟨rfl, fun h => by simp at h⟩
  | case2 _ _ _ _ _ hspend => exact ⟨rfl, fun _ => Budget.spend?_eq_none.1 hspend⟩
  | case3 _ _ _ _ _ _ hspend _ _ ih => exact ih.of_total (Budget.total_of_spend? hspend)
  | case4 _ _ _ _ _ _ hspend _ _ _ ih => exact ih.of_total (Budget.total_of_spend? hspend)
  | case5 fresh _ _ _ _ left hspend _ _ lhs _ run _ ih =>
    have hrun : run.1.Accounts left := (steady_xorUnifyWith [⟨lhs, .zero⟩] fresh).accounts left
    exact ih.of_total (hrun.total.trans (Budget.total_of_spend? hspend))
  | case6 fresh _ _ _ _ left hspend _ _ lhs _ run hex =>
    have hrun : run.1.Accounts left := (steady_xorUnifyWith [⟨lhs, .zero⟩] fresh).accounts left
    rw [Bool.not_eq_true] at hex
    exact ⟨hrun.total.trans (Budget.total_of_spend? hspend), fun _ => hrun.used hex⟩

/-- Both runs make the same decisions until one is cut off, maybe in a nested search. -/
theorem continues_repair (a : Adversary) (k : Nat) (fresh : FreshNames) (budget : Budget)
    (states : List State) (found : List Substitution) :
    (a.repair fresh budget states found).Continues k
      (a.repair fresh (budget.plus k) states found) := by
  fun_induction a.repair fresh budget states found with
  | case1 =>
    rw [repair]
    exact Search.Run.continues_self
  | case2 => exact Search.Run.continues_of_boundExceeded (isPrefix_repair _ _ _ _ _)
  | case3 fresh budget found s rest left hspend bad hbad ih =>
    rw [repair_cons (Budget.spend?_plus hspend k), if_pos hbad]
    exact ih
  | case4 fresh budget found s rest left hspend bad hbad hnone ih =>
    rw [repair_cons (Budget.spend?_plus hspend k), if_neg hbad, hnone]
    exact ih
  | case5 fresh budget found s rest left hspend bad hbad lhs hlhs run hex ih =>
    have hmore := ((steady_xorUnifyWith [⟨lhs, .zero⟩] fresh).continues left k).more hex
    rw [repair_cons (Budget.spend?_plus hspend k), if_neg hbad, hlhs]
    dsimp only
    rw [hmore, if_pos hex]
    exact ih
  | case6 => exact Search.Run.continues_of_boundExceeded (isPrefix_repair _ _ _ _ _)

theorem steady_unifyWith (a : Adversary) (es : List Equation) (constraints : Constraints) :
    Search.Steady (a.unifyWith es constraints) where
  accounts b := by
    have hrun := (steady_xorUnifyWith es (freshNames es constraints)).accounts b
    unfold unifyWith
    dsimp only
    split
    · exact (accounts_repair a _ _ _ []).of_total hrun.total
    · rename_i hex
      rw [Bool.not_eq_true] at hex
      exact ⟨hrun.total, fun _ => hrun.used hex⟩
  continues b k := by
    have hrun := (steady_xorUnifyWith es (freshNames es constraints)).continues b k
    unfold unifyWith
    dsimp only
    split
    · rename_i hex
      rw [hrun.more hex, if_pos hex]
      exact continues_repair a k _ _ _ []
    · exact Search.Run.continues_of_boundExceeded List.nil_prefix

end Adversary

end SymbolicXor
