import SymbolicXor.Proofs.RepairSteps
import SymbolicXor.Proofs.SteadySaturations

/-!
# Counted steps

The runs of a search are described without a budget, together with the number of their steps. A
depth-first search makes one step for each state that it expands, a repair one step for each unifier
that it checks, and a saturation one step for each time that it looks for new sums; the steps of the
unifications that they start are steps as well. A run may be cut off before any step. Under a
budget, a search makes such a run and spends one unit for each of its steps; and a run that is not
cut off is made under every budget that suffices for its steps.
-/

namespace SymbolicXor

theorem Budget.spend?_one_add (n spent : Nat) :
    Budget.spend? ⟨1 + n, spent⟩ = some ⟨n, spent + 1⟩ := by
  rw [Nat.add_comm]
  rfl

namespace Search

variable {σ α : Type}

/-- A run from a budget spends one unit for each of the steps by which it comes to its outcome. -/
def Run.Charges (makes : Nat → Outcome α → Prop) (b : Budget) (r : Run α) : Prop :=
  ∃ n, makes n r.outcome ∧ r.budget.spent = b.spent + n

/-- Steps that were made before are charged as well. -/
theorem Run.Charges.after {makes makes' : Nat → Outcome α → Prop} {b left : Budget}
    {r : Run α} {k : Nat} (h : r.Charges makes left) (hk : left.spent = b.spent + k)
    (hmakes : ∀ n o, makes n o → makes' (k + n) o) : r.Charges makes' b := by
  obtain ⟨n, hn, hspent⟩ := h
  exact ⟨k + n, hmakes n _ hn, by rw [hspent, hk, Nat.add_assoc]⟩

/-- A search under budgets makes counted runs, and all of them that come to an end. -/
structure Counts (makes : Nat → Outcome α → Prop) (search : Budget → Run α) : Prop where
  /-- Every run spends its steps. -/
  charges : ∀ b, (search b).Charges makes b
  /-- A run that is not cut off is made under a budget that suffices for its steps. -/
  completes : ∀ {n o}, makes n o → o.isExhaustive = true → ∀ k spent,
    search ⟨n + k, spent⟩ = ⟨o, ⟨k, spent + n⟩⟩

variable [DecidableEq α]

/-- Depth-first search from open states, with solutions found before, makes a number of steps and
comes to an outcome. -/
inductive Makes (expand : σ → Expansion σ α) : List σ → List α → Nat → Outcome α → Prop
  /-- No state is open. -/
  | done {found : List α} : Makes expand [] found 0 (.ofSolutions found)
  /-- The search is cut off. -/
  | cutOff {s : σ} {rest : List σ} {found : List α} :
    Makes expand (s :: rest) found 0 (.boundExceeded found)
  /-- The first open state is solved. -/
  | solved {s : σ} {rest : List σ} {found : List α} {a : α} {n : Nat} {o : Outcome α}
    (hs : expand s = .solved a) (h : Makes expand rest (record found a) n o) :
    Makes expand (s :: rest) found (n + 1) o
  /-- The first open state is replaced by others. -/
  | branches {s : σ} {rest states : List σ} {found : List α} {n : Nat} {o : Outcome α}
    (hs : expand s = .branches states) (h : Makes expand (states ++ rest) found n o) :
    Makes expand (s :: rest) found (n + 1) o

theorem charges_exploreFrom (expand : σ → Expansion σ α) (remaining spent : Nat) (states : List σ)
    (found : List α) :
    ∃ n, Makes expand states found n (exploreFrom expand remaining spent states found).outcome ∧
      (exploreFrom expand remaining spent states found).budget.spent = spent + n := by
  fun_induction exploreFrom expand remaining spent states found with
  | case1 => exact ⟨0, .done, rfl⟩
  | case2 => exact ⟨0, .cutOff, rfl⟩
  | case3 _ _ _ _ _ _ hs ih =>
    obtain ⟨n, hn, hspent⟩ := ih
    exact ⟨n + 1, .solved hs hn, by omega⟩
  | case4 _ _ _ _ _ _ hs ih =>
    obtain ⟨n, hn, hspent⟩ := ih
    exact ⟨n + 1, .branches hs hn, by omega⟩

theorem Makes.exploreFrom_eq {expand : σ → Expansion σ α} {states : List σ} {found : List α}
    {n : Nat} {o : Outcome α} (h : Makes expand states found n o) (hex : o.isExhaustive = true)
    (k spent : Nat) : exploreFrom expand (n + k) spent states found = ⟨o, ⟨k, spent + n⟩⟩ := by
  induction h generalizing spent with
  | done => rw [Nat.zero_add, exploreFrom, Nat.add_zero]
  | cutOff => cases hex
  | @solved s rest found a n o hs _ ih =>
    rw [Nat.add_right_comm, exploreFrom, hs]
    exact (ih hex (spent + 1)).trans (by rw [Nat.add_right_comm, Nat.add_assoc])
  | @branches s rest states found n o hs _ ih =>
    rw [Nat.add_right_comm, exploreFrom, hs]
    exact (ih hex (spent + 1)).trans (by rw [Nat.add_right_comm, Nat.add_assoc])

theorem counts_explore (expand : σ → Expansion σ α) (start : σ) :
    Counts (Makes expand [start] []) (explore expand start) where
  charges _ := charges_exploreFrom expand _ _ _ _
  completes h hex k spent := h.exploreFrom_eq hex k spent

end Search

/-- Unification of equations modulo exclusive or makes a number of steps and comes to an outcome. -/
def XorUnification.Makes (es : List Equation) (fresh : FreshNames) :
    Nat → Outcome Substitution → Prop :=
  Search.Makes State.expand [{ equations := (purify es fresh).1 }] []

theorem counts_xorUnifyWith (es : List Equation) (fresh : FreshNames) :
    Search.Counts (XorUnification.Makes es fresh) fun b => (xorUnifyWith es fresh b).1 :=
  Search.counts_explore _ _

/-- Boolean unification makes a number of steps and comes to an outcome. -/
def BooleanUnification.Makes (s t : CoeffTerm) : Nat → Outcome Assignment → Prop :=
  Search.Makes State.expand [{ goals := [{ term := (CoeffTerm.sum [s, t]).simplify }] }] []

theorem counts_booleanUnifyWith (s t : CoeffTerm) :
    Search.Counts (BooleanUnification.Makes s t) (booleanUnifyWith s t) :=
  Search.counts_explore _ _

namespace Adversary

/-- A repair of open tasks, with unifiers found before, makes a number of steps and comes to an
outcome. -/
inductive Repairs (a : Adversary) :
    FreshNames → List State → List Substitution → Nat → Outcome Substitution → Prop
  /-- No task is open. -/
  | done {fresh : FreshNames} {found : List Substitution} :
    Repairs a fresh [] found 0 (.ofSolutions found)
  /-- The repair is cut off. -/
  | cutOff {fresh : FreshNames} {s : State} {rest : List State} {found : List Substitution} :
    Repairs a fresh (s :: rest) found 0 (.boundExceeded found)
  /-- The first unifier is a solution. -/
  | solve {fresh : FreshNames} {s : State} {rest : List State} {found : List Substitution} {n : Nat}
    {o : Outcome Substitution} (hbad : a.badSubterms s.constraints s.substitution = [])
    (h : Repairs a fresh rest (Search.record found s.substitution) n o) :
    Repairs a fresh (s :: rest) found (1 + n) o
  /-- The first unifier is dropped. -/
  | drop {fresh : FreshNames} {s : State} {rest : List State} {found : List Substitution} {n : Nat}
    {o : Outcome Substitution} (hstuck : s.Stuck a) (h : Repairs a fresh rest found n o) :
    Repairs a fresh (s :: rest) found (1 + n) o
  /-- A decision is made for the first unifier, and unified. -/
  | decide {fresh : FreshNames} {s : State} {rest : List State} {found : List Substitution}
    {lhs : Term} {k n : Nat} {o o' : Outcome Substitution}
    (hd : s.decision? a (a.badSubterms s.constraints s.substitution) = some lhs)
    (hrun : XorUnification.Makes [⟨lhs, .zero⟩] fresh k o') (hex : o'.isExhaustive = true)
    (h : Repairs a (purify [⟨lhs, .zero⟩] fresh).2
      (o'.solutions.map s.instantiate ++ s.refuse lhs :: rest) found n o) :
    Repairs a fresh (s :: rest) found (1 + k + n) o
  /-- A decision is made for the first unifier, and its unification is cut off. -/
  | interrupt {fresh : FreshNames} {s : State} {rest : List State} {found : List Substitution}
    {lhs : Term} {k : Nat} {o' : Outcome Substitution}
    (hd : s.decision? a (a.badSubterms s.constraints s.substitution) = some lhs)
    (hrun : XorUnification.Makes [⟨lhs, .zero⟩] fresh k o') (hex : o'.isExhaustive = false) :
    Repairs a fresh (s :: rest) found (1 + k) (.boundExceeded found)

/-- The search of an adversary makes a number of steps and comes to an outcome. -/
inductive Makes (a : Adversary) (es : List Equation) (constraints : Constraints) :
    Nat → Outcome Substitution → Prop
  /-- The unifiers are found and repaired. -/
  | repair {k n : Nat} {o o' : Outcome Substitution}
    (hrun : XorUnification.Makes es (freshNames es constraints) k o')
    (hex : o'.isExhaustive = true)
    (h : Repairs a (purify es (freshNames es constraints)).2
      (o'.solutions.map fun σ => { substitution := σ, constraints }) [] n o) :
    Makes a es constraints (k + n) o
  /-- The first unification is cut off. -/
  | interrupt {k : Nat} {o' : Outcome Substitution}
    (hrun : XorUnification.Makes es (freshNames es constraints) k o')
    (hex : o'.isExhaustive = false) : Makes a es constraints k (.boundExceeded [])

theorem charges_repair (a : Adversary) (fresh : FreshNames) (budget : Budget)
    (states : List State) (found : List Substitution) :
    (a.repair fresh budget states found).Charges (Repairs a fresh states found) budget := by
  fun_induction a.repair fresh budget states found with
  | case1 => exact ⟨0, .done, rfl⟩
  | case2 => exact ⟨0, .cutOff, rfl⟩
  | case3 _ _ _ _ _ _ hspend _ hbad ih =>
    exact ih.after (Budget.spend?_eq_some.1 hspend).2 fun _ _ =>
      .solve (List.isEmpty_iff.1 hbad)
  | case4 _ _ _ _ _ _ hspend _ hbad hnone ih =>
    exact ih.after (Budget.spend?_eq_some.1 hspend).2 fun _ _ =>
      .drop ⟨fun hnil => hbad (List.isEmpty_iff.2 hnil), hnone⟩
  | case5 fresh _ _ _ _ left hspend _ _ lhs hlhs run hex ih =>
    obtain ⟨k, hk, hspent⟩ := (counts_xorUnifyWith [⟨lhs, .zero⟩] fresh).charges left
    refine ih.after (k := 1 + k) ?_ fun _ _ => .decide hlhs hk hex
    rw [hspent, (Budget.spend?_eq_some.1 hspend).2, Nat.add_assoc]
  | case6 fresh _ _ _ _ left hspend _ _ lhs hlhs run hex =>
    obtain ⟨k, hk, hspent⟩ := (counts_xorUnifyWith [⟨lhs, .zero⟩] fresh).charges left
    refine ⟨1 + k, .interrupt hlhs hk (Bool.not_eq_true _ ▸ hex), ?_⟩
    rw [hspent, (Budget.spend?_eq_some.1 hspend).2, Nat.add_assoc]

theorem Repairs.repair_eq {a : Adversary} {fresh : FreshNames} {states : List State}
    {found : List Substitution} {n : Nat} {o : Outcome Substitution}
    (h : Repairs a fresh states found n o) (hex : o.isExhaustive = true) (k spent : Nat) :
    a.repair fresh ⟨n + k, spent⟩ states found = ⟨o, ⟨k, spent + n⟩⟩ := by
  induction h generalizing spent with
  | done => rw [repair, Nat.zero_add, Nat.add_zero]
  | cutOff => cases hex
  | interrupt => cases hex
  | @solve fresh s rest found n o hbad _ ih =>
    rw [Nat.add_assoc, repair_cons (Budget.spend?_one_add _ _), ← Nat.add_assoc]
    simp only [hbad, List.isEmpty_nil, if_true]
    exact ih hex (spent + 1)
  | @drop fresh s rest found n o hstuck _ ih =>
    rw [Nat.add_assoc, repair_cons (Budget.spend?_one_add _ _), ← Nat.add_assoc]
    simp only [List.isEmpty_iff, hstuck.1, hstuck.2, if_false]
    exact ih hex (spent + 1)
  | @decide fresh s rest found lhs m n o o' hd hrun hex' _ ih =>
    have hrun' := (counts_xorUnifyWith _ _).completes hrun hex' (n + k) (spent + 1)
    rw [Nat.add_assoc, Nat.add_assoc, repair_cons (Budget.spend?_one_add _ _)]
    simp only [List.isEmpty_iff, bad_ne_nil_of_decision? hd, hd, if_false, hrun', hex', if_true]
    exact (ih hex (spent + 1 + m)).trans (by simp only [Nat.add_assoc])

theorem counts_unifyWith (a : Adversary) (es : List Equation) (constraints : Constraints) :
    Search.Counts (Makes a es constraints) (a.unifyWith es constraints) where
  charges b := by
    obtain ⟨k, hk, hspent⟩ := (counts_xorUnifyWith es (freshNames es constraints)).charges b
    unfold unifyWith
    dsimp only
    split
    · rename_i hex
      exact (charges_repair a _ _ _ []).after hspent fun _ _ => .repair hk hex
    · rename_i hex
      exact ⟨k, .interrupt hk (Bool.not_eq_true _ ▸ hex), hspent⟩
  completes h hex k spent := by
    cases h with
    | interrupt => cases hex
    | @repair m n o o' hrun hex' h =>
      have hrun' := (counts_xorUnifyWith _ _).completes hrun hex' (n + k) spent
      rw [Nat.add_assoc]
      simp only [unifyWith, hrun', hex', if_true]
      exact (h.repair_eq hex k (spent + m)).trans (by rw [Nat.add_assoc])

end Adversary

namespace Collision

/-- The result of looking for new sums, without a budget. -/
inductive Finding where
  /-- The budget ran out. -/
  | outOfSteps
  /-- There is nothing new. -/
  | nothingNew
  /-- The saturation went on. -/
  | advanced (next : Saturation)

/-- The progress that a finding is, with the budget that is left. -/
def Finding.progress : Finding → Budget → Progress
  | outOfSteps, b => .outOfSteps b
  | nothingNew, b => .nothingNew b
  | advanced next, b => .advanced next b

/-- The finding of an attempt, given the outcome of its unification. -/
def Saturation.finding (s : Saturation) (a : Attempt) (o : Outcome Assignment) : Finding :=
  if o.isExhaustive then
    let next := (o.solutions.filterMap a.result?).foldl record s
    if next.raw.length = s.raw.length then .nothingNew else .advanced next
  else .outOfSteps

theorem Saturation.attempt_eq (s : Saturation) (a : Attempt) (budget : Budget) :
    s.attempt a budget = (s.finding a (booleanUnifyWith a.left a.right budget).outcome).progress
      (booleanUnifyWith a.left a.right budget).budget := by
  unfold attempt finding
  dsimp only
  split
  · split <;> rfl
  · rfl

theorem Saturation.isExhaustive_of_finding {s : Saturation} {a : Attempt} {o : Outcome Assignment}
    (h : s.finding a o ≠ .outOfSteps) : o.isExhaustive = true := by
  by_contra hex
  exact h (if_neg hex)

/-- Looking for new sums makes a number of steps, all of them in unifications, and leads to a
finding. -/
inductive Progress.Makes : (Budget → Progress) → Nat → Finding → Prop
  /-- There is nothing to try. -/
  | nothingNew : Makes Progress.nothingNew 0 .nothingNew
  /-- There is no need to try. -/
  | advanced (next : Saturation) : Makes (Progress.advanced next) 0 (.advanced next)
  /-- A single attempt. -/
  | attempt (s : Saturation) (a : Attempt) {n : Nat} {o : Outcome Assignment}
    (h : BooleanUnification.Makes a.left a.right n o) : Makes (s.attempt a) n (s.finding a o)
  /-- The first of two places. -/
  | first {f g : Budget → Progress} {n : Nat} {x : Finding} (hf : Makes f n x)
    (hx : x ≠ .nothingNew) : Makes (fun b => (f b).orElse g) n x
  /-- Both places, one after the other. -/
  | both {f g : Budget → Progress} {n k : Nat} {x : Finding} (hf : Makes f n .nothingNew)
    (hg : Makes g k x) : Makes (fun b => (f b).orElse g) (n + k) x

theorem Progress.OfAttempts.charges {look : Budget → Progress} (h : OfAttempts look)
    (budget : Budget) : ∃ n x left, Makes look n x ∧ look budget = x.progress left ∧
      left.spent = budget.spent + n := by
  induction h generalizing budget with
  | nothingNew => exact ⟨0, _, budget, .nothingNew, rfl, rfl⟩
  | advanced next => exact ⟨0, _, budget, .advanced next, rfl, rfl⟩
  | attempt s a =>
    obtain ⟨n, hn, hspent⟩ := (counts_booleanUnifyWith a.left a.right).charges budget
    exact ⟨n, _, _, .attempt s a hn, s.attempt_eq a budget, hspent⟩
  | @orElse f g _ _ ihf ihg =>
    obtain ⟨n, x, left, hn, hf, hspent⟩ := ihf budget
    cases x with
    | nothingNew =>
      obtain ⟨k, y, left', hk, hg, hspent'⟩ := ihg left
      refine ⟨n + k, y, left', .both hn hk, ?_, by rw [hspent', hspent, Nat.add_assoc]⟩
      dsimp only
      rw [hf]
      exact hg
    | _ =>
      refine ⟨n, _, left, .first hn Finding.noConfusion, ?_, hspent⟩
      dsimp only
      rw [hf]
      rfl

theorem Progress.Makes.look_eq {look : Budget → Progress} {n : Nat} {x : Finding}
    (h : Makes look n x) (hx : x ≠ .outOfSteps) (k spent : Nat) :
    look ⟨n + k, spent⟩ = x.progress ⟨k, spent + n⟩ := by
  induction h generalizing k spent with
  | nothingNew =>
    rw [Nat.zero_add]
    rfl
  | advanced next =>
    rw [Nat.zero_add]
    rfl
  | attempt s a h =>
    have hex := Saturation.isExhaustive_of_finding hx
    rw [s.attempt_eq, (counts_booleanUnifyWith _ _).completes h hex]
  | @first f g n x _ hne ih =>
    dsimp only
    rw [ih hx]
    cases x with
    | nothingNew => exact absurd rfl hne
    | _ => rfl
  | @both f g n m x _ _ ihf ihg =>
    dsimp only
    rw [Nat.add_assoc, ihf Finding.noConfusion (m + k)]
    exact (ihg hx k (spent + n)).trans (by rw [Nat.add_assoc])

/-- A saturation makes a number of steps and ends with its sums, saturated or not. -/
inductive Saturates : Saturation → Nat → Saturation → Bool → Prop
  /-- The saturation is cut off. -/
  | cutOff (s : Saturation) : Saturates s 0 s false
  /-- It is cut off while it looks for new sums. -/
  | interrupt {s : Saturation} {k : Nat} (h : Progress.Makes s.advance k .outOfSteps) :
    Saturates s (1 + k) s false
  /-- There is nothing new. -/
  | done {s : Saturation} {k : Nat} (h : Progress.Makes s.advance k .nothingNew) :
    Saturates s (1 + k) s true
  /-- It goes on with new sums. -/
  | advance {s next t : Saturation} {k n : Nat} {sat : Bool}
    (h : Progress.Makes s.advance k (.advanced next)) (h' : Saturates next n t sat) :
    Saturates s (1 + k + n) t sat

theorem charges_run (s : Saturation) (budget : Budget) :
    ∃ n, Saturates s n (s.run budget).saturation (s.run budget).isSaturated ∧
      (s.run budget).budget.spent = budget.spent + n := by
  fun_induction Saturation.run s budget with
  | case1 s => exact ⟨0, .cutOff s, rfl⟩
  | case2 s budget left hspend b h =>
    obtain ⟨k, x, left', hk, hlook, hspent⟩ := s.ofAttempts_advance.charges left
    cases x <;> cases h.symm.trans hlook
    refine ⟨1 + k, .interrupt hk, hspent.trans ?_⟩
    rw [(Budget.spend?_eq_some.1 hspend).2, Nat.add_assoc]
  | case3 s budget left hspend b h =>
    obtain ⟨k, x, left', hk, hlook, hspent⟩ := s.ofAttempts_advance.charges left
    cases x <;> cases h.symm.trans hlook
    refine ⟨1 + k, .done hk, hspent.trans ?_⟩
    rw [(Budget.spend?_eq_some.1 hspend).2, Nat.add_assoc]
  | case4 s budget left hspend next b h ih =>
    obtain ⟨k, x, left', hk, hlook, hspent⟩ := s.ofAttempts_advance.charges left
    cases x <;> cases h.symm.trans hlook
    obtain ⟨n, hn, hspent'⟩ := ih
    refine ⟨1 + k + n, .advance hk hn, hspent'.trans ?_⟩
    rw [hspent, (Budget.spend?_eq_some.1 hspend).2]
    simp only [Nat.add_assoc]

theorem Saturates.run_eq {s t : Saturation} {n : Nat} {sat : Bool} (h : Saturates s n t sat)
    (hsat : sat = true) (k spent : Nat) :
    s.run ⟨n + k, spent⟩ = ⟨t, true, ⟨k, spent + n⟩⟩ := by
  induction h generalizing spent with
  | cutOff => cases hsat
  | interrupt => cases hsat
  | @done s m h =>
    rw [Nat.add_assoc, Saturation.run_of_spend? (Budget.spend?_one_add _ _),
      h.look_eq Finding.noConfusion, Nat.add_assoc]
    rfl
  | @advance s next t m n sat h _ ih =>
    rw [Nat.add_assoc, Nat.add_assoc, Saturation.run_of_spend? (Budget.spend?_one_add _ _),
      h.look_eq Finding.noConfusion]
    exact (ih hsat (spent + 1 + m)).trans (by simp only [Nat.add_assoc])

/-- The search for collisions makes a number of steps and comes to an outcome. -/
def Makes (outputs : List Term) (constraints : Constraints) (n : Nat) (o : Outcome Substitution) :
    Prop :=
  let ranges := ranges outputs constraints
  let terms := outputs.map fun t => ((CoeffTerm.ofTerm t).substitute ranges).simplify
  ∃ t sat, Saturates (.start terms) n t sat ∧
    o = if sat then .ofSolutions (solutions ranges t.finished)
      else .boundExceeded (solutions ranges t.finished)

theorem counts_collisionsWith (outputs : List Term) (constraints : Constraints) :
    Search.Counts (Makes outputs constraints) (collisionsWith outputs constraints) where
  charges b := by
    obtain ⟨n, hn, hspent⟩ := charges_run (.start _) b
    exact ⟨n, ⟨_, _, hn, rfl⟩, hspent⟩
  completes h hex k spent := by
    obtain ⟨t, sat, hrun, rfl⟩ := h
    cases sat with
    | false => cases hex
    | true =>
      unfold collisionsWith
      dsimp only
      rw [hrun.run_eq rfl]

end Collision

end SymbolicXor
