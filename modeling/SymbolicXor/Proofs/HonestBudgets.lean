import SymbolicXor.Proofs.CountedSteps

/-!
# Honest budgets

Every search of the library is honest about its budget. It spends one unit for each of its steps,
makes no more steps than it may, finds the more the more steps it may make, and calls itself
exhaustive only where no larger budget changes its answer.
-/

namespace SymbolicXor

/-- A search with a bound on its steps is honest: the runs that it makes, the answers under all
bounds and the units spent fit together. -/
structure Honest {α : Type} (makes : Nat → Outcome α → Prop) (answer : Nat → Outcome α)
    (spent : Nat → Nat) : Prop where
  /-- The answer is that of a run with as many steps as are spent. -/
  charged : ∀ m, makes (spent m) (answer m)
  /-- A run that is not cut off is made under every bound that its steps keep. -/
  complete : ∀ m n o, makes n o → o.isExhaustive = true → n ≤ m → answer m = o ∧ spent m = n
  /-- No more steps are made than the bound allows. -/
  spent_le : ∀ m, spent m ≤ m
  /-- Under a larger bound the solutions under a smaller one come first. -/
  grows : ∀ m n, m ≤ n → (answer m).solutions <+: (answer n).solutions
  /-- An exhaustive answer is the answer under every larger bound, with as many steps. -/
  final : ∀ m n, m ≤ n → (answer m).isExhaustive = true →
    answer n = answer m ∧ spent n = spent m
  /-- A search that is cut off has made all its steps. -/
  used : ∀ m, (answer m).isExhaustive = false → spent m = m
  /-- A search that would make more steps than it may is reported as cut off. -/
  cutOff : ∀ m n, m < spent n → ∃ found, answer m = .boundExceeded found

/-- A steady search whose runs are counted is honest under all bounds. -/
theorem Search.Steady.honest {α : Type} {makes : Nat → Outcome α → Prop}
    {search : Budget → Search.Run α} (h : Search.Steady search)
    (hcounts : Search.Counts makes search) :
    Honest makes (fun m => (search { remaining := m }).outcome)
      fun m => (search { remaining := m }).budget.spent := by
  have htotal (m : Nat) : (search { remaining := m }).budget.remaining +
      (search { remaining := m }).budget.spent = m :=
    (h.accounts { remaining := m }).total
  have hspent (m : Nat) : (search { remaining := m }).budget.spent ≤ m := by
    have := htotal m
    omega
  have hfinal (m n : Nat) (hmn : m ≤ n)
      (hex : (search { remaining := m }).outcome.isExhaustive = true) :
      (search { remaining := n }).outcome = (search { remaining := m }).outcome ∧
        (search { remaining := n }).budget.spent = (search { remaining := m }).budget.spent := by
    obtain ⟨k, rfl⟩ := Nat.exists_eq_add_of_le hmn
    have hmore : search { remaining := m + k } = _ :=
      (h.continues { remaining := m } k).more hex
    rw [hmore]
    exact ⟨rfl, rfl⟩
  refine { charged := ?charged, complete := ?complete, spent_le := hspent, grows := ?grows,
           final := hfinal, used := ?used, cutOff := ?cutOff }
  case charged =>
    intro m
    obtain ⟨n, hn, hsteps⟩ := hcounts.charges { remaining := m }
    rw [hsteps, Nat.zero_add]
    exact hn
  case complete =>
    intro m n o hn hex hnm
    obtain ⟨k, rfl⟩ := Nat.exists_eq_add_of_le hnm
    rw [hcounts.completes hn hex k 0, Nat.zero_add]
    exact ⟨rfl, rfl⟩
  case grows =>
    intro m n hmn
    obtain ⟨k, rfl⟩ := Nat.exists_eq_add_of_le hmn
    exact (h.continues { remaining := m } k).grows
  case used =>
    intro m hex
    have hzero : (search { remaining := m }).budget.remaining = 0 :=
      (h.accounts { remaining := m }).used hex
    have := htotal m
    omega
  case cutOff =>
    intro m n hmn
    cases hm : (search { remaining := m }).outcome with
    | boundExceeded found => exact ⟨found, rfl⟩
    | _ =>
      have hle : m ≤ n := by
        have := hspent n
        omega
      have hsame := (hfinal m n hle (by rw [hm]; rfl)).2
      have := hspent m
      omega

/-- All searches of the library are honest about their budgets, nested searches included. -/
theorem searches_honest :
    (∀ es, Honest (XorUnification.Makes es (.forEquations es)) (fun m => xorUnify es m) fun m =>
      (xorUnifyWith es (.forEquations es) { remaining := m }).1.budget.spent) ∧
    (∀ (a : Adversary) es constraints, Honest (a.Makes es constraints)
      (fun m => a.unify es constraints m) fun m =>
      (a.unifyWith es constraints { remaining := m }).budget.spent) ∧
    (∀ s t, Honest (BooleanUnification.Makes s t) (fun m => booleanUnify s t m) fun m =>
      (booleanUnifyWith s t { remaining := m }).budget.spent) ∧
    (∀ outputs constraints, Honest (Collision.Makes outputs constraints)
      (fun m => collisions outputs constraints m) fun m =>
      (collisionsWith outputs constraints { remaining := m }).budget.spent) :=
  ⟨fun es => (steady_xorUnifyWith es _).honest (counts_xorUnifyWith es _),
    fun a es constraints => (a.steady_unifyWith es constraints).honest
      (a.counts_unifyWith es constraints),
    fun s t => (steady_booleanUnifyWith s t).honest (counts_booleanUnifyWith s t),
    fun outputs constraints => (steady_collisionsWith outputs constraints).honest
      (Collision.counts_collisionsWith outputs constraints)⟩

end SymbolicXor
