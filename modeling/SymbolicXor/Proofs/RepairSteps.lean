import SymbolicXor.Proofs.Decisions
import SymbolicXor.Proofs.SteadySearches

/-!
# Steps of a repair

A repair takes its open tasks one by one. A task is solved, given up, or replaced by the tasks of
its next decision. Each step draws on the budget and leaves the result of the repair as it is; so if
the result is exhaustive, the steps go on until no task is open, and a task that is open at some
moment is taken at a later one.
-/

namespace SymbolicXor.Adversary

/-- A task without decisions: it has bad subterms, and every candidate is zero or was refused. -/
def State.Stuck (a : Adversary) (s : State) : Prop :=
  a.badSubterms s.constraints s.substitution ≠ [] ∧
    s.decision? a (a.badSubterms s.constraints s.substitution) = none

instance (a : Adversary) (s : State) : Decidable (s.Stuck a) :=
  inferInstanceAs (Decidable (_ ∧ _))

/-- An open task together with the composed unifiers of the decisions that led to it. -/
structure Task where
  /-- The unifier to be checked, with its constraints and refused decisions. -/
  state : State
  /-- The composed unifiers of the decisions. -/
  decided : Substitution := ∅

/-- Apply a unifier of the last decision. -/
def Task.instantiate (t : Task) (θ : Substitution) : Task where
  state := t.state.instantiate θ
  decided := t.decided.compose θ

/-- Refuse a decision. -/
def Task.refuse (t : Task) (lhs : Term) : Task := { t with state := t.state.refuse lhs }

/-- The generator of names, the budget, the open tasks and the solutions between two steps of a
repair. -/
structure Moment where
  /-- The generator of names. -/
  fresh : FreshNames
  /-- The budget that is left. -/
  budget : Budget
  /-- The open tasks, of which the first is taken next. -/
  tasks : List Task
  /-- The unifiers found so far. -/
  found : List Substitution := []

/-- The rest of a repair. -/
def Moment.rest (a : Adversary) (m : Moment) : Search.Run Substitution :=
  a.repair m.fresh m.budget (m.tasks.map Task.state) m.found

/-- One step of a repair. -/
inductive Step (a : Adversary) : Moment → Moment → Prop
  /-- A task without bad subterms is a solution. -/
  | solve {fresh : FreshNames} {budget left : Budget} {t : Task} {tasks : List Task}
      {found : List Substitution} (hspend : budget.spend? = some left)
      (hbad : a.badSubterms t.state.constraints t.state.substitution = []) :
      Step a ⟨fresh, budget, t :: tasks, found⟩
        ⟨fresh, left, tasks, Search.record found t.state.substitution⟩
  /-- A task without decisions is dropped. -/
  | drop {fresh : FreshNames} {budget left : Budget} {t : Task} {tasks : List Task}
      {found : List Substitution} (hspend : budget.spend? = some left)
      (hstuck : t.state.Stuck a) :
      Step a ⟨fresh, budget, t :: tasks, found⟩ ⟨fresh, left, tasks, found⟩
  /-- The decision of a task is unified, and may be refused. -/
  | decide {fresh : FreshNames} {budget left : Budget} {t : Task} {tasks : List Task}
      {found : List Substitution} {lhs : Term} (hspend : budget.spend? = some left)
      (hd : t.state.decision? a (a.badSubterms t.state.constraints t.state.substitution) = some lhs)
      (hex : (xorUnifyWith [⟨lhs, .zero⟩] fresh left).1.outcome.isExhaustive = true) :
      Step a ⟨fresh, budget, t :: tasks, found⟩
        ⟨(xorUnifyWith [⟨lhs, .zero⟩] fresh left).2,
          (xorUnifyWith [⟨lhs, .zero⟩] fresh left).1.budget,
          (xorUnifyWith [⟨lhs, .zero⟩] fresh left).1.outcome.solutions.map t.instantiate ++
            t.refuse lhs :: tasks, found⟩

variable {a : Adversary} {m m' : Moment}

theorem bad_ne_nil_of_decision? {s : State} {lhs : Term}
    (hd : s.decision? a (a.badSubterms s.constraints s.substitution) = some lhs) :
    a.badSubterms s.constraints s.substitution ≠ [] := by
  intro hnil
  rw [hnil] at hd
  cases hd

/-- A step leaves the result of the repair as it is. -/
theorem Step.rest_eq (h : Step a m m') : m.rest a = m'.rest a := by
  cases h with
  | solve hspend hbad => simp [Moment.rest, repair_cons hspend, hbad]
  | drop hspend hstuck => simp [Moment.rest, repair_cons hspend, hstuck.1, hstuck.2]
  | decide hspend hd hex =>
    simp [Moment.rest, repair_cons hspend, bad_ne_nil_of_decision? hd, hd, hex, Task.instantiate,
      Task.refuse, Function.comp_def]

/-- A step is paid for. -/
theorem Step.remaining_lt (h : Step a m m') : m'.budget.remaining < m.budget.remaining := by
  cases h with
  | solve hspend _ => exact Budget.remaining_lt_of_spend? hspend
  | drop hspend _ => exact Budget.remaining_lt_of_spend? hspend
  | decide hspend _ _ =>
    exact (xorUnifyWith_remaining_le ..).trans_lt (Budget.remaining_lt_of_spend? hspend)

/-- A repair with an exhaustive result goes on as long as a task is open. -/
theorem exists_step (hex : (m.rest a).outcome.isExhaustive = true) (hopen : m.tasks ≠ []) :
    ∃ m', Step a m m' := by
  obtain ⟨fresh, budget, tasks, found⟩ := m
  obtain ⟨t, tasks, rfl⟩ := List.exists_cons_of_ne_nil hopen
  cases hspend : budget.spend? with
  | none =>
    rw [Moment.rest, List.map_cons, repair] at hex
    split at hex
    · cases hex
    · simp_all
  | some left =>
    by_cases hbad : a.badSubterms t.state.constraints t.state.substitution = []
    · exact ⟨_, .solve hspend hbad⟩
    · cases hd : t.state.decision? a (a.badSubterms t.state.constraints t.state.substitution) with
      | none => exact ⟨_, .drop hspend ⟨hbad, hd⟩⟩
      | some lhs =>
        refine ⟨_, .decide hspend hd ?_⟩
        simp only [Moment.rest, List.map_cons, repair_cons hspend, List.isEmpty_iff, if_neg hbad,
          hd] at hex
        split at hex
        · assumption
        · cases hex

/-- The next step drops a task. -/
def Moment.Drops (a : Adversary) (m : Moment) (t : Task) : Prop :=
  ∃ left tasks, m.budget.spend? = some left ∧ m.tasks = t :: tasks ∧ t.state.Stuck a

theorem Moment.Drops.stuck {t : Task} (h : m.Drops a t) : t.state.Stuck a := by
  obtain ⟨_, _, _, _, hstuck⟩ := h
  exact hstuck

/-- Tasks of a kind, relative to the reserved names, are solved as wanted; and if one is decided,
one of the next tasks is of the kind. -/
structure Pursues (a : Adversary) (Good : FreshNames → Task → Prop)
    (Wanted : Substitution → Prop) : Prop where
  /-- A unifier without bad subterms is wanted. -/
  solved : ∀ {g t}, Good g t →
    a.badSubterms t.state.constraints t.state.substitution = [] → Wanted t.state.substitution
  /-- More names may be reserved. -/
  keep : ∀ {g g' : FreshNames} {t}, Good g t → g.reserved ⊆ g'.reserved → Good g' t
  /-- One of the unifiers of a decision leads to such a task, or the decision is refused. -/
  decided : ∀ {g t lhs budget}, Good g t →
    t.state.decision? a (a.badSubterms t.state.constraints t.state.substitution) = some lhs →
    (xorUnifyWith [⟨lhs, .zero⟩] g budget).1.outcome.isExhaustive = true →
    (∃ θ ∈ (xorUnifyWith [⟨lhs, .zero⟩] g budget).1.outcome.solutions,
        Good (xorUnifyWith [⟨lhs, .zero⟩] g budget).2 (t.instantiate θ)) ∨
      Good (xorUnifyWith [⟨lhs, .zero⟩] g budget).2 (t.refuse lhs)

section Pursues

variable {Good : FreshNames → Task → Prop} {Wanted : Substitution → Prop}

/-- A task of the kind is open, or a wanted unifier was found. -/
def Moment.Promising (Good : FreshNames → Task → Prop) (Wanted : Substitution → Prop)
    (m : Moment) : Prop :=
  (∃ t ∈ m.tasks, Good m.fresh t) ∨ ∃ σ ∈ m.found, Wanted σ

/-- A promising moment is followed by another one, unless a task of the kind is dropped. -/
theorem Pursues.step (hp : a.Pursues Good Wanted) (h : Step a m m')
    (hm : m.Promising Good Wanted) :
    m'.Promising Good Wanted ∨ ∃ t, m.Drops a t ∧ Good m.fresh t := by
  cases h with
  | solve hspend hbad =>
    refine Or.inl ?_
    rcases hm with ⟨t, ht, hgood⟩ | ⟨σ, hσ, hwanted⟩
    · rcases List.mem_cons.1 ht with rfl | ht
      · exact Or.inr ⟨_, Search.mem_record.2 (Or.inr rfl), hp.solved hgood hbad⟩
      · exact Or.inl ⟨t, ht, hgood⟩
    · exact Or.inr ⟨σ, Search.mem_record.2 (Or.inl hσ), hwanted⟩
  | @drop _ _ left t tasks _ hspend hstuck =>
    rcases hm with ⟨u, hu, hgood⟩ | hf
    · rcases List.mem_cons.1 hu with rfl | hu
      · exact Or.inr ⟨u, ⟨left, tasks, hspend, rfl, hstuck⟩, hgood⟩
      · exact Or.inl (Or.inl ⟨u, hu, hgood⟩)
    · exact Or.inl (Or.inr hf)
  | @decide fresh _ left _ _ _ lhs _ hd hex =>
    refine Or.inl ?_
    have hreserved := reserved_xorUnifyWith [⟨lhs, .zero⟩] fresh left
    rcases hm with ⟨t, ht, hgood⟩ | hf
    · refine Or.inl ?_
      rcases List.mem_cons.1 ht with rfl | ht
      · rcases hp.decided hgood hd hex with ⟨θ, hθ, hnext⟩ | hnext
        · exact ⟨_, List.mem_append_left _ (List.mem_map_of_mem hθ), hnext⟩
        · exact ⟨_, List.mem_append_right _ List.mem_cons_self, hnext⟩
      · exact ⟨t, List.mem_append_right _ (List.mem_cons_of_mem _ ht), hp.keep hgood hreserved⟩
    · exact Or.inr hf

/-- From a promising moment an exhaustive repair finds a wanted unifier, or drops a task of the kind
at a later moment. -/
theorem Pursues.exists_of_rest (hp : a.Pursues Good Wanted)
    (hex : (m.rest a).outcome.isExhaustive = true) (hm : m.Promising Good Wanted) :
    (∃ σ ∈ (m.rest a).outcome.solutions, Wanted σ) ∨
      ∃ m' t, Relation.ReflTransGen (Step a) m m' ∧ m'.Drops a t ∧ Good m'.fresh t := by
  induction hn : m.budget.remaining using Nat.strong_induction_on generalizing m with
  | _ n ih =>
  by_cases hopen : m.tasks = []
  · rcases hm with ⟨t, ht, _⟩ | hf
    · rw [hopen] at ht
      cases ht
    · refine Or.inl ?_
      rw [Moment.rest, hopen, List.map_nil, repair]
      simpa using hf
  · obtain ⟨m', hstep⟩ := exists_step hex hopen
    rcases hp.step hstep hm with hm' | ⟨t, ht, hgood⟩
    · rw [hstep.rest_eq] at hex ⊢
      rcases ih _ (hn ▸ hstep.remaining_lt) hex hm' rfl with hfound | ⟨m'', t, hrun, ht⟩
      · exact Or.inl hfound
      · exact Or.inr ⟨m'', t, .head hstep hrun, ht⟩
    · exact Or.inr ⟨m, t, .refl, ht, hgood⟩

end Pursues

/-- The moment before the first unifier is checked. -/
def firstMoment (es : List Equation) (constraints : Constraints) (maxSteps : Nat) : Moment :=
  let run := xorUnifyWith es (freshNames es constraints) { remaining := maxSteps }
  { fresh := run.2
    budget := run.1.budget
    tasks := run.1.outcome.solutions.map fun σ => { state := { substitution := σ, constraints } } }

/-- The moments of the search for a problem. -/
inductive Reached (a : Adversary) (es : List Equation) (constraints : Constraints)
    (maxSteps : Nat) : Moment → Prop
  /-- All first unifiers are to be checked. -/
  | start (hex : (xorUnifyWith es (freshNames es constraints)
        { remaining := maxSteps }).1.outcome.isExhaustive = true) :
      Reached a es constraints maxSteps (firstMoment es constraints maxSteps)
  /-- One more step is made. -/
  | step {m m' : Moment} (h : Reached a es constraints maxSteps m) (hstep : Step a m m') :
      Reached a es constraints maxSteps m'

variable {es : List Equation} {constraints : Constraints} {maxSteps : Nat}

/-- A search is exhaustive only if all first unifiers were found. -/
theorem isExhaustive_first (hex : (a.unify es constraints maxSteps).isExhaustive = true) :
    (xorUnifyWith es (freshNames es constraints)
      { remaining := maxSteps }).1.outcome.isExhaustive = true := by
  simp only [unify, unifyWith] at hex
  split at hex
  · assumption
  · cases hex

/-- The result of the search is that of the rest of the repair at each of its moments. -/
theorem Reached.unify_eq (h : Reached a es constraints maxSteps m) :
    a.unify es constraints maxSteps = (m.rest a).outcome := by
  induction h with
  | start hex => simp [unify, unifyWith, hex, firstMoment, Moment.rest, Function.comp_def]
  | step _ hstep ih => rw [ih, hstep.rest_eq]

theorem Reached.trans (h : Reached a es constraints maxSteps m)
    (hrun : Relation.ReflTransGen (Step a) m m') : Reached a es constraints maxSteps m' := by
  induction hrun with
  | refl => exact h
  | tail _ hstep ih => exact ih.step hstep

end SymbolicXor.Adversary
