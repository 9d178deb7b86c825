import SymbolicXor.Proofs.BooleanRules
import SymbolicXor.Proofs.Samples
import SymbolicXor.Proofs.SearchRuns

/-!
# Solutions of boolean unification

Boolean unification is exact for terms whose coefficients stand in front of constants and
applications. An assignment that is found makes the terms equal under every valuation above it,
shown backwards along the rules that led to it. In the other direction the search pursues every
total valuation that makes the terms equal: one branch of each rule stays below the valuation, and
no such state is stuck.
-/

namespace SymbolicXor

open CoeffTerm

namespace BooleanUnification

variable {α : Name → Option Bool}

theorem solved_of_expand {s : State} {γ : Assignment} (h : s.expand = .solved γ) :
    simplifyGoals s.goals = [] ∧ s.assignment = γ := by
  unfold State.expand at h
  split at h
  · rename_i hgoals
    cases h
    exact ⟨hgoals, rfl⟩
  · cases h

/-- Under everything that is found from a state, its goals are zero. -/
theorem zeroed_of_leads {s t : State} {γ : Assignment} (h : Search.Leads State.expand s t)
    (ht : t.expand = .solved γ) (hγ : γ.Within α) (hs : RigidGoals s.goals) :
    s.assignment.Within α ∧ Zeroed α s.goals := by
  induction h using Relation.ReflTransGen.head_induction_on with
  | refl =>
    obtain ⟨hgoals, rfl⟩ := solved_of_expand ht
    refine ⟨hγ, (zeroed_simplifyGoals hs).1 ?_⟩
    rw [hgoals]
    exact fun g hg => absurd hg List.not_mem_nil
  | @head s s' hstep _ ih =>
    obtain ⟨states, hexpand, hmem⟩ := hstep
    obtain ⟨g, goals, hgoals, ⟨rfl, _⟩ | ⟨new, instead, left, hrule, rfl⟩⟩ :=
      expand_branches hexpand
    · cases hmem
    have hshape : ∀ h ∈ g :: goals, Scaled IsRigid h.term :=
      fun h hh => (simplified_of_mem hs (hgoals ▸ hh)).1
    obtain ⟨hg, hrest⟩ := List.forall_mem_cons.1 hshape
    have hrigid : RigidGoals goals := fun h hh => (hrest h hh).orZero
    rw [← zeroed_simplifyGoals hs, hgoals, Zeroed, List.forall_mem_cons]
    rcases List.mem_append.1 hmem with hmem | hmem
    · have hassign := Option.mem_toList.1 hmem
      obtain ⟨hnext, hiff, _⟩ := assign_spec (α := α) hassign
        (List.forall_mem_append.2 ⟨hrigid, hrule.rigid hg⟩)
      obtain ⟨hα, hzero⟩ := ih hnext
      obtain ⟨hold, hnew⟩ := (Assignment.within_compose (assign_eq_some hassign).1).1 hα
      obtain ⟨hgoals, hinstead⟩ := List.forall_mem_append.1 ((hiff hnew).1 hzero)
      exact ⟨hold, hrule.sound hg hnew hinstead, hgoals⟩
    · rw [List.mem_singleton.1 hmem] at ih
      have hleft : Scaled (OrZero IsRigid) left.term := hrule.left_term ▸ hg.orZero
      obtain ⟨hα, hzero⟩ :=
        ih (List.forall_mem_append.2 ⟨hrigid, List.forall_mem_singleton.2 hleft⟩)
      obtain ⟨hgoals, hzero⟩ := List.forall_mem_append.1 hzero
      rw [List.forall_mem_singleton, hrule.left_term] at hzero
      exact ⟨hα, hzero, hgoals⟩

/-- A state that a total valuation solves, with records that are true under it. -/
structure Solvable (β : Name → Bool) (s : State) : Prop where
  /-- Coefficients stand only in front of rigid terms. -/
  rigid : RigidGoals s.goals
  /-- The goals are zero. -/
  zeroed : Zeroed (some ∘ β) s.goals
  /-- The values given so far are those of the valuation. -/
  within : s.assignment.Within (some ∘ β)
  /-- The records of the goals are true. -/
  remembers : ∀ g ∈ s.goals, g.Remembers (some ∘ β)

/-- The search pursues every total valuation under which the goals are zero. -/
theorem pursues_solvable (β : Name → Bool) :
    Search.Pursues State.expand (Solvable β) fun γ => γ.Within (some ∘ β) where
  solved hs h := (solved_of_expand h).2 ▸ hs.within
  branches {s states} hs h := by
    obtain ⟨g, goals, hgoals, hcases⟩ := expand_branches h
    have hshape : ∀ h ∈ g :: goals, Scaled IsRigid h.term :=
      fun h hh => (simplified_of_mem hs.rigid (hgoals ▸ hh)).1
    have hzeroed := (zeroed_simplifyGoals hs.rigid).2 hs.zeroed
    have hremembers := remembers_simplifyGoals hs.remembers
    rw [hgoals] at hzeroed hremembers
    obtain ⟨hg, hrest⟩ := List.forall_mem_cons.1 hshape
    obtain ⟨hgz, hrestz⟩ := List.forall_mem_cons.1 hzeroed
    obtain ⟨hgr, hrestr⟩ := List.forall_mem_cons.1 hremembers
    have hrigid : RigidGoals goals := fun h hh => (hrest h hh).orZero
    rcases hcases with ⟨_, hstuck⟩ | ⟨new, instead, left, hrule, rfl⟩
    · obtain ⟨_, hflat, hne⟩ := simplified_of_mem hs.rigid (hgoals ▸ List.mem_cons_self)
      exact absurd hgz (value_ne_zero_of_stuck hg hflat hne hgr hstuck)
    · rcases hrule.complete hg hgr hgz with ⟨hnew, hinstead, hinsteadr⟩ | hleft
      · obtain ⟨next, hassign, hα⟩ := exists_assign hs.within hnew (goals ++ instead)
        obtain ⟨hnextRigid, hiff, hnextr⟩ := assign_spec (α := some ∘ β) hassign
          (List.forall_mem_append.2 ⟨hrigid, hrule.rigid hg⟩)
        refine ⟨next, List.mem_append_left _ (Option.mem_toList.2 hassign), hnextRigid, ?_, hα, ?_⟩
        · exact (hiff hnew).2 (List.forall_mem_append.2 ⟨hrestz, hinstead⟩)
        · exact hnextr (List.forall_mem_append.2 ⟨hrestr, hinsteadr⟩)
      · refine ⟨_, List.mem_append_right _ List.mem_cons_self, ?_, ?_, hs.within, ?_⟩
        · exact List.forall_mem_append.2
            ⟨hrigid, List.forall_mem_singleton.2 (hrule.left_term ▸ hg.orZero)⟩
        · exact List.forall_mem_append.2
            ⟨hrestz, List.forall_mem_singleton.2 (hrule.left_term ▸ hgz)⟩
        · exact List.forall_mem_append.2 ⟨hrestr, List.forall_mem_singleton.2 hleft⟩

end BooleanUnification

open BooleanUnification

section

variable {s t : CoeffTerm} {budget : Budget}

/-- Two terms have one value wherever an assignment that was found for them holds. -/
theorem booleanUnifyWith_sound (hs : Scaled IsRigid s) (ht : Scaled IsRigid t) {γ : Assignment}
    (hγ : γ ∈ (booleanUnifyWith s t budget).outcome.solutions) {α : Name → Option Bool}
    (hα : γ.Within α) : value α s = value α t := by
  obtain ⟨state, hleads, hsolved⟩ := Search.exists_leads_of_mem_explore hγ
  obtain ⟨hscaled, hequal⟩ := pair_spec (α := α) hs ht
  have hzero := (zeroed_of_leads hleads hsolved hα
    (List.forall_mem_singleton.2 hscaled.orZero)).2
  exact hequal.1 (hzero _ List.mem_cons_self)

/-- An exhaustive search finds an assignment below every total valuation under which two terms have
one value. -/
theorem booleanUnifyWith_complete (hs : Scaled IsRigid s) (ht : Scaled IsRigid t)
    (hex : (booleanUnifyWith s t budget).outcome.isExhaustive = true) {β : Name → Bool}
    (hβ : value (some ∘ β) s = value (some ∘ β) t) :
    ∃ γ ∈ (booleanUnifyWith s t budget).outcome.solutions, γ.Within (some ∘ β) := by
  obtain ⟨hscaled, hequal⟩ := pair_spec (α := some ∘ β) hs ht
  refine (pursues_solvable β).exists_of_explore hex ⟨?_, ?_, Assignment.within_empty _, ?_⟩
  · exact List.forall_mem_singleton.2 hscaled.orZero
  · exact List.forall_mem_singleton.2 (hequal.2 hβ)
  · exact List.forall_mem_singleton.2
      ⟨fun _ h => absurd h List.not_mem_nil, fun _ _ h => absurd h List.not_mem_nil⟩

end

/-- Boolean unification is exact: the total valuations under which the sum of two terms is zero are
those above the assignments that an exhaustive search finds. -/
theorem booleanUnify_exact {s t : CoeffTerm} (hs : Scaled IsRigid s) (ht : Scaled IsRigid t)
    {maxSteps : Nat} (hex : (booleanUnify s t maxSteps).isExhaustive = true) (β : Name → Bool) :
    value (some ∘ β) (.sum [s, t]) = .zero ↔
      ∃ γ ∈ (booleanUnify s t maxSteps).solutions, γ.Within (some ∘ β) := by
  rw [value_pair_eq_zero]
  constructor
  · exact fun hequal => booleanUnifyWith_complete hs ht hex hequal
  · rintro ⟨γ, hγ, hβ⟩
    exact booleanUnifyWith_sound hs ht hγ hβ

open Sample

/-- The constant `a` under `f`, times a coefficient. -/
def scaledUnder : CoeffTerm := .app f [.mul (.coeff c₂) (ofTerm a)]

/-- The same application with its own coefficient, and one without a coefficient inside. -/
def coefficientChoice : CoeffTerm :=
  .sum [.mul (.coeff c₁) scaledUnder, .mul (.coeff c₃) (.app f [ofTerm a])]

theorem scaled_scaledUnder : Scaled IsRigid scaledUnder :=
  .app (List.forall_mem_singleton.2 (.mul trivial (.const (by decide))))

theorem scaled_coefficientChoice : Scaled IsRigid coefficientChoice := by
  refine .sum (List.forall_mem_cons.2 ⟨.mul trivial scaled_scaledUnder,
    List.forall_mem_singleton.2 (.mul trivial (.app ?_))⟩)
  exact List.forall_mem_singleton.2 (.const (by decide))

theorem booleanUnify_exact_coefficientChoice :
    (Scaled IsRigid coefficientChoice ∧ Scaled IsRigid scaledUnder ∧
      (booleanUnify coefficientChoice scaledUnder 100).isExhaustive = true) ∧
    ∀ β : Name → Bool, value (some ∘ β) (.sum [coefficientChoice, scaledUnder]) = .zero ↔
      ∃ γ ∈ (booleanUnify coefficientChoice scaledUnder 100).solutions,
        γ.Within (some ∘ β) := by
  have hex : (booleanUnify coefficientChoice scaledUnder 100).isExhaustive = true := by cbv
  exact ⟨⟨scaled_coefficientChoice, scaled_scaledUnder, hex⟩,
    booleanUnify_exact scaled_coefficientChoice scaled_scaledUnder hex⟩

end SymbolicXor
