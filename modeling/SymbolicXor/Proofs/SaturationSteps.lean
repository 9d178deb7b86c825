import Mathlib.Data.List.Basic
import Mathlib.Logic.Relation
import SymbolicXor.Collision.Saturation

/-!
# Steps of a saturation

In one step a saturation lets a lone product vanish, finishes a sum in which nothing more cancels,
or records the results of an attempt to cancel two terms. A property that these steps hand on holds
of every sum that a run finds, and where a run ends by itself every attempt was made and led to
nothing but known sums.
-/

namespace SymbolicXor

theorem Selection.exists_of_pair_sublist {α : Type} {a b : α} {l : List α}
    (h : List.Sublist [a, b] l) : ∃ later, (a, later) ∈ withLater l ∧ b ∈ later := by
  induction l with
  | nil => cases h
  | cons c l ih =>
    cases h with
    | cons _ h =>
      obtain ⟨later, hmem, hb⟩ := ih h
      exact ⟨later, List.mem_cons_of_mem _ hmem, hb⟩
    | cons_cons _ h => exact ⟨l, List.mem_cons_self, List.singleton_sublist.1 h⟩

theorem Selection.pair_sublist_of_mem {α : Type} {a b : α} {l later : List α}
    (h : (a, later) ∈ withLater l) (hb : b ∈ later) : List.Sublist [a, b] l := by
  induction l with
  | nil => cases h
  | cons c l ih =>
    rcases List.mem_cons.1 h with heq | h
    · cases heq
      exact (List.singleton_sublist.2 hb).cons_cons _
    · exact (ih h).cons _

/-- Of two elements of a list, one stands before the other. -/
theorem Selection.pair_sublist_or {α : Type} {a b : α} {l : List α} (ha : a ∈ l) (hb : b ∈ l)
    (hab : a ≠ b) : List.Sublist [a, b] l ∨ List.Sublist [b, a] l := by
  induction l with
  | nil => cases ha
  | cons c l ih =>
    rcases List.mem_cons.1 ha with rfl | hal
    · have hbl := (List.mem_cons.1 hb).resolve_left hab.symm
      exact Or.inl ((List.singleton_sublist.2 hbl).cons_cons _)
    · rcases List.mem_cons.1 hb with rfl | hbl
      · exact Or.inr ((List.singleton_sublist.2 hal).cons_cons _)
      · exact (ih hal hbl).imp (List.Sublist.cons _) (List.Sublist.cons _)

namespace Collision

section FirstNew

variable {ι : Type} {look : ι → Budget → Progress} {is : List ι} {budget left : Budget}

theorem exists_of_firstNew_advanced {next : Saturation}
    (h : firstNew look is budget = .advanced next left) :
    ∃ i ∈ is, ∃ b, look i b = .advanced next left := by
  induction is generalizing budget with
  | nil => cases h
  | cons i is ih =>
    simp only [firstNew] at h
    split at h
    · obtain ⟨j, hj, b, hb⟩ := ih h
      exact ⟨j, List.mem_cons_of_mem _ hj, b, hb⟩
    · exact ⟨i, List.mem_cons_self, budget, h⟩

theorem of_firstNew_nothingNew (h : firstNew look is budget = .nothingNew left) :
    ∀ i ∈ is, ∃ b b', look i b = .nothingNew b' := by
  induction is generalizing budget with
  | nil => exact fun _ hi => absurd hi List.not_mem_nil
  | cons i is ih =>
    simp only [firstNew] at h
    split at h
    · rename_i b hb
      exact List.forall_mem_cons.2 ⟨⟨budget, b, hb⟩, ih h⟩
    · rename_i hne
      exact absurd h (hne _)

end FirstNew

namespace AttackerTerm

variable (a b : AttackerTerm) (t u : CoeffTerm)

/-- Two summands of a sum, to be cancelled against each other. -/
def cancelling : Attempt :=
  { left := t, right := u, total := a.term, outputs := a.outputs, assignments := [a.assignment] }

/-- A summand of each of two sums, to be cancelled against each other. -/
def combining : Attempt where
  left := t
  right := u
  total := .sum (a.term.summands ++ b.term.summands)
  outputs := OrderedList.ofList (a.outputs ++ b.outputs)
  assignments := [a.assignment, b.assignment]

/-- Two deepest summands of a sum, at places one after the other, with overlapping depths. -/
def CancelPair : Prop :=
  ∃ ts, a.term = .sum ts ∧ List.Sublist [t, u] (CoeffTerm.deepest ts) ∧ t.overlaps u = true

/-- Deepest summands of two sums of different outputs, with overlapping depths. -/
def CombinePair : Prop :=
  a.outputs.Disjoint b.outputs ∧ t ∈ CoeffTerm.deepest a.term.summands ∧
    u ∈ CoeffTerm.deepest b.term.summands ∧ t.overlaps u = true

/-- The assignment under which a lone product is zero, as far as its coefficient tells. -/
def zeroing : Assignment :=
  match a.term.coefficient? with
  | some b => .singleton b false
  | none => ∅

/-- A lone product after it vanished. -/
def vanished? : Option AttackerTerm :=
  (a.zeroing.compose a.assignment).map fun assignment => { a with term := .zero, assignment }

end AttackerTerm

/-- An assignment is found under which the two terms of an attempt cancel. -/
def Attempt.Finds (a : Attempt) (γ : Assignment) : Prop :=
  ∃ budget, γ ∈ (booleanUnifyWith a.left a.right budget).outcome.solutions

/-- An attempt was made, and every sum that came of it is among the given ones. -/
def Attempt.Covered (a : Attempt) (known : List AttackerTerm) : Prop :=
  ∃ budget, (booleanUnifyWith a.left a.right budget).outcome.isExhaustive = true ∧
    ∀ γ ∈ (booleanUnifyWith a.left a.right budget).outcome.solutions,
      ∀ r, a.result? γ = some r → r ∈ known

theorem Attempt.Covered.mono {a : Attempt} {known more : List AttackerTerm}
    (h : a.Covered known) (hsub : known ⊆ more) : a.Covered more := by
  obtain ⟨budget, hex, hknown⟩ := h
  exact ⟨budget, hex, fun γ hγ r hr => hsub (hknown γ hγ r hr)⟩

namespace Saturation

variable {s next : Saturation} {a b : AttackerTerm} {budget left : Budget}

theorem vanish_eq (s : Saturation) (a : AttackerTerm) (rest : List AttackerTerm) :
    s.vanish a rest = match a.vanished? with
      | none => { s with raw := rest }
      | some z =>
        { finished := s.finished ++ [z], raw := rest, generated := s.generated ++ [z] } := by
  simp only [vanish, AttackerTerm.vanished?, AttackerTerm.zeroing]
  cases Assignment.compose _ a.assignment <;> rfl

/-- Sums that are recorded in turn are appended to the sums to be looked at and to all sums. -/
theorem foldl_record (as : List AttackerTerm) (s : Saturation) : ∃ new,
    new ⊆ as ∧ (∀ a ∈ as, a ∈ s.generated ∨ a ∈ new) ∧
      as.foldl record s =
        { s with raw := s.raw ++ new, generated := s.generated ++ new } := by
  induction as generalizing s with
  | nil => exact ⟨[], List.nil_subset _, fun a ha => absurd ha List.not_mem_nil, by simp⟩
  | cons a as ih =>
    obtain ⟨new, hnew, hall, heq⟩ := ih (s.record a)
    by_cases hmem : a ∈ s.generated
    · have hrec : s.record a = s := if_pos (List.contains_iff_mem.2 hmem)
      rw [hrec] at heq hall
      refine ⟨new, List.subset_cons_of_subset _ hnew, ?_, by rw [List.foldl_cons, hrec, heq]⟩
      exact List.forall_mem_cons.2 ⟨Or.inl hmem, hall⟩
    · have hrec : s.record a =
          { s with raw := s.raw ++ [a], generated := s.generated ++ [a] } :=
        if_neg (by simpa using hmem)
      rw [hrec] at heq hall
      refine ⟨a :: new, List.cons_subset_cons _ hnew, ?_, ?_⟩
      · refine List.forall_mem_cons.2 ⟨Or.inr List.mem_cons_self, fun c hc => ?_⟩
        rcases hall c hc with h | h
        · rcases List.mem_append.1 h with h | h
          · exact Or.inl h
          · exact Or.inr (List.mem_singleton.1 h ▸ List.mem_cons_self)
        · exact Or.inr (List.mem_cons_of_mem _ h)
      · rw [List.foldl_cons, hrec, heq]
        simp

/-- Sums that were generated before are not recorded again. -/
theorem foldl_record_eq_self {as : List AttackerTerm} (h : as ⊆ s.generated) :
    as.foldl record s = s := by
  induction as with
  | nil => rfl
  | cons a as ih =>
    obtain ⟨ha, has⟩ := List.cons_subset.1 h
    rw [List.foldl_cons, record, if_pos (List.contains_iff_mem.2 ha)]
    exact ih has

/-- An attempt that advances records sums that came of it, one of them new. -/
theorem exists_of_attempt_advanced {att : Attempt}
    (h : s.attempt att budget = .advanced next left) :
    ∃ found : List Assignment, (∀ γ ∈ found, att.Finds γ) ∧
      (∃ r ∈ found.filterMap att.result?, r ∉ s.generated) ∧
      next = (found.filterMap att.result?).foldl record s := by
  simp only [attempt] at h
  split at h
  · split at h
    · cases h
    · rename_i hlen
      cases h
      refine ⟨_, fun γ hγ => ⟨budget, hγ⟩, ?_, rfl⟩
      by_contra hknown
      push Not at hknown
      exact hlen (by rw [foldl_record_eq_self hknown])
  · cases h

theorem covered_of_attempt_nothingNew {att : Attempt}
    (h : s.attempt att budget = .nothingNew left) : att.Covered s.generated := by
  simp only [attempt] at h
  split at h
  · rename_i hex
    split at h
    · rename_i hlen
      refine ⟨budget, hex, fun γ hγ r hr => ?_⟩
      obtain ⟨new, _, hall, heq⟩ := foldl_record
        ((booleanUnifyWith att.left att.right budget).outcome.solutions.filterMap att.result?) s
      rw [heq, List.length_append, Nat.add_eq_left, List.length_eq_zero_iff] at hlen
      have hmem := hall r (List.mem_filterMap.2 ⟨γ, hγ, hr⟩)
      rwa [hlen, or_iff_left List.not_mem_nil] at hmem
    · cases h
  · cases h

/-- The attempts that a saturation may make. -/
inductive Attempts (s : Saturation) : Attempt → Prop where
  /-- Two summands of a sum cancel. -/
  | cancel {a t u} (ha : a ∈ s.raw) (h : a.CancelPair t u) : Attempts s (a.cancelling t u)
  /-- Two finished sums are added up. -/
  | combine {a b t u} (ha : a ∈ s.finished) (hb : b ∈ s.finished) (h : a.CombinePair b t u) :
    Attempts s (a.combining b t u)

/-- One step of a saturation that goes on. -/
inductive Step (s : Saturation) : Saturation → Prop where
  /-- A lone product vanishes. -/
  | vanish {a rest l r} (hraw : s.raw = a :: rest) (hterm : a.term = .mul l r) :
    Step s (s.vanish a rest)
  /-- Nothing new cancels in a sum. -/
  | finish {a rest} (hraw : s.raw = a :: rest) (hterm : ∀ l r, a.term ≠ .mul l r)
    (hdone : ∀ t u, a.CancelPair t u → (a.cancelling t u).Covered s.generated) :
    Step s (s.finish a rest)
  /-- The results of an attempt are recorded, and one of them is new. -/
  | record {att} (found : List Assignment) (h : Attempts s att) (hfound : ∀ γ ∈ found, att.Finds γ)
    (hnew : ∃ r ∈ found.filterMap att.result?, r ∉ s.generated) :
    Step s ((found.filterMap att.result?).foldl record s)

/-- Every attempt to add up two finished sums was made and led to known sums. -/
def Exhausted (s : Saturation) : Prop :=
  s.raw = [] ∧ ∀ a b, List.Sublist [a, b] s.finished → ∀ t u, a.CombinePair b t u →
    (a.combining b t u).Covered s.generated

theorem covered_of_cancelSummands {ts : List CoeffTerm} (hts : a.term = .sum ts)
    (h : s.cancelSummands a ts budget = .nothingNew left) :
    ∀ t u, a.CancelPair t u → (a.cancelling t u).Covered s.generated := by
  rintro t u ⟨ts', hts', hsub, hover⟩
  cases hts.symm.trans hts'
  obtain ⟨later, hmem, hu⟩ := Selection.exists_of_pair_sublist hsub
  obtain ⟨_, _, hlater⟩ := of_firstNew_nothingNew h _ hmem
  obtain ⟨_, _, hpair⟩ := of_firstNew_nothingNew hlater u hu
  rw [cancelPair, if_pos hover] at hpair
  exact covered_of_attempt_nothingNew hpair

theorem step_of_cancelSummands {ts : List CoeffTerm} (ha : a ∈ s.raw) (hts : a.term = .sum ts)
    (h : s.cancelSummands a ts budget = .advanced next left) : Step s next := by
  obtain ⟨⟨t, later⟩, hmem, _, hlater⟩ := exists_of_firstNew_advanced h
  obtain ⟨u, hu, _, hpair⟩ := exists_of_firstNew_advanced hlater
  unfold cancelPair at hpair
  split at hpair
  · rename_i hover
    obtain ⟨found, hfound, hnew, rfl⟩ := exists_of_attempt_advanced hpair
    have hplaces : a.CancelPair t u := ⟨ts, hts, Selection.pair_sublist_of_mem hmem hu, hover⟩
    exact .record found (.cancel ha hplaces) hfound hnew
  · cases hpair

theorem step_of_cancel {rest : List AttackerTerm} (hraw : s.raw = a :: rest)
    (h : s.cancel a rest budget = .advanced next left) : Step s next := by
  unfold cancel at h
  split at h
  · rename_i hterm
    cases h
    exact .vanish hraw hterm
  · rename_i ts hterm
    split at h
    · rename_i hnothing
      cases h
      refine .finish hraw (fun l r hmul => ?_) (covered_of_cancelSummands hterm hnothing)
      rw [hterm] at hmul
      cases hmul
    · exact step_of_cancelSummands (hraw ▸ List.mem_cons_self) hterm h
  · rename_i hmul hsum
    cases h
    refine .finish hraw hmul fun t u hpair => ?_
    obtain ⟨ts, hts, _⟩ := hpair
    exact absurd hts (hsum ts)

theorem covered_of_combineWith (h : s.combineWith a b budget = .nothingNew left) :
    ∀ t u, a.CombinePair b t u → (a.combining b t u).Covered s.generated := by
  rintro t u ⟨hdisjoint, ht, hu, hover⟩
  have hany : (a.outputs.any b.outputs.contains) = false := by
    rw [List.any_eq_false]
    exact fun i hi hib => hdisjoint hi (List.contains_iff_mem.1 hib)
  rw [combineWith, if_neg (by simp [hany])] at h
  obtain ⟨_, _, hfirst⟩ := of_firstNew_nothingNew h t ht
  obtain ⟨_, _, hpair⟩ := of_firstNew_nothingNew hfirst u hu
  rw [combinePair, if_pos hover] at hpair
  exact covered_of_attempt_nothingNew hpair

theorem step_of_combineWith (ha : a ∈ s.finished) (hb : b ∈ s.finished)
    (h : s.combineWith a b budget = .advanced next left) : Step s next := by
  unfold combineWith at h
  split at h
  · cases h
  · rename_i hany
    obtain ⟨t, ht, _, hfirst⟩ := exists_of_firstNew_advanced h
    obtain ⟨u, hu, _, hpair⟩ := exists_of_firstNew_advanced hfirst
    unfold combinePair at hpair
    split at hpair
    · rename_i hover
      obtain ⟨found, hfound, hnew, rfl⟩ := exists_of_attempt_advanced hpair
      refine .record found (.combine ha hb ⟨fun i hia hib => hany ?_, ht, hu, hover⟩) hfound hnew
      exact List.any_eq_true.2 ⟨i, hia, List.contains_iff_mem.2 hib⟩
    · cases hpair

theorem covered_of_combine {as : List AttackerTerm}
    (h : s.combine as budget = .nothingNew left) : ∀ a b, List.Sublist [a, b] as →
      ∀ t u, a.CombinePair b t u → (a.combining b t u).Covered s.generated := by
  induction as generalizing budget with
  | nil =>
    intro a b hab
    cases hab
  | cons c later ih =>
    simp only [combine] at h
    split at h
    · rename_i hfirst
      intro a b hab
      cases hab with
      | cons _ hab => exact ih h a b hab
      | cons_cons _ hab =>
        obtain ⟨_, _, hwith⟩ := of_firstNew_nothingNew hfirst b (List.singleton_sublist.1 hab)
        exact covered_of_combineWith hwith
    · rename_i hne
      exact absurd h (hne _)

theorem step_of_combine {as : List AttackerTerm} (has : as ⊆ s.finished)
    (h : s.combine as budget = .advanced next left) : Step s next := by
  induction as generalizing budget with
  | nil => cases h
  | cons c later ih =>
    obtain ⟨hc, hlater⟩ := List.cons_subset.1 has
    simp only [combine] at h
    split at h
    · exact ih hlater h
    · obtain ⟨b, hb, _, hwith⟩ := exists_of_firstNew_advanced h
      exact step_of_combineWith hc (hlater hb) hwith

theorem step_of_advance (h : s.advance budget = .advanced next left) : Step s next := by
  unfold advance at h
  split at h
  · rename_i hraw
    exact step_of_cancel hraw h
  · exact step_of_combine (List.Subset.refl _) h

/-- A saturation stops by itself only if nothing is left to be looked at. -/
theorem exhausted_of_advance (h : s.advance budget = .nothingNew left) : s.Exhausted := by
  unfold advance at h
  split at h
  · rename_i a rest hraw
    unfold cancel at h
    split at h
    · cases h
    · split at h
      · cases h
      · rename_i hne
        exact absurd h (hne _)
    · cases h
  · rename_i hraw
    exact ⟨hraw, covered_of_combine h⟩

/-- A run makes steps, and is saturated only if every attempt was made. -/
theorem run_spec (s : Saturation) (budget : Budget) :
    Relation.ReflTransGen Step s (s.run budget).saturation ∧
      ((s.run budget).isSaturated = true → (s.run budget).saturation.Exhausted) := by
  fun_induction run s budget with
  | case1 => exact ⟨.refl, fun h => by cases h⟩
  | case2 => exact ⟨.refl, fun h => by cases h⟩
  | case3 s budget left _ _ h => exact ⟨.refl, fun _ => exhausted_of_advance h⟩
  | case4 s budget left _ next _ h ih => exact ⟨.head (step_of_advance h) ih.1, ih.2⟩

/-- No step of a run can be made if none is left. -/
theorem run_of_spend?_eq_none (h : budget.spend? = none) (s : Saturation) :
    s.run budget = ⟨s, false, budget⟩ := by
  rw [run]
  split
  · rfl
  · rename_i hleft
    rw [h] at hleft
    cases hleft

/-- One step of a run, if a step can be made. -/
theorem run_of_spend? (h : budget.spend? = some left) (s : Saturation) :
    s.run budget = match s.advance left with
      | .outOfSteps budget => ⟨s, false, budget⟩
      | .nothingNew budget => ⟨s, true, budget⟩
      | .advanced next budget => next.run budget := by
  rw [run]
  split
  · rename_i hnone
    rw [h] at hnone
    cases hnone
  · rename_i left' hleft
    rw [h] at hleft
    cases hleft
    split
    all_goals
      rename_i ha
      rw [ha]

/-- A run of at most a number of steps, by recursion on that number. -/
def runUpTo : Nat → Saturation → Budget → Result
  | 0, s, budget => ⟨s, false, budget⟩
  | n + 1, s, budget =>
    match budget.spend? with
    | none => ⟨s, false, budget⟩
    | some left =>
      match s.advance left with
      | .outOfSteps budget => ⟨s, false, budget⟩
      | .nothingNew budget => ⟨s, true, budget⟩
      | .advanced next budget => runUpTo n next budget

/-- No run makes more steps than remain. -/
theorem run_eq_runUpTo {n : Nat} (h : budget.remaining ≤ n) (s : Saturation) :
    s.run budget = runUpTo n s budget := by
  induction n generalizing s budget with
  | zero =>
    obtain ⟨remaining, spent⟩ := budget
    cases Nat.le_zero.1 h
    exact run_of_spend?_eq_none rfl s
  | succ n ih =>
    cases hb : budget.spend? with
    | none => rw [run_of_spend?_eq_none hb, runUpTo, hb]
    | some left =>
      have hlt := Budget.remaining_lt_of_spend? hb
      have hle := s.advance_remaining_le left
      simp only [run_of_spend? hb, runUpTo, hb]
      cases ha : s.advance left with
      | advanced next b =>
        have hnext : b.remaining ≤ left.remaining := by simpa only [ha, Progress.budget] using hle
        exact ih (by omega) next
      | _ => rfl

/-- A property that the steps of a saturation hand on from sums to the sums made of them. -/
structure Inherited (P : AttackerTerm → Prop) : Prop where
  /-- A lone product that vanished has it. -/
  vanish : ∀ {a z l r}, P a → a.term = .mul l r → a.vanished? = some z → P z
  /-- The results of cancelling two summands have it. -/
  cancel : ∀ {a t u γ r}, P a → a.CancelPair t u → (a.cancelling t u).Finds γ →
    (a.cancelling t u).result? γ = some r → P r
  /-- The results of adding up two sums have it. -/
  combine : ∀ {a b t u γ r}, P a → P b → a.CombinePair b t u → (a.combining b t u).Finds γ →
    (a.combining b t u).result? γ = some r → P r

/-- All sums of a saturation have a property. -/
def All (P : AttackerTerm → Prop) (s : Saturation) : Prop :=
  (∀ a ∈ s.finished, P a) ∧ ∀ a ∈ s.raw, P a

theorem Step.all {P : AttackerTerm → Prop} (hP : Inherited P) (h : Step s next) (hs : s.All P) :
    next.All P := by
  obtain ⟨hfinished, hraw⟩ := hs
  cases h with
  | @vanish a rest l r hr hterm =>
    rw [hr, List.forall_mem_cons] at hraw
    rw [vanish_eq]
    cases hz : a.vanished? with
    | none => exact ⟨hfinished, hraw.2⟩
    | some z =>
      refine ⟨List.forall_mem_append.2 ⟨hfinished, ?_⟩, hraw.2⟩
      exact List.forall_mem_singleton.2 (hP.vanish hraw.1 hterm hz)
  | @finish a rest hr _ _ =>
    rw [hr, List.forall_mem_cons] at hraw
    refine ⟨List.forall_mem_append.2 ⟨hfinished, ?_⟩, hraw.2⟩
    exact List.forall_mem_singleton.2 hraw.1
  | @record att found hatt hfound _ =>
    obtain ⟨new, hnew, _, heq⟩ := foldl_record (found.filterMap att.result?) s
    rw [heq]
    refine ⟨hfinished, List.forall_mem_append.2 ⟨hraw, fun r hr => ?_⟩⟩
    obtain ⟨γ, hmem, hγ⟩ := List.mem_filterMap.1 (hnew hr)
    have hfinds := hfound γ hmem
    cases hatt with
    | cancel ha hpair => exact hP.cancel (hraw _ ha) hpair hfinds hγ
    | combine ha hb hpair => exact hP.combine (hfinished _ ha) (hfinished _ hb) hpair hfinds hγ

theorem all_of_steps {P : AttackerTerm → Prop} (hP : Inherited P)
    (h : Relation.ReflTransGen Step s next) (hs : s.All P) : next.All P := by
  induction h with
  | refl => exact hs
  | tail _ hstep ih => exact hstep.all hP ih

end Saturation

end Collision

end SymbolicXor
