import SymbolicXor.Coefficient.Unify
import SymbolicXor.Proofs.AssignedTerms

/-!
# The rules of boolean unification

Both rules replace a goal by others under further values, or leave it and record why. Under these
values the new goals are zero only if the goal is zero; and under a total valuation that makes the
goal zero, either the values hold and the new goals are zero, or what is recorded is true. A goal
for which everything is recorded is not zero, since its first summand has no partner. All this is
about terms whose coefficients stand in front of constants and applications.
-/

namespace SymbolicXor

open CoeffTerm

namespace CoeffTerm

variable {α : Name → Option Bool} {p : CoeffTerm → Prop} {s t u : CoeffTerm} {ts : List CoeffTerm}

/-- A term has no coefficient, or its coefficient is one. -/
def Present (α : Name → Option Bool) (t : CoeffTerm) : Prop :=
  ∀ b, t.coefficient? = some b → α b = some true

/-- With coefficient one, a term has the value of the factor that is multiplied. -/
theorem value_realTerm (h : Scaled p t) (ht : Present α t) : value α t.realTerm = value α t := by
  cases h with
  | mul _ _ => rw [value_mul, ht _ rfl, realTerm, weigh]
  | _ => rfl

theorem Scaled.realTerm (h : Scaled p t) : Scaled p t.realTerm := by
  cases h with
  | zero => exact .zero
  | const hc => exact .const hc
  | var v => exact .var v
  | app h => exact .app h
  | sum h => exact .sum h
  | mul _ h => exact h

/-- An atom whose coefficient is one is not zero, nor a sum. -/
theorem atomic_value (h : Scaled IsRigid t) (ha : t.IsAtom) (ht : Present α t) :
    (value α t).Atomic := by
  have hrigid {u : CoeffTerm} (hu : Scaled IsRigid u) (hr : u.IsRigid) : (value α u).Atomic := by
    cases hu with
    | const hc => exact ⟨by simpa using hc, by simp [Term.isSum]⟩
    | app _ => exact ⟨by simp [Term.zero], by simp [Term.isSum]⟩
    | _ => exact hr.elim
  cases h with
  | const hc => exact hrigid (.const hc) trivial
  | var v => exact ⟨by simp [Term.zero], by simp [Term.isSum]⟩
  | app h => exact hrigid (.app h) trivial
  | mul hp h =>
    rw [← value_realTerm (Scaled.mul hp h) ht]
    exact hrigid h hp
  | _ => exact ha.elim

/-- An atom is a variable, or a constant or an application with or without a coefficient. -/
theorem realTerm_cases (h : Scaled IsRigid t) (ha : t.IsAtom) :
    (∃ v, t = var v) ∨ (∃ c, t.realTerm = const c) ∨ ∃ f ts, t.realTerm = app f ts := by
  cases h with
  | const _ => exact Or.inr (Or.inl ⟨_, rfl⟩)
  | var v => exact Or.inl ⟨v, rfl⟩
  | app _ => exact Or.inr (Or.inr ⟨_, _, rfl⟩)
  | @mul b t hp h =>
    cases t with
    | const c => exact Or.inr (Or.inl ⟨c, rfl⟩)
    | app f ts => exact Or.inr (Or.inr ⟨f, ts, rfl⟩)
    | _ => exact hp.elim
  | _ => exact ha.elim

/-- Different atoms have one head if the terms that their coefficients stand in front of have one
value. -/
theorem sameHead_of_value_eq (hs : Scaled IsRigid s) (ht : Scaled IsRigid t) (has : s.IsAtom)
    (hat : t.IsAtom) (hst : s ≠ t) (h : value α s.realTerm = value α t.realTerm) :
    BooleanUnification.sameHead s.realTerm t.realTerm = true := by
  rcases realTerm_cases hs has with ⟨v, rfl⟩ | ⟨c, hc⟩ | ⟨f, ss, hf⟩ <;>
    rcases realTerm_cases ht hat with ⟨w, rfl⟩ | ⟨d, hd⟩ | ⟨g, ts, hg⟩
  case inl.inl =>
    simp only [CoeffTerm.realTerm, value_var, Term.var.injEq] at h
    exact absurd (congrArg var h) hst
  case inr.inl.inr.inl =>
    rw [hc, hd, value_const, value_const, Term.const.injEq] at h
    simp [hc, hd, BooleanUnification.sameHead, h]
  case inr.inr.inr.inr =>
    rw [hf, hg, value_app, value_app, Term.app.injEq] at h
    have hlen := congrArg List.length h.2
    rw [List.length_map, List.length_map] at hlen
    simp [hf, hg, BooleanUnification.sameHead, h.1, hlen]
  all_goals simp_all [CoeffTerm.realTerm]

/-- A sum has the value of one summand plus the others. -/
theorem vec_value_erase (ht : t ∈ ts) : (value α (sum ts)).vec =
    (value α t).vec + (value α (sum (ts.erase t))).vec := by
  have hreads := reads_value α
  rw [hreads.vec_eq_sum, hreads.vec_eq_sum (sum (ts.erase t)), summands, summands,
    ((List.perm_cons_erase ht).map _).sum_eq, List.map_cons, List.sum_cons]

theorem value_sum_erase (ht : t ∈ ts) (hz : value α t = .zero) :
    value α (sum (ts.erase t)) = value α (sum ts) := by
  rw [← Term.vec_inj (canonical_value _) (canonical_value _), vec_value_erase ht, hz, Term.vec_zero,
    zero_add]

theorem vec_value_cons : (value α (sum (s :: ts))).vec =
    (value α s).vec + (value α (sum ts)).vec := by
  have hreads := reads_value α
  rw [hreads.vec_eq_sum, hreads.vec_eq_sum (sum ts), summands, summands, List.map_cons,
    List.sum_cons]

/-- Two summands of one value cancel. -/
theorem value_sum_cons_erase (ht : t ∈ ts) (hst : value α s = value α t) :
    value α (sum (s :: ts)) = value α (sum (ts.erase t)) := by
  rw [← Term.vec_inj (canonical_value _) (canonical_value _), vec_value_cons, vec_value_erase ht,
    hst, ← add_assoc, Term.add_self_eq_zero, zero_add]

/-- A sum of two terms is zero exactly if they have one value. -/
theorem value_pair_eq_zero (s t : CoeffTerm) :
    value α (sum [s, t]) = .zero ↔ value α s = value α t := by
  rw [value_sum, List.map_cons, List.map_singleton,
    Term.xor_pair_eq_zero (canonical_value s) (canonical_value t)]

end CoeffTerm

namespace BooleanUnification

variable {α : Name → Option Bool} {goals rest instead : List Goal} {g left : Goal}
  {new old : Assignment}

/-- The terms that must become zero are zero under a valuation. -/
def Zeroed (α : Name → Option Bool) (goals : List Goal) : Prop :=
  ∀ g ∈ goals, value α g.term = .zero

/-- Coefficients stand only in front of rigid terms. -/
def RigidGoals (goals : List Goal) : Prop := ∀ g ∈ goals, Scaled (OrZero IsRigid) g.term

/-- The records of a goal are true under a valuation: the summands that are kept are there, and the
pairs that are different are not there with one value. -/
structure Goal.Remembers (α : Name → Option Bool) (g : Goal) : Prop where
  /-- The kept summands are there. -/
  kept : ∀ t ∈ g.kept, Present α t
  /-- The pairs are different. -/
  distinct : ∀ l r, (l, r) ∈ g.distinct →
    ¬ (Present α l ∧ Present α r ∧ value α l.realTerm = value α r.realTerm)

theorem mem_simplifyGoals : g ∈ simplifyGoals goals ↔
    g.term ≠ .zero ∧ ∃ h ∈ goals, { h with term := h.term.simplify } = g := by
  rw [simplifyGoals, List.mem_filter, List.mem_map, decide_eq_true_iff, and_comm]

theorem simplified_of_mem (hs : RigidGoals goals) (hg : g ∈ simplifyGoals goals) :
    Scaled IsRigid g.term ∧ g.term.Flat ∧ g.term ≠ .zero := by
  obtain ⟨hne, h, hmem, rfl⟩ := mem_simplifyGoals.1 hg
  have hshape := scaled_reduce (γ := ∅) lasting_isRigid (hs h hmem)
  rw [Assignment.reduce_empty] at hshape
  exact ⟨hshape.1, hshape.2, hne⟩

theorem zeroed_simplifyGoals (hs : RigidGoals goals) :
    Zeroed α (simplifyGoals goals) ↔ Zeroed α goals := by
  have hvalue (h : Goal) (hh : h ∈ goals) : value α h.term.simplify = value α h.term :=
    value_simplify lasting_isRigid (hs h hh)
  constructor
  · intro hz h hh
    rw [← hvalue h hh]
    by_cases hne : h.term.simplify = .zero
    · rw [hne, value_zero]
    · exact hz _ (mem_simplifyGoals.2 ⟨hne, h, hh, rfl⟩)
  · intro hz g hg
    obtain ⟨_, h, hh, rfl⟩ := mem_simplifyGoals.1 hg
    exact (hvalue h hh).trans (hz h hh)

theorem remembers_simplifyGoals (h : ∀ g ∈ goals, g.Remembers α) :
    ∀ g ∈ simplifyGoals goals, g.Remembers α := by
  intro g hg
  obtain ⟨_, h', hh, rfl⟩ := mem_simplifyGoals.1 hg
  exact ⟨(h h' hh).kept, (h h' hh).distinct⟩

/-- The goals under further values are the goals with their coefficients assigned, simplified. -/
theorem assign_eq_some {st : State} (h : assign goals old new = some st) :
    old.compose new = some st.assignment ∧
      st.goals = simplifyGoals (goals.map fun g => { g with term := new.apply g.term }) := by
  obtain ⟨ε, hε, rfl⟩ := Option.map_eq_some_iff.1 h
  exact ⟨hε, rfl⟩

/-- Assigning further values keeps the goals rigid, and zero where they were zero. -/
theorem assign_spec {st : State} (h : assign goals old new = some st) (hs : RigidGoals goals) :
    RigidGoals st.goals ∧ (new.Within α → (Zeroed α st.goals ↔ Zeroed α goals)) ∧
      ((∀ g ∈ goals, g.Remembers α) → ∀ g ∈ st.goals, g.Remembers α) := by
  obtain ⟨_, hgoals⟩ := assign_eq_some h
  have hmem (g : Goal) : g ∈ st.goals ↔
      g.term ≠ .zero ∧ ∃ h ∈ goals, { h with term := new.reduce h.term } = g := by
    rw [hgoals, mem_simplifyGoals]
    simp only [List.mem_map, exists_exists_and_eq_and]
    rfl
  refine ⟨fun g hg => ?_, fun hnew => ⟨fun hz g hg => ?_, fun hz g hg => ?_⟩, fun hr g hg => ?_⟩
  · obtain ⟨_, h', hh, rfl⟩ := (hmem g).1 hg
    exact (scaled_reduce lasting_isRigid (hs h' hh)).1.orZero
  · rw [← value_reduce lasting_isRigid hnew (hs g hg)]
    by_cases hne : new.reduce g.term = .zero
    · rw [hne, value_zero]
    · exact hz _ ((hmem _).2 ⟨hne, g, hg, rfl⟩)
  · obtain ⟨_, h', hh, rfl⟩ := (hmem g).1 hg
    exact (value_reduce lasting_isRigid hnew (hs h' hh)).trans (hz h' hh)
  · obtain ⟨_, h', hh, rfl⟩ := (hmem g).1 hg
    exact ⟨(hr h' hh).kept, (hr h' hh).distinct⟩

/-- Values that agree with those given before can be given. -/
theorem exists_assign (hold : old.Within α) (hnew : new.Within α) (goals : List Goal) :
    ∃ st, assign goals old new = some st ∧ st.assignment.Within α := by
  obtain ⟨ε, hε⟩ := Assignment.exists_compose hold hnew
  exact ⟨_, congrArg _ hε, (Assignment.within_compose hε).2 ⟨hold, hnew⟩⟩

/-- A rule replaces a goal by others under further values, or leaves it and records why. -/
inductive Rule (g : Goal) : Assignment → List Goal → Goal → Prop where
  /-- A summand with a coefficient disappears, or it is kept. -/
  | disappear {b t rest} (h : g.vanishing? = some (b, t, rest)) :
    Rule g (.singleton b false) rest { g with kept := g.kept ++ [t] }
  /-- The first summand and another one cancel, or they are different. -/
  | duplicate {s t ts} (hterm : g.term = .sum (s :: ts)) (ht : t ∈ ts)
    (hhead : sameHead s.realTerm t.realTerm = true) (hopen : g.isRefused s t = false) :
    Rule g (present s t)
      ({ g with term := .sum (ts.erase t) } :: argumentGoals s.realTerm t.realTerm)
      { g with distinct := g.distinct ++ [(s, t)] }

/-- Neither rule applies to a goal. -/
def Stuck (g : Goal) : Prop :=
  g.vanishing? = none ∧ ∀ s ts, g.term = .sum (s :: ts) → ∀ t ∈ ts,
    sameHead s.realTerm t.realTerm = true → g.isRefused s t = true

/-- The duplicate rule applies to the first summand and another one, or everything is refused. -/
theorem duplicate?_cases (g : Goal) (goals : List Goal) (old : Assignment) :
    (∃ s t ts, g.term = .sum (s :: ts) ∧ t ∈ ts ∧ sameHead s.realTerm t.realTerm = true ∧
      g.isRefused s t = false ∧ duplicate? g goals old = some
        ((assign (goals ++ { g with term := .sum (ts.erase t) } ::
            argumentGoals s.realTerm t.realTerm) old (present s t)).toList ++
          [{ goals := goals ++ [{ g with distinct := g.distinct ++ [(s, t)] }],
             assignment := old }])) ∨
    duplicate? g goals old = none ∧ ∀ s ts, g.term = .sum (s :: ts) → ∀ t ∈ ts,
      sameHead s.realTerm t.realTerm = true → g.isRefused s t = true := by
  unfold duplicate?
  split
  · rename_i s ts hterm
    cases hf : ts.find? fun t => sameHead s.realTerm t.realTerm && !g.isRefused s t with
    | some t =>
      have hhead := List.find?_some hf
      rw [Bool.and_eq_true, Bool.not_eq_true'] at hhead
      exact Or.inl ⟨s, t, ts, hterm, List.mem_of_find?_eq_some hf, hhead.1, hhead.2, rfl⟩
    | none =>
      refine Or.inr ⟨rfl, fun s' ts' hterm' t ht hhead => ?_⟩
      cases hterm.symm.trans hterm'
      have hnot := List.find?_eq_none.1 hf t ht
      simpa [hhead] using hnot
  · rename_i hsum
    exact Or.inr ⟨rfl, fun s ts hterm => absurd hterm (hsum s ts)⟩

/-- A state branches by a rule at its first goal, or this goal is stuck. -/
theorem expand_branches {s : State} {states : List State} (h : s.expand = .branches states) :
    ∃ g goals, simplifyGoals s.goals = g :: goals ∧ (states = [] ∧ Stuck g ∨
      ∃ new instead left, Rule g new instead left ∧
        states = (assign (goals ++ instead) s.assignment new).toList ++
          [{ goals := goals ++ [left], assignment := s.assignment }]) := by
  unfold State.expand at h
  split at h
  · cases h
  · rename_i g goals hgoals
    refine ⟨g, goals, hgoals, ?_⟩
    injection h with h
    subst h
    cases hv : g.vanishing? with
    | some found =>
      obtain ⟨b, t, rest⟩ := found
      refine Or.inr ⟨_, _, _, .disappear hv, ?_⟩
      simp only [disappear?, hv, Option.map_some, Option.some_or, Option.getD_some]
    | none =>
      simp only [disappear?, hv, Option.map_none, Option.none_or]
      rcases duplicate?_cases g goals s.assignment with
        ⟨l, r, ts, hterm, hr, hhead, hopen, hdup⟩ | ⟨hdup, hrefused⟩
      · refine Or.inr ⟨_, _, _, .duplicate hterm hr hhead hopen, ?_⟩
        rw [hdup, Option.getD_some]
      · exact Or.inl ⟨by rw [hdup, Option.getD_none], hv, hrefused⟩

/-- A summand that disappears has a coefficient and is not kept. It is the whole goal, a product, or
a summand of it, and then the other summands are left. -/
theorem vanishing?_cases {b : Name} {t : CoeffTerm} (h : g.vanishing? = some (b, t, rest)) :
    t.coefficient? = some b ∧ t ∉ g.kept ∧
      ((∃ l r, g.term = .mul l r ∧ t = .mul l r ∧ rest = []) ∨
        ∃ ts, g.term = .sum ts ∧ t ∈ ts ∧ rest = [{ g with term := .sum (ts.erase t) }]) := by
  unfold Goal.vanishing? at h
  split at h
  · rename_i l r hterm
    split at h
    · cases h
    · rename_i hkept
      obtain ⟨c, hc, heq⟩ := Option.map_eq_some_iff.1 h
      cases heq
      exact ⟨hc, by simpa using hkept, Or.inl ⟨l, r, hterm, rfl, rfl⟩⟩
  · rename_i ts hterm
    split at h
    · cases h
    · rename_i u hu
      obtain ⟨c, hc, heq⟩ := Option.map_eq_some_iff.1 h
      cases heq
      have hfound := List.find?_some hu
      exact ⟨hc, by simpa [hc] using hfound,
        Or.inr ⟨ts, hterm, List.mem_of_find?_eq_some hu, rfl⟩⟩
  · cases h

/-- The rest of a goal after a summand disappeared is zero where the goal is. -/
theorem vanishing?_spec (hg : Scaled IsRigid g.term) {b : Name} {t : CoeffTerm}
    (h : g.vanishing? = some (b, t, rest)) : t.coefficient? = some b ∧ RigidGoals rest ∧
      (α b = some false → (Zeroed α rest ↔ value α g.term = .zero)) ∧
      (g.Remembers α → ∀ r ∈ rest, r.Remembers α) := by
  obtain ⟨hc, _, ⟨l, r, hterm, rfl, rfl⟩ | ⟨ts, hterm, hmem, rfl⟩⟩ := vanishing?_cases h
  · rw [hterm] at hg
    refine ⟨hc, fun r hr => absurd hr List.not_mem_nil, fun hb => ?_,
      fun _ r hr => absurd hr List.not_mem_nil⟩
    cases hg with
    | mul _ _ =>
      cases hc
      rw [hterm, value_mul, hb]
      exact iff_of_true (fun r hr => absurd hr List.not_mem_nil) rfl
  · rw [hterm] at hg
    refine ⟨hc, ?_, fun hb => ?_, fun hr r hmem' => ?_⟩
    · refine fun r hr => List.mem_singleton.1 hr ▸ ?_
      exact (Scaled.sum fun w hw => hg.summands w (List.mem_of_mem_erase hw)).orZero
    · have hzero : value α t = .zero := by
        cases hg.summands t hmem with
        | mul _ _ =>
          cases hc
          rw [value_mul, hb]
          rfl
        | _ => cases hc
      simp only [Zeroed, List.forall_mem_singleton]
      rw [value_sum_erase hmem hzero, hterm]
    · rw [List.mem_singleton.1 hmem']
      exact ⟨hr.kept, hr.distinct⟩

theorem get?_present (s t : CoeffTerm) (b : Name) : (present s t).get? b =
    if b ∈ s.coefficient?.toList ++ t.coefficient?.toList then some true else none := by
  have hfold (bs : List Name) (m : FinMap Name Bool) :
      ((bs.map (·, true)).foldl (fun m e => m.insert e.1 e.2) m).get? b =
        if b ∈ bs then some true else m.get? b := by
    induction bs generalizing m with
    | nil => rfl
    | cons c bs ih =>
      rw [List.map_cons, List.foldl_cons, ih, FinMap.get?_insert]
      by_cases hb : b ∈ bs <;> by_cases hc : b = c <;> simp [hb, hc]
  exact hfold _ ∅

/-- The coefficients of two terms are one exactly if both terms are there. -/
theorem within_present {s t : CoeffTerm} :
    (present s t).Within α ↔ Present α s ∧ Present α t := by
  simp only [Assignment.Within, get?_present, Present]
  constructor
  · intro h
    refine ⟨fun b hb => h b true (if_pos ?_), fun b hb => h b true (if_pos ?_)⟩ <;> simp [hb]
  · rintro ⟨hs, ht⟩ b x hx
    split at hx
    · rename_i hb
      cases hx
      rcases List.mem_append.1 hb with hb | hb
      · exact hs b (Option.mem_toList.1 hb)
      · exact ht b (Option.mem_toList.1 hb)
    · cases hx

/-- The goal that two terms are equal. -/
theorem pair_spec {s t : CoeffTerm} (hs : Scaled IsRigid s) (ht : Scaled IsRigid t) :
    Scaled IsRigid (CoeffTerm.sum [s, t]).simplify ∧
      (value α (CoeffTerm.sum [s, t]).simplify = .zero ↔ value α s = value α t) := by
  have hsum : Scaled IsRigid (CoeffTerm.sum [s, t]) :=
    .sum (List.forall_mem_cons.2 ⟨hs, List.forall_mem_singleton.2 ht⟩)
  rw [value_simplify lasting_isRigid hsum.orZero, ← Assignment.reduce_empty]
  exact ⟨(scaled_reduce lasting_isRigid hsum.orZero).1, value_pair_eq_zero s t⟩

theorem zipWith_spec {ss ts : List CoeffTerm} (hlen : ss.length = ts.length)
    (hs : ∀ s ∈ ss, Scaled IsRigid s) (ht : ∀ t ∈ ts, Scaled IsRigid t) :
    let goals : List Goal :=
      List.zipWith (fun s t => { term := (CoeffTerm.sum [s, t]).simplify }) ss ts
    RigidGoals goals ∧ (Zeroed α goals ↔ ss.map (value α) = ts.map (value α)) := by
  induction ss generalizing ts with
  | nil =>
    cases ts with
    | nil => exact ⟨fun g hg => absurd hg List.not_mem_nil, by simp [Zeroed]⟩
    | cons t ts => cases hlen
  | cons s ss ih =>
    cases ts with
    | nil => cases hlen
    | cons t ts =>
      obtain ⟨hs, hss⟩ := List.forall_mem_cons.1 hs
      obtain ⟨ht, hts⟩ := List.forall_mem_cons.1 ht
      obtain ⟨hrigid, hzero⟩ := ih (Nat.succ.inj hlen) hss hts
      obtain ⟨hpair, hequal⟩ := pair_spec (α := α) hs ht
      refine ⟨List.forall_mem_cons.2 ⟨hpair.orZero, hrigid⟩, ?_⟩
      rw [List.map_cons, List.map_cons, List.cons.injEq, ← hequal, ← hzero, List.zipWith_cons_cons,
        Zeroed, List.forall_mem_cons]
      rfl

/-- Terms of one head are equal exactly if their arguments are. -/
theorem argumentGoals_spec {s t : CoeffTerm} (hs : Scaled IsRigid s) (ht : Scaled IsRigid t)
    (h : sameHead s t = true) :
    RigidGoals (argumentGoals s t) ∧ (Zeroed α (argumentGoals s t) ↔ value α s = value α t) := by
  unfold sameHead at h
  split at h
  · obtain rfl := beq_iff_eq.1 h
    exact ⟨fun g hg => absurd hg List.not_mem_nil, by simp [Zeroed, argumentGoals]⟩
  · rw [Bool.and_eq_true, beq_iff_eq, beq_iff_eq] at h
    obtain ⟨rfl, hlen⟩ := h
    cases hs with
    | app hs =>
      cases ht with
      | app ht =>
        rw [value_app, value_app, Term.app.injEq, and_iff_right rfl]
        exact zipWith_spec hlen hs ht
  · cases h

theorem argumentGoals_remembers (s t : CoeffTerm) :
    ∀ g ∈ argumentGoals s t, g.Remembers α := by
  intro g hg
  unfold argumentGoals at hg
  split at hg
  · rw [List.mem_iff_getElem] at hg
    obtain ⟨i, hi, rfl⟩ := hg
    rw [List.getElem_zipWith]
    exact ⟨fun _ h => absurd h List.not_mem_nil, fun _ _ h => absurd h List.not_mem_nil⟩
  · cases hg

namespace Rule

theorem left_term (h : Rule g new instead left) : left.term = g.term := by
  cases h <;> rfl

theorem rigid (hg : Scaled IsRigid g.term) (h : Rule g new instead left) : RigidGoals instead := by
  cases h with
  | disappear h => exact (vanishing?_spec (α := fun _ => none) hg h).2.1
  | @duplicate s t ts hterm ht hhead =>
    rw [hterm] at hg
    obtain ⟨hs, hts⟩ := List.forall_mem_cons.1 hg.summands
    have hrest : Scaled IsRigid (CoeffTerm.sum (ts.erase t)) :=
      .sum fun u hu => hts u (List.mem_of_mem_erase hu)
    exact List.forall_mem_cons.2 ⟨hrest.orZero,
      (argumentGoals_spec (α := fun _ => none) hs.realTerm (hts t ht).realTerm hhead).1⟩

/-- A goal is zero where the goals are that replace it. -/
theorem sound (hg : Scaled IsRigid g.term) (h : Rule g new instead left) (hnew : new.Within α)
    (hz : Zeroed α instead) : value α g.term = .zero := by
  cases h with
  | disappear h => exact ((vanishing?_spec hg h).2.2.1 (Assignment.within_singleton.1 hnew)).1 hz
  | @duplicate s t ts hterm ht hhead =>
    rw [hterm] at hg
    obtain ⟨hs, hts⟩ := List.forall_mem_cons.1 hg.summands
    obtain ⟨hps, hpt⟩ := within_present.1 hnew
    obtain ⟨hrest, hargs⟩ := List.forall_mem_cons.1 hz
    have hequal := (argumentGoals_spec hs.realTerm (hts t ht).realTerm hhead).2.1 hargs
    rw [value_realTerm hs hps, value_realTerm (hts t ht) hpt] at hequal
    rw [hterm, value_sum_cons_erase ht hequal]
    exact hrest

/-- Under a total valuation that makes a goal zero, the goals that replace it are zero, or the new
record is true. -/
theorem complete (hg : Scaled IsRigid g.term) (h : Rule g new instead left) {β : Name → Bool}
    (hr : g.Remembers (some ∘ β)) (hz : value (some ∘ β) g.term = .zero) :
    (new.Within (some ∘ β) ∧ Zeroed (some ∘ β) instead ∧
      ∀ r ∈ instead, r.Remembers (some ∘ β)) ∨ left.Remembers (some ∘ β) := by
  cases h with
  | @disappear b t rest h =>
    obtain ⟨hb, _, hiff, hrest⟩ := vanishing?_spec (α := some ∘ β) hg h
    cases hbool : β b with
    | false =>
      have hfalse : (some ∘ β) b = some false := congrArg some hbool
      exact Or.inl ⟨Assignment.within_singleton.2 hfalse, (hiff hfalse).2 hz, hrest hr⟩
    | true =>
      refine Or.inr ⟨List.forall_mem_append.2 ⟨hr.kept, ?_⟩, hr.distinct⟩
      refine List.forall_mem_singleton.2 fun c hc => ?_
      cases hb.symm.trans hc
      exact congrArg some hbool
  | @duplicate s t ts hterm ht hhead =>
    rw [hterm] at hg
    obtain ⟨hs, hts⟩ := List.forall_mem_cons.1 hg.summands
    by_cases hequal : Present (some ∘ β) s ∧ Present (some ∘ β) t ∧
        value (some ∘ β) s.realTerm = value (some ∘ β) t.realTerm
    · obtain ⟨hps, hpt, hreal⟩ := hequal
      have hargs := (argumentGoals_spec hs.realTerm (hts t ht).realTerm hhead).2.2 hreal
      rw [value_realTerm hs hps, value_realTerm (hts t ht) hpt] at hreal
      rw [hterm, value_sum_cons_erase ht hreal] at hz
      exact Or.inl ⟨within_present.2 ⟨hps, hpt⟩, List.forall_mem_cons.2 ⟨hz, hargs⟩,
        List.forall_mem_cons.2 ⟨⟨hr.kept, hr.distinct⟩, argumentGoals_remembers _ _⟩⟩
    · refine Or.inr ⟨hr.kept, fun l r hlr => ?_⟩
      rcases List.mem_append.1 hlr with hlr | hlr
      · exact hr.distinct l r hlr
      · cases List.mem_singleton.1 hlr
        exact hequal

end Rule

/-- The summands of a goal that cannot disappear are there. -/
theorem present_of_vanishing? (hr : g.Remembers α)
    (h : g.vanishing? = none) : ∀ t ∈ g.term.summands, Present α t := by
  intro t ht b hb
  refine hr.kept t ?_ b hb
  unfold Goal.vanishing? at h
  split at h
  · rename_i l r hterm
    rw [hterm] at ht
    cases List.mem_singleton.1 ht
    split at h
    · rename_i hkept
      exact List.contains_iff_mem.1 hkept
    · rw [Option.map_eq_none_iff, hb] at h
      cases h
  · rename_i ts hterm
    rw [hterm] at ht
    split at h
    · rename_i hnone
      have hnot := List.find?_eq_none.1 hnone t ht
      simpa [hb] using hnot
    · rename_i u hu
      have hsome := List.find?_some hu
      rw [Option.map_eq_none_iff.1 h] at hsome
      cases hsome
  · rename_i hmul hsum
    cases hterm : g.term with
    | mul l r => exact absurd hterm (hmul l r)
    | sum ts => exact absurd hterm (hsum ts)
    | _ =>
      rw [hterm] at ht
      cases List.mem_singleton.1 ht
      cases hb

/-- The first summand of a stuck goal has no partner, so the goal is not zero. -/
theorem value_ne_zero_of_stuck (hg : Scaled IsRigid g.term) (hflat : g.term.Flat)
    (hne : g.term ≠ .zero) (hr : g.Remembers α) (hstuck : Stuck g) : value α g.term ≠ .zero := by
  have hatoms := hflat.atoms.resolve_left hne
  have hpresent := present_of_vanishing? hr hstuck.1
  have hatomic (t : CoeffTerm) (ht : t ∈ g.term.summands) : (value α t).Atomic :=
    atomic_value (hg.summands t ht) (hatoms t ht) (hpresent t ht)
  intro hz
  cases hsum : g.term.summands with
  | nil => exact hflat.summands_ne_nil hsum
  | cons s ts =>
    rw [hsum] at hatoms hpresent hatomic
    have hnodup : (s :: ts).Nodup := hsum ▸ hflat.nodup
    have hvec : ((s :: ts).map fun t => (value α t).vec).sum = 0 := by
      rw [← hsum, ← (reads_value α).vec_eq_sum, hz, Term.vec_zero]
    obtain ⟨t, ht, hts, hvalue⟩ := Term.exists_partner hnodup
      (fun t ht => Or.inr (hatomic t ht)) hvec List.mem_cons_self (hatomic s List.mem_cons_self)
    have hscaled : ∀ u ∈ s :: ts, Scaled IsRigid u := hsum ▸ hg.summands
    have hreal := (value_realTerm (hscaled t ht) (hpresent t ht)).trans (hvalue.trans
      (value_realTerm (hscaled s List.mem_cons_self) (hpresent s List.mem_cons_self)).symm)
    have htail : t ∈ ts := (List.mem_cons.1 ht).resolve_left hts
    have hterm : g.term = .sum (s :: ts) := by
      obtain ⟨us, hus⟩ := exists_eq_sum (hsum ▸ ht) (hsum ▸ List.mem_cons_self) hts
      rw [hus] at hsum ⊢
      exact congrArg _ hsum
    have hhead := sameHead_of_value_eq (hscaled s List.mem_cons_self) (hscaled t ht)
      (hatoms s List.mem_cons_self) (hatoms t ht) hts.symm hreal.symm
    have hrefused := hstuck.2 s ts hterm t htail hhead
    obtain ⟨⟨l, r⟩, hmem, hlr⟩ := List.any_eq_true.1 hrefused
    simp only [Bool.or_eq_true, Bool.and_eq_true, beq_iff_eq] at hlr
    rcases hlr with ⟨rfl, rfl⟩ | ⟨rfl, rfl⟩
    · exact hr.distinct l r hmem ⟨hpresent l List.mem_cons_self, hpresent r ht, hreal.symm⟩
    · exact hr.distinct l r hmem ⟨hpresent l ht, hpresent r List.mem_cons_self, hreal⟩

end BooleanUnification

end SymbolicXor
