import SymbolicXor.Unification.Measure

/-!
# Syntactic unification

A most general unifier of a list of equations is computed in rounds. A round deletes the equations
whose sides are equal, gives up if some equation cannot be solved, binds a variable that is a left
side, turns the variables on right sides to the left, and replaces an equation between applications
by the equations between their arguments. The rounds end when no equation is left.

A sum without variables is treated as a single symbol. A sum with variables has instances in which
its summands cancel, which is not a matter of syntax: a problem that depends on it is refused with
an error of its own.
-/

namespace SymbolicXor

/-- Errors of syntactic unification. -/
inductive UnifyError where
  /-- A variable occurs in a term to which it would have to be equal. -/
  | occursCheck (v : Variable) (term : Term)
  /-- The heads of two terms differ. -/
  | functionClash (left right : Term)
  /-- A variable does not accept the sort of the term to which it would have to be bound. -/
  | illSorted (v : Variable) (term : Term)
  /-- The terms may unify only modulo exclusive or. -/
  | outsideTheory (left right : Term)
deriving DecidableEq

/-- The message of the error. -/
def UnifyError.message : UnifyError → String
  | occursCheck v t => s!"occurs check failed: {v} occurs in {t}"
  | functionClash s t => s!"function clash: {s} and {t}"
  | illSorted v t => s!"ill-sorted binding: {v} to {t}"
  | outsideTheory s t => s!"{s} and {t} only unify modulo XOR"

namespace Unification

/-- The error for two terms of which the first is a variable that occurs in the second. -/
def occursError? : Term → Term → Option UnifyError
  | .var v, t =>
    if t.occurs v then
      if t.hasOpenSum then some (.outsideTheory (.var v) t) else some (.occursCheck v t)
    else none
  | _, _ => none

/-- The error for an equation one side of which is a variable that occurs in the other. -/
def cycleError? (e : Equation) : Option UnifyError :=
  (occursError? e.left e.right).or (occursError? e.right e.left)

/-- Whether the sides, neither a variable, are to be compared by a sum that may cancel. -/
def isOutsideTheory (e : Equation) : Bool :=
  !e.left.isVar && !e.right.isVar && (e.left.isSum || e.right.isSum) &&
    (e.left.hasOpenSum || e.right.hasOpenSum)

/-- Whether the sides, neither a variable, have different heads. Sums clash with everything. -/
def clashes : Term → Term → Bool
  | .var _, _ => false
  | _, .var _ => false
  | .const c, .const d => c != d
  | .app f _, .app g _ => f != g
  | _, _ => true

/-- The first reason for which different sides cannot be made equal: a cycle, a sum that may
cancel, or different heads, looked for in this order through all equations. -/
def obstacle? (es : List Equation) : Option UnifyError :=
  (es.findSome? cycleError?).or <|
    ((es.find? isOutsideTheory).map fun e => .outsideTheory e.left e.right).or <|
      (es.find? fun e => clashes e.left e.right).map fun e => .functionClash e.left e.right

/-- The binding that solves the equation of a variable and a term. Two variables are bound in the
direction that is well-sorted. -/
def binding (x : Variable) (t : Term) : Except UnifyError (Variable × Term) :=
  if x.accepts t then .ok (x, t)
  else
    match t.asVar? with
    | some y => if y.accepts (.var x) then .ok (y, .var x) else .error (.illSorted x t)
    | none => .error (.illSorted x t)

/-- The first equation whose left side is a variable, and all other equations. -/
def takeSolved : List Equation → Option ((Variable × Term) × List Equation)
  | [] => none
  | ⟨.var x, t⟩ :: es => some ((x, t), es)
  | e :: es => (takeSolved es).map fun (b, rest) => (b, e :: rest)

/-- Move a variable on the right side to the left. -/
def orient (e : Equation) : Equation := if !e.left.isVar && e.right.isVar then e.swap else e

/-- Replace the first equation between applications by the equations between their arguments. -/
def decompose : List Equation → List Equation
  | [] => []
  | ⟨.app _ ss, .app _ ts⟩ :: es => List.zipWith Equation.mk ss ts ++ es
  | e :: es => e :: decompose es

/-- The equations that are left, and the substitution made so far. -/
structure Problem where
  /-- The equations still to be solved. -/
  equations : List Equation
  /-- The substitution that was applied to the equations. -/
  solved : Substitution := ∅

namespace Problem

/-- Bind the variable of the first equation whose left side is one. -/
def eliminate (p : Problem) : Except UnifyError Problem :=
  match takeSolved p.equations with
  | none => .ok p
  | some ((x, t), rest) =>
    (binding x t).map fun (y, u) =>
      { equations := rest.map (Equation.map (Substitution.single y u).apply)
        solved := p.solved.compose (Substitution.single y u) }

/-- One round. -/
def step (p : Problem) : Except UnifyError Problem :=
  let equations := p.equations.filter fun e => e.left ≠ e.right
  match obstacle? equations with
  | some e => .error e
  | none =>
    (eliminate { p with equations }).map fun p =>
      { p with equations := decompose (p.equations.map orient) }

end Problem

theorem takeSolved_none {es : List Equation} (h : takeSolved es = none) :
    ∀ e ∈ es, e.left.isVar = false := by
  fun_induction takeSolved es with
  | case1 => exact fun _ he => absurd he List.not_mem_nil
  | case2 => cases h
  | case3 e es hv ih =>
    rw [Option.map_eq_none_iff] at h
    refine List.forall_mem_cons.2 ⟨?_, ih h⟩
    obtain ⟨l, r⟩ := e
    cases l with
    | var x => exact absurd rfl (hv x r)
    | _ => rfl

theorem mem_of_takeSolved {es rest : List Equation} {x : Variable} {t : Term}
    (h : takeSolved es = some ((x, t), rest)) :
    ⟨.var x, t⟩ ∈ es ∧ ∀ e ∈ rest, e ∈ es := by
  fun_induction takeSolved es generalizing rest with
  | case1 => cases h
  | case2 =>
    cases h
    exact ⟨List.mem_cons_self, fun _ => List.mem_cons_of_mem _⟩
  | case3 e es _ ih =>
    obtain ⟨⟨b, r⟩, hr, heq⟩ := Option.map_eq_some_iff.1 h
    cases heq
    obtain ⟨h₁, h₂⟩ := ih hr
    exact ⟨List.mem_cons_of_mem _ h₁, List.forall_mem_cons.2
      ⟨List.mem_cons_self, fun e he => List.mem_cons_of_mem _ (h₂ e he)⟩⟩

theorem mem_uniqueVars_orient {es : List Equation} {v : Variable} :
    v ∈ uniqueVars (es.map orient) ↔ v ∈ uniqueVars es := by
  have side (e : Equation) : v ∈ (orient e).left.vars ∨ v ∈ (orient e).right.vars ↔
      v ∈ e.left.vars ∨ v ∈ e.right.vars := by
    simp only [orient]
    split
    · exact or_comm
    · exact Iff.rfl
  simp only [mem_uniqueVars, List.mem_map]
  constructor
  · rintro ⟨_, ⟨e, he, rfl⟩, hv⟩
    exact ⟨e, he, (side e).1 hv⟩
  · rintro ⟨e, he, hv⟩
    exact ⟨_, ⟨e, he, rfl⟩, (side e).2 hv⟩

theorem mem_uniqueVars_of_decompose {es : List Equation} {v : Variable}
    (h : v ∈ uniqueVars (decompose es)) : v ∈ uniqueVars es := by
  rw [mem_uniqueVars] at h ⊢
  fun_induction decompose es with
  | case1 => exact h
  | case2 f ss g ts es =>
    obtain ⟨e, he, hv⟩ := h
    rcases List.mem_append.1 he with he | he
    · refine ⟨_, List.mem_cons_self, ?_⟩
      obtain ⟨i, hi, rfl⟩ := List.getElem_of_mem he
      rw [List.length_zipWith] at hi
      rw [List.getElem_zipWith] at hv
      rw [Term.vars_app, Term.vars_app]
      exact hv.imp
        (List.mem_flatMap_of_mem (List.getElem_mem (Nat.lt_of_lt_of_le hi (Nat.min_le_left ..))))
        (List.mem_flatMap_of_mem (List.getElem_mem (Nat.lt_of_lt_of_le hi (Nat.min_le_right ..))))
    · exact ⟨e, List.mem_cons_of_mem _ he, hv⟩
  | case3 e es _ ih =>
    obtain ⟨e', he, hv⟩ := h
    rcases List.mem_cons.1 he with rfl | he
    · exact ⟨_, List.mem_cons_self, hv⟩
    · obtain ⟨e'', he'', hv⟩ := ih ⟨e', he, hv⟩
      exact ⟨e'', List.mem_cons_of_mem _ he'', hv⟩

theorem totalWeight_zipWith_le (ss ts : List Term) :
    totalWeight (List.zipWith Equation.mk ss ts) ≤ 2 * Term.weightAll ss + Term.weightAll ts := by
  induction ss generalizing ts with
  | nil => simp
  | cons s ss ih =>
    cases ts with
    | nil => simp
    | cons t ts =>
      have := ih ts
      simp only [List.zipWith_cons_cons, totalWeight_cons, weight, Term.weightAll]
      omega

theorem weight_orient_le (e : Equation) : weight (orient e) ≤ weight e := by
  unfold orient
  split
  · rename_i h
    simp only [Bool.and_eq_true, Bool.not_eq_true'] at h
    obtain ⟨l, r⟩ := e
    cases r with
    | var y =>
      have := Term.one_lt_weight h.1
      simp only [weight, Equation.swap, Term.weight] at *
      omega
    | _ => simp [Term.isVar] at h
  · exact Nat.le_refl _

theorem totalWeight_orient_le (es : List Equation) :
    totalWeight (es.map orient) ≤ totalWeight es := by
  induction es with
  | nil => exact Nat.le_refl _
  | cons e es ih =>
    have := weight_orient_le e
    simp only [List.map_cons, totalWeight_cons]
    omega

theorem totalWeight_decompose_le (es : List Equation) :
    totalWeight (decompose es) ≤ totalWeight es := by
  fun_induction decompose es with
  | case1 => exact Nat.le_refl _
  | case2 f ss g ts es =>
    have := totalWeight_zipWith_le ss ts
    simp only [totalWeight_append, totalWeight_cons, weight, Term.weight]
    omega
  | case3 e es _ ih =>
    simp only [totalWeight_cons]
    omega

/-- Equations without an obstacle lose weight when the left sides are no variables: the first is
oriented or decomposed. -/
theorem totalWeight_round_lt {e : Equation} {es : List Equation} (hv : e.left.isVar = false)
    (hne : e.left ≠ e.right) (hc : clashes e.left e.right = false) :
    totalWeight (decompose ((e :: es).map orient)) < totalWeight (e :: es) := by
  have hes := totalWeight_orient_le es
  obtain ⟨l, r⟩ := e
  cases r with
  | var y =>
    have hle := totalWeight_decompose_le ((⟨l, .var y⟩ :: es).map orient)
    have hl := Term.one_lt_weight hv
    have ho : orient ⟨l, .var y⟩ = ⟨.var y, l⟩ := by
      rw [orient, hv]
      rfl
    simp only [List.map_cons, ho, totalWeight_cons, weight, Term.weight] at *
    omega
  | const d =>
    cases l with
    | var x => simp [Term.isVar] at hv
    | const c => simp [clashes] at hc; simp [hc] at hne
    | _ => simp [clashes] at hc
  | app g ts =>
    cases l with
    | var x => simp [Term.isVar] at hv
    | app f ss =>
      have := totalWeight_zipWith_le ss ts
      have ho : orient ⟨.app f ss, .app g ts⟩ = ⟨.app f ss, .app g ts⟩ := by
        simp [orient, Term.isVar]
      simp only [List.map_cons, ho, decompose, totalWeight_append, totalWeight_cons, weight,
        Term.weight]
      omega
    | _ => simp [clashes] at hc
  | sum ts =>
    cases l with
    | var x => simp [Term.isVar] at hv
    | _ => simp [clashes] at hc

theorem not_mem_vars_of_obstacle? {es : List Equation} (h : obstacle? es = none) {x : Variable}
    {t : Term} (he : ⟨.var x, t⟩ ∈ es) : x ∉ t.vars := by
  simp only [obstacle?, Option.or_eq_none_iff, List.findSome?_eq_none_iff] at h
  have := h.1 _ he
  simp only [cycleError?, Option.or_eq_none_iff, occursError?] at this
  intro hx
  rw [← Term.occurs_eq_true] at hx
  simp only [hx, if_true] at this
  split at this <;> simp at this

theorem clashes_of_obstacle? {es : List Equation} (h : obstacle? es = none) {e : Equation}
    (he : e ∈ es) : clashes e.left e.right = false := by
  simp only [obstacle?, Option.or_eq_none_iff, Option.map_eq_none_iff, List.find?_eq_none] at h
  simpa using h.2.2 e he

/-- Orienting and decomposing bring no new variables. -/
theorem length_uniqueVars_round_le (es : List Equation) :
    (uniqueVars (decompose (es.map orient))).length ≤ (uniqueVars es).length :=
  length_uniqueVars_le fun _ hv => mem_uniqueVars_orient.1 (mem_uniqueVars_of_decompose hv)

namespace Problem

/-- Number of variables, then weight. -/
def measure (p : Problem) : Nat × Nat := ((uniqueVars p.equations).length, totalWeight p.equations)

/-- Binding a variable removes it from the problem. -/
theorem length_uniqueVars_eliminate {x : Variable} {t : Term} {es rest : List Equation}
    (h : takeSolved es = some ((x, t), rest)) (hne : .var x ≠ t) (hx : x ∉ t.vars)
    {y : Variable} {u : Term} (hb : binding x t = .ok (y, u)) :
    (uniqueVars (rest.map (Equation.map (Substitution.single y u).apply))).length <
      (uniqueVars es).length := by
  obtain ⟨hmem, hrest⟩ := mem_of_takeSolved h
  have hxes : x ∈ uniqueVars es := mem_uniqueVars.2 ⟨_, hmem, Or.inl (by simp)⟩
  have htes : ∀ v ∈ t.vars, v ∈ uniqueVars es := fun v hv =>
    mem_uniqueVars.2 ⟨_, hmem, Or.inr hv⟩
  obtain ⟨hy, hu, hyu⟩ : y ∈ uniqueVars es ∧ (∀ v ∈ u.vars, v ∈ uniqueVars es) ∧ y ∉ u.vars := by
    unfold binding at hb
    split at hb
    · cases hb
      exact ⟨hxes, htes, hx⟩
    · cases t with
      | var z =>
        simp only [Term.asVar?] at hb
        split at hb
        · cases hb
          refine ⟨htes _ (by simp), ?_, ?_⟩
          · simpa using hxes
          · intro hy
            rw [Term.vars_var, List.mem_singleton] at hy
            exact hne (hy ▸ rfl)
        · cases hb
      | _ => cases hb
  have key (s : Term) (hs : ∀ v ∈ s.vars, v ∈ uniqueVars es) (v : Variable)
      (hv : v ∈ ((Substitution.single y u).apply s).vars) : v ∈ uniqueVars es ∧ v ≠ y := by
    rcases Substitution.mem_vars_apply_single hv with hv | ⟨hv, hvy⟩
    · exact ⟨hu v hv, fun h => hyu (h ▸ hv)⟩
    · exact ⟨hs v hv, hvy⟩
  have all (v : Variable)
      (hv : v ∈ uniqueVars (rest.map (Equation.map (Substitution.single y u).apply))) :
      v ∈ uniqueVars es ∧ v ≠ y := by
    obtain ⟨e, he, hv⟩ := mem_uniqueVars.1 hv
    obtain ⟨e, hmem, rfl⟩ := List.mem_map.1 he
    have hin := hrest e hmem
    rcases hv with hv | hv
    · exact key _ (fun w hw => mem_uniqueVars.2 ⟨e, hin, Or.inl hw⟩) v hv
    · exact key _ (fun w hw => mem_uniqueVars.2 ⟨e, hin, Or.inr hw⟩) v hv
  exact length_uniqueVars_lt (fun v hv => (all v hv).1) hy fun hv => (all y hv).2 rfl

theorem totalWeight_filter_le (p : Equation → Bool) (es : List Equation) :
    totalWeight (es.filter p) ≤ totalWeight es := by
  induction es with
  | nil => exact Nat.le_refl _
  | cons e es ih =>
    rw [List.filter_cons]
    split <;> simp only [totalWeight_cons] <;> omega

theorem mem_uniqueVars_of_filter {p : Equation → Bool} {es : List Equation} {v : Variable}
    (h : v ∈ uniqueVars (es.filter p)) : v ∈ uniqueVars es := by
  obtain ⟨e, he, hv⟩ := mem_uniqueVars.1 h
  exact mem_uniqueVars.2 ⟨e, (List.mem_filter.1 he).1, hv⟩

/-- Every round brings a problem with equations nearer to its end. -/
theorem measure_step {p q : Problem} (hp : p.equations ≠ []) (h : p.step = .ok q) :
    Prod.Lex (· < ·) (· < ·) q.measure p.measure := by
  generalize hes : p.equations.filter (fun e => e.left ≠ e.right) = es
  have hvars : ∀ v ∈ uniqueVars es, v ∈ uniqueVars p.equations :=
    fun v hv => mem_uniqueVars_of_filter (hes ▸ hv)
  have hweight : totalWeight es ≤ totalWeight p.equations := hes ▸ totalWeight_filter_le _ _
  have hne : ∀ e ∈ es, e.left ≠ e.right := fun e he => by
    rw [← hes] at he
    simpa using (List.mem_filter.1 he).2
  simp only [step, hes] at h
  split at h
  · cases h
  rename_i hob
  simp only [eliminate] at h
  split at h
  · rename_i hs
    cases h
    have hle := Nat.le_trans (length_uniqueVars_round_le es) (length_uniqueVars_le hvars)
    have hlt : totalWeight (decompose (es.map orient)) < totalWeight p.equations := by
      cases es with
      | nil =>
        cases hpe : p.equations with
        | nil => exact absurd hpe hp
        | cons e es' =>
          have := weight_pos e
          simp only [List.map_nil, decompose, totalWeight_nil, totalWeight_cons]
          omega
      | cons e es' =>
        have hmem : e ∈ e :: es' := List.mem_cons_self
        have : totalWeight (decompose ((e :: es').map orient)) < totalWeight (e :: es') :=
          totalWeight_round_lt (takeSolved_none hs e hmem) (hne e hmem)
            (clashes_of_obstacle? hob hmem)
        omega
    rcases Nat.lt_or_eq_of_le hle with hl | hl
    · exact .left _ _ hl
    · simp only [measure, hl]
      exact .right _ hlt
  · rename_i x t rest hs
    cases hb : binding x t with
    | error e => rw [hb] at h; cases h
    | ok b =>
      obtain ⟨y, u⟩ := b
      rw [hb] at h
      cases h
      have hmem := (mem_of_takeSolved hs).1
      have hlt :=
        length_uniqueVars_eliminate hs (hne _ hmem) (not_mem_vars_of_obstacle? hob hmem) hb
      exact .left _ _ (Nat.lt_of_le_of_lt (length_uniqueVars_round_le _)
        (Nat.lt_of_lt_of_le hlt (length_uniqueVars_le hvars)))

/-- Solve a problem round by round. -/
def solve (p : Problem) : Except UnifyError Substitution :=
  if _ : p.equations = [] then .ok p.solved
  else
    match _ : p.step with
    | .error e => .error e
    | .ok q => q.solve
termination_by p.measure
decreasing_by exact measure_step ‹_› ‹_›

end Problem

/-- A most general unifier of the equations. -/
def unify (es : List Equation) : Except UnifyError Substitution :=
  Problem.solve { equations := es }

/-- A most general unifier of two terms. -/
def unifyTerms (s t : Term) : Except UnifyError Substitution := unify [⟨s, t⟩]

end Unification

end SymbolicXor
