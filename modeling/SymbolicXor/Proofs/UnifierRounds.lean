import Mathlib.Logic.Relation
import SymbolicXor.Proofs.SubstitutionAlgebra
import SymbolicXor.Unification.Syntactic

/-!
# The rounds of syntactic unification

One round changes the equations and the bindings of a problem, and brings in no variables. A round
never loses a solution. It may gain some: the equation that it replaces by those between arguments
is the first between applications, whatever their symbols are, so that two different symbols that
met only by the binding of the same round are not told apart.
-/

namespace SymbolicXor

open Term Substitution

namespace Unification

section Solutions

variable {θ δ : Substitution} {es : List Equation}

theorem solves_cons {e : Equation} :
    θ.Solves (e :: es) ↔ θ.apply e.left = θ.apply e.right ∧ θ.Solves es :=
  List.forall_mem_cons

theorem solves_append {fs : List Equation} :
    θ.Solves (es ++ fs) ↔ θ.Solves es ∧ θ.Solves fs :=
  List.forall_mem_append

/-- Deleting equations between equal sides changes no solution. -/
theorem solves_filter_ne : θ.Solves (es.filter fun e => e.left ≠ e.right) ↔ θ.Solves es := by
  refine ⟨fun h e he => ?_, fun h e he => h e (List.mem_filter.1 he).1⟩
  by_cases heq : e.left = e.right
  · rw [heq]
  · exact h e (List.mem_filter.2 ⟨he, by simpa using heq⟩)

theorem solves_map_orient : θ.Solves (es.map orient) ↔ θ.Solves es := by
  have side (e : Equation) : θ.apply (orient e).left = θ.apply (orient e).right ↔
      θ.apply e.left = θ.apply e.right := by
    unfold orient
    split
    · exact eq_comm
    · exact Iff.rfl
  simp only [Solves, List.forall_mem_map, side]

/-- A substitution that absorbs a binding solves the same equations before and after it. -/
theorem solves_map_apply (h : θ.Absorbs δ) (hδ : δ.Into Canonical) (hθ : θ.Into Canonical) :
    θ.Solves (es.map (Equation.map δ.apply)) ↔ θ.Solves es := by
  simp only [Solves, List.forall_mem_map, Equation.map, h.apply hδ hθ]

theorem solves_zipWith {ss ts : List Term} (h : ss.map θ.apply = ts.map θ.apply) :
    θ.Solves (List.zipWith Equation.mk ss ts) := by
  induction ss generalizing ts with
  | nil => exact fun _ he => absurd he List.not_mem_nil
  | cons s ss ih =>
    cases ts with
    | nil => simp at h
    | cons t ts =>
      rw [List.map_cons, List.map_cons, List.cons.injEq] at h
      exact solves_cons.2 ⟨h.1, ih h.2⟩

theorem map_eq_of_solves_zipWith {ss ts : List Term} (hlen : ss.length = ts.length)
    (h : θ.Solves (List.zipWith Equation.mk ss ts)) : ss.map θ.apply = ts.map θ.apply := by
  induction ss generalizing ts with
  | nil =>
    cases ts with
    | nil => rfl
    | cons t ts => simp at hlen
  | cons s ss ih =>
    cases ts with
    | nil => simp at hlen
    | cons t ts =>
      rw [List.length_cons, List.length_cons, Nat.succ_inj] at hlen
      obtain ⟨hst, hss⟩ := solves_cons.1 h
      rw [List.map_cons, List.map_cons, hst, ih hlen hss]

/-- Decomposition loses no solution. -/
theorem solves_decompose (h : θ.Solves es) : θ.Solves (decompose es) := by
  fun_induction decompose es with
  | case1 => exact h
  | case2 f ss g ts es =>
    obtain ⟨hfg, hes⟩ := solves_cons.1 h
    rw [apply_app, apply_app, app.injEq] at hfg
    exact solves_append.2 ⟨solves_zipWith hfg.2, hes⟩
  | case3 e es _ ih =>
    obtain ⟨he, hes⟩ := solves_cons.1 h
    exact solves_cons.2 ⟨he, ih hes⟩

/-- The first equation between applications, if there is one, is between applications of one
symbol. -/
def HeadsAgree : List Equation → Prop
  | [] => True
  | ⟨.app f _, .app g _⟩ :: _ => f = g
  | _ :: es => HeadsAgree es

/-- A system with a solution has no clash of symbols to lose. -/
theorem headsAgree_of_solves (h : θ.Solves es) : HeadsAgree es := by
  fun_induction HeadsAgree es with
  | case1 => trivial
  | case2 f ss g ts es =>
    have hfg := (solves_cons.1 h).1
    rw [apply_app, apply_app, app.injEq] at hfg
    exact hfg.1
  | case3 e es _ ih => exact ih (solves_cons.1 h).2

/-- Decomposition gains no solution if the two symbols agree. -/
theorem solves_of_solves_decompose (hh : HeadsAgree es) (hes : ∀ e ∈ es, e.Both RespectsArity)
    (h : θ.Solves (decompose es)) : θ.Solves es := by
  fun_induction decompose es with
  | case1 => exact h
  | case2 f ss g ts es =>
    obtain ⟨hargs, hrest⟩ := solves_append.1 h
    have hfg : f = g := hh
    obtain ⟨hs, ht⟩ := hes _ List.mem_cons_self
    have hlen : ss.length = ts.length := by
      rw [((respectsArity_app f ss).1 hs).1, ((respectsArity_app g ts).1 ht).1, hfg]
    refine solves_cons.2 ⟨?_, hrest⟩
    rw [apply_app, apply_app, hfg, map_eq_of_solves_zipWith hlen hargs]
  | case3 e es hne ih =>
    obtain ⟨he, hrest⟩ := solves_cons.1 h
    rw [HeadsAgree.eq_3 _ _ hne] at hh
    exact solves_cons.2 ⟨he, ih hh (fun e he => hes e (List.mem_cons_of_mem _ he)) hrest⟩

end Solutions

theorem mem_iff_of_takeSolved {es rest : List Equation} {x : Variable} {t : Term}
    (h : takeSolved es = some ((x, t), rest)) {e : Equation} :
    e ∈ es ↔ e = ⟨.var x, t⟩ ∨ e ∈ rest := by
  fun_induction takeSolved es generalizing rest with
  | case1 => cases h
  | case2 y u es =>
    cases h
    exact List.mem_cons
  | case3 d es _ ih =>
    obtain ⟨⟨b, r⟩, hr, heq⟩ := Option.map_eq_some_iff.1 h
    cases heq
    rw [List.mem_cons, ih hr, List.mem_cons, or_left_comm]

/-- A binding goes one way or the other. -/
theorem eq_or_eq_of_binding {x y : Variable} {t u : Term} (h : binding x t = .ok (y, u)) :
    y = x ∧ u = t ∨ t = .var y ∧ u = .var x := by
  unfold binding at h
  split at h
  · cases h
    exact Or.inl ⟨rfl, rfl⟩
  · cases t with
    | var z =>
      simp only [asVar?] at h
      split at h
      · cases h
        exact Or.inr ⟨rfl, rfl⟩
      · cases h
    | _ => cases h

/-- A binding speaks of variables of the equation that it solves, and its variable does not occur in
its term. -/
theorem vars_of_binding {es : List Equation} {x y : Variable} {t u : Term} (hmem : ⟨.var x, t⟩ ∈ es)
    (hxt : x ∉ t.vars) (h : binding x t = .ok (y, u)) :
    y ∈ uniqueVars es ∧ (∀ v ∈ u.vars, v ∈ uniqueVars es) ∧ y ∉ u.vars := by
  have hx : x ∈ uniqueVars es := mem_uniqueVars.2 ⟨_, hmem, Or.inl (by simp)⟩
  have ht (v : Variable) (hv : v ∈ t.vars) : v ∈ uniqueVars es :=
    mem_uniqueVars.2 ⟨_, hmem, Or.inr hv⟩
  rcases eq_or_eq_of_binding h with ⟨rfl, rfl⟩ | ⟨rfl, rfl⟩
  · exact ⟨hx, ht, hxt⟩
  · refine ⟨ht y (by simp), ?_, ?_⟩
    · simpa using hx
    · simpa [eq_comm] using hxt

/-- A variable is bound to a term that it accepts. -/
theorem accepts_of_binding {x y : Variable} {t u : Term} (h : binding x t = .ok (y, u)) :
    y.accepts u = true := by
  unfold binding at h
  split at h
  · rename_i haccepts
    cases h
    exact haccepts
  · split at h
    · split at h
      · rename_i haccepts
        cases h
        exact haccepts
      · cases h
    · cases h

namespace Problem

/-- The equations of a problem whose sides differ. -/
def different (p : Problem) : List Equation := p.equations.filter fun e => e.left ≠ e.right

/-- The problem after the elimination of one round. -/
def eliminated (p : Problem) : Except UnifyError Problem :=
  eliminate { p with equations := p.different }

/-- A round that succeeds meets no obstacle, eliminates, orients and decomposes. -/
theorem exists_of_step {p q : Problem} (h : p.step = .ok q) :
    obstacle? p.different = none ∧ ∃ r, p.eliminated = .ok r ∧
      q = { r with equations := decompose (r.equations.map orient) } := by
  simp only [step] at h
  split at h
  · cases h
  · rename_i hob
    refine ⟨hob, ?_⟩
    cases hr : p.eliminated with
    | error e =>
      rw [eliminated, different] at hr
      rw [hr] at h
      cases h
    | ok r =>
      rw [eliminated, different] at hr
      rw [hr] at h
      cases h
      exact ⟨r, rfl, rfl⟩

/-- Elimination leaves a problem alone if no left side is a variable, and binds one otherwise. -/
theorem unsolved_or_exists_of_eliminate {p r : Problem} (h : p.eliminate = .ok r) :
    (∀ e ∈ p.equations, e.left.isVar = false) ∧ r = p ∨
      ∃ (x : Variable) (t : Term) (rest : List Equation) (y : Variable) (u : Term),
        (∀ e, e ∈ p.equations ↔ e = ⟨.var x, t⟩ ∨ e ∈ rest) ∧ binding x t = .ok (y, u) ∧
        r = { equations := rest.map (Equation.map (single y u).apply)
              solved := p.solved.compose (single y u) } := by
  unfold eliminate at h
  split at h
  · rename_i htake
    cases h
    exact Or.inl ⟨takeSolved_none htake, rfl⟩
  · rename_i x t rest htake
    cases hb : binding x t with
    | error e =>
      rw [hb] at h
      cases h
    | ok b =>
      rw [hb] at h
      cases h
      exact Or.inr ⟨x, t, rest, b.1, b.2, fun _ => mem_iff_of_takeSolved htake, hb, rfl⟩

/-- Elimination leaves a problem alone or binds a variable. -/
theorem eq_or_exists_of_eliminate {p r : Problem} (h : p.eliminate = .ok r) :
    r = p ∨ ∃ (x : Variable) (t : Term) (rest : List Equation) (y : Variable) (u : Term),
      (∀ e, e ∈ p.equations ↔ e = ⟨.var x, t⟩ ∨ e ∈ rest) ∧ binding x t = .ok (y, u) ∧
      r = { equations := rest.map (Equation.map (single y u).apply)
            solved := p.solved.compose (single y u) } :=
  (unsolved_or_exists_of_eliminate h).imp And.right id

/-- One problem is reached from another by rounds. -/
def Reaches : Problem → Problem → Prop := Relation.ReflTransGen fun p q => p.step = .ok q

/-- A solved problem reaches one without equations, whose bindings are the answer. -/
theorem exists_reaches_of_solve {p : Problem} {σ : Substitution} (h : p.solve = .ok σ) :
    ∃ q, p.Reaches q ∧ q.equations = [] ∧ q.solved = σ := by
  fun_induction Problem.solve p with
  | case1 p hp =>
    cases h
    exact ⟨p, .refl, hp, rfl⟩
  | case2 p hp e hstep => cases h
  | case3 p hp q hstep ih =>
    obtain ⟨r, hqr, hr⟩ := ih h
    exact ⟨r, .head hstep hqr, hr⟩

end Problem

end Unification

end SymbolicXor
