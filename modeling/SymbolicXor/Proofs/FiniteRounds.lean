import SymbolicXor.Proofs.MostGeneralUnifier

/-!
# Rounds of syntactic unification that come to an end

A round that finds no obstacle brings the problem nearer to its end. It binds a variable, which then
occurs in no equation, or else it leaves the bindings alone and makes the equations lighter; in
neither case does it bring in a variable. The number of variables has to come first, because an
elimination makes the equations heavier where it puts a large term for a variable, or lighter where
summands cancel. Nothing is asked of the terms: the sums among them may be ground or not, and the
variables may have any sorts.
-/

namespace SymbolicXor

open Term Substitution

namespace Unification

namespace Problem

variable {p q r : Problem}

/-- The ways in which a round makes progress. -/
inductive Progress (p : Problem) : Problem → Prop
  /-- A variable of the equations is bound and disappears from them. -/
  | bound {es : List Equation} {y : Variable} {u : Term} (mem : y ∈ uniqueVars p.equations)
      (gone : y ∉ uniqueVars es) (vars : ∀ v ∈ uniqueVars es, v ∈ uniqueVars p.equations) :
      Progress p { equations := es, solved := p.solved.compose (single y u) }
  /-- No variable is bound, and the equations lose weight. -/
  | lightened {es : List Equation} (weight : totalWeight es < totalWeight p.equations)
      (vars : ∀ v ∈ uniqueVars es, v ∈ uniqueVars p.equations) :
      Progress p { equations := es, solved := p.solved }

/-- Equations without a variable as a left side lose weight in a round: one is deleted, or the first
is oriented or decomposed. -/
theorem totalWeight_unsolved_lt (hp : p.equations ≠ []) (hob : obstacle? p.different = none)
    (hv : ∀ e ∈ p.different, e.left.isVar = false) :
    totalWeight (decompose (p.different.map orient)) < totalWeight p.equations := by
  have hle : totalWeight p.different ≤ totalWeight p.equations := totalWeight_filter_le _ _
  cases hes : p.different with
  | nil =>
    obtain ⟨e, es, hpe⟩ := List.exists_cons_of_ne_nil hp
    have hpos := weight_pos e
    rw [hpe, List.map_nil, decompose, totalWeight_nil, totalWeight_cons]
    omega
  | cons e es =>
    have hmem : e ∈ p.different := hes ▸ List.mem_cons_self
    have hne : e.left ≠ e.right := by simpa using (List.mem_filter.1 hmem).2
    have hlt : totalWeight (decompose ((e :: es).map orient)) < totalWeight (e :: es) :=
      totalWeight_round_lt (hv e hmem) hne (clashes_of_obstacle? hob hmem)
    rw [hes] at hle
    omega

/-- A variable that is eliminated leaves the equations, and no other comes in. -/
theorem vars_of_eliminated {x y : Variable} {t u : Term} {rest : List Equation}
    (hob : obstacle? p.different = none) (hes : ∀ e, e ∈ p.different ↔ e = ⟨.var x, t⟩ ∨ e ∈ rest)
    (hb : binding x t = .ok (y, u)) :
    y ∈ uniqueVars p.different ∧ ∀ v ∈ uniqueVars (rest.map (Equation.map (single y u).apply)),
      v ∈ uniqueVars p.different ∧ v ≠ y := by
  have hmem : ⟨.var x, t⟩ ∈ p.different := (hes _).2 (Or.inl rfl)
  obtain ⟨hy, hu, hyu⟩ := vars_of_binding hmem (not_mem_vars_of_obstacle? hob hmem) hb
  have hinstance {s : Term} (hs : ∀ v ∈ s.vars, v ∈ uniqueVars p.different) {v : Variable}
      (hv : v ∈ ((single y u).apply s).vars) : v ∈ uniqueVars p.different ∧ v ≠ y := by
    rcases mem_vars_apply_single hv with hvu | ⟨hvs, hne⟩
    · exact ⟨hu v hvu, fun h => hyu (h ▸ hvu)⟩
    · exact ⟨hs v hvs, hne⟩
  refine ⟨hy, fun v hv => ?_⟩
  obtain ⟨_, hmap, hve⟩ := mem_uniqueVars.1 hv
  obtain ⟨e, he, rfl⟩ := List.mem_map.1 hmap
  have hside (w : Variable) (hw : w ∈ e.left.vars ∨ w ∈ e.right.vars) :
      w ∈ uniqueVars p.different := mem_uniqueVars.2 ⟨e, (hes e).2 (Or.inr he), hw⟩
  rcases hve with hl | hr
  · exact hinstance (fun w hw => hside w (Or.inl hw)) hl
  · exact hinstance (fun w hw => hside w (Or.inr hw)) hr

/-- A round that meets no obstacle makes progress. -/
theorem progress_of_step (hp : p.equations ≠ []) (h : p.step = .ok q) : p.Progress q := by
  obtain ⟨hob, r, hr, rfl⟩ := exists_of_step h
  have hdiff {v : Variable} (hv : v ∈ uniqueVars p.different) : v ∈ uniqueVars p.equations :=
    mem_uniqueVars_of_filter hv
  have hround {es : List Equation} {v : Variable}
      (hv : v ∈ uniqueVars (decompose (es.map orient))) : v ∈ uniqueVars es :=
    mem_uniqueVars_orient.1 (mem_uniqueVars_of_decompose hv)
  rcases unsolved_or_exists_of_eliminate hr with ⟨hv, rfl⟩ | ⟨x, t, rest, y, u, hes, hb, rfl⟩
  · exact .lightened (totalWeight_unsolved_lt hp hob hv) fun v hv => hdiff (hround hv)
  · obtain ⟨hy, hvars⟩ := vars_of_eliminated hob hes hb
    exact .bound (hdiff hy) (fun hgone => (hvars y (hround hgone)).2 rfl)
      fun v hv => hdiff (hvars v (hround hv)).1

/-- Progress is not made for ever. -/
theorem Progress.measure_lt (h : p.Progress q) :
    Prod.Lex (· < ·) (· < ·) q.measure p.measure := by
  cases h with
  | bound mem gone vars => exact .left _ _ (length_uniqueVars_lt vars mem gone)
  | lightened weight vars =>
    rcases Nat.lt_or_eq_of_le (length_uniqueVars_le vars) with hlt | heq
    · exact .left _ _ hlt
    · rw [measure, measure, heq]
      exact .right _ weight

/-- The problem after some number of rounds. Without equations, or after an error, no round
follows. -/
def rounds : Nat → Problem → Except UnifyError Problem
  | 0, p => .ok p
  | n + 1, p => if p.equations = [] then .ok p else p.step.bind (rounds n)

/-- One round follows another. -/
def Round (q p : Problem) : Prop := p.equations ≠ [] ∧ p.step = .ok q

theorem wellFounded_round : WellFounded Round := by
  refine Subrelation.wf (fun h => ?_)
    (InvImage.wf measure (wellFounded_lt.prod_lex wellFounded_lt))
  exact (progress_of_step h.1 h.2).measure_lt

/-- The rounds end with an answer, and after the last one nothing changes any more. -/
inductive Ends : Except UnifyError Problem → Except UnifyError Substitution → Prop
  /-- No equation is left. -/
  | solved {q : Problem} (nil : q.equations = []) : Ends (.ok q) (.ok q.solved)
  /-- Some equation cannot be solved. -/
  | failed (e : UnifyError) : Ends (.error e) (.error e)

theorem exists_ends_rounds (p : Problem) : ∃ n, ∀ m ≥ n, Ends (rounds m p) p.solve := by
  fun_induction Problem.solve p with
  | case1 p hp =>
    refine ⟨0, fun m _ => ?_⟩
    cases m with
    | zero => exact .solved hp
    | succ m =>
      rw [rounds, if_pos hp]
      exact .solved hp
  | case2 p hp e hstep =>
    refine ⟨1, fun m hm => ?_⟩
    obtain ⟨m, rfl⟩ := Nat.exists_eq_add_of_le' hm
    rw [rounds, if_neg hp, hstep]
    exact .failed e
  | case3 p hp q hstep ih =>
    obtain ⟨n, hn⟩ := ih
    refine ⟨n + 1, fun m hm => ?_⟩
    obtain ⟨m, rfl⟩ := Nat.exists_eq_add_of_le' (Nat.le_of_add_left_le hm)
    rw [rounds, if_neg hp, hstep]
    exact hn m (Nat.le_of_add_le_add_right hm)

end Problem

/-- Syntactic unification comes to an end: every round makes progress or gives up, after finitely
many rounds no equation is left or an error is met, which is the answer, and there is no endless
sequence of rounds. -/
theorem unify_terminates (es : List Equation) :
    (∀ p q : Problem, p.equations ≠ [] → p.step = .ok q → p.Progress q) ∧
    (∃ n, ∀ m ≥ n, Problem.Ends ((start es).rounds m) (unify es)) ∧
      ¬ ∃ run : Nat → Problem, run 0 = start es ∧
        ∀ i, (run i).equations ≠ [] ∧ (run i).step = .ok (run (i + 1)) := by
  refine ⟨fun _ _ => Problem.progress_of_step, Problem.exists_ends_rounds (start es), ?_⟩
  rintro ⟨run, -, hrun⟩
  exact (wellFounded_iff_isEmpty_descending_chain.1 Problem.wellFounded_round).false ⟨run, hrun⟩

end Unification

end SymbolicXor
