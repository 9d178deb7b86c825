import SymbolicXor.Equation
import SymbolicXor.Substitution
import SymbolicXor.Term.Occurrence

/-!
# The measure of unification problems

A unification problem is measured by the number of different variables in it and, second, by a
weight in which a variable is lighter than any other term and a left side counts twice. Binding a
variable lowers the first number; deleting, orienting and decomposing equations lower the weight.
-/

namespace SymbolicXor

namespace Term

mutual

/-- The weight of a term: variables are the lightest. -/
def weight : Term → Nat
  | var _ => 1
  | const _ => 2
  | app _ ts => weightAll ts + 2
  | sum ts => weightAll ts + 2

/-- The weight of the terms in a list. -/
def weightAll : List Term → Nat
  | [] => 0
  | t :: ts => weight t + weightAll ts

end

theorem weight_pos (t : Term) : 0 < t.weight := by
  cases t <;> simp [weight]

theorem one_lt_weight {t : Term} (h : t.isVar = false) : 1 < t.weight := by
  cases t <;> simp [isVar, weight] at h ⊢

end Term

namespace Substitution

/-- A substitution with a single binding changes no other variable. -/
theorem lookup_single (x : Variable) (t : Term) (v : Variable) :
    (single x t).lookup v = if x = v then t else .var v := by
  simp only [single, lookup, get?, FinMap.get?, FinMap.insert, FinMap.insertEntry,
    EmptyCollection.emptyCollection, FinMap.empty, List.find?]
  by_cases h : x = v
  · simp [h]
  · have : (compare x v == Ordering.eq) = false := by simp [h]
    simp [this, h]

/-- A variable of an instance comes from the term that stands for one of the variables. -/
theorem mem_vars_apply {σ : Substitution} {t : Term} {v : Variable} (h : v ∈ (σ.apply t).vars) :
    ∃ w ∈ t.vars, v ∈ (σ.lookup w).vars :=
  Term.mem_vars_mapLeaves (fun _ => Term.vars_const _) h

/-- After a binding is applied, the variables are old ones or those of the bound term. -/
theorem mem_vars_apply_single {x v : Variable} {s t : Term}
    (h : v ∈ ((single x t).apply s).vars) : v ∈ t.vars ∨ v ∈ s.vars ∧ v ≠ x := by
  obtain ⟨w, hw, hv⟩ := mem_vars_apply h
  rw [lookup_single] at hv
  split at hv
  · exact Or.inl hv
  · rename_i hx
    rw [Term.vars_var, List.mem_singleton] at hv
    exact Or.inr ⟨hv ▸ hw, fun h => hx (hv ▸ h ▸ rfl)⟩

end Substitution

namespace Unification

/-- The weight of an equation. -/
def weight (e : Equation) : Nat := 2 * e.left.weight + e.right.weight

theorem weight_pos (e : Equation) : 0 < weight e := by
  have := e.left.weight_pos
  simp only [weight]
  omega

/-- The weight of a list of equations. -/
def totalWeight : List Equation → Nat
  | [] => 0
  | e :: es => weight e + totalWeight es

@[simp] theorem totalWeight_nil : totalWeight [] = 0 := rfl

@[simp] theorem totalWeight_cons (e : Equation) (es : List Equation) :
    totalWeight (e :: es) = weight e + totalWeight es := rfl

@[simp] theorem totalWeight_append (es fs : List Equation) :
    totalWeight (es ++ fs) = totalWeight es + totalWeight fs := by
  induction es with
  | nil => simp
  | cons e es ih =>
    simp only [List.cons_append, totalWeight_cons, ih]
    omega

/-- The variables that occur in a list of equations, each once. -/
def uniqueVars (es : List Equation) : List Variable := OrderedList.ofList (es.flatMap Equation.vars)

theorem mem_uniqueVars {v : Variable} {es : List Equation} :
    v ∈ uniqueVars es ↔ ∃ e ∈ es, v ∈ e.left.vars ∨ v ∈ e.right.vars := by
  simp [uniqueVars, Equation.vars, List.mem_flatMap]

theorem nodup_uniqueVars (es : List Equation) : (uniqueVars es).Nodup :=
  (OrderedList.ordered_ofList _).imp fun h heq => by
    rw [heq, Std.ReflOrd.compare_self] at h
    cases h

/-- A list without repetitions is no longer than one that holds all its members. -/
private theorem length_le_of_subset {l m : List Variable} (hl : l.Nodup) (h : ∀ v ∈ l, v ∈ m) :
    l.length ≤ m.length := by
  induction l generalizing m with
  | nil => exact Nat.zero_le _
  | cons a l ih =>
    obtain ⟨ha, hl⟩ := List.nodup_cons.1 hl
    have ham := h a List.mem_cons_self
    have hsub : ∀ v ∈ l, v ∈ m.erase a := fun v hv =>
      (List.mem_erase_of_ne fun hva : v = a => ha (hva ▸ hv)).2 (h v (List.mem_cons_of_mem _ hv))
    have hlen := ih hl hsub
    have hpos := List.length_pos_of_mem ham
    rw [List.length_erase_of_mem ham] at hlen
    simp only [List.length_cons]
    omega

/-- Fewer variables do not raise the number of variables. -/
theorem length_uniqueVars_le {es fs : List Equation} (h : ∀ v ∈ uniqueVars es, v ∈ uniqueVars fs) :
    (uniqueVars es).length ≤ (uniqueVars fs).length :=
  length_le_of_subset (nodup_uniqueVars es) h

/-- Losing a variable lowers the number of variables. -/
theorem length_uniqueVars_lt {es fs : List Equation} {x : Variable}
    (h : ∀ v ∈ uniqueVars es, v ∈ uniqueVars fs) (hx : x ∈ uniqueVars fs) (hn : x ∉ uniqueVars es) :
    (uniqueVars es).length < (uniqueVars fs).length := by
  have := length_le_of_subset (List.nodup_cons.2 ⟨hn, nodup_uniqueVars es⟩) (m := uniqueVars fs)
    fun v hv => (List.mem_cons.1 hv).elim (fun hv => hv ▸ hx) (h v)
  rw [List.length_cons] at this
  omega

end Unification

end SymbolicXor
