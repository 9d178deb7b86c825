import SymbolicXor.Term.Subterm
import SymbolicXor.Term.Sum

/-!
# Variables of sums and instances

Sums and replacements bring no new variables: a variable of a sum occurs in a summand, and a
variable of a term after a replacement comes from the image of a variable that was replaced.
-/

namespace SymbolicXor.Term

theorem mem_vars_of_mem_summands {v : Variable} {t u : Term} (hu : u ∈ t.summands)
    (hv : v ∈ u.vars) : v ∈ t.vars := by
  cases t with
  | sum ts =>
    rw [vars_sum]
    exact List.mem_flatMap_of_mem hu hv
  | _ =>
    simp only [summands] at hu
    split at hu
    · cases hu
    · rwa [List.mem_singleton.1 hu] at hv

theorem mem_vars_ofSummands {v : Variable} {ts : List Term} (h : v ∈ (ofSummands ts).vars) :
    ∃ t ∈ ts, v ∈ t.vars := by
  match ts with
  | [] => simp [ofSummands, zero] at h
  | [t] => exact ⟨t, List.mem_singleton_self t, h⟩
  | t :: u :: ts => simpa [ofSummands, List.mem_flatMap] using h

/-- A variable of a sum occurs in one of the terms that are added. -/
theorem mem_vars_xor {v : Variable} {ts : List Term} (h : v ∈ (xor ts).vars) :
    ∃ t ∈ ts, v ∈ t.vars := by
  obtain ⟨u, hu, hv⟩ := mem_vars_ofSummands h
  obtain ⟨t, ht, hut⟩ := List.mem_flatMap.1 (OrderedList.mem_of_mem_oddOnes hu)
  exact ⟨t, ht, mem_vars_of_mem_summands hut hv⟩

mutual

/-- A variable of a replaced term comes from the image of one of its variables, provided that the
images of constants have none. -/
theorem mem_vars_mapLeaves {onVar : Variable → Term} {onConst : Constant → Term} {v : Variable}
    (hc : ∀ c, (onConst c).vars = []) :
    ∀ {t : Term}, v ∈ (mapLeaves onVar onConst t).vars → ∃ w ∈ t.vars, v ∈ (onVar w).vars
  | var w, h => ⟨w, by simp, by simpa [mapLeaves] using h⟩
  | const c, h => by simp [mapLeaves, hc c] at h
  | app f ts, h => by
    rw [mapLeaves, vars_app] at h
    obtain ⟨u, hu, hv⟩ := List.mem_flatMap.1 h
    simpa using mem_vars_mapLeavesAll hc hu hv
  | sum ts, h => by
    rw [mapLeaves] at h
    obtain ⟨u, hu, hv⟩ := mem_vars_xor h
    simpa using mem_vars_mapLeavesAll hc hu hv

theorem mem_vars_mapLeavesAll {onVar : Variable → Term} {onConst : Constant → Term} {v : Variable}
    (hc : ∀ c, (onConst c).vars = []) : ∀ {ts : List Term} {u : Term},
    u ∈ mapLeavesAll onVar onConst ts → v ∈ u.vars →
      ∃ w, (∃ t ∈ ts, w ∈ t.vars) ∧ v ∈ (onVar w).vars
  | t :: ts, u, hu, hv => by
    rw [mapLeavesAll, List.mem_cons] at hu
    rcases hu with rfl | hu
    · obtain ⟨w, hw, hvw⟩ := mem_vars_mapLeaves hc hv
      exact ⟨w, ⟨t, List.mem_cons_self, hw⟩, hvw⟩
    · obtain ⟨w, ⟨t', ht', hw⟩, hvw⟩ := mem_vars_mapLeavesAll hc hu hv
      exact ⟨w, ⟨t', List.mem_cons_of_mem _ ht', hw⟩, hvw⟩

end

/-- The check for an occurrence answers whether the variable is among the variables. -/
theorem occurs_eq_true {v : Variable} {t : Term} : t.occurs v = true ↔ v ∈ t.vars := by
  simp [occurs]

end SymbolicXor.Term
