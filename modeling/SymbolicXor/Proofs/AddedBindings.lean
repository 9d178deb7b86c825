import SymbolicXor.Proofs.SubstitutionAlgebra

/-!
# Adding bindings

A binding is refused where it is ill-sorted or where its variable is bound to another term. Any
other binding is found again after it was added, and bindings of different variables that are
well-sorted can all be added.
-/

namespace SymbolicXor.Substitution

variable {σ τ : Substitution}

/-- Adding a binding gives the variable its term and leaves the others. -/
theorem get?_add {v w : Variable} {t : Term} (h : σ.add v t = .ok τ) :
    τ.get? w = if w = v then some t else σ.get? w := by
  unfold add at h
  split at h
  · split at h
    · cases h
      exact FinMap.get?_insert σ.bindings v w t
    · rename_i existing hget
      split at h
      · rename_i heq
        cases h
        split
        · rename_i hwv
          rw [hwv, hget, heq]
        · rfl
      · cases h
  · cases h

/-- Adding a binding keeps a property of the bound terms. -/
theorem into_add {p : Term → Prop} {v : Variable} {t : Term} (hσ : σ.Into p) (ht : p t)
    (h : σ.add v t = .ok τ) : τ.Into p := by
  intro s hs
  obtain ⟨w, hw⟩ := mem_range.1 hs
  rw [get?_add h] at hw
  split at hw
  · cases hw
    exact ht
  · exact hσ s (mem_range.2 ⟨w, hw⟩)

/-- A property that is kept by each binding that is added is kept by adding a list of bindings. -/
theorem foldlM_add_induction {motive : Substitution → Prop}
    {l : List (Variable × Term)}
    (hadd : ∀ {σ τ : Substitution} {b}, b ∈ l → motive σ → σ.add b.1 b.2 = .ok τ → motive τ)
    (hσ : motive σ) (h : l.foldlM (fun σ b => σ.add b.1 b.2) σ = .ok τ) : motive τ := by
  induction l generalizing σ with
  | nil =>
    cases h
    exact hσ
  | cons b l ih =>
    rw [List.foldlM_cons] at h
    cases hρ : σ.add b.1 b.2 with
    | error e =>
      rw [hρ] at h
      cases h
    | ok ρ =>
      rw [hρ] at h
      exact ih (fun hb => hadd (List.mem_cons_of_mem _ hb)) (hadd List.mem_cons_self hσ hρ) h

/-- After adding the entries of a map, a variable is bound as in the map, or as it was. -/
theorem get?_foldlM_add {l : List (Variable × Term)} (hl : (l.map Prod.fst).Nodup)
    (h : l.foldlM (fun σ b => σ.add b.1 b.2) σ = .ok τ) (v : Variable) :
    (∀ t, (v, t) ∈ l → τ.get? v = some t) ∧
      ((∀ t, (v, t) ∉ l) → τ.get? v = σ.get? v) := by
  induction l generalizing σ with
  | nil =>
    cases h
    exact ⟨fun t ht => absurd ht List.not_mem_nil, fun _ => rfl⟩
  | cons e l ih =>
    obtain ⟨he, hl⟩ := List.nodup_cons.1 hl
    rw [List.foldlM_cons] at h
    cases hρ : σ.add e.1 e.2 with
    | error err =>
      rw [hρ] at h
      cases h
    | ok ρ =>
    rw [hρ] at h
    obtain ⟨hbound, hfree⟩ := ih hl h
    constructor
    · intro t ht
      rcases List.mem_cons.1 ht with rfl | ht
      · have hnot : ∀ u, (v, u) ∉ l := fun u hu => he (List.mem_map.2 ⟨(v, u), hu, rfl⟩)
        rw [hfree hnot, get?_add hρ, if_pos rfl]
      · exact hbound t ht
    · intro hnot
      have hev : v ≠ e.1 := fun hv => hnot e.2 (by rw [hv]; exact List.mem_cons_self)
      rw [hfree fun u hu => hnot u (List.mem_cons_of_mem _ hu), get?_add hρ, if_neg hev]

/-- Bindings of different variables to terms that these accept can always be added. -/
theorem exists_foldlM_add {l : List (Variable × Term)} (hl : (l.map Prod.fst).Nodup)
    (hacc : ∀ e ∈ l, e.1.accepts e.2 = true) (hfree : ∀ e ∈ l, σ.get? e.1 = none) :
    ∃ τ, l.foldlM (fun σ b => σ.add b.1 b.2) σ = .ok τ := by
  induction l generalizing σ with
  | nil => exact ⟨σ, rfl⟩
  | cons e l ih =>
    obtain ⟨he, hl⟩ := List.nodup_cons.1 hl
    obtain ⟨heacc, hacc⟩ := List.forall_mem_cons.1 hacc
    obtain ⟨hefree, hfree⟩ := List.forall_mem_cons.1 hfree
    obtain ⟨ρ, hρ⟩ : ∃ ρ, σ.add e.1 e.2 = .ok ρ := by
      rw [add, if_pos heacc, hefree]
      exact ⟨_, rfl⟩
    obtain ⟨τ, hτ⟩ := ih (σ := ρ) hl hacc fun d hd => by
      have hne : d.1 ≠ e.1 := fun h => he (h ▸ List.mem_map_of_mem hd)
      rw [get?_add hρ, if_neg hne]
      exact hfree d hd
    refine ⟨τ, ?_⟩
    rw [List.foldlM_cons, hρ]
    exact hτ

/-- With the given bindings, which are of different variables, these stand for their terms and all
other variables for themselves. -/
theorem lookup_ofBindings {l : List (Variable × Term)} (hl : (l.map Prod.fst).Nodup)
    (h : ofBindings l = .ok τ) :
    (∀ v t, (v, t) ∈ l → τ.lookup v = t) ∧ ∀ v ∉ l.map Prod.fst, τ.lookup v = .var v := by
  refine ⟨fun v t hvt => lookup_of_get? ((get?_foldlM_add hl h v).1 t hvt), fun v hv => ?_⟩
  have hnone := (get?_foldlM_add hl h v).2 fun t hvt => hv (List.mem_map_of_mem hvt)
  rw [lookup, hnone]
  rfl

end SymbolicXor.Substitution
