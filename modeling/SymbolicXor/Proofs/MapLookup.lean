import SymbolicXor.FinMap

/-!
# Looking up in finite maps

A finite map is known by its lookups, and every operation is described by what can be looked up
after it. The order of the entries makes the entry of a key unique.
-/

namespace SymbolicXor.FinMap

variable {κ α β : Type} [Ord κ] [Std.TransOrd κ] [Std.LawfulEqOrd κ]

omit [Std.TransOrd κ] in
/-- A key has at most one entry in a list that is ordered by key. -/
private theorem value_unique {k : κ} {a b : α} {l : List (κ × α)}
    (h : l.Pairwise fun a b => compare a.1 b.1 = .lt) (ha : (k, a) ∈ l) (hb : (k, b) ∈ l) :
    a = b := by
  induction l with
  | nil => cases ha
  | cons e l ih =>
    rw [List.pairwise_cons] at h
    rcases List.mem_cons.1 ha with rfl | hal
    · rcases List.mem_cons.1 hb with hbe | hbl
      · exact (Prod.mk.inj hbe).2.symm
      · have hlt := h.1 _ hbl
        simp at hlt
    · rcases List.mem_cons.1 hb with rfl | hbl
      · have hlt := h.1 _ hal
        simp at hlt
      · exact ih h.2 hal hbl

omit [Std.TransOrd κ] in
/-- Lookup finds the entries. -/
theorem get?_eq_some_iff {m : FinMap κ α} {k : κ} {a : α} :
    m.get? k = some a ↔ (k, a) ∈ m.entries := by
  simp only [get?, Option.map_eq_some_iff]
  constructor
  · rintro ⟨e, he, rfl⟩
    have hk : e.1 = k := by simpa using List.find?_some he
    have hmem := List.mem_of_find?_eq_some he
    rwa [← hk]
  · intro h
    cases hf : m.entries.find? fun e => compare e.1 k == .eq with
    | none =>
      have hne := List.find?_eq_none.1 hf _ h
      simp at hne
    | some e =>
      have hk : e.1 = k := by simpa using List.find?_some hf
      have hmem := List.mem_of_find?_eq_some hf
      rw [← hk] at h
      exact ⟨e, rfl, value_unique m.ordered hmem h⟩

omit [Std.TransOrd κ] in
theorem mem_keys {m : FinMap κ α} {k : κ} : k ∈ m.keys ↔ ∃ a, m.get? k = some a := by
  simp [keys, get?_eq_some_iff]

omit [Std.TransOrd κ] in
theorem mem_values {m : FinMap κ α} {a : α} : a ∈ m.values ↔ ∃ k, m.get? k = some a := by
  simp [values, get?_eq_some_iff]

omit [Std.TransOrd κ] in
theorem nodup_keys (m : FinMap κ α) : m.keys.Nodup := by
  refine List.pairwise_map.2 (m.ordered.imp fun hab heq => ?_)
  rw [heq, Std.ReflOrd.compare_self] at hab
  cases hab

omit [Std.TransOrd κ] in
theorem contains_eq_true {m : FinMap κ α} {k : κ} : m.contains k = true ↔ k ∈ m.keys := by
  rw [contains, Option.isSome_iff_exists, mem_keys]

omit [Std.TransOrd κ] [Std.LawfulEqOrd κ] in
@[simp] theorem get?_empty (k : κ) : (∅ : FinMap κ α).get? k = none := rfl

private theorem mem_insertEntry_iff {k j : κ} {a b : α} {l : List (κ × α)}
    (h : l.Pairwise fun a b => compare a.1 b.1 = .lt) :
    (j, b) ∈ insertEntry k a l ↔ j = k ∧ b = a ∨ j ≠ k ∧ (j, b) ∈ l := by
  induction l with
  | nil =>
    simp only [insertEntry, List.mem_singleton, Prod.mk.injEq, List.not_mem_nil, and_false,
      or_false]
  | cons e l ih =>
    rw [List.pairwise_cons] at h
    simp only [insertEntry]
    split
    · rename_i hke
      have hne : (j, b) ∈ e :: l → j ≠ k := by
        rintro hmem rfl
        rcases List.mem_cons.1 hmem with rfl | hmem
        · simp at hke
        · have := Std.TransCmp.lt_trans hke (h.1 _ hmem)
          simp at this
      rw [List.mem_cons, Prod.mk.injEq]
      exact or_congr_right ⟨fun hmem => ⟨hne hmem, hmem⟩, And.right⟩
    · rename_i hke
      have hk : k = e.1 := Std.LawfulEqOrd.eq_of_compare hke
      have hne : (j, b) ∈ l → j ≠ k := by
        rintro hmem rfl
        have := h.1 _ hmem
        simp [hk] at this
      simp only [List.mem_cons, Prod.mk.injEq]
      refine or_congr_right ⟨fun hmem => ⟨hne hmem, Or.inr hmem⟩, ?_⟩
      rintro ⟨hjk, rfl | hmem⟩
      · exact absurd hk.symm hjk
      · exact hmem
    · rename_i hke
      have hne : e.1 ≠ k := by
        rintro rfl
        simp at hke
      simp only [List.mem_cons, ih h.2]
      constructor
      · rintro (rfl | hjk | ⟨hjk, hmem⟩)
        · exact Or.inr ⟨hne, Or.inl rfl⟩
        · exact Or.inl hjk
        · exact Or.inr ⟨hjk, Or.inr hmem⟩
      · rintro (hjk | ⟨hjk, hmem | hmem⟩)
        · exact Or.inr (Or.inl hjk)
        · exact Or.inl hmem
        · exact Or.inr (Or.inr ⟨hjk, hmem⟩)

/-- After binding a key it has the new value, and every other key the old one. -/
theorem get?_insert [DecidableEq κ] (m : FinMap κ α) (k j : κ) (a : α) :
    (m.insert k a).get? j = if j = k then some a else m.get? j := by
  refine Option.ext fun b => ?_
  rw [get?_eq_some_iff]
  simp only [insert, mem_insertEntry_iff m.ordered]
  by_cases hjk : j = k
  · simp [hjk, eq_comm]
  · simp [hjk, get?_eq_some_iff]

omit [Std.TransOrd κ] in
theorem get?_filterMap (f : κ → α → Option β) (m : FinMap κ α) (k : κ) :
    (m.filterMap f).get? k = (m.get? k).bind (f k) := by
  refine Option.ext fun b => ?_
  simp only [get?_eq_some_iff, filterMap, List.mem_filterMap, Option.map_eq_some_iff,
    Option.bind_eq_some_iff, Prod.mk.injEq]
  constructor
  · rintro ⟨e, he, _, hf, rfl, rfl⟩
    exact ⟨e.2, he, hf⟩
  · rintro ⟨a, ha, hf⟩
    exact ⟨(k, a), ha, b, hf, rfl, rfl⟩

omit [Std.TransOrd κ] in
theorem get?_map (f : α → β) (m : FinMap κ α) (k : κ) : (m.map f).get? k = (m.get? k).map f := by
  rw [map, get?_filterMap]
  cases m.get? k <;> rfl

omit [Std.TransOrd κ] in
theorem get?_filterKeys (p : κ → Bool) (m : FinMap κ α) (k : κ) :
    (m.filterKeys p).get? k = if p k then m.get? k else none := by
  refine Option.ext fun b => ?_
  rw [get?_eq_some_iff]
  simp only [filterKeys, List.mem_filter]
  split
  · rename_i hp
    rw [get?_eq_some_iff]
    exact and_iff_left hp
  · rename_i hp
    simp [hp]

omit [Std.TransOrd κ] in
theorem get?_eq_none_iff {m : FinMap κ α} {k : κ} : m.get? k = none ↔ k ∉ m.keys := by
  rw [mem_keys, Option.eq_none_iff_forall_ne_some, not_exists]

/-- After binding different keys, each has its new value, and every other key the old one. -/
private theorem get?_foldl_insert [DecidableEq κ] {l : List (κ × α)} (hl : (l.map Prod.fst).Nodup)
    (m : FinMap κ α) {k : κ} {a : α} :
    (l.foldl (fun m e => m.insert e.1 e.2) m).get? k = some a ↔
      (k, a) ∈ l ∨ k ∉ l.map Prod.fst ∧ m.get? k = some a := by
  induction l generalizing m with
  | nil => simp
  | cons e l ih =>
    obtain ⟨he, hl⟩ := List.nodup_cons.1 hl
    rw [List.foldl_cons, ih hl, get?_insert, List.mem_cons, List.map_cons, List.mem_cons]
    by_cases hke : k = e.1
    · subst hke
      have hmem : (e.1, a) ∉ l := fun h => he (List.mem_map.2 ⟨_, h, rfl⟩)
      simp [hmem, he, Prod.ext_iff, eq_comm]
    · have hne : (k, a) ≠ e := fun h => hke (congrArg Prod.fst h)
      simp [hke, hne]

/-- A map that is made of entries with different keys has just these. -/
theorem get?_ofList [DecidableEq κ] {l : List (κ × α)} (hl : (l.map Prod.fst).Nodup) {k : κ}
    {a : α} : (ofList l).get? k = some a ↔ (k, a) ∈ l := by
  rw [ofList, get?_foldl_insert hl]
  simp

/-- A union looks into the second map first. -/
theorem get?_union [DecidableEq κ] (m n : FinMap κ α) (k : κ) :
    (m.union n).get? k = (n.get? k).or (m.get? k) := by
  refine Option.ext fun a => ?_
  rw [union, get?_foldl_insert n.nodup_keys, Option.or_eq_some_iff, get?_eq_none_iff,
    get?_eq_some_iff (m := n)]
  rfl

/-- Induction on the keys of a map in their order, with the hypothesis for all smaller keys. -/
theorem keys_induction {m : FinMap κ α} {P : κ → Prop}
    (h : ∀ k ∈ m.keys, (∀ j ∈ m.keys, compare j k = .lt → P j) → P k) : ∀ k ∈ m.keys, P k := by
  have hordered : m.keys.Pairwise fun j k => compare j k = .lt := List.pairwise_map.2 m.ordered
  revert h hordered
  generalize m.keys = l
  intro h hordered
  induction l with
  | nil => exact fun k hk => absurd hk List.not_mem_nil
  | cons first l ih =>
    obtain ⟨hfirst, hl⟩ := List.pairwise_cons.1 hordered
    -- no key is smaller than the first
    have hP : P first := by
      refine h first List.mem_cons_self fun j hj hlt => ?_
      rcases List.mem_cons.1 hj with rfl | hj
      · rw [Std.ReflOrd.compare_self] at hlt
        cases hlt
      · have hself := Std.TransCmp.lt_trans hlt (hfirst j hj)
        rw [Std.ReflOrd.compare_self] at hself
        cases hself
    refine List.forall_mem_cons.2 ⟨hP, ih (fun k hk hj => ?_) hl⟩
    refine h k (List.mem_cons_of_mem _ hk) (List.forall_mem_cons.2 ⟨fun _ => hP, hj⟩)

/-- A map is known by its lookups. -/
theorem ext_get? {m n : FinMap κ α} (h : ∀ k, m.get? k = n.get? k) : m = n := by
  have distinct (m : FinMap κ α) : m.entries.Nodup := by
    refine m.ordered.imp fun hab heq => ?_
    rw [heq, Std.ReflOrd.compare_self] at hab
    cases hab
  have hperm : m.entries.Perm n.entries := by
    refine (List.perm_ext_iff_of_nodup (distinct m) (distinct n)).2 fun e => ?_
    rw [← get?_eq_some_iff, ← get?_eq_some_iff, h]
  have heq : m.entries = n.entries := by
    refine hperm.eq_of_pairwise ?_ m.ordered n.ordered
    intro a b _ _ hab hba
    have hswap : compare a.1 b.1 = (compare b.1 a.1).swap := Std.OrientedCmp.eq_swap
    rw [hswap, hba] at hab
    cases hab
  cases m
  cases n
  cases heq
  rfl

end SymbolicXor.FinMap
