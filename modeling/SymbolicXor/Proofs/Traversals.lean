import SymbolicXor.Proofs.Positions

/-!
# Traversals

A term is traversed in pre-order by a recursion, by a walk that keeps the subterms still to come on
a stack, and by one that keeps their positions beside them. All three enumerate the same tree: the
paths of a term come in lexicographic order, each once, and they lead to the subterms in their
order. Counting and searching in a term is therefore counting and searching among positions. The
recursive count does not look below an occurrence, and misses nothing there, because no term is a
proper subterm of itself.
-/

namespace SymbolicXor

/-- The children of the elements that a walk visits, with sizes that show that it comes to an
end. -/
structure Walk (α : Type) where
  /-- The elements right below an element, in the order of their visits. -/
  children : α → List α
  /-- The size of an element. -/
  size : α → Nat
  /-- The elements right below an element are together smaller than the element. -/
  size_children : ∀ a, ((children a).map size).sum < size a

namespace Walk

variable {α β : Type}

/-- Visit the elements on a stack and all elements below them. The top element is taken off, and its
children are put in its place. -/
def visit (w : Walk α) : List α → List α
  | [] => []
  | a :: stack => a :: w.visit (w.children a ++ stack)
termination_by stack => (stack.map w.size).sum
decreasing_by
  have h := w.size_children a
  simp only [List.map_append, List.sum_append, List.map_cons, List.sum_cons]
  omega

/-- A walk runs through each element on the stack, and through the elements below it, before the
next. It does so in the order of any recursion that lists an element before those below it. -/
theorem map_visit (w : Walk α) (emit : α → β) {order : α → List β}
    (h : ∀ a, order a = emit a :: (w.children a).flatMap order) (stack : List α) :
    (w.visit stack).map emit = stack.flatMap order := by
  fun_induction visit w stack with
  | case1 => rfl
  | case2 a stack ih =>
    rw [List.map_cons, ih, List.flatMap_append, List.flatMap_cons, h a, List.cons_append]

end Walk

namespace Term

variable {s t u : Term} {is : List Nat}

/-- The number of places in a term. -/
def size (t : Term) : Nat := t.subterms.length

theorem size_eq (t : Term) : t.size = (t.args.map size).sum + 1 := by
  rw [size, subterms_eq, List.length_cons, List.length_flatMap]
  rfl

theorem size_lt_of_mem_args (h : u ∈ t.args) : u.size < t.size := by
  have hle : u.size ≤ (t.args.map size).sum := List.le_sum_of_mem (List.mem_map_of_mem h)
  rw [size_eq t]
  omega

theorem size_le_of_mem_subterms (h : s ∈ t.subterms) : s.size ≤ t.size := by
  induction t using args_induction with
  | h t ih =>
    rw [subterms_eq, List.mem_cons, List.mem_flatMap] at h
    rcases h with rfl | ⟨u, hu, hs⟩
    · exact Nat.le_refl _
    · exact (ih u hu hs).trans (size_lt_of_mem_args hu).le

/-- No term is a subterm of one of its arguments or summands. -/
theorem not_mem_subterms_args (t : Term) : t ∉ t.args.flatMap subterms := by
  intro h
  obtain ⟨u, hu, ht⟩ := List.mem_flatMap.1 h
  exact absurd (size_le_of_mem_subterms ht) (size_lt_of_mem_args hu).not_ge

/-- The walk through the subterms of a term. -/
def subtermWalk : Walk Term where
  children := args
  size := size
  size_children t := by
    rw [size_eq t]
    omega

/-- A walk with the term alone on its stack visits the subterms. -/
theorem visit_subtermWalk (t : Term) : subtermWalk.visit [t] = t.subterms := by
  have h := subtermWalk.map_visit id subterms_eq [t]
  rwa [List.map_id, List.flatMap_singleton] at h

theorem countInAll_eq (s : Term) (ts : List Term) :
    countInAll s ts = (ts.map (countIn s)).sum := by
  induction ts with
  | nil => rfl
  | cons t ts ih => rw [countInAll, ih, List.map_cons, List.sum_cons]

/-- Counting stops at an occurrence, and no other can be below. -/
theorem countIn_eq_count (s t : Term) : countIn s t = t.subterms.count s := by
  induction t using args_induction with
  | h t ih =>
    have hbelow : countInAll s t.args = (t.args.flatMap subterms).count s := by
      rw [countInAll_eq, List.count_flatMap]
      exact congrArg List.sum (List.map_congr_left ih)
    have hstep : countIn s t = if s = t then 1 else countInAll s t.args := by
      cases t <;> simp [countIn, args, countInAll]
    rw [hstep, subterms_eq, List.count_cons]
    by_cases hst : s = t
    · have hnone := List.count_eq_zero_of_not_mem (not_mem_subterms_args t)
      simp [hst, hnone]
    · simp [hst, Ne.symm hst, hbelow]

theorem pathsFrom_eq (i : Nat) (ts : List Term) :
    pathsFrom i ts = (ts.zipIdx i).flatMap fun u => u.1.paths.map (u.2 :: ·) := by
  induction ts generalizing i with
  | nil => simp [pathsFrom]
  | cons t ts ih => rw [pathsFrom, ih, List.zipIdx_cons, List.flatMap_cons]

/-- The paths in a term are the empty one and those through its arguments or summands. -/
theorem paths_eq (t : Term) :
    t.paths = [] :: (t.args.zipIdx 1).flatMap fun u => u.1.paths.map (u.2 :: ·) := by
  cases t with
  | app f ts => rw [paths, pathsFrom_eq, args]
  | sum ts => rw [paths, pathsFrom_eq, args]
  | _ => simp [paths, args]

/-- The places of arguments and summands are counted from one. -/
theorem mem_zipIdx_one {ts : List Term} {u : Term × Nat} :
    u ∈ ts.zipIdx 1 ↔ ∃ i, u.2 = i + 1 ∧ ts[i]? = some u.1 := by
  rw [List.mem_zipIdx_iff_le_and_getElem?_sub]
  constructor
  · rintro ⟨hle, h⟩
    exact ⟨u.2 - 1, (Nat.sub_add_cancel hle).symm, h⟩
  · rintro ⟨i, hi, h⟩
    rw [hi, Nat.add_sub_cancel]
    exact ⟨Nat.le_add_left 1 i, h⟩

/-- The paths lead to the subterms, in their order. -/
theorem map_descend_paths (t : Term) : t.paths.map t.descend = t.subterms.map some := by
  induction t using args_induction with
  | h t ih =>
    have hbelow : ∀ u ∈ t.args.zipIdx 1,
        (u.1.paths.map (u.2 :: ·)).map t.descend = u.1.subterms.map some := by
      intro u hu
      obtain ⟨i, hi, ha⟩ := mem_zipIdx_one.1 hu
      rw [← ih u.1 (List.mem_of_getElem? ha), List.map_map]
      refine List.map_congr_left fun is _ => ?_
      rw [Function.comp_apply, hi, descend_succ, ha, Option.bind_some]
    have hargs : (t.args.zipIdx 1).flatMap (fun u => u.1.subterms.map some) =
        t.args.flatMap fun u => u.subterms.map some := by
      conv_rhs => rw [← List.zipIdx_map_fst 1 t.args, List.flatMap_map]
    rw [paths_eq, subterms_eq, List.map_cons, List.map_cons, descend, List.map_flatMap,
      List.flatMap_congr hbelow, List.map_flatMap, hargs]

/-- The paths come in lexicographic order. -/
theorem pairwise_paths (t : Term) : t.paths.Pairwise (· < ·) := by
  induction t using args_induction with
  | h t ih =>
    rw [paths_eq, List.pairwise_cons, List.pairwise_flatMap]
    refine ⟨fun is his => ?_, fun u hu => ?_, ?_⟩
    · obtain ⟨u, _, h⟩ := List.mem_flatMap.1 his
      obtain ⟨js, _, rfl⟩ := List.mem_map.1 h
      exact List.nil_lt_cons _ _
    · obtain ⟨i, _, ha⟩ := mem_zipIdx_one.1 hu
      rw [List.pairwise_map]
      exact (ih u.1 (List.mem_of_getElem? ha)).imp fun h => List.cons_lt_cons_iff.2 (.inr ⟨rfl, h⟩)
    · have hplaces : (t.args.zipIdx 1).Pairwise fun u v => u.2 < v.2 := by
        rw [← List.pairwise_map, List.zipIdx_map_snd]
        exact List.pairwise_lt_range'
      refine hplaces.imp fun {u v} huv x hx y hy => ?_
      obtain ⟨is, _, rfl⟩ := List.mem_map.1 hx
      obtain ⟨js, _, rfl⟩ := List.mem_map.1 hy
      exact List.cons_lt_cons_iff.2 (.inl huv)

theorem mem_paths : is ∈ t.paths ↔ ∃ s, t.PathTo is s := by
  constructor
  · intro h
    have hmem : t.descend is ∈ t.subterms.map some :=
      map_descend_paths t ▸ List.mem_map_of_mem h
    obtain ⟨s, _, hs⟩ := List.mem_map.1 hmem
    exact ⟨s, descend_eq_some.1 hs.symm⟩
  · rintro ⟨s, h⟩
    induction h with
    | root t => simp [paths_eq t]
    | @step t a s i is ha _ ih =>
      rw [paths_eq]
      refine List.mem_cons_of_mem _ (List.mem_flatMap.2 ⟨(a, i + 1), ?_, List.mem_map_of_mem ih⟩)
      exact mem_zipIdx_one.2 ⟨i, rfl, ha⟩

/-- The walk through the positions of a term, with the subterms that they lead to. -/
def positionWalk : Walk (Position × Term) where
  children a := (a.2.args.zipIdx 1).map fun u => (a.1.child u.2, u.1)
  size a := a.2.size
  size_children a := by
    have hsize : (a.2.args.zipIdx 1).map (fun u => u.1.size) = a.2.args.map size := by
      conv_rhs => rw [← List.zipIdx_map_fst 1 a.2.args, List.map_map]
      rfl
    rw [size_eq a.2, List.map_map]
    exact Nat.lt_succ_of_le (congrArg List.sum hsize).le

/-- A walk with the root alone on its stack visits the positions. -/
theorem visit_positionWalk (t : Term) :
    (positionWalk.visit [(Position.root, t)]).map Prod.fst = t.positions := by
  have horder : ∀ a : Position × Term, (a.2.paths.map fun is => Position.mk (a.1.indices ++ is)) =
      a.1 :: (positionWalk.children a).flatMap fun b =>
        b.2.paths.map fun is => Position.mk (b.1.indices ++ is) := by
    intro a
    simp only [paths_eq a.2, positionWalk, List.map_cons, List.append_nil, List.map_flatMap,
      List.flatMap_map, List.map_map, Function.comp_def, Position.child, List.append_assoc,
      List.singleton_append]
  have h := positionWalk.map_visit Prod.fst horder [(Position.root, t)]
  rwa [List.flatMap_singleton] at h

theorem mem_positions {p : Position} : p ∈ t.positions ↔ ∃ s, t.subtermAt p = .ok s := by
  simp only [positions, List.mem_map, subtermAt_eq_ok, ← mem_paths]
  exact ⟨fun ⟨is, his, hp⟩ => hp ▸ his, fun h => ⟨p.indices, h, rfl⟩⟩

theorem pairwise_positions (t : Term) :
    t.positions.Pairwise fun p q => p.indices < q.indices :=
  List.pairwise_map.2 (pairwise_paths t)

theorem map_subtermAt_of_map_descend {paths : List (List Nat)} {us : List Term}
    (h : paths.map t.descend = us.map some) :
    (paths.map Position.mk).map t.subtermAt = us.map .ok := by
  induction paths generalizing us with
  | nil => rw [List.map_eq_nil_iff.1 h.symm]; rfl
  | cons is paths ih =>
    cases us with
    | nil => cases h
    | cons u us =>
      obtain ⟨hu, hus⟩ := List.cons.inj h
      have hat : t.subtermAt ⟨is⟩ = .ok u := subtermAt_eq_ok.2 (descend_eq_some.1 hu)
      rw [List.map_cons, List.map_cons, List.map_cons, hat, ih hus]

/-- At the positions stand the subterms, in their order. -/
theorem map_subtermAt_positions (t : Term) :
    t.positions.map t.subtermAt = t.subterms.map .ok :=
  map_subtermAt_of_map_descend (map_descend_paths t)

/-- The subterms of a term are those at its positions. -/
theorem mem_subterms_iff : s ∈ t.subterms ↔ ∃ p, t.subtermAt p = .ok s := by
  have hmem : s ∈ t.subterms ↔ .ok s ∈ t.positions.map t.subtermAt := by
    rw [map_subtermAt_positions, List.mem_map_of_injective fun _ _ => Except.ok.inj]
  rw [hmem, List.mem_map]
  exact ⟨fun ⟨p, _, h⟩ => ⟨p, h⟩, fun ⟨p, h⟩ => ⟨p, mem_positions.2 ⟨s, h⟩, h⟩⟩

/-- The proper subterms of a term are those at the positions other than the root. -/
theorem mem_tail_subterms_iff :
    s ∈ t.subterms.tail ↔ ∃ p, p ≠ Position.root ∧ t.subtermAt p = .ok s := by
  have hcons : t.positions = Position.root :: t.positions.tail := by rw [positions, paths_eq]; rfl
  have hroot : Position.root ∉ t.positions.tail := by
    have hnodup : t.positions.Nodup := (pairwise_positions t).imp fun h heq => by
      rw [heq] at h
      exact lt_irrefl _ h
    rw [hcons] at hnodup
    exact (List.nodup_cons.1 hnodup).1
  have hmem : s ∈ t.subterms.tail ↔ .ok s ∈ t.positions.tail.map t.subtermAt := by
    rw [List.map_tail, map_subtermAt_positions, ← List.map_tail,
      List.mem_map_of_injective fun _ _ => Except.ok.inj]
  rw [hmem, List.mem_map]
  constructor
  · rintro ⟨p, hp, h⟩
    exact ⟨p, fun heq => hroot (heq ▸ hp), h⟩
  · rintro ⟨p, hne, h⟩
    have hp : p ∈ Position.root :: t.positions.tail := hcons ▸ mem_positions.2 ⟨s, h⟩
    exact ⟨p, (List.mem_cons.1 hp).resolve_left hne, h⟩

/-- A term is counted once for each position where it is. -/
theorem countIn_eq_countP (s t : Term) :
    countIn s t = t.positions.countP fun p => t.subtermAt p = .ok s := by
  calc countIn s t = t.subterms.count s := countIn_eq_count s t
    _ = (t.subterms.map .ok).countP fun r => r = (.ok s : Except PositionError Term) := by
        rw [List.countP_map, List.count]
        refine List.countP_congr fun u _ => ?_
        simp
    _ = t.positions.countP fun p => t.subtermAt p = .ok s := by
        rw [← map_subtermAt_positions, List.countP_map]
        rfl

/-- All traversals of a term agree. The walks with a stack visit the positions and the subterms.
The positions come in pre-order, each once; they are where there is a subterm, and their subterms
are those that the other walk visits. A term is counted once for each position where it is, occurs
strictly below another if it is at a position that is not the root, and a variable occurs if it is
at some position. -/
theorem traversals_agree (t : Term) :
    subtermWalk.visit [t] = t.subterms ∧
      (positionWalk.visit [(Position.root, t)]).map Prod.fst = t.positions ∧
      t.positions.Pairwise (fun p q => p.indices < q.indices) ∧
      (∀ p, p ∈ t.positions ↔ ∃ s, t.subtermAt p = .ok s) ∧
      t.positions.map t.subtermAt = (subtermWalk.visit [t]).map .ok ∧
      (∀ s, countIn s t = t.positions.countP fun p => t.subtermAt p = .ok s) ∧
      (∀ s, t.contains s = true ↔ ∃ p, p ≠ Position.root ∧ t.subtermAt p = .ok s) ∧
      ∀ v, t.occurs v = true ↔ ∃ p, t.subtermAt p = .ok (.var v) := by
  refine ⟨visit_subtermWalk t, visit_positionWalk t, pairwise_positions t, fun p => mem_positions,
    ?_, fun s => countIn_eq_countP s t, fun s => ?_, fun v => ?_⟩
  · rw [visit_subtermWalk, map_subtermAt_positions]
  · rw [contains, List.contains_iff_mem, mem_tail_subterms_iff]
  · rw [occurs_eq_true, mem_vars_iff, mem_subterms_iff]

end Term

end SymbolicXor
