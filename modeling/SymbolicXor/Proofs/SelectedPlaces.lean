import SymbolicXor.Selection
import Mathlib.Data.List.Sort
import Mathlib.Logic.Function.Iterate

/-!
# Selecting places

The sublists of a given length stand for the selections of that many places of the list. A loop can
list these selections too: it holds one of them, moves its last place that can still move on by one,
and puts the places after it right behind it. In this way every selection but the last one turns
into the next one. So the loop comes to an end, stays inside its list and lists what the recursion
lists: each increasing list of places once, in lexicographic order.
-/

namespace SymbolicXor.Selection

/-- The faults of a loop over a list of places. -/
inductive Fault where
  /-- A place is read or written at an index that the list does not have. -/
  | outOfRange
  /-- A difference is below zero. -/
  | underflow

/-- The place at an index. -/
def read (is : List Nat) (j : Nat) : Except Fault Nat :=
  match is[j]? with
  | some i => .ok i
  | none => .error .outOfRange

/-- Change the place at an index. -/
def write (is : List Nat) (j i : Nat) : Except Fault (List Nat) :=
  if j < is.length then .ok (is.set j i) else .error .outOfRange

/-- A difference. -/
def minus (a b : Nat) : Except Fault Nat := if b ≤ a then .ok (a - b) else .error .underflow

/-- The last index below a bound whose place can still move. Of `k` places below `n`, the one at the
index `j` is at most `j + n - k`. -/
def movable? (n k : Nat) (is : List Nat) : Nat → Except Fault (Option Nat)
  | 0 => .ok none
  | j + 1 => do
    let place ← read is j
    let last ← minus (j + n) k
    if place ≠ last then .ok (some j) else movable? n k is j

/-- Put the place at an index right behind the one before it. -/
def putBehind (is : List Nat) (j : Nat) : Except Fault (List Nat) := do
  let before ← minus j 1
  let place ← read is before
  write is j (place + 1)

/-- Move the last place that can still move on by one, and put those after it right behind it. -/
def next? (n k : Nat) (is : List Nat) : Except Fault (Option (List Nat)) := do
  match ← movable? n k is k with
  | none => .ok none
  | some j =>
    let place ← read is j
    let moved ← write is j (place + 1)
    let js ← (List.range' (j + 1) (k - (j + 1))).foldlM putBehind moved
    .ok (some js)

/-- Where the loop stands. -/
inductive Loop where
  /-- It is about to record a selection, after those that it has found. -/
  | listing (found : List (List Nat)) (is : List Nat)
  /-- It has returned its selections. -/
  | returned (found : List (List Nat))
  /-- It has stopped at a fault. -/
  | failed (fault : Fault)

/-- One round of the loop over the selections of `k` places below `n`. -/
def Loop.step (n k : Nat) : Loop → Loop
  | listing found is =>
    match next? n k is with
    | .error e => failed e
    | .ok none => returned (found ++ [is])
    | .ok (some js) => listing (found ++ [is]) js
  | s => s

/-- Before the first round: with the first places, unless there are too few. -/
def Loop.start (n k : Nat) : Loop := if n < k then returned [] else listing [] (List.range k)

variable {α β : Type} {n k m : Nat} {is js : List Nat} {l : List (List Nat)}

/-- No place can move: these are the last places below `n`. -/
def AtEnd (n : Nat) (is : List Nat) : Prop := is = List.range' (n - is.length) is.length

/-- A place moves on by one. Those after it cannot move, and are put right behind it. -/
inductive Advances (n : Nat) : List Nat → List Nat → Prop where
  | move (before : List Nat) (i : Nat) {after : List Nat} (hafter : AtEnd n after)
      (hi : i + after.length + 1 ≠ n) :
      Advances n (before ++ i :: after) (before ++ List.range' (i + 1) (after.length + 1))

@[simp] theorem ok_bind (a : α) (f : α → Except Fault β) : (.ok a >>= f) = f a := rfl

@[simp] theorem read_append (before : List Nat) (i : Nat) (after : List Nat) :
    read (before ++ i :: after) before.length = .ok i := by
  simp [read]

@[simp] theorem write_append (before : List Nat) (i j : Nat) (after : List Nat) :
    write (before ++ i :: after) before.length j = .ok (before ++ j :: after) := by
  simp [write]

theorem minus_of_le {a b : Nat} (h : b ≤ a) : minus a b = .ok (a - b) := if_pos h

theorem read_of_atEnd (before : List Nat) {after : List Nat} (h : AtEnd n after)
    (hm : m < after.length) :
    read (before ++ after) (before.length + m) = .ok (n - after.length + m) := by
  have hlast : after[m]? = some (n - after.length + m) := by
    rw [h, List.length_range', List.getElem?_range' hm, Nat.one_mul]
  rw [read, List.getElem?_append_right (Nat.le_add_right _ _), Nat.add_sub_cancel_left, hlast]

/-- Places that cannot move are passed over. -/
theorem movable?_of_atEnd (before : List Nat) {after : List Nat} (h : AtEnd n after)
    (hk : before.length + after.length = k) (hkn : k ≤ n) (hm : m ≤ after.length) :
    movable? n k (before ++ after) (before.length + m) =
      movable? n k (before ++ after) before.length := by
  induction m with
  | zero => rfl
  | succ m ih =>
    have hminus : minus (before.length + m + n) k = .ok (n - after.length + m) := by
      rw [minus_of_le (by omega)]
      exact congrArg _ (by omega)
    rw [← Nat.add_assoc, movable?, read_of_atEnd before h hm, hminus]
    simpa using ih (Nat.le_of_succ_le hm)

/-- The places after one are put behind it one by one. -/
theorem foldlM_putBehind (before : List Nat) (i : Nat) (after : List Nat) :
    (List.range' (before.length + 1) after.length).foldlM putBehind (before ++ i :: after) =
      .ok (before ++ List.range' i (after.length + 1)) := by
  induction after generalizing before i with
  | nil => rfl
  | cons a after ih =>
    have hput : putBehind (before ++ i :: a :: after) (before.length + 1) =
        .ok (before ++ i :: (i + 1) :: after) := by
      have hwrite := write_append (before ++ [i]) a (i + 1) after
      rw [List.append_assoc, List.append_assoc, List.length_append] at hwrite
      rw [putBehind, minus_of_le (Nat.le_add_left 1 _), Nat.add_sub_cancel]
      simpa using hwrite
    have hrest := ih (before ++ [i]) (i + 1)
    rw [List.append_assoc, List.append_assoc, List.length_append] at hrest
    rw [List.length_cons, List.range'_succ, List.foldlM_cons, hput, List.range'_succ]
    exact hrest

theorem next?_of_atEnd (h : AtEnd n is) (hk : is.length = k) (hkn : k ≤ n) :
    next? n k is = .ok none := by
  have hnone := movable?_of_atEnd [] h ((Nat.zero_add _).trans hk) hkn hk.ge
  rw [List.length_nil, Nat.zero_add, List.nil_append, movable?] at hnone
  rw [next?, hnone]
  rfl

theorem next?_of_advances (h : Advances n is js) (hk : is.length = k) (hkn : k ≤ n) :
    next? n k is = .ok (some js) := by
  obtain @⟨before, i, after, hafter, hi⟩ := h
  rw [List.length_append, List.length_cons, ← Nat.succ_add_eq_add_succ] at hk
  have hpass : movable? n k (before ++ i :: after) k =
      movable? n k (before ++ i :: after) (before.length + 1) := by
    have h := movable?_of_atEnd (before ++ [i]) hafter
      (by rwa [List.length_append]) hkn le_rfl
    rw [List.append_assoc, List.length_append] at h
    subst hk
    exact h
  have hmovable : movable? n k (before ++ i :: after) k = .ok (some before.length) := by
    have hne : i ≠ before.length + n - k := by omega
    rw [hpass, movable?, read_append, minus_of_le (by omega), ok_bind, ok_bind, if_pos hne]
  have hrest : k - (before.length + 1) = after.length := by omega
  rw [next?, hmovable]
  simp [hrest, foldlM_putBehind]

/-- The selections below `n` that follow each other from one on until none of its places can
move. -/
inductive Visits (n : Nat) : List Nat → List (List Nat) → Prop where
  | last {is : List Nat} (h : AtEnd n is) : Visits n is [is]
  | next {is js : List Nat} {l : List (List Nat)} (h : Advances n is js) (hl : Visits n js l) :
      Visits n is (is :: l)

theorem Advances.length_eq (h : Advances n is js) : js.length = is.length := by
  cases h
  simp

theorem Advances.cons (h : Advances n is js) (i : Nat) : Advances n (i :: is) (i :: js) := by
  obtain ⟨before, j, hafter, hj⟩ := h
  exact .move (i :: before) j hafter hj

/-- The loop returns the selections that are visited, after one round for each of them. -/
theorem Visits.iterate_step (h : Visits n is l) (hk : is.length = k) (hkn : k ≤ n)
    (found : List (List Nat)) :
    (Loop.step n k)^[l.length] (.listing found is) = .returned (found ++ l) := by
  induction h generalizing found with
  | last h => rw [List.length_singleton, Function.iterate_one, Loop.step, next?_of_atEnd h hk hkn]
  | @next is js l h _ ih =>
    have hrest := ih (h.length_eq.trans hk) (found ++ [is])
    rw [List.append_assoc, List.singleton_append] at hrest
    rw [List.length_cons, Function.iterate_succ_apply, Loop.step, next?_of_advances h hk hkn]
    exact hrest

/-- A place that cannot move stands before all that is visited behind it. -/
theorem Visits.cons (h : Visits n is l) {i : Nat} (hi : i + is.length + 1 = n) :
    Visits n (i :: is) (l.map (i :: ·)) := by
  induction h with
  | @last is h =>
    have hstart : n - (is.length + 1) = i := by omega
    have hrest : i + 1 = n - is.length := by omega
    refine .last ?_
    rw [AtEnd, List.length_cons, hstart, List.range'_succ, hrest, ← h]
  | next h _ ih => exact .next (h.cons i) (ih (by rwa [h.length_eq]))

/-- A place that can move does so after all that is visited behind it. -/
theorem Visits.cons_append (h : Visits n is l) {i : Nat} (hi : i + is.length + 1 ≠ n)
    {l' : List (List Nat)} (h' : Visits n (List.range' (i + 1) (is.length + 1)) l') :
    Visits n (i :: is) (l.map (i :: ·) ++ l') := by
  induction h with
  | last h => exact .next (.move [] i h hi) h'
  | next h _ ih =>
    rw [← h.length_eq] at hi h'
    exact .next (h.cons i) (ih hi h')

section Sublists

variable {c s : List α}

/-- The choices are the sublists of the given length. -/
theorem mem_choose : c ∈ choose k s ↔ c.Sublist s ∧ c.length = k := by
  induction s generalizing k c with
  | nil =>
    cases k with
    | zero => simp [choose]
    | succ k =>
      simp only [choose, List.not_mem_nil, List.sublist_nil, false_iff, not_and]
      rintro rfl
      exact Nat.succ_ne_zero k |>.symm
  | cons a s ih =>
    cases k with
    | zero =>
      rw [choose, List.mem_singleton, List.length_eq_zero_iff]
      exact ⟨fun h => ⟨h ▸ List.nil_sublist _, h⟩, And.right⟩
    | succ k =>
      simp only [choose, List.mem_append, List.mem_map, ih]
      constructor
      · rintro (⟨d, ⟨hd, rfl⟩, rfl⟩ | ⟨hc, hk⟩)
        · exact ⟨hd.cons_cons a, rfl⟩
        · exact ⟨hc.cons a, hk⟩
      · rintro ⟨hc, hk⟩
        cases hc with
        | cons _ h => exact .inr ⟨h, hk⟩
        | cons_cons _ h => exact .inl ⟨_, ⟨h, Nat.succ.inj hk⟩, rfl⟩

theorem choose_eq_nil : choose k s = [] ↔ s.length < k := by
  rw [List.eq_nil_iff_forall_not_mem]
  constructor
  · intro h
    by_contra hle
    exact h (s.take k) (mem_choose.2 ⟨s.take_sublist k, List.length_take_of_le (not_lt.1 hle)⟩)
  · intro hlt c hc
    obtain ⟨hsub, rfl⟩ := mem_choose.1 hc
    exact absurd hsub.length_le hlt.not_ge

/-- A search through all sublists fails only if it fails for each of them. -/
theorem findSubset?_eq_none {f : List α → Option β} :
    findSubset? f s = none ↔ ∀ c, c.Sublist s → f c = none := by
  simp only [findSubset?, List.findSome?_eq_none_iff, List.mem_range, Nat.lt_succ_iff, mem_choose]
  constructor
  · exact fun h c hc => h c.length hc.length_le c ⟨hc, rfl⟩
  · exact fun h _ _ c hc => h c hc.1

/-- Choosing does not look at the elements. -/
theorem choose_map (f : α → β) (s : List α) (k : Nat) :
    choose k (s.map f) = (choose k s).map (List.map f) := by
  fun_induction choose k s with
  | case1 => simp [choose]
  | case2 => simp [choose]
  | case3 k a s ih ih' => simp [choose, ih, ih']

/-- From an increasing list, the sublists are chosen in lexicographic order. -/
theorem pairwise_choose {s : List Nat} (hs : s.Pairwise (· < ·)) (k : Nat) :
    (choose k s).Pairwise (· < ·) := by
  fun_induction choose k s with
  | case1 => exact List.pairwise_singleton _ _
  | case2 => exact List.Pairwise.nil
  | case3 k a s ih ih' =>
    obtain ⟨ha, hs⟩ := List.pairwise_cons.1 hs
    refine List.pairwise_append.2 ⟨?_, ih' hs, fun c hc d hd => ?_⟩
    · rw [List.pairwise_map]
      exact (ih hs).imp fun h => List.cons_lt_cons_iff.2 (.inr ⟨rfl, h⟩)
    · obtain ⟨c, _, rfl⟩ := List.mem_map.1 hc
      obtain ⟨hsub, hlength⟩ := mem_choose.1 hd
      cases d with
      | nil => cases hlength
      | cons b d =>
        exact List.cons_lt_cons_iff.2 (.inl (ha b (hsub.subset List.mem_cons_self)))

/-- The sublists of the numbers below `n` are the increasing lists of numbers below `n`. -/
theorem sublist_range : is.Sublist (List.range n) ↔ is.Pairwise (· < ·) ∧ ∀ i ∈ is, i < n := by
  constructor
  · intro h
    exact ⟨List.pairwise_lt_range.sublist h, fun i hi => List.mem_range.1 (h.subset hi)⟩
  · rintro ⟨hlt, hn⟩
    have hsub : is.Subperm (List.range n) :=
      List.subperm_of_subset (hlt.imp Nat.ne_of_lt) fun i hi => List.mem_range.2 (hn i hi)
    exact List.sublist_of_subperm_of_pairwise hsub hlt List.pairwise_lt_range

end Sublists

/-- The selections that are chosen follow each other, from the first places on. -/
theorem visits_choose (h : k ≤ m) (s : Nat) :
    Visits (s + m) (List.range' s k) (choose k (List.range' s m)) := by
  induction m generalizing s k with
  | zero =>
    rw [Nat.le_zero.1 h]
    exact .last rfl
  | succ m ih =>
    cases k with
    | zero => exact .last rfl
    | succ k =>
      have hle : k ≤ m := Nat.le_of_succ_le_succ h
      have hfirst := ih hle (s + 1)
      rw [List.range'_succ, List.range'_succ, choose, Nat.add_comm m 1, ← Nat.add_assoc]
      rcases Nat.lt_or_eq_of_le hle with hlt | rfl
      · refine hfirst.cons_append ?_ ?_
        · rw [List.length_range']
          omega
        · rw [List.length_range']
          exact ih hlt (s + 1)
      · have hnone : choose (k + 1) (List.range' (s + 1) k) = [] :=
          choose_eq_nil.2 (by rw [List.length_range']; exact Nat.lt_succ_self k)
        rw [hnone, List.append_nil]
        exact hfirst.cons (by rw [List.length_range']; omega)

/-- The loop returns the choices, after one round for each of them. -/
theorem iterate_step_start (n k : Nat) :
    (Loop.step n k)^[(choose k (List.range n)).length] (.start n k) =
      .returned (choose k (List.range n)) := by
  unfold Loop.start
  split
  · rename_i h
    rw [choose_eq_nil.2 (by rwa [List.length_range]), List.length_nil, Function.iterate_zero_apply]
  · rename_i h
    have hvisits := visits_choose (not_lt.1 h) 0
    rw [Nat.zero_add, ← List.range_eq_range', ← List.range_eq_range'] at hvisits
    exact hvisits.iterate_step List.length_range (not_lt.1 h) []

/-- Choosing from a list is choosing from its places. -/
theorem map_getElem?_choose (s : List α) (k : Nat) :
    (choose k (List.range s.length)).map (List.map (s[·]?)) = (choose k s).map (List.map some) := by
  have hplaces : (List.range s.length).map (s[·]?) = s.map some := by
    refine List.ext_getElem (by simp) fun i hi _ => ?_
    simp
  rw [← choose_map, hplaces, choose_map]

/-- The loop comes to an end without a fault, and returns the selections of places that are chosen
by recursion: all increasing lists of `k` places below `n`, each once, in lexicographic order. There
are none if `k` is too large, and the empty one alone if `k` is zero. The selections of the places
of a list lead to its sublists, and a search through all sublists skips none. -/
theorem choose_range_exhaustive (n k : Nat) :
    (Loop.step n k)^[(choose k (List.range n)).length] (.start n k) =
        .returned (choose k (List.range n)) ∧
      (∀ is, is ∈ choose k (List.range n) ↔
        is.length = k ∧ is.Pairwise (· < ·) ∧ ∀ i ∈ is, i < n) ∧
      (choose k (List.range n)).Pairwise (· < ·) ∧
      (choose k (List.range n)).Nodup ∧
      (choose k (List.range n) = [] ↔ n < k) ∧
      (choose k (List.range n) = [[]] ↔ k = 0) ∧
      (∀ (α : Type) (s : List α),
        (choose k (List.range s.length)).map (List.map (s[·]?)) =
          (choose k s).map (List.map some)) ∧
      ∀ (α β : Type) (f : List α → Option β) (s : List α),
        findSubset? f s = none ↔ ∀ c, c.Sublist s → f c = none := by
  have hmem (is : List Nat) : is ∈ choose k (List.range n) ↔
      is.length = k ∧ is.Pairwise (· < ·) ∧ ∀ i ∈ is, i < n := by
    rw [mem_choose, sublist_range, and_comm]
  have hlex : (choose k (List.range n)).Pairwise (· < ·) :=
    pairwise_choose List.pairwise_lt_range k
  refine ⟨iterate_step_start n k, hmem, hlex, hlex.imp fun h heq => ?_, ?_, ?_,
    fun _ s => map_getElem?_choose s k, fun _ _ _ _ => findSubset?_eq_none⟩
  · exact List.lt_irrefl _ (heq ▸ h)
  · rw [choose_eq_nil, List.length_range]
  · constructor
    · intro h
      exact ((hmem []).1 (h ▸ List.mem_singleton_self [])).1.symm
    · rintro rfl
      rw [choose]

end SymbolicXor.Selection
