import SymbolicXor.Proofs.SumVector

/-!
# Neighbours that cancel

The elements that occur an odd number of times may be found without toggles: the list is sorted, and
then read from its start into a stack, where an element that finds its equal on top takes it away
instead of being put there. The stack stays in order, and in any group of exponent two it adds up to
what was read. So in the end it holds the same elements as the toggles leave.
-/

namespace SymbolicXor

namespace OrderedList

variable {α : Type} [DecidableEq α]

/-- Take away the top of a stack, which is its last element, if it is equal to the given element;
put the element there otherwise. -/
def pushOrPop (stack : List α) (a : α) : List α :=
  if stack.getLast? = some a then stack.dropLast else stack ++ [a]

theorem pushOrPop_append_self (stack : List α) (a : α) : pushOrPop (stack ++ [a]) a = stack := by
  simp [pushOrPop]

theorem pushOrPop_of_ne {stack : List α} {a : α} (h : stack.getLast? ≠ some a) :
    pushOrPop stack a = stack ++ [a] := if_neg h

/-- An element is added, in any group of exponent two. -/
theorem sum_map_pushOrPop {M : Type} [AddCommMonoid M] (hM : ∀ m : M, m + m = 0) (F : α → M)
    (stack : List α) (a : α) :
    ((pushOrPop stack a).map F).sum = (stack.map F).sum + F a := by
  by_cases h : stack.getLast? = some a
  · obtain ⟨below, rfl⟩ := List.getLast?_eq_some_iff.1 h
    rw [pushOrPop_append_self, List.map_append, List.sum_append, add_assoc, List.map_singleton,
      List.sum_singleton, hM, add_zero]
  · rw [pushOrPop_of_ne h, List.map_append, List.sum_append, List.map_singleton, List.sum_singleton]

/-- All elements that are read are added. -/
theorem sum_map_foldl_pushOrPop {M : Type} [AddCommMonoid M] (hM : ∀ m : M, m + m = 0) (F : α → M)
    (l stack : List α) :
    ((l.foldl pushOrPop stack).map F).sum = (stack.map F).sum + (l.map F).sum := by
  induction l generalizing stack with
  | nil => simp
  | cons a l ih =>
    rw [List.foldl_cons, ih, sum_map_pushOrPop hM, List.map_cons, List.sum_cons, add_assoc]

variable [Ord α]

/-- Sort a list, and let equal neighbours cancel. -/
def cancelNeighbours (l : List α) : List α :=
  (l.mergeSort fun a b => (compare a b).isLE).foldl pushOrPop []

theorem sum_map_cancelNeighbours {M : Type} [AddCommMonoid M] (hM : ∀ m : M, m + m = 0) (F : α → M)
    (l : List α) : ((cancelNeighbours l).map F).sum = (l.map F).sum := by
  rw [cancelNeighbours, sum_map_foldl_pushOrPop hM, List.map_nil, List.sum_nil, zero_add]
  exact ((List.mergeSort_perm l _).map F).sum_eq

variable [Std.LawfulEqOrd α] [Std.TransOrd α]

/-- The stack stays in order if nothing in it is above the element. -/
theorem ordered_pushOrPop {stack : List α} {a : α} (h : Ordered stack)
    (ha : ∀ b ∈ stack, (compare b a).isLE) : Ordered (pushOrPop stack a) := by
  by_cases hlast : stack.getLast? = some a
  · obtain ⟨below, rfl⟩ := List.getLast?_eq_some_iff.1 hlast
    rw [pushOrPop_append_self]
    exact (List.pairwise_append.1 h).1
  · rw [pushOrPop_of_ne hlast, Ordered, List.pairwise_append]
    refine ⟨h, List.pairwise_singleton _ _, fun b hb c hc => ?_⟩
    rw [List.mem_singleton.1 hc]
    obtain ⟨below, top, rfl⟩ := (List.eq_nil_or_concat' stack).resolve_left (List.ne_nil_of_mem hb)
    have htop : compare top a = .lt := by
      have hne : top ≠ a := fun heq => hlast (by simp [heq])
      have hle := ha top (by simp)
      cases hcmp : compare top a with
      | lt => rfl
      | eq => exact absurd (Std.LawfulEqOrd.eq_of_compare hcmp) hne
      | gt => simp [hcmp] at hle
    rcases List.mem_append.1 hb with hb | hb
    · exact Std.TransCmp.lt_trans ((List.pairwise_append.1 h).2.2 b hb top (by simp)) htop
    · rw [List.mem_singleton.1 hb]
      exact htop

/-- The stack stays in order while a sorted list is read. -/
theorem ordered_foldl_pushOrPop {l stack : List α} (hl : l.Pairwise fun a b => (compare a b).isLE)
    (h : Ordered stack) (hle : ∀ b ∈ stack, ∀ a ∈ l, (compare b a).isLE) :
    Ordered (l.foldl pushOrPop stack) := by
  induction l generalizing stack with
  | nil => exact h
  | cons a l ih =>
    obtain ⟨ha, hl⟩ := List.pairwise_cons.1 hl
    refine ih hl (ordered_pushOrPop h fun b hb => hle b hb a List.mem_cons_self) fun b hb c hc => ?_
    have hmem : b ∈ stack ∨ b = a := by
      rw [pushOrPop] at hb
      split at hb
      · exact Or.inl (List.mem_of_mem_dropLast hb)
      · simpa using hb
    rcases hmem with hb | rfl
    · exact hle b hb c (List.mem_cons_of_mem _ hc)
    · exact ha c hc

theorem ordered_cancelNeighbours (l : List α) : Ordered (cancelNeighbours l) := by
  refine ordered_foldl_pushOrPop (List.pairwise_mergeSort ?_ ?_ l) List.Pairwise.nil (by simp)
  · exact fun _ _ _ => Std.TransCmp.isLE_trans
  · intro a b
    have hswap : compare a b = (compare b a).swap := Std.OrientedCmp.eq_swap
    rw [hswap]
    cases compare b a <;> rfl

/-- The elements that are left occur an odd number of times. -/
theorem cancelNeighbours_eq_oddOnes (l : List α) : cancelNeighbours l = oddOnes l := by
  have hM (m : α → ZMod 2) : m + m = 0 := funext fun _ => CharTwo.add_self_eq_zero _
  refine (ordered_cancelNeighbours l).eq_of_sum_single (ordered_oddOnes l) ?_
  rw [sum_map_cancelNeighbours hM, sum_map_oddOnes hM]

end OrderedList

/-- The canonical sum of terms: flattened into summands, sorted, and freed of equal neighbours. -/
theorem Term.xor_eq_ofSummands_cancelNeighbours (ts : List Term) :
    Term.xor ts = ofSummands (OrderedList.cancelNeighbours (ts.flatMap summands)) := by
  rw [OrderedList.cancelNeighbours_eq_oddOnes]
  rfl

end SymbolicXor
