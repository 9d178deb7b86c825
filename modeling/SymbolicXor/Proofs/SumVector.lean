import SymbolicXor.Proofs.WellFormed
import Mathlib.Algebra.BigOperators.Group.List.Basic
import Mathlib.Algebra.CharP.Two
import Mathlib.Algebra.Field.ZMod
import Mathlib.Algebra.Group.Pi.Basic

/-!
# Sums as vectors modulo two

A canonical term is known by the set of its summands, and adding terms is adding the indicators of
these sets modulo two. Every law of exclusive or, and the fact that substitutions respect it, is
read off the indicators. The merging of equal summands enters through one fact: in a group of
exponent two, adding up the elements that occur an odd number of times gives the whole sum.
-/

namespace SymbolicXor

namespace OrderedList

variable {α : Type} [Ord α] [Std.LawfulEqOrd α]

/-- Toggling adds an element, in any group of exponent two. -/
theorem sum_map_toggle {M : Type} [AddCommMonoid M] (hM : ∀ m : M, m + m = 0) (F : α → M) (a : α)
    (l : List α) : ((toggle a l).map F).sum = F a + (l.map F).sum := by
  induction l with
  | nil => simp [toggle]
  | cons b l ih =>
    simp only [toggle]
    split
    · simp
    · rename_i h
      cases Std.LawfulEqOrd.eq_of_compare h
      rw [List.map_cons, List.sum_cons, ← add_assoc, hM, zero_add]
    · rw [List.map_cons, List.sum_cons, ih, List.map_cons, List.sum_cons, add_left_comm]

/-- The elements that occur an odd number of times add up to the sum of all. -/
theorem sum_map_oddOnes {M : Type} [AddCommMonoid M] (hM : ∀ m : M, m + m = 0) (F : α → M)
    (l : List α) : ((oddOnes l).map F).sum = (l.map F).sum := by
  induction l with
  | nil => rfl
  | cons a l ih =>
    change ((toggle a (oddOnes l)).map F).sum = _
    rw [sum_map_toggle hM, ih, List.map_cons, List.sum_cons]

variable [Std.TransOrd α]

omit [Std.LawfulEqOrd α] in
/-- Toggling keeps the order. -/
theorem ordered_toggle (a : α) {l : List α} (h : Ordered l) : Ordered (toggle a l) := by
  induction l with
  | nil => simp [toggle]
  | cons b l ih =>
    rw [Ordered, List.pairwise_cons] at h
    simp only [toggle]
    split
    · rename_i hab
      refine List.pairwise_cons.2 ⟨fun x hx => ?_, List.pairwise_cons.2 h⟩
      rcases List.mem_cons.1 hx with rfl | hx
      · exact hab
      · exact Std.TransCmp.lt_trans hab (h.1 x hx)
    · exact h.2
    · rename_i hab
      refine List.pairwise_cons.2 ⟨fun x hx => ?_, ih h.2⟩
      rcases mem_of_mem_toggle hx with rfl | hx
      · exact Std.OrientedCmp.lt_of_gt hab
      · exact h.1 x hx

omit [Std.LawfulEqOrd α] in
theorem ordered_oddOnes (l : List α) : Ordered (oddOnes l) := by
  induction l with
  | nil => exact List.Pairwise.nil
  | cons a l ih => exact ordered_toggle a ih

omit [Std.TransOrd α] in
theorem Ordered.nodup {l : List α} (h : Ordered l) : l.Nodup := by
  refine h.imp ?_
  intro a b hab heq
  rw [heq, Std.ReflOrd.compare_self] at hab
  cases hab

/-- Ordered lists with the same members are equal. -/
theorem Ordered.eq_of_mem_iff {l m : List α} (hl : Ordered l) (hm : Ordered m)
    (h : ∀ x, x ∈ l ↔ x ∈ m) : l = m := by
  refine List.Perm.eq_of_pairwise ?_ hl hm ((List.perm_ext_iff_of_nodup hl.nodup hm.nodup).2 h)
  intro a b _ _ hab hba
  have hswap : compare a b = (compare b a).swap := Std.OrientedCmp.eq_swap
  rw [hswap, hba] at hab
  cases hab

omit [Ord α] [Std.LawfulEqOrd α] [Std.TransOrd α] in
/-- In a list without repetitions every member is counted once. -/
theorem sum_single_apply [DecidableEq α] {l : List α} (h : l.Nodup) (a : α) :
    (l.map fun b => (Pi.single b 1 : α → ZMod 2)).sum a = if a ∈ l then 1 else 0 := by
  induction l with
  | nil => simp
  | cons b l ih =>
    obtain ⟨hb, hl⟩ := List.nodup_cons.1 h
    rw [List.map_cons, List.sum_cons, Pi.add_apply, ih hl]
    by_cases hab : a = b
    · subst hab
      simp [hb]
    · simp [hab]

/-- An ordered list is known by the indicator of its members. -/
theorem Ordered.eq_of_sum_single [DecidableEq α] {l m : List α} (hl : Ordered l) (hm : Ordered m)
    (h : (l.map fun b => (Pi.single b 1 : α → ZMod 2)).sum = (m.map fun b => Pi.single b 1).sum) :
    l = m := by
  refine hl.eq_of_mem_iff hm fun a => ?_
  have ha := congrFun h a
  rw [sum_single_apply hl.nodup, sum_single_apply hm.nodup] at ha
  by_cases hal : a ∈ l <;> by_cases ham : a ∈ m <;> simp_all

end OrderedList

namespace Term

@[simp] theorem summands_zero : zero.summands = [] := by
  simp [summands, zero]

theorem summands_of_atomic {t : Term} (h : t.Atomic) : t.summands = [t] := by
  obtain ⟨hz, hs⟩ := h
  cases t with
  | sum ts => simp [isSum] at hs
  | _ => simp [summands, hz]

theorem mem_summands_of_pair {t a b : Term} (h : t = sum [a, b]) :
    a ∈ t.summands ∧ b ∈ t.summands := by
  simp [h, summands]

/-- Two elements and the rest that make up the summands of a term are summands of it. -/
theorem mem_summands_of_perm {t a b : Term} {rest : List Term}
    (h : t.summands.Perm (a :: b :: rest)) :
    a ∈ t.summands ∧ b ∈ t.summands ∧ ∀ r ∈ rest, r ∈ t.summands := by
  refine ⟨h.mem_iff.2 List.mem_cons_self, h.mem_iff.2 ?_, fun r hr => h.mem_iff.2 ?_⟩
  · exact List.mem_cons_of_mem _ List.mem_cons_self
  · exact List.mem_cons_of_mem _ (List.mem_cons_of_mem _ hr)

/-- A term is zero, atomic or a sum. -/
theorem eq_zero_or_atomic_or_sum (t : Term) : t = zero ∨ t.Atomic ∨ ∃ ts, t = sum ts := by
  by_cases hz : t = zero
  · exact Or.inl hz
  · cases t with
    | sum ts => exact Or.inr (Or.inr ⟨ts, rfl⟩)
    | _ => exact Or.inr (Or.inl ⟨hz, rfl⟩)

theorem atomic_of_mem_summands {t a : Term} (h : t.Canonical) (ha : a ∈ t.summands) :
    a.Atomic := by
  rcases eq_zero_or_atomic_or_sum t with rfl | ht | ⟨ts, rfl⟩
  · simp at ha
  · rw [summands_of_atomic ht, List.mem_singleton] at ha
    exact ha ▸ ht
  · exact ((canonical_sum ts).1 h).1.2.2 a ha

theorem canonical_of_mem_summands {t a : Term} (h : t.Canonical) (ha : a ∈ t.summands) :
    a.Canonical := by
  rcases eq_zero_or_atomic_or_sum t with rfl | ht | ⟨ts, rfl⟩
  · simp at ha
  · rw [summands_of_atomic ht, List.mem_singleton] at ha
    exact ha ▸ h
  · exact ((canonical_sum ts).1 h).2 a ha

theorem ordered_summands {t : Term} (h : t.Canonical) : OrderedList.Ordered t.summands := by
  rcases eq_zero_or_atomic_or_sum t with rfl | ht | ⟨ts, rfl⟩
  · simp
  · simp [summands_of_atomic ht]
  · exact ((canonical_sum ts).1 h).1.2.1

theorem summands_ofSummands {l : List Term} (h : ∀ a ∈ l, a.Atomic) :
    (ofSummands l).summands = l := by
  match l with
  | [] => exact summands_zero
  | [a] => exact summands_of_atomic (h a List.mem_cons_self)
  | a :: b :: l => rfl

/-- A canonical term is made of its summands. -/
theorem ofSummands_summands {t : Term} (h : t.Canonical) : ofSummands t.summands = t := by
  rcases eq_zero_or_atomic_or_sum t with rfl | ht | ⟨ts, rfl⟩
  · rw [summands_zero, ofSummands]
  · rw [summands_of_atomic ht, ofSummands]
  · have hlen := ((canonical_sum ts).1 h).1.1
    rcases ts with _ | ⟨a, _ | ⟨b, l⟩⟩
    · simp at hlen
    · simp at hlen
    · rfl

theorem canonical_ofSummands {l : List Term} (hl : OrderedList.Ordered l)
    (ha : ∀ a ∈ l, a.Atomic) (hc : ∀ a ∈ l, a.Canonical) : (ofSummands l).Canonical := by
  match l with
  | [] => exact canonical_zero
  | [a] => exact hc a List.mem_cons_self
  | a :: b :: l => exact (canonical_sum _).2 ⟨⟨by simp, hl, ha⟩, hc⟩

section Xor

variable {ts : List Term}

theorem atomic_of_mem_cancel (h : ∀ t ∈ ts, t.Canonical) {a : Term} (ha : a ∈ cancel ts) :
    a.Atomic := by
  obtain ⟨t, ht, hat⟩ := List.mem_flatMap.1 (OrderedList.mem_of_mem_oddOnes ha)
  exact atomic_of_mem_summands (h t ht) hat

theorem summands_xor (h : ∀ t ∈ ts, t.Canonical) : (xor ts).summands = cancel ts :=
  summands_ofSummands fun _ ha => atomic_of_mem_cancel h ha

/-- A summand of a sum is a summand of one of the terms. -/
theorem exists_of_mem_summands_xor (h : ∀ t ∈ ts, t.Canonical) {a : Term}
    (ha : a ∈ (xor ts).summands) : ∃ t ∈ ts, a ∈ t.summands := by
  rw [summands_xor h] at ha
  exact List.mem_flatMap.1 (OrderedList.mem_of_mem_oddOnes ha)

/-- A sum of canonical terms is canonical. -/
theorem canonical_xor (h : ∀ t ∈ ts, t.Canonical) : (xor ts).Canonical := by
  refine canonical_ofSummands (OrderedList.ordered_oddOnes _)
    (fun _ ha => atomic_of_mem_cancel h ha) fun a ha => ?_
  obtain ⟨t, ht, hat⟩ := List.mem_flatMap.1 (OrderedList.mem_of_mem_oddOnes ha)
  exact canonical_of_mem_summands (h t ht) hat

/-- Adding up over the summands of a sum is adding up over the summands of the terms. -/
theorem sum_map_summands_xor {M : Type} [AddCommMonoid M] (hM : ∀ m : M, m + m = 0)
    (F : Term → M) (h : ∀ t ∈ ts, t.Canonical) :
    ((xor ts).summands.map F).sum = (ts.map fun t => (t.summands.map F).sum).sum := by
  rw [summands_xor h, cancel, OrderedList.sum_map_oddOnes hM]
  clear h
  induction ts with
  | nil => rfl
  | cons t ts ih =>
    rw [List.flatMap_cons, List.map_append, List.sum_append, ih, List.map_cons, List.sum_cons]

end Xor

/-- The indicator of the summands of a term, with values modulo two. -/
def vec (t : Term) : Term → ZMod 2 := (t.summands.map fun a => Pi.single a 1).sum

theorem add_self_eq_zero (m : Term → ZMod 2) : m + m = 0 :=
  funext fun _ => CharTwo.add_self_eq_zero _

@[simp] theorem vec_zero : vec zero = 0 := by
  simp [vec]

theorem vec_of_atomic {t : Term} (h : t.Atomic) : vec t = Pi.single t 1 := by
  simp [vec, summands_of_atomic h]

/-- Addition of terms is addition of indicators. -/
theorem vec_xor {ts : List Term} (h : ∀ t ∈ ts, t.Canonical) : vec (xor ts) = (ts.map vec).sum :=
  sum_map_summands_xor add_self_eq_zero _ h

theorem canonical_pair {s t : Term} (hs : s.Canonical) (ht : t.Canonical) :
    ∀ u ∈ [s, t], u.Canonical :=
  List.forall_mem_cons.2 ⟨hs, List.forall_mem_singleton.2 ht⟩

theorem vec_xor_pair {s t : Term} (hs : s.Canonical) (ht : t.Canonical) :
    vec (xor [s, t]) = vec s + vec t := by
  rw [vec_xor (canonical_pair hs ht), List.map_cons, List.map_singleton, List.sum_cons,
    List.sum_singleton]

/-- The indicator of a canonical term tells its summands. -/
theorem vec_apply {t : Term} (h : t.Canonical) (a : Term) :
    vec t a = if a ∈ t.summands then 1 else 0 :=
  OrderedList.sum_single_apply (ordered_summands h).nodup a

theorem vec_apply_ne_zero {t : Term} (h : t.Canonical) {a : Term} :
    vec t a ≠ 0 ↔ a ∈ t.summands := by
  rw [vec_apply h]
  split <;> simp_all

/-- Different atoms do not cancel. -/
theorem mem_summands_xor_of_nodup {l : List Term} (hl : l.Nodup) (hc : ∀ t ∈ l, t.Canonical)
    (hatom : ∀ t ∈ l, t.Atomic) {a : Term} (ha : a ∈ l) : a ∈ (xor l).summands := by
  have hvec : l.map vec = l.map fun b => Pi.single b 1 :=
    List.map_congr_left fun b hb => vec_of_atomic (hatom b hb)
  rw [← vec_apply_ne_zero (canonical_xor hc), vec_xor hc, hvec,
    OrderedList.sum_single_apply hl, if_pos ha]
  exact one_ne_zero

/-- A canonical term is known by its indicator. -/
theorem vec_inj {s t : Term} (hs : s.Canonical) (ht : t.Canonical) : vec s = vec t ↔ s = t := by
  refine ⟨fun h => ?_, fun h => h ▸ rfl⟩
  rw [← ofSummands_summands hs, ← ofSummands_summands ht,
    (ordered_summands hs).eq_of_sum_single (ordered_summands ht) h]

theorem eq_zero_iff_vec {t : Term} (h : t.Canonical) : t = zero ↔ vec t = 0 := by
  rw [← vec_zero, vec_inj h canonical_zero]

/-- Canonical terms cancel exactly if they are equal. -/
theorem xor_pair_eq_zero {s t : Term} (hs : s.Canonical) (ht : t.Canonical) :
    xor [s, t] = zero ↔ s = t := by
  rw [eq_zero_iff_vec (canonical_xor (canonical_pair hs ht)), vec_xor_pair hs ht, ← vec_inj hs ht]
  constructor
  · intro h
    rw [← add_zero (vec s), ← add_self_eq_zero (vec t), ← add_assoc, h, zero_add]
  · intro h
    rw [h, add_self_eq_zero]

theorem xor_singleton {t : Term} (h : t.Canonical) : xor [t] = t := by
  have hc : ∀ u ∈ [t], u.Canonical := by simp [h]
  rw [← vec_inj (canonical_xor hc) h, vec_xor hc]
  simp

/-- A canonical term is the sum of its summands. -/
theorem xor_summands {t : Term} (h : t.Canonical) : xor t.summands = t := by
  have hc : ∀ u ∈ t.summands, u.Canonical := fun _ => canonical_of_mem_summands h
  rw [← vec_inj (canonical_xor hc) h, vec_xor hc, vec]
  refine congrArg List.sum (List.map_congr_left ?_)
  intro a ha
  exact vec_of_atomic (atomic_of_mem_summands h ha)

/-- Terms without a summand add up to a term without it. -/
private theorem sum_vec_apply_eq_zero {ι : Type} {l : List ι} {F : ι → Term} {a : Term}
    (h : ∀ i ∈ l, (F i).vec a = 0) : (l.map fun i => (F i).vec).sum a = 0 := by
  induction l with
  | nil => rfl
  | cons i l ih =>
    obtain ⟨hi, hl⟩ := List.forall_mem_cons.1 h
    rw [List.map_cons, List.sum_cons, Pi.add_apply, hi, ih hl, add_zero]

/-- In a sum that is zero an atom has a partner: another summand of the same value. -/
theorem exists_partner {ι : Type} [DecidableEq ι] {l : List ι} (hl : l.Nodup) {F : ι → Term}
    (hF : ∀ i ∈ l, F i = zero ∨ (F i).Atomic) (hsum : (l.map fun i => (F i).vec).sum = 0) {i : ι}
    (hi : i ∈ l) (hatom : (F i).Atomic) : ∃ j ∈ l, j ≠ i ∧ F j = F i := by
  by_contra hnone
  have hrest : ∀ j ∈ l.erase i, (F j).vec (F i) = 0 := by
    intro j hj
    obtain ⟨hji, hjl⟩ := hl.mem_erase_iff.1 hj
    have hne : F i ≠ F j := fun heq => hnone ⟨j, hjl, hji, heq.symm⟩
    rcases hF j hjl with hz | ha
    · rw [hz, vec_zero]
      rfl
    · rw [vec_of_atomic ha, Pi.single_eq_of_ne hne]
  have happly : ((l.map fun i => (F i).vec).sum) (F i) = 1 := by
    rw [((List.perm_cons_erase hi).map _).sum_eq, List.map_cons, List.sum_cons, Pi.add_apply,
      vec_of_atomic hatom, Pi.single_eq_same, sum_vec_apply_eq_zero hrest, add_zero]
  rw [hsum] at happly
  exact zero_ne_one happly

end Term

end SymbolicXor
