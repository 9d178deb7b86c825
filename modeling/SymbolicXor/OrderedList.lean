/-!
# Lists in increasing order

A finite set is kept as the list of its members in increasing order, so that equal sets are equal
lists. Besides insertion there is the toggle, which removes a member and inserts anything else: the
symmetric difference with a single element.
-/

namespace SymbolicXor.OrderedList

variable {α : Type} [Ord α]

/-- Every element lies strictly below all later ones. -/
abbrev Ordered (l : List α) : Prop := l.Pairwise fun a b => compare a b = .lt

/-- Insert an element at its place; a member already there is replaced by it. -/
def insert (a : α) : List α → List α
  | [] => [a]
  | b :: l =>
    match compare a b with
    | .lt => a :: b :: l
    | .eq => a :: l
    | .gt => b :: insert a l

/-- Remove an element that is there, or insert one that is not. -/
def toggle (a : α) : List α → List α
  | [] => [a]
  | b :: l =>
    match compare a b with
    | .lt => a :: b :: l
    | .eq => l
    | .gt => b :: toggle a l

/-- The members of a list in increasing order, each once. -/
def ofList (l : List α) : List α := l.foldr insert []

/-- The members that occur an odd number of times, in increasing order. -/
def oddOnes (l : List α) : List α := l.foldr toggle []

variable [Std.LawfulEqOrd α]

@[simp] theorem mem_insert {a x : α} {l : List α} : x ∈ insert a l ↔ x = a ∨ x ∈ l := by
  induction l with
  | nil => simp [insert]
  | cons b l ih =>
    simp only [insert]
    split
    · simp
    · rename_i h
      cases Std.LawfulEqOrd.eq_of_compare h
      simp
    · simp only [List.mem_cons, ih]
      exact or_left_comm

@[simp] theorem mem_ofList {x : α} {l : List α} : x ∈ ofList l ↔ x ∈ l := by
  induction l with
  | nil => simp [ofList]
  | cons a l ih => simp only [ofList, List.foldr_cons, mem_insert, List.mem_cons, ← ih]

omit [Std.LawfulEqOrd α] in
theorem mem_of_mem_toggle {a x : α} {l : List α} (h : x ∈ toggle a l) : x = a ∨ x ∈ l := by
  induction l with
  | nil => simpa [toggle] using h
  | cons b l ih =>
    simp only [toggle] at h
    split at h
    · simpa using h
    · exact Or.inr (List.mem_cons_of_mem _ h)
    · rcases List.mem_cons.1 h with h | h
      · exact Or.inr (h ▸ List.mem_cons_self)
      · exact (ih h).imp_right (List.mem_cons_of_mem _)

omit [Std.LawfulEqOrd α] in
theorem mem_of_mem_oddOnes {x : α} {l : List α} (h : x ∈ oddOnes l) : x ∈ l := by
  induction l with
  | nil => simp [oddOnes] at h
  | cons a l ih =>
    rcases mem_of_mem_toggle h with rfl | h
    · exact List.mem_cons_self
    · exact List.mem_cons_of_mem _ (ih h)

variable [Std.TransOrd α]

/-- Insertion keeps the order. -/
theorem ordered_insert (a : α) {l : List α} (h : Ordered l) : Ordered (insert a l) := by
  induction l with
  | nil => simp [insert]
  | cons b l ih =>
    rw [Ordered, List.pairwise_cons] at h
    simp only [insert]
    split
    · rename_i hab
      refine List.pairwise_cons.2 ⟨fun x hx => ?_, List.pairwise_cons.2 h⟩
      rcases List.mem_cons.1 hx with rfl | hx
      · exact hab
      · exact Std.TransCmp.lt_trans hab (h.1 x hx)
    · rename_i hab
      cases Std.LawfulEqOrd.eq_of_compare hab
      exact List.pairwise_cons.2 h
    · rename_i hab
      refine List.pairwise_cons.2 ⟨fun x hx => ?_, ih h.2⟩
      rcases mem_insert.1 hx with rfl | hx
      · exact Std.OrientedCmp.lt_of_gt hab
      · exact h.1 x hx

/-- The collected list is in order. -/
theorem ordered_ofList (l : List α) : Ordered (ofList l) := by
  induction l with
  | nil => exact List.Pairwise.nil
  | cons a l ih => exact ordered_insert a ih

end SymbolicXor.OrderedList
