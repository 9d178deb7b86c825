/-!
# Finite maps in key order

A finite map is the list of its entries by strictly increasing key. Two maps that look up the same
values are therefore the same value, and everything that walks through a map does so in key order.
-/

namespace SymbolicXor

/-- A finite map from `κ` to `α`. -/
structure FinMap (κ α : Type) [Ord κ] where
  /-- The entries, by increasing key. -/
  entries : List (κ × α)
  /-- Keys increase strictly along the entries. -/
  ordered : entries.Pairwise fun a b => compare a.1 b.1 = .lt
deriving DecidableEq

namespace FinMap

variable {κ α β : Type} [Ord κ]

/-- The map without entries. -/
def empty : FinMap κ α := ⟨[], List.Pairwise.nil⟩

instance : EmptyCollection (FinMap κ α) := ⟨empty⟩

instance : Inhabited (FinMap κ α) := ⟨∅⟩

/-- Maps are ordered by their entries, read as words of key and value. -/
instance [Ord α] : Ord (FinMap κ α) where
  compare m n :=
    List.compareLex (compareLex (compareOn Prod.fst) (compareOn Prod.snd)) m.entries n.entries

/-- The number of entries. -/
def size (m : FinMap κ α) : Nat := m.entries.length

/-- Whether the map has no entry. -/
def isEmpty (m : FinMap κ α) : Bool := m.entries.isEmpty

/-- The keys, in increasing order. -/
def keys (m : FinMap κ α) : List κ := m.entries.map Prod.fst

/-- The values, in the order of their keys. -/
def values (m : FinMap κ α) : List α := m.entries.map Prod.snd

/-- The value at a key. -/
def get? (m : FinMap κ α) (k : κ) : Option α :=
  (m.entries.find? fun e => compare e.1 k == .eq).map Prod.snd

/-- Whether a key has a value. -/
def contains (m : FinMap κ α) (k : κ) : Bool := (m.get? k).isSome

/-- Keep or change each value, or drop its entry. -/
def filterMap (f : κ → α → Option β) (m : FinMap κ α) : FinMap κ β where
  entries := m.entries.filterMap fun e => (f e.1 e.2).map (e.1, ·)
  ordered := by
    refine m.ordered.filterMap _ fun a b hab c hc d hd => ?_
    obtain ⟨_, _, rfl⟩ := Option.map_eq_some_iff.1 hc
    obtain ⟨_, _, rfl⟩ := Option.map_eq_some_iff.1 hd
    exact hab

/-- Keep the entries whose key passes the test. -/
def filterKeys (p : κ → Bool) (m : FinMap κ α) : FinMap κ α where
  entries := m.entries.filter fun e => p e.1
  ordered := m.ordered.filter _

/-- Apply a function to each value. -/
def map (f : α → β) (m : FinMap κ α) : FinMap κ β := m.filterMap fun _ a => some (f a)

/-- Remove the entry of a key. -/
def erase (m : FinMap κ α) (k : κ) : FinMap κ α := m.filterKeys fun x => compare x k != .eq

/-- The entries after binding a key, which replaces a value that is already there. -/
def insertEntry (k : κ) (a : α) : List (κ × α) → List (κ × α)
  | [] => [(k, a)]
  | e :: l =>
    match compare k e.1 with
    | .lt => (k, a) :: e :: l
    | .eq => (k, a) :: l
    | .gt => e :: insertEntry k a l

private theorem mem_insertEntry {k : κ} {a : α} {e : κ × α} {l : List (κ × α)}
    (h : e ∈ insertEntry k a l) : e = (k, a) ∨ e ∈ l := by
  induction l with
  | nil => simpa [insertEntry] using h
  | cons b l ih =>
    simp only [insertEntry] at h
    split at h
    · simpa using h
    · rcases List.mem_cons.1 h with h | h
      · exact Or.inl h
      · exact Or.inr (List.mem_cons_of_mem _ h)
    · rcases List.mem_cons.1 h with rfl | h
      · exact Or.inr List.mem_cons_self
      · exact (ih h).imp_right (List.mem_cons_of_mem _)

variable [Std.TransOrd κ] [Std.LawfulEqOrd κ]

private theorem ordered_insertEntry (k : κ) (a : α) {l : List (κ × α)}
    (h : l.Pairwise fun a b => compare a.1 b.1 = .lt) :
    (insertEntry k a l).Pairwise fun a b => compare a.1 b.1 = .lt := by
  induction l with
  | nil => simp [insertEntry]
  | cons b l ih =>
    rw [List.pairwise_cons] at h
    simp only [insertEntry]
    split
    · rename_i hkb
      refine List.pairwise_cons.2 ⟨fun e he => ?_, List.pairwise_cons.2 h⟩
      rcases List.mem_cons.1 he with rfl | he
      · exact hkb
      · exact Std.TransCmp.lt_trans hkb (h.1 e he)
    · rename_i hkb
      rw [Std.LawfulEqOrd.eq_of_compare hkb]
      exact List.pairwise_cons.2 h
    · rename_i hkb
      refine List.pairwise_cons.2 ⟨fun e he => ?_, ih h.2⟩
      rcases mem_insertEntry he with rfl | he
      · exact Std.OrientedCmp.lt_of_gt hkb
      · exact h.1 e he

/-- Bind a key, replacing the value that it had. -/
def insert (m : FinMap κ α) (k : κ) (a : α) : FinMap κ α where
  entries := insertEntry k a m.entries
  ordered := ordered_insertEntry k a m.ordered

/-- The map with the given entries, of which a later one replaces an earlier one. -/
def ofList (l : List (κ × α)) : FinMap κ α := l.foldl (fun m e => m.insert e.1 e.2) ∅

/-- All entries of both maps; where both bind a key, the value of the second. -/
def union (m n : FinMap κ α) : FinMap κ α :=
  n.entries.foldl (fun m e => m.insert e.1 e.2) m

end FinMap

end SymbolicXor
