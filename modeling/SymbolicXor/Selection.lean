/-!
# Selecting from a list

Searches that branch over the elements, pairs or subsets of a list try them in lexicographic order
of their places in the list.
-/

namespace SymbolicXor.Selection

variable {α : Type}

/-- Each element of a list with the elements after it. -/
def withLater : List α → List (α × List α)
  | [] => []
  | a :: l => (a, l) :: withLater l

/-- The first pair of elements, the earlier one first, that passes a test, with the other
elements. -/
def firstPair? [BEq α] (p : α → α → Bool) : List α → Option (α × α × List α)
  | [] => none
  | a :: l =>
    match l.find? (p a) with
    | some b => some (a, b, l.erase b)
    | none => (firstPair? p l).map fun (b, c, rest) => (b, c, a :: rest)

/-- The sublists of a given length. -/
def choose : Nat → List α → List (List α)
  | 0, _ => [[]]
  | _ + 1, [] => []
  | k + 1, a :: l => (choose k l).map (a :: ·) ++ choose (k + 1) l

/-- The first result of a search through all sublists, shorter ones first. -/
def findSubset? {β : Type} (f : List α → Option β) (l : List α) : Option β :=
  (List.range (l.length + 1)).findSome? fun k => (choose k l).findSome? f

end SymbolicXor.Selection
