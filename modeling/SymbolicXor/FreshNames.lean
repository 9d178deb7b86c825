import SymbolicXor.Equation

/-!
# Fresh names

A generator hands out the names made of its stem and the numbers 1, 2, 3 and so on, and leaves out
every name that is reserved. A name that was handed out is reserved from then on.
-/

namespace SymbolicXor

/-- A generator of numbered names. -/
structure FreshNames where
  /-- The text that every generated name begins with. -/
  stem : String
  /-- A name may begin with the stem. -/
  isStem : Spelling.isStem stem.toList = true := by decide
  /-- The number of the last generated name. -/
  counter : Nat := 0
  /-- The names that may not be generated. -/
  reserved : List Name := []

namespace FreshNames

/-- The generator with no name reserved. -/
def ofStem (stem : String) (h : Spelling.isStem stem.toList = true := by decide) : FreshNames :=
  { stem, isStem := h }

/-- The name with a number. -/
def name (g : FreshNames) (n : Nat) : Name := Name.numbered g.stem g.isStem n

/-- Reserve names. -/
def avoid (g : FreshNames) (ns : List Name) : FreshNames := { g with reserved := ns ++ g.reserved }

/-- Reserve the names in a term. -/
def avoidTerm (g : FreshNames) (t : Term) : FreshNames := g.avoid t.symbols

/-- Reserve the names in a list of equations. -/
def avoidEquations (g : FreshNames) (es : List Equation) : FreshNames :=
  g.avoid (es.flatMap Equation.symbols)

/-- The first number from `n` on whose name is free, looking at no more than `tries` names that are
reserved. -/
def firstFree (g : FreshNames) : (tries n : Nat) → Nat
  | 0, n => n
  | tries + 1, n => if g.reserved.contains (g.name n) then g.firstFree tries (n + 1) else n

/-- The number of the next fresh name. Different numbers give different names, so among one more
number than there are reserved names one is free. -/
def nextNumber (g : FreshNames) : Nat := g.firstFree g.reserved.length (g.counter + 1)

/-- The next fresh name, and the generator after it. -/
def next (g : FreshNames) : Name × FreshNames :=
  let n := g.nextNumber
  (g.name n, { g with counter := n, reserved := g.name n :: g.reserved })

/-- An unsorted variable with a fresh name, and the generator after it. -/
def nextVariable (g : FreshNames) : Variable × FreshNames :=
  let (n, g) := g.next
  ({ symbol := n }, g)

end FreshNames

end SymbolicXor
