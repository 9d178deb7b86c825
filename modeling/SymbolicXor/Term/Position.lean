import SymbolicXor.Term.Printer
import SymbolicXor.Term.Sum
import SymbolicXor.Text.Quoted

/-!
# Positions in terms

A position is the path from the root of a term to a subterm: the places of arguments, or of
summands, counted from one. It is written with dots between the places, the root as `ε` or as
nothing. A place that is read has to fit into 64 bits.
-/

namespace SymbolicXor

/-- A path from the root of a term. -/
structure Position where
  /-- The place to go to at each step, counted from one. -/
  indices : List Nat
deriving DecidableEq

namespace Position

/-- The position of the term itself. -/
def root : Position := ⟨[]⟩

/-- Whether a position is the root. -/
def isRoot (p : Position) : Bool := p.indices.isEmpty

/-- The position one step further. -/
def child (p : Position) (i : Nat) : Position := ⟨p.indices ++ [i]⟩

/-- Positions are ordered as words of places; along a term this is the order from left to right,
with every position before those below it. -/
instance : Ord Position := ⟨compareOn indices⟩

instance : ToString Position where
  toString p := if p.isRoot then "ε" else ".".intercalate (p.indices.map toString)

end Position

/-- Errors of reading a natural number of 64 bits. -/
inductive IndexError where
  /-- There is no text. -/
  | empty
  /-- A character is no digit, or the text is a lone sign. -/
  | invalidDigit
  /-- The number does not fit. -/
  | tooLarge
deriving DecidableEq

/-- The message of the error. -/
def IndexError.message : IndexError → String
  | empty => "cannot parse integer from empty string"
  | invalidDigit => "invalid digit found in string"
  | tooLarge => "number too large to fit in target type"

/-- Errors of reading or looking up a position. -/
inductive PositionError where
  /-- A place in the text is no number. -/
  | malformed (text : String) (cause : IndexError)
  /-- A place in the text is zero. -/
  | zeroIndex (text : String)
  /-- The position is not in the term. -/
  | missing (position : Position) (term : Term)
deriving DecidableEq

/-- The message of the error. -/
def PositionError.message : PositionError → String
  | malformed s e => "invalid position " ++ Text.quote s ++ ": " ++ e.message
  | zeroIndex s => "positions are 1-based: " ++ Text.quote s
  | missing p t => s!"position {p} does not exist in {t}"

namespace Position

/-- The first number that does not fit into 64 bits. -/
def indexBound : Nat := 18446744073709551616

/-- Read decimal digits after a number that was read before. -/
def readDigits (n : Nat) : List Char → Except IndexError Nat
  | [] => .ok n
  | c :: cs =>
    if c.isDigit then
      let n := 10 * n + (c.toNat - '0'.toNat)
      if n < indexBound then readDigits n cs else .error .tooLarge
    else .error .invalidDigit

/-- Read a number, which a plus sign may precede. -/
def readIndex : List Char → Except IndexError Nat
  | [] => .error .empty
  | ['+'] => .error .invalidDigit
  | '+' :: cs => readDigits 0 cs
  | cs => readDigits 0 cs

/-- The parts of a text between its dots. -/
def splitDots : List Char → List (List Char)
  | [] => [[]]
  | c :: cs =>
    match c, splitDots cs with
    | '.', parts => [] :: parts
    | c, [] => [[c]]
    | c, p :: parts => (c :: p) :: parts

/-- Read a place of a position from one part of its text. -/
def readPart (s : String) (part : List Char) : Except PositionError Nat :=
  match readIndex part with
  | .error e => .error (.malformed s e)
  | .ok 0 => .error (.zeroIndex s)
  | .ok i => .ok i

/-- Read a position. The first part that is no place decides on the error. -/
def ofString (s : String) : Except PositionError Position :=
  if s.toList = [] ∨ s.toList = ['ε'] then .ok root
  else ((splitDots s.toList).mapM (readPart s)).map Position.mk

end Position

namespace Term

/-- The subterm at the end of a path. -/
def descend : Term → List Nat → Option Term
  | t, [] => some t
  | _, 0 :: _ => none
  | t, (i + 1) :: is => t.args[i]?.bind fun u => descend u is

/-- The subterm at a position. -/
def subtermAt (t : Term) (p : Position) : Except PositionError Term :=
  match t.descend p.indices with
  | some u => .ok u
  | none => .error (.missing p t)

/-- The term with another subterm at the end of a path. Sums on the way are brought into canonical
form. -/
def graft (new : Term) : Term → List Nat → Option Term
  | _, [] => some new
  | _, 0 :: _ => none
  | t, (i + 1) :: is =>
    t.args[i]?.bind fun u => (graft new u is).map fun u => t.withArgs (t.args.set i u)

/-- The term with another subterm at a position. -/
def replaceAt (t : Term) (p : Position) (new : Term) : Except PositionError Term :=
  match graft new t p.indices with
  | some u => .ok u
  | none => .error (.missing p t)

mutual

/-- The paths in a term, in pre-order. -/
def paths : Term → List (List Nat)
  | var _ => [[]]
  | const _ => [[]]
  | app _ ts => [] :: pathsFrom 1 ts
  | sum ts => [] :: pathsFrom 1 ts

/-- The paths in terms of which the first is at a given place. -/
def pathsFrom (i : Nat) : List Term → List (List Nat)
  | [] => []
  | t :: ts => (paths t).map (i :: ·) ++ pathsFrom (i + 1) ts

end

/-- The positions in a term, in pre-order. -/
def positions (t : Term) : List Position := t.paths.map Position.mk

end Term

end SymbolicXor
