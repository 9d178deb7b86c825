import SymbolicXor.Text.Quoted
import SymbolicXor.Unicode.LetterNumber

/-!
# Names

A name is a nonempty text of letters, numbers and underscores of any script; after the first
character it may also hold apostrophes. The spelling is part of the type: names are made by
`Name.ofString`, which refuses any other text, or by extending a name with characters that it may
hold.
-/

namespace SymbolicXor

namespace Spelling

/-- A character that may begin a name: a letter, a number or an underscore. -/
def isStart (c : Char) : Bool := c == '_' || Unicode.isLetterOrNumber c

/-- A character that may stand inside a name. -/
def isInner (c : Char) : Bool := isStart c || c == '\''

/-- A stem is a text that a name may begin with, the empty text included. -/
def isStem : List Char → Bool
  | [] => true
  | c :: cs => isStart c && cs.all isInner

/-- The spelling of names. -/
def isName (s : List Char) : Bool := !s.isEmpty && isStem s

theorem isStart_of_isDigit {c : Char} (h : c.isDigit = true) : isStart c = true := by
  have hlt : c.toNat < 128 := by
    simp only [Char.isDigit, Bool.and_eq_true, decide_eq_true_eq, UInt32.le_iff_toNat_le] at h
    have h9 : ('9'.val).toNat = 57 := rfl
    have := h.2
    simp only [Char.toNat]
    omega
  simp [isStart, Unicode.isLetterOrNumber, hlt, Char.isAlphanum, h]

/-- A name may go on with any characters allowed inside names. -/
theorem isName_append {s t : List Char} (hs : isName s = true) (ht : t.all isInner = true) :
    isName (s ++ t) = true := by
  cases s with
  | nil => simp [isName] at hs
  | cons c cs =>
    simp only [isName, isStem, List.isEmpty_cons, Bool.not_false, Bool.true_and,
      Bool.and_eq_true] at hs
    simp only [isName, isStem, List.cons_append, List.isEmpty_cons, Bool.not_false, Bool.true_and,
      List.all_append, Bool.and_eq_true]
    exact ⟨hs.1, hs.2, ht⟩

/-- A stem followed by the decimal digits of a number is a name. -/
theorem isName_stem_append_repr {s : List Char} (hs : isStem s = true) (n : Nat) :
    isName (s ++ n.repr.toList) = true := by
  have hstart : ∀ c ∈ n.repr.toList, isStart c = true := fun c hc => by
    rw [Nat.toList_repr] at hc
    exact isStart_of_isDigit (Nat.isDigit_of_mem_toDigits (by decide) (by decide) hc)
  have hinner : ∀ c ∈ n.repr.toList, isInner c = true := fun c hc => by
    simp [isInner, hstart c hc]
  cases s with
  | cons c cs => exact isName_append (by simpa [isName] using hs) (List.all_eq_true.2 hinner)
  | nil =>
    cases hl : n.repr.toList with
    | nil => exact absurd (Nat.toList_repr.symm.trans hl) Nat.toDigits_ne_nil
    | cons d ds =>
      rw [hl] at hstart hinner
      simp only [isName, isStem, List.nil_append, List.isEmpty_cons, Bool.not_false, Bool.true_and,
        Bool.and_eq_true, List.all_eq_true]
      exact ⟨hstart d List.mem_cons_self, fun c hc => hinner c (List.mem_cons_of_mem _ hc)⟩

end Spelling

/-- A name of a variable, a constant, a function, a sort or a coefficient. -/
structure Name where
  /-- The characters of the name. -/
  text : String
  /-- The text is spelled as a name. -/
  spelled : Spelling.isName text.toList = true := by decide
deriving DecidableEq

/-- A text that is no name. -/
structure InvalidName where
  /-- The refused text. -/
  text : String
deriving DecidableEq

/-- The message of the error. -/
def InvalidName.message (e : InvalidName) : String := "invalid name: " ++ Text.quote e.text

namespace Name

instance : ToString Name := ⟨Name.text⟩

/-- Names are ordered by their code points. -/
instance : Ord Name := ⟨compareOn Name.text⟩

instance : Std.TransOrd Name := inferInstanceAs (Std.TransCmp (compareOn Name.text))

instance : Std.LawfulEqOrd Name where
  compare_self {a} := Std.ReflOrd.compare_self (a := a.text)
  eq_of_compare {a b} h := by
    have : a.text = b.text := Std.LawfulEqOrd.eq_of_compare h
    cases a
    cases b
    cases this
    rfl

/-- The name with the given text, if the text is spelled as a name. -/
def ofString (s : String) : Except InvalidName Name :=
  if h : Spelling.isName s.toList = true then .ok ⟨s, h⟩ else .error ⟨s⟩

/-- A name that goes on with characters allowed inside names. -/
def append (n : Name) (tail : String) (h : tail.toList.all Spelling.isInner = true := by decide) :
    Name where
  text := n.text ++ tail
  spelled := by
    rw [String.toList_append]
    exact Spelling.isName_append n.spelled h

/-- The name made of a stem and a number. -/
def numbered (stem : String) (h : Spelling.isStem stem.toList = true) (n : Nat) : Name where
  text := stem ++ n.repr
  spelled := by
    rw [String.toList_append]
    exact Spelling.isName_stem_append_repr h n

end Name

end SymbolicXor
