import Mathlib.Algebra.Group.Nat.Defs
import Mathlib.Data.List.Forall2
import SymbolicXor.Term.Position

/-!
# Written positions

The texts that are read as positions are those that write one: nothing or `ε` for the root, else
numerals with dots between them. A numeral may begin with a plus sign and with zeros, so a position
has many texts; the one that it is shown as is read back as the same position, as long as its places
fit into 64 bits.
-/

namespace SymbolicXor.Position

variable {cs part : List Char} {i m n : Nat} {s : String} {p : Position}

/-- A text is a numeral of a place: decimal digits, at least one, which a plus sign may precede,
with a value from one on that fits into 64 bits. -/
def IsNumeral (part : List Char) (i : Nat) : Prop :=
  ∃ digits : List Char, (part = digits ∨ part = '+' :: digits) ∧ digits ≠ [] ∧
    (∀ c ∈ digits, c.isDigit = true) ∧ Nat.ofDigitChars 10 digits 0 = i ∧ 1 ≤ i ∧ i < 2 ^ 64

/-- A text writes a position. -/
inductive Writes : String → Position → Prop where
  /-- Nothing is written for the root. -/
  | nothing : Writes "" root
  /-- The root is written as `ε`. -/
  | epsilon : Writes "ε" root
  /-- Other positions are written as the numerals of their places, with dots between them. -/
  | numerals {s : String} {is : List Nat} (h : List.Forall₂ IsNumeral (s.toList.splitOn '.') is) :
    Writes s ⟨is⟩

theorem le_ofDigitChars (n : Nat) (cs : List Char) : n ≤ Nat.ofDigitChars 10 cs n := by
  induction cs generalizing n with
  | nil => exact Nat.le_refl n
  | cons c cs ih =>
    have hc := ih (10 * n + (c.toNat - '0'.toNat))
    rw [Nat.ofDigitChars_cons]
    omega

/-- Digits are read up to the value that they give to the number before them. Reading stops as soon
as the number does not fit, because more digits do not make it smaller. -/
theorem readDigits_eq_ok (hn : n < indexBound) : readDigits n cs = .ok m ↔
    (∀ c ∈ cs, c.isDigit = true) ∧ Nat.ofDigitChars 10 cs n = m ∧ m < indexBound := by
  induction cs generalizing n with
  | nil =>
    simp only [readDigits, Except.ok.injEq, List.not_mem_nil, false_imp_iff, implies_true,
      Nat.ofDigitChars_nil, true_and]
    exact ⟨fun h => ⟨h, h ▸ hn⟩, And.left⟩
  | cons c cs ih =>
    simp only [readDigits, List.forall_mem_cons, Nat.ofDigitChars_cons]
    split
    · rename_i hc
      split
      · rename_i hfits
        rw [ih hfits, and_iff_right hc]
      · rename_i hlarge
        refine ⟨(nomatch ·), ?_⟩
        rintro ⟨_, rfl, hm⟩
        exact absurd (Nat.lt_of_le_of_lt (le_ofDigitChars _ cs) hm) hlarge
    · rename_i hc
      exact ⟨(nomatch ·), fun h => absurd h.1.1 hc⟩

/-- A number is read from digits, which a plus sign may precede. -/
theorem readIndex_eq_ok : readIndex part = .ok m ↔
    ∃ digits : List Char, (part = digits ∨ part = '+' :: digits) ∧ digits ≠ [] ∧
      (∀ c ∈ digits, c.isDigit = true) ∧ Nat.ofDigitChars 10 digits 0 = m ∧ m < indexBound := by
  have hzero : 0 < indexBound := by decide
  constructor
  · intro h
    unfold readIndex at h
    split at h
    · cases h
    · cases h
    · rename_i cs hne
      exact ⟨cs, .inr rfl, fun hnil => hne (by rw [hnil]), (readDigits_eq_ok hzero).1 h⟩
    · rename_i hne _ _
      exact ⟨part, .inl rfl, hne, (readDigits_eq_ok hzero).1 h⟩
  · rintro ⟨digits, hpart, hne, hdigits⟩
    have hread : readDigits 0 digits = .ok m := (readDigits_eq_ok hzero).2 hdigits
    obtain ⟨c, cs, rfl⟩ := List.exists_cons_of_ne_nil hne
    rcases hpart with rfl | rfl
    · have hc : c ≠ '+' := by
        rintro rfl
        exact absurd (hdigits.1 _ List.mem_cons_self) (by decide)
      rwa [readIndex]
      all_goals simp [hc]
    · rwa [readIndex]
      simp

/-- A place is read from its numerals. -/
theorem readPart_eq_ok : readPart s part = .ok i ↔ IsNumeral part i := by
  have hread : readPart s part = .ok i ↔ readIndex part = .ok i ∧ 1 ≤ i := by
    unfold readPart
    split
    · rename_i e h
      simp [h]
    · rename_i h
      simp [h]
      omega
    · rename_i j hj h
      have hpos : 1 ≤ j := Nat.one_le_iff_ne_zero.2 hj
      simp only [h, Except.ok.injEq]
      exact ⟨fun heq => ⟨heq, heq ▸ hpos⟩, And.left⟩
  have hbound : indexBound = 2 ^ 64 := by decide
  rw [hread, readIndex_eq_ok, IsNumeral, hbound]
  constructor
  · rintro ⟨⟨digits, hpart, hne, hdigits, hvalue, hlt⟩, hpos⟩
    exact ⟨digits, hpart, hne, hdigits, hvalue, hpos, hlt⟩
  · rintro ⟨digits, hpart, hne, hdigits, hvalue, hpos, hlt⟩
    exact ⟨⟨digits, hpart, hne, hdigits, hvalue, hlt⟩, hpos⟩

/-- A place is shown as one of its numerals. -/
theorem isNumeral_repr (hpos : 1 ≤ i) (hlt : i < 2 ^ 64) : IsNumeral i.repr.toList i := by
  rw [Nat.toList_repr]
  exact ⟨_, .inl rfl, Nat.toDigits_ne_nil,
    fun c hc => Nat.isDigit_of_mem_toDigits (by decide) (by decide) hc,
    Nat.ofDigitChars_ten_toDigits, hpos, hlt⟩

/-- The characters of a numeral are digits and signs. -/
theorem IsNumeral.forall_mem (h : IsNumeral part i) : ∀ c ∈ part, c = '+' ∨ c.isDigit = true := by
  obtain ⟨digits, rfl | rfl, _, hdigits, _⟩ := h
  · exact fun c hc => .inr (hdigits c hc)
  · exact List.forall_mem_cons.2 ⟨.inl rfl, fun c hc => .inr (hdigits c hc)⟩

theorem IsNumeral.ne_nil (h : IsNumeral part i) : part ≠ [] := by
  obtain ⟨digits, rfl | rfl, hne, _⟩ := h
  · exact hne
  · exact List.cons_ne_nil _ _

theorem IsNumeral.bounds (h : IsNumeral part i) : 1 ≤ i ∧ i < 2 ^ 64 :=
  have ⟨_, _, _, _, _, hbounds⟩ := h
  hbounds

/-- The parts of a text stand between its dots. -/
theorem splitDots_eq (cs : List Char) : splitDots cs = cs.splitOn '.' := by
  induction cs with
  | nil => rfl
  | cons c cs ih =>
    rw [List.splitOn_cons_eq_if_modifyHead, ← ih]
    obtain ⟨part, parts, hparts⟩ : ∃ part parts, splitDots cs = part :: parts :=
      List.exists_cons_of_ne_nil (ih ▸ List.splitOn_ne_nil _ _)
    by_cases hc : c = '.'
    · subst hc
      simp [splitDots]
    · simp [splitDots, hparts, hc]

/-- All elements of a list are read if each of them is. -/
theorem mapM_eq_ok {α β ε : Type} {f : α → Except ε β} {as : List α} {bs : List β} :
    as.mapM f = .ok bs ↔ List.Forall₂ (fun a b => f a = .ok b) as bs := by
  induction as generalizing bs with
  | nil => simp [pure, Except.pure, eq_comm]
  | cons a as ih =>
    have hcons : (a :: as).mapM f = .ok bs ↔
        ∃ b bs', f a = .ok b ∧ as.mapM f = .ok bs' ∧ bs = b :: bs' := by
      rw [List.mapM_cons]
      cases f a <;> cases as.mapM f <;> simp [bind, Except.bind, pure, Except.pure, eq_comm]
    simp only [hcons, ih, List.forall₂_cons_left_iff]

/-- No numeral is empty, and none is `ε`, so the texts for the root write nothing else. -/
theorem eq_root_of_writes (h : Writes s p) (hs : s = "" ∨ s = "ε") : p = root := by
  have hpart : ∀ i, ¬ IsNumeral [] i ∧ ¬ IsNumeral ['ε'] i := fun i =>
    ⟨fun h => h.ne_nil rfl, fun h => absurd (h.forall_mem _ List.mem_cons_self) (by decide)⟩
  cases h with
  | nothing => rfl
  | epsilon => rfl
  | @numerals _ is h =>
    have hsplit : s.toList.splitOn '.' = [[]] ∨ s.toList.splitOn '.' = [['ε']] := by
      rcases hs with rfl | rfl
      · exact .inl (by decide)
      · exact .inr (by decide)
    rcases hsplit with hsplit | hsplit <;> rw [hsplit, List.forall₂_cons_left_iff] at h
    · obtain ⟨i, _, hi, _⟩ := h
      exact absurd hi (hpart i).1
    · obtain ⟨i, _, hi, _⟩ := h
      exact absurd hi (hpart i).2

/-- A text is read as a position exactly if it writes it. -/
theorem ofString_eq_ok : ofString s = .ok p ↔ Writes s p := by
  have htext : s.toList = [] ∨ s.toList = ['ε'] ↔ s = "" ∨ s = "ε" := by
    rw [← String.toList_inj, ← String.toList_inj]
    rfl
  by_cases hs : s = "" ∨ s = "ε"
  · rw [ofString, if_pos (htext.2 hs)]
    constructor
    · rintro ⟨⟩
      rcases hs with rfl | rfl
      · exact .nothing
      · exact .epsilon
    · intro h
      rw [eq_root_of_writes h hs]
  · have hread : ((splitDots s.toList).mapM (readPart s)).map mk = .ok p ↔
        (splitDots s.toList).mapM (readPart s) = .ok p.indices := by
      cases (splitDots s.toList).mapM (readPart s) with
      | error e => simp [Except.map]
      | ok is => cases p; simp [Except.map]
    rw [ofString, if_neg (mt htext.1 hs), hread, mapM_eq_ok, splitDots_eq]
    simp only [readPart_eq_ok]
    refine ⟨.numerals, fun h => ?_⟩
    cases h with
    | nothing => exact absurd (.inl rfl) hs
    | epsilon => exact absurd (.inr rfl) hs
    | numerals h => exact h

/-- Places that were read fit into 64 bits. -/
theorem Writes.bounds (h : Writes s p) : ∀ i ∈ p.indices, 1 ≤ i ∧ i < 2 ^ 64 := by
  cases h with
  | nothing => exact fun _ hi => absurd hi List.not_mem_nil
  | epsilon => exact fun _ hi => absurd hi List.not_mem_nil
  | numerals h =>
    generalize s.toList.splitOn '.' = parts at h
    intro i hi
    induction h with
    | nil => cases hi
    | cons hpart _ ih =>
      rcases List.mem_cons.1 hi with rfl | hi
      · exact hpart.bounds
      · exact ih hi

/-- A position whose places fit into 64 bits is written by the text that it is shown as. -/
theorem writes_toString (h : ∀ i ∈ p.indices, 1 ≤ i ∧ i < 2 ^ 64) : Writes (toString p) p := by
  by_cases hroot : p.isRoot = true
  · have hp : p = root := by
      cases p
      simpa [isRoot, root] using hroot
    subst hp
    exact .epsilon
  · have hne : p.indices ≠ [] := by simpa [isRoot] using hroot
    have hnumeral : ∀ i ∈ p.indices, IsNumeral i.repr.toList i :=
      fun i hi => isNumeral_repr (h i hi).1 (h i hi).2
    have htext :
        (toString p).toList = ['.'].intercalate (p.indices.map fun i => i.repr.toList) := by
      have hshown : toString p = ".".intercalate (p.indices.map Nat.repr) := if_neg hroot
      rw [hshown, String.toList_intercalate, List.map_map]
      rfl
    have hdots : ∀ part ∈ p.indices.map fun i => i.repr.toList, '.' ∉ part := by
      rw [List.forall_mem_map]
      exact fun i hi hdot => absurd ((hnumeral i hi).forall_mem _ hdot) (by decide)
    refine .numerals ?_
    rw [htext, List.splitOn_intercalate _ hdots (by simpa using hne), List.forall₂_map_left_iff,
      List.forall₂_same]
    exact hnumeral

/-- Positions are shown and read consistently. A position whose places fit into 64 bits is read back
from the text that it is shown as; the texts that are read are exactly the written positions; and
the position that was read from a text is read again from the text that it is shown as. -/
theorem ofString_consistent :
    (∀ p : Position, (∀ i ∈ p.indices, 1 ≤ i ∧ i < 2 ^ 64) → ofString (toString p) = .ok p) ∧
      (∀ s p, ofString s = .ok p ↔ Writes s p) ∧
      ∀ s p, ofString s = .ok p → ofString (toString p) = .ok p := by
  refine ⟨fun p h => ?_, fun s p => ofString_eq_ok, fun s p h => ?_⟩
  · exact ofString_eq_ok.2 (writes_toString h)
  · have hbounds := (ofString_eq_ok.1 h).bounds
    exact ofString_eq_ok.2 (writes_toString hbounds)

/-- The largest place is read back, and a text with signs and zeros is shown anew. -/
theorem ofString_consistent_largestPlace :
    (∀ i ∈ [1, 18446744073709551615], 1 ≤ i ∧ i < 2 ^ 64) ∧
      ofString (toString (⟨[1, 18446744073709551615]⟩ : Position)) =
        .ok ⟨[1, 18446744073709551615]⟩ ∧
      ofString "+007.2" = .ok ⟨[7, 2]⟩ ∧ Writes "+007.2" ⟨[7, 2]⟩ ∧
      ofString (toString (⟨[7, 2]⟩ : Position)) = .ok ⟨[7, 2]⟩ := by
  have hfits : ∀ i ∈ [1, 18446744073709551615], 1 ≤ i ∧ i < 2 ^ 64 := by decide
  have hread : ofString "+007.2" = .ok ⟨[7, 2]⟩ := by decide
  obtain ⟨hshown, hwrites, hagain⟩ := ofString_consistent
  exact ⟨hfits, hshown _ hfits, hread, (hwrites _ _).1 hread, hagain _ _ hread⟩

end SymbolicXor.Position
