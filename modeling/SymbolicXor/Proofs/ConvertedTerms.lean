import SymbolicXor.Proofs.FrozenTerms
import SymbolicXor.Proofs.Samples
import SymbolicXor.Proofs.SizedTerms

/-!
# Terms as coefficient terms

A canonical term becomes a coefficient term in which nothing is left to simplify, and from which it
is read off again. Reading off adds up the summands of each sum, and the summands of a canonical sum
add up to that sum. Different terms therefore become different coefficient terms, so no two summands
of a converted sum cancel. Only the constant that is zero becomes zero; constants and variables that
are merely spelled like it stay what they are.
-/

namespace SymbolicXor

namespace CoeffTerm

variable {s t : Term}

/-- A canonical term is read off the coefficient term that it becomes. -/
theorem toTerm_ofTerm (ht : t.Canonical) : (ofTerm t).toTerm = t := by
  have map_eq {ts : List Term} (ih : ∀ u ∈ ts, (ofTerm u).toTerm = u) :
      (ts.map ofTerm).map toTerm = ts := by
    rw [List.map_map]
    exact (List.map_congr_left ih).trans (List.map_id ts)
  induction t using Term.induction with
  | var v => rfl
  | const c =>
    rw [ofTerm]
    split
    · rename_i hzero
      exact hzero.symm
    · rfl
  | app f ts ih =>
    have hts := (Term.canonical_app f ts).1 ht
    rw [ofTerm, toTerm, ofTerms_eq_map, toTerms_eq_map, map_eq fun u hu => ih u hu (hts u hu)]
  | sum ts ih =>
    have hts := ((Term.canonical_sum ts).1 ht).2
    calc (ofTerm (.sum ts)).toTerm = Term.xor ((ts.map ofTerm).map toTerm) := by
          rw [ofTerm, toTerm, ofTerms_eq_map, toTerms_eq_map]
      _ = Term.xor ts := by rw [map_eq fun u hu => ih u hu (hts u hu)]
      _ = .sum ts := Term.xor_summands ht

/-- Different canonical terms become different coefficient terms. -/
theorem ofTerm_inj (hs : s.Canonical) (ht : t.Canonical) (h : ofTerm s = ofTerm t) : s = t := by
  rw [← toTerm_ofTerm hs, h, toTerm_ofTerm ht]

theorem ofTerm_ne_zero (h : t ≠ .zero) : ofTerm t ≠ zero := by
  cases t with
  | const c =>
    rw [ofTerm, if_neg h]
    exact nofun
  | _ => exact nofun

theorem ofTerm_ne_sum (h : t.isSum = false) (us : List CoeffTerm) : ofTerm t ≠ sum us := by
  cases t with
  | sum ts => exact absurd h (by simp [Term.isSum])
  | const c =>
    rw [ofTerm]
    split <;> simp
  | _ => simp [ofTerm]

theorem settled_ofTerm (ht : t.Canonical) : (ofTerm t).Settled := by
  induction t using Term.induction with
  | var v => exact .single rfl nofun
  | const c =>
    rw [ofTerm]
    split <;> exact .single rfl nofun
  | app f ts ih =>
    have hts := (Term.canonical_app f ts).1 ht
    have hargs : (ts.map ofTerm).map simplify = ts.map ofTerm := by
      rw [List.map_map]
      exact List.map_congr_left fun u hu => (ih u hu (hts u hu)).simplify_eq
    refine .single ?_ nofun
    rw [ofTerm, simplify, ofTerms_eq_map, simplifyAll_eq_map, hargs]
  | sum ts ih =>
    obtain ⟨⟨hlen, hord, hatom⟩, hts⟩ := (Term.canonical_sum ts).1 ht
    have hnodup : (ts.map ofTerm).Nodup :=
      hord.nodup.map_on fun u hu v hv => ofTerm_inj (hts u hu) (hts v hv)
    rw [ofTerm, ofTerms_eq_map]
    refine .several ?_ hnodup (by rwa [List.length_map])
    rw [List.forall_mem_map]
    intro u hu
    obtain ⟨hzero, hsum⟩ := hatom u hu
    exact ⟨(ih u hu (hts u hu)).simplify_eq, ofTerm_ne_zero hzero, ofTerm_ne_sum hsum⟩

/-- A canonical term is read off the coefficient term that it becomes, in which nothing is left to
simplify. -/
theorem ofTerm_faithful (ht : t.Canonical) :
    (ofTerm t).toTerm = t ∧ (ofTerm t).simplify = ofTerm t :=
  ⟨toTerm_ofTerm ht, (settled_ofTerm ht).simplify_eq⟩

open Sample

theorem isName_one : Spelling.isName "1".toList = true := by decide

/-- The name of one. -/
def nameOfOne : Name := ⟨"1", isName_one⟩

/-- A sum of variables and constants that are spelled `0` and `1`, and of zero below a symbol. -/
def spelledDigits : Term :=
  .sum [.var { symbol := Name.zero }, .var { symbol := Name.zero, sort := some Sorted.sort },
    .var { symbol := nameOfOne }, .const { symbol := Name.zero, sort := some Sorted.sort },
    .const { symbol := nameOfOne }, .app f [.zero]]

theorem ofTerm_faithful_spelledDigits :
    spelledDigits.Canonical ∧ (ofTerm spelledDigits).toTerm = spelledDigits ∧
      (ofTerm spelledDigits).simplify = ofTerm spelledDigits := by
  have ht : spelledDigits.Canonical := by decide
  exact ⟨ht, ofTerm_faithful ht⟩

end CoeffTerm

end SymbolicXor
