import Mathlib.Data.List.Nodup
import Mathlib.Data.List.Perm.Subperm
import SymbolicXor.FreshNames

/-!
# Fresh names are fresh

The search for a free number looks at one name more than there are reserved ones. Different numbers
make different names, so the names that it looks at cannot all be reserved.
-/

namespace SymbolicXor

/-- Of different elements, one more than a list is long, not all are in the list. -/
theorem exists_not_mem_of_injective {α : Type} {f : Nat → α} (hf : f.Injective) (l : List α) :
    ∃ i ≤ l.length, f i ∉ l := by
  by_contra hall
  push Not at hall
  have hsub : (List.range (l.length + 1)).map f ⊆ l := by
    intro a ha
    obtain ⟨i, hi, rfl⟩ := List.mem_map.1 ha
    exact hall i (Nat.lt_succ_iff.1 (List.mem_range.1 hi))
  have hlen := ((List.nodup_range.map hf).subperm hsub).length_le
  rw [List.length_map, List.length_range] at hlen
  exact Nat.lt_irrefl _ hlen

/-- Names made of one stem are told apart by their numbers. -/
theorem Name.numbered_inj {stem : String} {h : Spelling.isStem stem.toList = true} {m n : Nat}
    (heq : Name.numbered stem h m = Name.numbered stem h n) : m = n := by
  have htext : stem ++ m.repr = stem ++ n.repr := congrArg Name.text heq
  have hrepr : m.repr = n.repr := by simpa using htext
  have hdigits : Nat.toDigits 10 m = Nat.toDigits 10 n := by
    rw [← Nat.toList_repr, ← Nat.toList_repr, hrepr]
  simpa using congrArg (fun digits => Nat.ofDigitChars 10 digits 0) hdigits

/-- The names of the variables of a term are among its names. -/
theorem Term.symbol_mem_symbols {t : Term} {v : Variable} (h : v ∈ t.vars) :
    v.symbol ∈ t.symbols := by
  obtain ⟨u, hu, huv⟩ := List.mem_filterMap.1 h
  refine List.mem_filterMap.2 ⟨u, hu, ?_⟩
  cases u with
  | var w =>
    cases huv
    rfl
  | _ => cases huv

namespace FreshNames

variable (g : FreshNames)

/-- A search that ends at a reserved name has seen reserved names only. -/
theorem mem_of_firstFree_mem {tries n : Nat} (h : g.name (g.firstFree tries n) ∈ g.reserved) :
    ∀ i ≤ tries, g.name (n + i) ∈ g.reserved := by
  induction tries generalizing n with
  | zero =>
    intro i hi
    rw [Nat.le_zero.1 hi]
    exact h
  | succ tries ih =>
    simp only [firstFree, List.contains_iff_mem] at h
    split at h
    · rename_i hn
      intro i hi
      cases i with
      | zero => exact hn
      | succ i =>
        have hnext := ih h i (by omega)
        rwa [show n + (i + 1) = n + 1 + i by omega]
    · rename_i hn
      exact absurd h hn

/-- The number that the search finds makes a name that is not reserved. -/
theorem name_nextNumber_not_mem : g.name g.nextNumber ∉ g.reserved := by
  have hinj : Function.Injective fun i => g.name (g.counter + 1 + i) := by
    intro i j hij
    have hnum := Name.numbered_inj hij
    omega
  obtain ⟨i, hi, hfree⟩ := exists_not_mem_of_injective hinj g.reserved
  exact fun h => hfree (g.mem_of_firstFree_mem h i hi)

/-- A variable that the generator hands out has no sort. -/
@[simp] theorem sort_nextVariable : g.nextVariable.1.sort = none := rfl

/-- A variable that the generator hands out has a name that was not reserved. -/
theorem symbol_nextVariable_not_mem : g.nextVariable.1.symbol ∉ g.reserved :=
  g.name_nextNumber_not_mem

/-- If every element of a list has its names reserved, one after the other, all of them are. -/
theorem mem_reserved_foldl {α : Type} {step : FreshNames → α → FreshNames} {P : α → Name → Prop}
    (hstep : ∀ g b n, n ∈ (step g b).reserved ↔ n ∈ g.reserved ∨ P b n) (l : List α) (n : Name) :
    n ∈ (l.foldl step g).reserved ↔ n ∈ g.reserved ∨ ∃ b ∈ l, P b n := by
  induction l generalizing g with
  | nil => simp
  | cons b l ih => rw [List.foldl_cons, ih, hstep, List.exists_mem_cons_iff, or_assoc]

theorem mem_reserved_avoidTerm (t : Term) (n : Name) :
    n ∈ (g.avoidTerm t).reserved ↔ n ∈ g.reserved ∨ n ∈ t.symbols := by
  rw [avoidTerm, avoid, List.mem_append, or_comm]

end FreshNames

end SymbolicXor
