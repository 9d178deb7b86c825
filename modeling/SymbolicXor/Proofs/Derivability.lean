import SymbolicXor.Adversary.Model
import SymbolicXor.Proofs.SubstitutionAlgebra

/-!
# Derivable terms

The terms that an adversary can build from known ones form the least set with zero and the known
terms that is closed under exclusive or and under the symbols that it can evaluate. The check for
missing subterms is sound: a term that misses nothing can be built, and from those of the known
terms that occur in it.
-/

namespace SymbolicXor

open Term Substitution

namespace Adversary

/-- The terms that an adversary can build from known ones. -/
inductive Derivable (a : Adversary) (known : Term → Prop) : Term → Prop
  /-- Zero can be built. -/
  | zero : Derivable a known zero
  /-- Known terms can be built. -/
  | known {t : Term} (h : known t) : Derivable a known t
  /-- So can sums of terms that can be built. -/
  | xor {ts : List Term} (h : ∀ t ∈ ts, Derivable a known t) : Derivable a known (xor ts)
  /-- So can applications of symbols that the adversary evaluates. -/
  | app {f : FunctionSymbol} {ts : List Term} (hf : a.computes f = true)
      (hlen : ts.length = f.arity) (h : ∀ t ∈ ts, Derivable a known t) :
      Derivable a known (.app f ts)

variable {a : Adversary} {known : List Term} {K L : Term → Prop} {t : Term}

theorem Derivable.canonical (h : a.Derivable K t) (hK : ∀ k, K k → k.Canonical) :
    t.Canonical := by
  induction h with
  | zero => exact canonical_zero
  | known hk => exact hK _ hk
  | xor _ ih => exact canonical_xor ih
  | app _ _ _ ih => exact (canonical_app _ _).2 ih

/-- The instance of a derivable term can be built from the instances of the known terms. -/
theorem Derivable.apply {σ : Substitution} (hσ : σ.Into Canonical) (h : a.Derivable K t)
    (hK : ∀ k, K k → k.Canonical) (hL : ∀ k, K k → a.Derivable L (σ.apply k)) :
    a.Derivable L (σ.apply t) := by
  induction h with
  | zero => exact .zero
  | known hk => exact hL _ hk
  | xor hts ih =>
    rw [apply_xor hσ fun t ht => (hts t ht).canonical hK]
    exact .xor (List.forall_mem_map.2 ih)
  | app hf hlen _ ih =>
    rw [apply_app]
    exact .app hf ((List.length_map _).trans hlen) (List.forall_mem_map.2 ih)

/-- A summand of a derivable term is a summand of a known term, or an application of a symbol that
the adversary evaluates to derivable arguments. -/
theorem Derivable.exists_of_mem_summands (h : a.Derivable K t) (hK : ∀ k, K k → k.Canonical)
    {s : Term} (hs : s ∈ t.summands) : (∃ k, K k ∧ s ∈ k.summands) ∨
      ∃ f ts, s = .app f ts ∧ a.computes f = true ∧ ts.length = f.arity ∧
        ∀ u ∈ ts, a.Derivable K u := by
  induction h with
  | zero => simp at hs
  | known hk => exact Or.inl ⟨_, hk, hs⟩
  | xor hts ih =>
    obtain ⟨t, ht, hst⟩ := exists_of_mem_summands_xor (fun t ht => (hts t ht).canonical hK) hs
    exact ih t ht hst
  | @app f ts hf hlen hts ih =>
    have heq : s = .app f ts := by simpa [summands, Term.zero] using hs
    exact Or.inr ⟨f, ts, heq, hf, hlen, hts⟩

/-- A summand of a derivable term is a summand of a known term, or an application of a symbol that
the adversary evaluates. -/
theorem Derivable.summand (h : a.Derivable K t) (hK : ∀ k, K k → k.Canonical) {s : Term}
    (hs : s ∈ t.summands) :
    (∃ k, K k ∧ s ∈ k.summands) ∨ ∃ f ts, s = .app f ts ∧ a.computes f = true :=
  (h.exists_of_mem_summands hK hs).imp_right fun ⟨f, ts, heq, hf, _⟩ => ⟨f, ts, heq, hf⟩

/-- If the known terms are atoms, summands of derivable terms are derivable. -/
theorem Derivable.of_mem_summands (h : a.Derivable K t) (hK : ∀ k, K k → k.Canonical)
    (hatom : ∀ k, K k → ∀ s ∈ k.summands, s = k) {s : Term} (hs : s ∈ t.summands) :
    a.Derivable K s := by
  rcases h.exists_of_mem_summands hK hs with ⟨k, hk, hsk⟩ | ⟨f, ts, rfl, hf, hlen, hts⟩
  · exact hatom k hk s hsk ▸ .known hk
  · exact .app hf hlen hts

theorem missingAll_eq_flatMap (a : Adversary) (known ts : List Term) :
    a.missingAll known ts = ts.flatMap (a.missing known) := by
  induction ts with
  | nil => rfl
  | cons t ts ih => rw [missingAll, ih, List.flatMap_cons]

/-- Nothing is missing for a known term. -/
theorem missing_of_mem (h : t ∈ known) : a.missing known t = [] := by
  cases t <;> simp [missing, h]

/-- If nothing is missing for an application or a sum that is not known, then nothing is missing for
its immediate subterms. -/
theorem missingAll_of_match {ts m : List Term} (h : (match a.missingAll known ts with
      | [] => []
      | m' => m' ++ m) = []) : ∀ u ∈ ts, a.missing known u = [] := by
  split at h
  · rename_i hnil
    rw [missingAll_eq_flatMap, List.flatMap_eq_nil_iff] at hnil
    exact hnil
  · rename_i hne
    rw [List.append_eq_nil_iff] at h
    exact absurd h.1 hne

/-- If nothing is missing for the arguments of a symbol that the adversary evaluates, nothing is
missing for the application. -/
theorem missing_app_eq_nil {f : FunctionSymbol} {ts : List Term} (hf : a.computes f = true)
    (h : ∀ u ∈ ts, a.missing known u = []) : a.missing known (.app f ts) = [] := by
  simp only [missing, missingAll_eq_flatMap, List.flatMap_eq_nil_iff.2 h, hf]
  exact ite_self _

/-- If nothing is missing for the summands, nothing is missing for the sum. -/
theorem missing_sum_eq_nil {ts : List Term} (h : ∀ u ∈ ts, a.missing known u = []) :
    a.missing known (.sum ts) = [] := by
  simp only [missing, missingAll_eq_flatMap, List.flatMap_eq_nil_iff.2 h]
  exact ite_self _

/-- A subterm that is missing for an immediate subterm is missing for a term that is not known. -/
theorem mem_match_of_mem_missing {ts m : List Term} {u s : Term} (hu : u ∈ ts)
    (hs : s ∈ a.missing known u) : s ∈ (match a.missingAll known ts with
      | [] => []
      | m' => m' ++ m) := by
  have hmem : s ∈ a.missingAll known ts := by
    rw [missingAll_eq_flatMap]
    exact List.mem_flatMap_of_mem hu hs
  split
  · rename_i hnil
    rw [hnil] at hmem
    cases hmem
  · exact List.mem_append_left _ hmem

theorem mem_missing_app {f : FunctionSymbol} {ts : List Term} (hf : a.computes f = true)
    (hn : .app f ts ∉ known) {u s : Term} (hu : u ∈ ts) (hs : s ∈ a.missing known u) :
    s ∈ a.missing known (.app f ts) := by
  simp only [missing]
  rw [if_neg (mt List.contains_iff_mem.1 hn), if_pos hf]
  exact mem_match_of_mem_missing hu hs

theorem mem_missing_sum {ts : List Term} (hn : .sum ts ∉ known) {u s : Term} (hu : u ∈ ts)
    (hs : s ∈ a.missing known u) : s ∈ a.missing known (.sum ts) := by
  simp only [missing]
  rw [if_neg (mt List.contains_iff_mem.1 hn)]
  exact mem_match_of_mem_missing hu hs

/-- A term for which a subterm is missing is missing itself. -/
theorem mem_missing_self (h : a.missing known t ≠ []) : t ∈ a.missing known t := by
  have last {m' m : List Term} (hm : t ∈ m) (hne : (match m' with
        | [] => []
        | m' => m' ++ m) ≠ []) : t ∈ (match m' with
        | [] => []
        | m' => m' ++ m) := by
    split
    · simp at hne
    · exact List.mem_append_right _ hm
  cases t with
  | var v =>
    simp only [missing] at h ⊢
    split at h
    · exact absurd rfl h
    · rename_i hn
      exact if_neg hn ▸ List.mem_singleton_self _
  | const c =>
    simp only [missing] at h ⊢
    split at h
    · exact absurd rfl h
    · rename_i hn
      exact if_neg hn ▸ List.mem_singleton_self _
  | app f ts =>
    simp only [missing] at h ⊢
    split at h
    · exact absurd rfl h
    · rename_i hn
      rw [if_neg hn]
      split at h
      · rename_i hf
        rw [if_pos hf]
        exact last (List.mem_singleton_self _) h
      · rename_i hf
        exact if_neg hf ▸ List.mem_singleton_self _
  | sum ts =>
    simp only [missing] at h ⊢
    split at h
    · exact absurd rfl h
    · rename_i hn
      rw [if_neg hn]
      exact last (List.mem_singleton_self _) h

/-- A term for which no subterm is missing can be built from any terms from which the known terms in
it can be built. -/
theorem derivable_of_missing (hc : t.Canonical) (har : t.RespectsArity)
    (h : a.missing known t = []) (hk : ∀ k ∈ known, k ∈ t.subterms → a.Derivable K k) :
    a.Derivable K t := by
  induction t using Term.induction with
  | var v =>
    simp only [missing] at h
    split at h
    · rename_i hmem
      exact hk _ (List.contains_iff_mem.1 hmem) (by simp)
    · cases h
  | const c =>
    simp only [missing] at h
    split at h
    · rename_i hknown
      rcases Bool.or_eq_true_iff.1 hknown with hz | hmem
      · have heq : Term.const c = Term.zero := by simpa [isZero] using hz
        exact heq ▸ .zero
      · exact hk _ (List.contains_iff_mem.1 hmem) (by simp)
    · cases h
  | app f ts ih =>
    simp only [missing] at h
    split at h
    · rename_i hmem
      exact hk _ (List.contains_iff_mem.1 hmem) (by simp)
    · split at h
      · rename_i hf
        obtain ⟨hlen, hts⟩ := (respectsArity_app f ts).1 har
        refine .app hf hlen fun u hu => ih u hu ((canonical_app f ts).1 hc u hu) (hts u hu)
          (missingAll_of_match h u hu) fun k hkn hsub => hk k hkn ?_
        rw [subterms_app]
        exact List.mem_cons_of_mem _ (List.mem_flatMap_of_mem hu hsub)
      · cases h
  | sum ts ih =>
    simp only [missing] at h
    split at h
    · rename_i hmem
      exact hk _ (List.contains_iff_mem.1 hmem) (by simp)
    · have hall : ∀ u ∈ ts, a.Derivable K u := by
        refine fun u hu => ih u hu (((canonical_sum ts).1 hc).2 u hu)
          ((respectsArity_sum ts).1 har u hu) (missingAll_of_match h u hu)
          fun k hkn hsub => hk k hkn ?_
        rw [subterms_sum]
        exact List.mem_cons_of_mem _ (List.mem_flatMap_of_mem hu hsub)
      have hsum : Term.xor ts = .sum ts := xor_summands hc
      exact hsum ▸ .xor hall

/-- A subterm that is missing for a term occurs in it. -/
theorem mem_subterms_of_missing {u : Term} (h : u ∈ a.missing known t) : u ∈ t.subterms := by
  have step {ts m : List Term} (ih : ∀ s ∈ ts, u ∈ a.missing known s → u ∈ s.subterms)
      (hu : u ∈ (match a.missingAll known ts with
        | [] => []
        | m' => m' ++ m)) : u ∈ ts.flatMap subterms ∨ u ∈ m := by
    split at hu
    · cases hu
    · rw [List.mem_append, missingAll_eq_flatMap] at hu
      refine hu.imp_left fun hu => ?_
      obtain ⟨s, hs, hus⟩ := List.mem_flatMap.1 hu
      exact List.mem_flatMap_of_mem hs (ih s hs hus)
  induction t using Term.induction with
  | var v =>
    simp only [missing] at h
    split at h
    · cases h
    · simpa using h
  | const c =>
    simp only [missing] at h
    split at h
    · cases h
    · simpa using h
  | app f ts ih =>
    rw [subterms_app]
    simp only [missing] at h
    split at h
    · cases h
    · split at h
      · rcases step ih h with hu | hu
        · exact List.mem_cons_of_mem _ hu
        · exact List.mem_singleton.1 hu ▸ List.mem_cons_self
      · exact List.mem_singleton.1 h ▸ List.mem_cons_self
  | sum ts ih =>
    rw [subterms_sum]
    simp only [missing] at h
    split at h
    · cases h
    · rcases step ih h with hu | hu
      · exact List.mem_cons_of_mem _ hu
      · exact List.mem_singleton.1 hu ▸ List.mem_cons_self

end Adversary

end SymbolicXor
