import SymbolicXor.Proofs.CoefficientValues

/-!
# Assigning and simplifying

The searches give values to some coefficients of a term and simplify it. The result has the value
that the term has under any valuation above the assignment, in particular the term that it is
printed as. Its summands are atoms, and coefficients stand in front of what they stood in front of.
-/

namespace SymbolicXor

namespace Assignment

open CoeffTerm

/-- A term whose assigned coefficients have their values, simplified. -/
def reduce (γ : Assignment) (t : CoeffTerm) : CoeffTerm := (γ.apply t).simplify

variable {γ : Assignment}

/-- The empty assignment changes nothing. -/
theorem apply_empty (t : CoeffTerm) : (∅ : Assignment).apply t = t := by
  have map_eq {ts : List CoeffTerm} (ih : ∀ t ∈ ts, (∅ : Assignment).apply t = t) :
      mapLeavesAll .var (∅ : Assignment).lookup ts = ts := by
    rw [mapLeavesAll_eq_map]
    exact (List.map_congr_left ih).trans (List.map_id ts)
  induction t using CoeffTerm.induction with
  | app f ts ih => rw [apply, mapLeaves, map_eq ih]
  | sum ts ih => rw [apply, mapLeaves, map_eq ih]
  | mul s t hs ht => rw [apply, mapLeaves, ← apply, ← apply, hs, ht]
  | _ => rfl

theorem reduce_empty (t : CoeffTerm) : (∅ : Assignment).reduce t = t.simplify := by
  rw [reduce, apply_empty]

@[simp] theorem reduce_zero : γ.reduce zero = zero := rfl

@[simp] theorem reduce_const (c : Constant) : γ.reduce (const c) = const c := rfl

@[simp] theorem reduce_var (v : Variable) : γ.reduce (var v) = var v := rfl

theorem reduceAll_eq_map (ts : List CoeffTerm) :
    simplifyAll (mapLeavesAll .var γ.lookup ts) = ts.map γ.reduce := by
  rw [mapLeavesAll_eq_map, simplifyAll_eq_map, List.map_map]
  rfl

@[simp] theorem reduce_app (f : FunctionSymbol) (ts : List CoeffTerm) :
    γ.reduce (app f ts) = app f (ts.map γ.reduce) := by
  rw [← reduceAll_eq_map]
  rfl

theorem reduce_sum (ts : List CoeffTerm) :
    γ.reduce (sum ts) = ofSummands (((ts.map γ.reduce).flatMap summands).foldl toggle []) := by
  rw [← reduceAll_eq_map]
  rfl

theorem reduce_mul (s t : CoeffTerm) :
    γ.reduce (mul s t) = product (γ.reduce s) (γ.reduce t) := rfl

theorem reduce_coeff (b : Name) : γ.reduce (coeff b) = (γ.lookup b).simplify := rfl

theorem reduce_mul_of_true {b : Name} {t : CoeffTerm} (h : γ.get? b = some true) :
    γ.reduce (mul (coeff b) t) = γ.reduce t := by
  have hb : γ.reduce (coeff b) = one := by
    rw [reduce_coeff, lookup, h]
    rfl
  rw [reduce_mul, hb, product]
  by_cases hz : γ.reduce t = zero <;> simp [hz]

theorem reduce_mul_of_false {b : Name} {t : CoeffTerm} (h : γ.get? b = some false) :
    γ.reduce (mul (coeff b) t) = zero := by
  have hb : γ.reduce (coeff b) = zero := by
    rw [reduce_coeff, lookup, h]
    rfl
  rw [reduce_mul, hb, product]
  simp

theorem reduce_mul_of_none {b : Name} {t : CoeffTerm} (h : γ.get? b = none)
    (ht : γ.reduce t ≠ one) : γ.reduce (mul (coeff b) t) =
      if γ.reduce t = zero then zero else mul (coeff b) (γ.reduce t) := by
  have hb : γ.reduce (coeff b) = coeff b := by
    rw [reduce_coeff, lookup, h]
    rfl
  rw [reduce_mul, hb, product]
  simp [ht]

end Assignment

namespace CoeffTerm

open Assignment

variable {γ : Assignment} {α : Name → Option Bool} {p : CoeffTerm → Prop} {t : CoeffTerm}

/-- A kind of terms that stay in it or become zero when coefficients are assigned. -/
def Lasting (p : CoeffTerm → Prop) : Prop :=
  ∀ (γ : Assignment) t, Scaled (OrZero p) t → p t → OrZero p (γ.reduce t)

theorem orZero_reduce (h : p t → OrZero p (γ.reduce t)) (ht : OrZero p t) :
    OrZero p (γ.reduce t) := by
  rcases ht with rfl | ht
  · exact Or.inl reduce_zero
  · exact h ht

/-- Zero, or different atoms to add up. -/
structure Flat (t : CoeffTerm) : Prop where
  /-- Any other term but zero is made of atoms. -/
  atoms : t = zero ∨ ∀ s ∈ t.summands, s.IsAtom
  /-- No summand occurs twice. -/
  nodup : t.summands.Nodup
  /-- There are two things at least to add up in a sum. -/
  proper : ∀ ts, t = sum ts → 2 ≤ ts.length

theorem flat_zero : zero.Flat := ⟨Or.inl rfl, List.nodup_singleton _, fun _ h => by cases h⟩

/-- A flat term has summands. -/
theorem Flat.summands_ne_nil (h : t.Flat) : t.summands ≠ [] := by
  cases t with
  | sum ts =>
    rintro rfl
    exact absurd (h.proper [] rfl) (by decide)
  | _ => exact List.cons_ne_nil _ _

theorem IsAtom.flat (h : t.IsAtom) : t.Flat := by
  refine ⟨Or.inr ?_, ?_, fun ts hts => ?_⟩
  · rw [h.summands]
    exact List.forall_mem_singleton.2 h
  · rw [h.summands]
    exact List.nodup_singleton t
  · rw [hts] at h
    exact h.elim

theorem flat_ofSummands {ts : List CoeffTerm} (h : ∀ t ∈ ts, t.IsAtom) (hts : ts.Nodup) :
    (ofSummands ts).Flat := by
  match ts with
  | [] => exact flat_zero
  | [t] => exact (h t List.mem_cons_self).flat
  | t :: u :: ts =>
    refine ⟨Or.inr h, hts, fun us hus => ?_⟩
    cases hus
    simp

/-- Assigning and simplifying keeps terms scaled and leaves atoms to add up. -/
theorem scaled_reduce (hp : Lasting p) (h : Scaled (OrZero p) t) :
    Scaled p (γ.reduce t) ∧ (γ.reduce t).Flat := by
  induction h with
  | zero => exact ⟨.zero, flat_zero⟩
  | const hc => exact ⟨.const hc, IsAtom.flat trivial⟩
  | var v => exact ⟨.var v, IsAtom.flat trivial⟩
  | app _ ih =>
    rw [reduce_app]
    refine ⟨.app ?_, IsAtom.flat trivial⟩
    rw [List.forall_mem_map]
    exact fun t ht => (ih t ht).1
  | @sum ts _ ih =>
    have hleft : ∀ u ∈ ((ts.map γ.reduce).flatMap summands).foldl toggle [],
        Scaled p u ∧ u.IsAtom := by
      intro u hu
      obtain ⟨hu, hz⟩ := (mem_of_mem_foldl_toggle hu).resolve_left List.not_mem_nil
      obtain ⟨r, hr, hur⟩ := List.mem_flatMap.1 hu
      obtain ⟨t, ht, rfl⟩ := List.mem_map.1 hr
      refine ⟨(ih t ht).1.summands u hur, ?_⟩
      rcases (ih t ht).2.atoms with hzero | hatoms
      · rw [hzero] at hur
        exact absurd (List.mem_singleton.1 hur) hz
      · exact hatoms u hur
    rw [reduce_sum]
    exact ⟨scaled_ofSummands fun u hu => (hleft u hu).1,
      flat_ofSummands (fun u hu => (hleft u hu).2) (nodup_foldl_toggle List.nodup_nil)⟩
  | @mul b t hpt ht ih =>
    cases hb : γ.get? b with
    | some x =>
      cases x with
      | true =>
        rw [reduce_mul_of_true hb]
        exact ih
      | false =>
        rw [reduce_mul_of_false hb]
        exact ⟨.zero, flat_zero⟩
    | none =>
      rw [reduce_mul_of_none hb ih.1.ne_one]
      split
      · exact ⟨.zero, flat_zero⟩
      · rename_i hne
        have hkind : OrZero p (γ.reduce t) := orZero_reduce (hp γ t ht) hpt
        exact ⟨.mul (hkind.resolve_left hne) ih.1, IsAtom.flat trivial⟩

theorem lasting_isRigid : Lasting IsRigid := by
  intro γ t _ hr
  cases t with
  | const c => exact Or.inr trivial
  | app f ts =>
    rw [reduce_app]
    exact Or.inr trivial
  | _ => exact hr.elim

theorem lasting_isAtom : Lasting IsAtom := by
  intro γ t ht ha
  induction ht with
  | zero => exact ha.elim
  | const _ => exact Or.inr trivial
  | var v => exact Or.inr trivial
  | app _ _ =>
    rw [reduce_app]
    exact Or.inr trivial
  | sum _ _ => exact ha.elim
  | @mul b t hpt _ ih =>
    have hkind : OrZero IsAtom (γ.reduce t) := orZero_reduce ih hpt
    rw [reduce_mul]
    unfold product
    split
    · exact Or.inl rfl
    · split
      · exact hkind
      · split
        · rename_i _ _ hone
          rw [hone] at hkind
          exact hkind.elim (fun h => absurd h (by simp)) False.elim
        · exact Or.inr trivial

theorem Scaled.orZero (h : Scaled p t) : Scaled (OrZero p) t := h.mono fun _ => Or.inr

/-- Assigning values that a valuation gives, and simplifying, keeps the value. -/
theorem value_reduce (hp : Lasting p) (hγ : γ.Within α) (h : Scaled (OrZero p) t) :
    value α (γ.reduce t) = value α t := by
  induction h with
  | zero => rfl
  | const _ => rfl
  | var _ => rfl
  | app _ ih =>
    rw [reduce_app, value_app, value_app, List.map_map]
    exact congrArg _ (List.map_congr_left ih)
  | @sum ts _ ih =>
    rw [← Term.vec_inj (canonical_value _) (canonical_value _), reduce_sum,
      (reads_value α).vec_simplified, List.map_map, value_sum,
      Term.vec_xor ((reads_value α).map_canonical ts), List.map_map]
    exact congrArg _ (List.map_congr_left fun t ht => congrArg Term.vec (ih t ht))
  | @mul b t _ ht ih =>
    have hone : γ.reduce t ≠ one := (scaled_reduce hp ht).1.ne_one
    rw [value_mul, ← ih]
    cases hb : γ.get? b with
    | some x =>
      rw [hγ b x hb]
      cases x with
      | true =>
        rw [reduce_mul_of_true hb]
        rfl
      | false =>
        rw [reduce_mul_of_false hb]
        rfl
    | none =>
      rw [reduce_mul_of_none hb hone]
      split
      · rename_i hz
        rw [hz, value_zero, weigh_zero]
      · rw [value_mul]

theorem value_simplify (hp : Lasting p) (h : Scaled (OrZero p) t) :
    value α t.simplify = value α t := by
  rw [← reduce_empty, value_reduce hp (within_empty α) h]

@[simp] theorem toTerm_app (f : FunctionSymbol) (ts : List CoeffTerm) :
    toTerm (app f ts) = .app f (ts.map toTerm) := by
  rw [toTerm, toTerms_eq_map]

theorem reads_toTerm : Reads toTerm where
  zero := by rw [toTerm]
  sum ts := by rw [toTerm, toTerms_eq_map]
  canonical t := by
    induction t using induction with
    | app f ts ih => simpa using ih
    | sum ts ih =>
      rw [toTerm, toTerms_eq_map]
      exact Term.canonical_xor (by simpa using ih)
    | mul s t hs ht => simp [toTerm, hs, ht]
    | _ => simp [toTerm]

theorem toTerm_ne_zero (h : Scaled p t) (ha : t.IsAtom) : t.toTerm ≠ .zero := by
  cases h with
  | const hc => simpa [toTerm] using hc
  | var v => simp [toTerm, Term.zero]
  | app _ => simp [toTerm, Term.zero]
  | mul _ _ => simp [toTerm, Term.zero]
  | _ => exact ha.elim

/-- A term that is assigned and simplified is printed as its value under the assignment. -/
theorem toTerm_reduce (h : Scaled (OrZero IsAtom) t) :
    (γ.reduce t).toTerm = value γ.get? t := by
  induction h with
  | zero => rfl
  | const _ => rfl
  | var _ => rfl
  | app _ ih =>
    rw [reduce_app, toTerm_app, value_app, List.map_map]
    exact congrArg _ (List.map_congr_left ih)
  | @sum ts _ ih =>
    rw [← Term.vec_inj (reads_toTerm.canonical _) (canonical_value _), reduce_sum,
      reads_toTerm.vec_simplified, List.map_map, value_sum,
      Term.vec_xor ((reads_value γ.get?).map_canonical ts), List.map_map]
    exact congrArg _ (List.map_congr_left fun t ht => congrArg Term.vec (ih t ht))
  | @mul b t hpt ht ih =>
    have hone : γ.reduce t ≠ one := (scaled_reduce lasting_isAtom ht).1.ne_one
    rw [value_mul, ← ih]
    cases hb : γ.get? b with
    | some x =>
      cases x with
      | true =>
        rw [reduce_mul_of_true hb]
        rfl
      | false =>
        rw [reduce_mul_of_false hb]
        rfl
    | none =>
      rw [reduce_mul_of_none hb hone]
      split
      · rename_i hz
        rw [hz, reads_toTerm.zero, weigh_zero]
      · rename_i hne
        have hkind : OrZero IsAtom (γ.reduce t) := orZero_reduce (lasting_isAtom γ t ht) hpt
        have hterm := toTerm_ne_zero (scaled_reduce lasting_isAtom ht).1 (hkind.resolve_left hne)
        rw [weigh, if_neg hterm]
        rfl

end CoeffTerm

end SymbolicXor
