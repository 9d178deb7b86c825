import SymbolicXor.Proofs.AssignedTerms

/-!
# Resolved products

A product with a factor that is zero, one or a coefficient is decided by giving every coefficient a
value: it is the other factor or zero. Coefficients may stand on either side of a product and
anywhere else in a term. The resolved term is canonical and depends neither on when the term is
simplified nor on when values are assigned.
-/

namespace SymbolicXor

namespace CoeffTerm

mutual

/-- The term itself and all terms below it, in pre-order. -/
def subterms : CoeffTerm → List CoeffTerm
  | app f ts => app f ts :: subtermsAll ts
  | sum ts => sum ts :: subtermsAll ts
  | mul s t => mul s t :: (subterms s ++ subterms t)
  | t => [t]

/-- The subterms of each term in a list, one after the other. -/
def subtermsAll : List CoeffTerm → List CoeffTerm
  | [] => []
  | t :: ts => subterms t ++ subtermsAll ts

end

theorem subtermsAll_eq_flatMap (ts : List CoeffTerm) : subtermsAll ts = ts.flatMap subterms := by
  induction ts with
  | nil => rfl
  | cons t ts ih => rw [subtermsAll, ih, List.flatMap_cons]

/-- Every subterm of a term, the term itself included, passes a test. -/
def Everywhere (P : CoeffTerm → Prop) (t : CoeffTerm) : Prop := ∀ s ∈ t.subterms, P s

instance (P : CoeffTerm → Prop) [DecidablePred P] (t : CoeffTerm) : Decidable (t.Everywhere P) :=
  inferInstanceAs (Decidable (∀ s ∈ t.subterms, P s))

section Everywhere

variable {P : CoeffTerm → Prop} {s t : CoeffTerm} {ts : List CoeffTerm}

theorem mem_subterms_self (t : CoeffTerm) : t ∈ t.subterms := by
  cases t <;> exact List.mem_cons_self

theorem Everywhere.head (h : t.Everywhere P) : P t := h t (mem_subterms_self t)

@[simp] theorem everywhere_zero : zero.Everywhere P ↔ P zero :=
  List.forall_mem_singleton

@[simp] theorem everywhere_one : one.Everywhere P ↔ P one :=
  List.forall_mem_singleton

@[simp] theorem everywhere_const (c : Constant) : (const c).Everywhere P ↔ P (const c) :=
  List.forall_mem_singleton

@[simp] theorem everywhere_coeff (b : Name) : (coeff b).Everywhere P ↔ P (coeff b) :=
  List.forall_mem_singleton

@[simp] theorem everywhere_var (v : Variable) : (var v).Everywhere P ↔ P (var v) :=
  List.forall_mem_singleton

theorem forall_mem_subtermsAll : (∀ s ∈ subtermsAll ts, P s) ↔ ∀ t ∈ ts, t.Everywhere P := by
  simp only [Everywhere, subtermsAll_eq_flatMap, List.mem_flatMap]
  exact ⟨fun h t ht s hs => h s ⟨t, ht, hs⟩, fun h s ⟨t, ht, hs⟩ => h t ht s hs⟩

@[simp] theorem everywhere_app (f : FunctionSymbol) (ts : List CoeffTerm) :
    (app f ts).Everywhere P ↔ P (app f ts) ∧ ∀ t ∈ ts, t.Everywhere P :=
  List.forall_mem_cons.trans (and_congr_right fun _ => forall_mem_subtermsAll)

@[simp] theorem everywhere_sum (ts : List CoeffTerm) :
    (sum ts).Everywhere P ↔ P (sum ts) ∧ ∀ t ∈ ts, t.Everywhere P :=
  List.forall_mem_cons.trans (and_congr_right fun _ => forall_mem_subtermsAll)

@[simp] theorem everywhere_mul (s t : CoeffTerm) :
    (mul s t).Everywhere P ↔ P (mul s t) ∧ s.Everywhere P ∧ t.Everywhere P :=
  List.forall_mem_cons.trans (and_congr_right fun _ => List.forall_mem_append)

theorem Everywhere.summands (h : t.Everywhere P) : ∀ s ∈ t.summands, s.Everywhere P := by
  cases t with
  | sum ts => exact ((everywhere_sum ts).1 h).2
  | _ => exact List.forall_mem_singleton.2 h

/-- The summands that are left by toggling pass a test everywhere if all terms that were added up
do. -/
theorem everywhere_foldl_toggle (h : ∀ t ∈ ts, t.Everywhere P) :
    ∀ s ∈ (ts.flatMap CoeffTerm.summands).foldl toggle [], s.Everywhere P := by
  intro s hs
  obtain ⟨hs, _⟩ := (mem_of_mem_foldl_toggle hs).resolve_left List.not_mem_nil
  obtain ⟨t, ht, hst⟩ := List.mem_flatMap.1 hs
  exact (h t ht).summands s hst

theorem everywhere_ofSummands (hzero : P zero) (hsum : 2 ≤ ts.length → P (sum ts))
    (h : ∀ t ∈ ts, t.Everywhere P) : (ofSummands ts).Everywhere P := by
  match ts with
  | [] => simpa [ofSummands] using hzero
  | [t] => exact h t List.mem_cons_self
  | t :: u :: ts => exact (everywhere_sum _).2 ⟨hsum (by simp), h⟩

theorem everywhere_product (hzero : P zero) (hmul : s ≠ zero → t ≠ zero → s ≠ one → t ≠ one →
    P (mul s t)) (hs : s.Everywhere P) (ht : t.Everywhere P) : (product s t).Everywhere P := by
  unfold product
  split
  · simpa using hzero
  · rename_i hz
    rw [not_or] at hz
    split
    · exact ht
    · split
      · exact hs
      · rename_i h1 h2
        exact (everywhere_mul s t).2 ⟨hmul hz.1 hz.2 h1 h2, hs, ht⟩

/-- A property of the leaves, the applications and the products of a term holds of those of the
simplified term, if it is kept when all arguments or both factors are simplified. -/
theorem everywhere_simplify (hzero : P zero)
    (happ : ∀ f ts, P (app f ts) → P (app f (ts.map simplify))) (hsum : ∀ ts, P (sum ts))
    (hmul : ∀ s t, P (mul s t) → P (mul s.simplify t.simplify))
    (h : t.Everywhere P) : t.simplify.Everywhere P := by
  induction t using induction with
  | app f ts ih =>
    rw [simplify, simplifyAll_eq_map, everywhere_app, List.forall_mem_map]
    exact ⟨happ f ts h.head, fun t ht => ih t ht (((everywhere_app f ts).1 h).2 t ht)⟩
  | sum ts ih =>
    rw [simplify, simplifyAll_eq_map]
    refine everywhere_ofSummands hzero (fun _ => hsum _) (everywhere_foldl_toggle ?_)
    rw [List.forall_mem_map]
    exact fun t ht => ih t ht (((everywhere_sum ts).1 h).2 t ht)
  | mul s t hs ht =>
    obtain ⟨hst, hS, hT⟩ := (everywhere_mul s t).1 h
    rw [simplify]
    exact everywhere_product hzero (fun _ _ _ _ => hmul s t hst) (hs hS) (ht hT)
  | _ => exact h

end Everywhere

/-- The value of zero, one or a coefficient. -/
def factor? (β : Name → Bool) : CoeffTerm → Option Bool
  | zero => some false
  | one => some true
  | coeff b => some (β b)
  | _ => none

/-- Zero, one or a coefficient. -/
def IsFactor : CoeffTerm → Prop
  | zero => True
  | one => True
  | coeff _ => True
  | _ => False

instance : DecidablePred IsFactor
  | zero | one | coeff _ => isTrue trivial
  | const _ | var _ | app _ _ | sum _ | mul _ _ => isFalse id

/-- A product at the head of a term has zero, one or a coefficient as a factor. -/
def HasFactor : CoeffTerm → Prop
  | mul s t => s.IsFactor ∨ t.IsFactor
  | _ => True

instance : DecidablePred HasFactor
  | mul s t => inferInstanceAs (Decidable (s.IsFactor ∨ t.IsFactor))
  | zero | one | coeff _ | const _ | var _ | app _ _ | sum _ => isTrue trivial

variable {β : Name → Bool} {x : Bool} {s t : CoeffTerm}

theorem IsFactor.exists_factor? (h : t.IsFactor) (β : Name → Bool) : ∃ x, t.factor? β = some x := by
  cases t <;> first | exact ⟨_, rfl⟩ | exact h.elim

theorem IsFactor.simplify_eq (h : t.IsFactor) : t.simplify = t := by
  cases t <;> first | rfl | exact h.elim

/-- Factors are left as they are, so a product keeps the one that it has. -/
theorem HasFactor.mul_simplify (h : (mul s t).HasFactor) :
    (mul s.simplify t.simplify).HasFactor := by
  rcases h with h | h
  · exact Or.inl (h.simplify_eq.symm ▸ h)
  · exact Or.inr (h.simplify_eq.symm ▸ h)

theorem everywhere_hasFactor_simplify (h : t.Everywhere HasFactor) :
    t.simplify.Everywhere HasFactor :=
  everywhere_simplify trivial (fun _ _ _ => trivial) (fun _ => trivial)
    (fun _ _ => HasFactor.mul_simplify) h

mutual

/-- The term that is left when every coefficient has a value. A product with a factor is zero or the
other factor. -/
def resolve (β : Name → Bool) : CoeffTerm → Term
  | zero => .zero
  | one => toTerm one
  | const c => .const c
  | coeff b => if β b then toTerm one else .zero
  | var v => .var v
  | app f ts => .app f (resolveAll β ts)
  | sum ts => .xor (resolveAll β ts)
  | mul s t =>
    match s.factor? β, t.factor? β with
    | some x, _ => if x then resolve β t else .zero
    | none, some x => if x then resolve β s else .zero
    | none, none => .app productSymbol [resolve β s, resolve β t]

/-- The terms that are left of those in a list. -/
def resolveAll (β : Name → Bool) : List CoeffTerm → List Term
  | [] => []
  | t :: ts => resolve β t :: resolveAll β ts

end

theorem resolveAll_eq_map (ts : List CoeffTerm) : resolveAll β ts = ts.map (resolve β) := by
  induction ts with
  | nil => rfl
  | cons t ts ih => rw [resolveAll, ih, List.map_cons]

@[simp] theorem resolve_zero : resolve β zero = .zero := rfl

@[simp] theorem resolve_const (c : Constant) : resolve β (const c) = .const c := rfl

@[simp] theorem resolve_var (v : Variable) : resolve β (var v) = .var v := rfl

@[simp] theorem resolve_app (f : FunctionSymbol) (ts : List CoeffTerm) :
    resolve β (app f ts) = .app f (ts.map (resolve β)) := by
  rw [← resolveAll_eq_map]
  rfl

@[simp] theorem resolve_sum (ts : List CoeffTerm) :
    resolve β (sum ts) = .xor (ts.map (resolve β)) := by
  rw [← resolveAll_eq_map]
  rfl

theorem resolve_of_factor? (h : t.factor? β = some x) :
    resolve β t = if x then toTerm one else .zero := by
  cases t with
  | zero => cases h; rfl
  | one => cases h; rfl
  | coeff b => cases h; rfl
  | _ => cases h

/-- A factor on the left decides a product. -/
theorem resolve_mul_left (h : s.factor? β = some x) :
    resolve β (mul s t) = if x then resolve β t else .zero := by
  rw [resolve, h]

/-- A factor on the right decides a product too. -/
theorem resolve_mul_right (h : t.factor? β = some x) :
    resolve β (mul s t) = if x then resolve β s else .zero := by
  cases hs : s.factor? β with
  | none => rw [resolve, hs, h]
  | some y =>
    -- two factors: whichever is looked at first, the product is one if both are
    rw [resolve_mul_left hs, resolve_of_factor? h, resolve_of_factor? hs]
    cases x <;> cases y <;> rfl

/-- Resolved terms are canonical, and sums are resolved to sums. -/
theorem reads_resolve (β : Name → Bool) : Reads (resolve β) where
  zero := resolve_zero
  sum := resolve_sum
  canonical t := by
    induction t using induction with
    | zero => simp
    | one => exact reads_toTerm.canonical one
    | const c => simp
    | coeff b =>
      rw [resolve_of_factor? (t := coeff b) rfl]
      cases β b with
      | false => exact Term.canonical_zero
      | true => exact reads_toTerm.canonical one
    | var v => simp
    | app f ts ih => simpa using ih
    | sum ts ih =>
      rw [resolve_sum]
      exact Term.canonical_xor (by simpa using ih)
    | mul s t hs ht =>
      rw [resolve]
      split
      · split
        · exact ht
        · exact Term.canonical_zero
      · split
        · exact hs
        · exact Term.canonical_zero
      · simp [hs, ht]

@[simp] theorem product_zero_left (t : CoeffTerm) : product zero t = zero := by
  simp [product]

@[simp] theorem product_zero_right (s : CoeffTerm) : product s zero = zero := by
  simp [product]

@[simp] theorem product_one_left (t : CoeffTerm) : product one t = t := by
  unfold product
  split
  · simp_all
  · rfl

@[simp] theorem product_one_right (s : CoeffTerm) : product s one = s := by
  unfold product
  split
  · simp_all
  · split
    · simp_all
    · rfl

theorem resolve_product (s t : CoeffTerm) : resolve β (product s t) = resolve β (mul s t) := by
  unfold product
  split
  · rename_i hz
    rcases hz with rfl | rfl
    · rw [resolve_mul_left (s := zero) rfl]
      rfl
    · rw [resolve_mul_right (t := zero) rfl]
      rfl
  · split
    · rename_i h1
      rw [h1, resolve_mul_left (s := one) rfl, if_pos rfl]
    · split
      · rename_i h2
        rw [h2, resolve_mul_right (t := one) rfl, if_pos rfl]
      · rfl

/-- A simplified term is resolved as the original one. -/
theorem resolve_simplify (h : t.Everywhere HasFactor) : resolve β t.simplify = resolve β t := by
  induction t using induction with
  | app f ts ih =>
    have hts := ((everywhere_app f ts).1 h).2
    rw [simplify, simplifyAll_eq_map, resolve_app, resolve_app, List.map_map]
    exact congrArg _ (List.map_congr_left fun t ht => ih t ht (hts t ht))
  | sum ts ih =>
    have hts := ((everywhere_sum ts).1 h).2
    rw [simplify, simplifyAll_eq_map,
      ← Term.vec_inj ((reads_resolve β).canonical _) ((reads_resolve β).canonical _),
      (reads_resolve β).vec_simplified, List.map_map, (reads_resolve β).vec_eq_sum (sum ts)]
    exact congrArg _ (List.map_congr_left fun t ht => congrArg Term.vec (ih t ht (hts t ht)))
  | mul s t hs ht =>
    obtain ⟨hfactor, hS, hT⟩ := (everywhere_mul s t).1 h
    rw [simplify, resolve_product]
    rcases hfactor with hf | hf
    · obtain ⟨x, hx⟩ := hf.exists_factor? β
      rw [hf.simplify_eq, resolve_mul_left hx, resolve_mul_left hx, ht hT]
    · obtain ⟨x, hx⟩ := hf.exists_factor? β
      rw [hf.simplify_eq, resolve_mul_right hx, resolve_mul_right hx, hs hS]
  | _ => rfl

end CoeffTerm

namespace Assignment

open CoeffTerm

variable {γ : Assignment} {β : Name → Bool} {x : Bool} {s t : CoeffTerm}

/-- A coefficient at the head of a term has a value. -/
def Assigns (γ : Assignment) : CoeffTerm → Prop
  | coeff b => (γ.get? b).isSome
  | _ => True

instance (γ : Assignment) : DecidablePred γ.Assigns
  | coeff b => inferInstanceAs (Decidable ((γ.get? b).isSome))
  | zero | one | const _ | var _ | app _ _ | sum _ | mul _ _ => isTrue trivial

/-- The values that an assignment gives, and zero for the coefficients that it leaves open. -/
def total (γ : Assignment) (b : Name) : Bool := (γ.get? b).getD false

theorem within_total (γ : Assignment) : γ.Within (some ∘ γ.total) := by
  intro b x h
  rw [Function.comp_apply, total, h, Option.getD_some]

theorem everywhere_assigns_simplify (h : t.Everywhere γ.Assigns) :
    t.simplify.Everywhere γ.Assigns :=
  everywhere_simplify trivial (fun _ _ _ => trivial) (fun _ => trivial) (fun _ _ _ => trivial) h

/-- Assigned factors are one or zero. -/
theorem reduce_of_factor? (hγ : γ.Within (some ∘ β)) (ha : γ.Assigns t)
    (h : t.factor? β = some x) : γ.reduce t = if x then one else zero := by
  cases t with
  | zero => cases h; rfl
  | one => cases h; rfl
  | coeff b =>
    cases h
    obtain ⟨y, hy⟩ := Option.isSome_iff_exists.1 ha
    have hβ : β b = y := Option.some.inj (hγ b y hy)
    rw [hβ]
    cases y <;> simp [reduce, apply, mapLeaves, lookup, hy, simplify]
  | _ => cases h

/-- A term whose coefficients all have values is printed as the resolved term. -/
theorem toTerm_reduce_eq_resolve (hγ : γ.Within (some ∘ β)) (hfactor : t.Everywhere HasFactor)
    (ha : t.Everywhere γ.Assigns) : (γ.reduce t).toTerm = resolve β t := by
  induction t using CoeffTerm.induction with
  | coeff b =>
    rw [reduce_of_factor? (t := coeff b) hγ ha.head rfl, resolve_of_factor? (t := coeff b) rfl]
    cases β b <;> rfl
  | app f ts ih =>
    have hts := ((everywhere_app f ts).1 hfactor).2
    have has := ((everywhere_app f ts).1 ha).2
    rw [reduce_app, toTerm_app, resolve_app, List.map_map]
    exact congrArg _ (List.map_congr_left fun t ht => ih t ht (hts t ht) (has t ht))
  | sum ts ih =>
    have hts := ((everywhere_sum ts).1 hfactor).2
    have has := ((everywhere_sum ts).1 ha).2
    rw [← Term.vec_inj (reads_toTerm.canonical _) ((reads_resolve β).canonical _), reduce_sum,
      reads_toTerm.vec_simplified, List.map_map, (reads_resolve β).vec_eq_sum (sum ts)]
    exact congrArg _ (List.map_congr_left fun t ht =>
      congrArg Term.vec (ih t ht (hts t ht) (has t ht)))
  | mul s t hs ht =>
    obtain ⟨hf, hS, hT⟩ := (everywhere_mul s t).1 hfactor
    obtain ⟨_, hA, hB⟩ := (everywhere_mul s t).1 ha
    rw [reduce_mul]
    rcases hf with hf | hf
    · obtain ⟨x, hx⟩ := hf.exists_factor? β
      rw [reduce_of_factor? hγ hA.head hx, resolve_mul_left hx, ← ht hT hB]
      cases x <;> simp [reads_toTerm.zero]
    · obtain ⟨x, hx⟩ := hf.exists_factor? β
      rw [reduce_of_factor? hγ hB.head hx, resolve_mul_right hx, ← hs hS hA]
      cases x <;> simp [reads_toTerm.zero]
  | zero => rw [resolve_zero]; exact reads_toTerm.zero
  | one => rfl
  | const c => rfl
  | var v => rfl

end Assignment

end SymbolicXor
