import SymbolicXor.Proofs.AssignedTerms

/-!
# Composing assignments

An assignment is known by the valuations above it. The valuations above a composition are those
above both parts, and there is a composition as soon as there is such a valuation. So composing is
conjunction: it is commutative and associative, a contradiction absorbs everything, and the empty
assignment is the unit. Applying a composition to a term is applying its parts one after the other,
in any order.
-/

namespace SymbolicXor

/-- A partial operation that is commutative and associative, with a unit. Three elements are put
together in one order exactly if they are in the other. -/
structure IsPartialCommMonoid {M : Type} (op : M → M → Option M) (unit : M) : Prop where
  /-- Both orders of two elements give the same, or nothing. -/
  comm (a b : M) : op a b = op b a
  /-- Both ways of putting three elements together give the same, or nothing. -/
  assoc (a b c : M) : ((op a b).bind fun ab => op ab c) = (op b c).bind fun bc => op a bc
  /-- The unit changes nothing. -/
  unit_op (a : M) : op unit a = some a
  /-- The unit changes nothing on the other side. -/
  op_unit (a : M) : op a unit = some a

/-- The order in which a list of elements is put to one does not matter. -/
theorem IsPartialCommMonoid.foldlM_of_perm {M : Type} {op : M → M → Option M} {unit : M}
    (h : IsPartialCommMonoid op unit) {as bs : List M} (hp : as.Perm bs) (c : M) :
    as.foldlM op c = bs.foldlM op c := by
  induction hp generalizing c with
  | nil => rfl
  | cons a _ ih =>
    rw [List.foldlM_cons, List.foldlM_cons]
    exact congrArg _ (funext ih)
  | swap a b l =>
    have hswap : ((op c b).bind fun cb => op cb a) = (op c a).bind fun ca => op ca b := by
      rw [h.assoc, h.assoc, h.comm b a]
    simp only [List.foldlM_cons, Option.bind_eq_bind, ← Option.bind_assoc, hswap]
  | trans _ _ ih₁ ih₂ => exact (ih₁ c).trans (ih₂ c)

/-- The elements act on a type: two elements put together act as both do, one after the other in
either order. -/
structure IsPartialAction {M X : Type} (op : M → M → Option M) (unit : M) (act : M → X → X) :
    Prop where
  /-- The unit does nothing. -/
  act_unit (x : X) : act unit x = x
  /-- First the one, then the other. -/
  act_op {a b c : M} (h : op a b = some c) (x : X) : act c x = act b (act a x)
  /-- First the other, then the one. -/
  act_op_swap {a b c : M} (h : op a b = some c) (x : X) : act c x = act a (act b x)

namespace CoeffTerm

/-- Replacing leaves twice is replacing them by the second replacement of the first. -/
theorem mapLeaves_mapLeaves (onVar onVar' : Variable → CoeffTerm)
    (onCoeff onCoeff' : Name → CoeffTerm) (t : CoeffTerm) :
    (t.mapLeaves onVar onCoeff).mapLeaves onVar' onCoeff' =
      t.mapLeaves (fun v => (onVar v).mapLeaves onVar' onCoeff')
        fun b => (onCoeff b).mapLeaves onVar' onCoeff' := by
  induction t using CoeffTerm.induction with
  | app f ts ih =>
    simp only [mapLeaves, mapLeavesAll_eq_map, List.map_map]
    exact congrArg _ (List.map_congr_left ih)
  | sum ts ih =>
    simp only [mapLeaves, mapLeavesAll_eq_map, List.map_map]
    exact congrArg _ (List.map_congr_left ih)
  | mul s t hs ht => simp only [mapLeaves, hs, ht]
  | _ => rfl

end CoeffTerm

namespace Assignment

open CoeffTerm

variable {γ δ ρ ε : Assignment} {α : Name → Option Bool}

/-- An assignment is known by its values. -/
theorem ext_get? (h : ∀ b, γ.get? b = δ.get? b) : γ = δ := by
  cases γ
  cases δ
  exact congrArg mk (FinMap.ext_get? h)

/-- An assignment is known by the valuations above it. -/
theorem eq_of_within_iff (h : ∀ α, γ.Within α ↔ δ.Within α) : γ = δ := by
  have hγ : δ.Within γ.get? := (h γ.get?).1 γ.within_get?
  have hδ : γ.Within δ.get? := (h δ.get?).2 δ.within_get?
  refine ext_get? fun b => Option.ext fun x => ?_
  exact ⟨hδ b x, hγ b x⟩

/-- A composition is known by the valuations above both parts. -/
theorem compose_eq_some : γ.compose δ = some ε ↔ ∀ α, ε.Within α ↔ γ.Within α ∧ δ.Within α := by
  constructor
  · exact fun h _ => within_compose h
  · intro h
    obtain ⟨hγ, hδ⟩ := (h ε.get?).1 ε.within_get?
    obtain ⟨ε', hε'⟩ := exists_compose hγ hδ
    have heq : ε' = ε := eq_of_within_iff fun α => (within_compose hε').trans (h α).symm
    rw [hε', heq]

/-- Assignments can be composed if they agree on the coefficients that both assign. -/
theorem isSome_compose : (γ.compose δ).isSome = true ↔
    ∀ b x y, γ.get? b = some x → δ.get? b = some y → x = y := by
  rw [← agrees_iff, compose]
  by_cases h : γ.agrees δ = true <;> simp [h]

theorem compose_comm (γ δ : Assignment) : γ.compose δ = δ.compose γ :=
  Option.ext fun ε => by simp only [compose_eq_some, and_comm]

/-- A composition of three parts is known by the valuations above all of them. -/
theorem bind_compose_eq_some :
    ((γ.compose δ).bind fun γδ => γδ.compose ρ) = some ε ↔
      ∀ α, ε.Within α ↔ (γ.Within α ∧ δ.Within α) ∧ ρ.Within α := by
  rw [Option.bind_eq_some_iff]
  constructor
  · rintro ⟨γδ, hγδ, hε⟩ α
    rw [within_compose hε, within_compose hγδ]
  · intro h
    obtain ⟨⟨hγ, hδ⟩, -⟩ := (h ε.get?).1 ε.within_get?
    obtain ⟨γδ, hγδ⟩ := exists_compose hγ hδ
    refine ⟨γδ, hγδ, compose_eq_some.2 fun α => ?_⟩
    rw [h, within_compose hγδ]

theorem compose_assoc (γ δ ρ : Assignment) :
    ((γ.compose δ).bind fun γδ => γδ.compose ρ) =
      (δ.compose ρ).bind fun δρ => γ.compose δρ := by
  refine Option.ext fun ε => ?_
  have hcomm : ((δ.compose ρ).bind fun δρ => γ.compose δρ) =
      (δ.compose ρ).bind fun δρ => δρ.compose γ := by simp only [compose_comm γ]
  rw [hcomm, bind_compose_eq_some, bind_compose_eq_some]
  refine forall_congr' fun α => ?_
  rw [and_assoc, and_comm]

theorem empty_compose (γ : Assignment) : (∅ : Assignment).compose γ = some γ :=
  compose_eq_some.2 fun α => (and_iff_right (within_empty α)).symm

theorem isPartialCommMonoid_compose : IsPartialCommMonoid compose (∅ : Assignment) where
  comm := compose_comm
  assoc := compose_assoc
  unit_op := empty_compose
  op_unit γ := (compose_comm γ ∅).trans (empty_compose γ)

/-- A composition puts in for a coefficient the term that its parts put in one after the other. -/
theorem lookup_of_compose (h : γ.compose δ = some ε) (b : Name) :
    ε.lookup b = δ.apply (γ.lookup b) := by
  cases hb : γ.get? b with
  | none =>
    have hget : ε.get? b = δ.get? b := by rw [get?_compose h, hb, Option.or_none]
    have hγ : γ.lookup b = .coeff b := by rw [lookup, hb]
    rw [hγ, apply, mapLeaves, lookup, lookup, hget]
  | some x =>
    -- a value that the first part has is kept by the other
    have hget : ε.get? b = some x := ((within_compose h).1 ε.within_get?).1 b x hb
    rw [lookup, lookup, hget, hb]
    cases x <;> rfl

theorem apply_of_compose (h : γ.compose δ = some ε) (t : CoeffTerm) :
    ε.apply t = δ.apply (γ.apply t) := by
  have hlookup : ε.lookup = fun b => δ.apply (γ.lookup b) := funext (lookup_of_compose h)
  rw [apply, hlookup]
  exact (mapLeaves_mapLeaves .var .var γ.lookup δ.lookup t).symm

theorem isPartialAction_apply : IsPartialAction compose (∅ : Assignment) apply where
  act_unit := apply_empty
  act_op := apply_of_compose
  act_op_swap {γ δ _} h := apply_of_compose ((compose_comm δ γ).trans h)

/-- Different assignments act differently on some coefficient. -/
theorem eq_of_apply_eq (h : ∀ t, γ.apply t = δ.apply t) : γ = δ := by
  refine ext_get? fun b => ?_
  have hb : γ.lookup b = δ.lookup b := h (.coeff b)
  have hread (ρ : Assignment) : ρ.get? b =
      match ρ.lookup b with
      | .one => some true
      | .zero => some false
      | _ => none := by
    rw [lookup]
    cases ρ.get? b with
    | none => rfl
    | some x => cases x <;> rfl
  rw [hread γ, hread δ, hb]

/-- Assignments are a partial commutative monoid under composition, with the empty assignment as
unit, so that the order in which many are composed does not matter. Two of them can be composed
exactly if they agree on every coefficient that both assign. They act on coefficient terms, and no
two of them in the same way. -/
theorem compose_partialCommMonoid :
    IsPartialCommMonoid compose (∅ : Assignment) ∧
      (∀ (γ : Assignment) (as bs : List Assignment), as.Perm bs →
        as.foldlM compose γ = bs.foldlM compose γ) ∧
      (∀ γ δ : Assignment, (γ.compose δ).isSome = true ↔
        ∀ b x y, γ.get? b = some x → δ.get? b = some y → x = y) ∧
      IsPartialAction compose (∅ : Assignment) apply ∧
      ∀ γ δ : Assignment, (∀ t, γ.apply t = δ.apply t) ↔ γ = δ :=
  ⟨isPartialCommMonoid_compose,
    fun γ _ _ hp => isPartialCommMonoid_compose.foldlM_of_perm hp γ,
    fun _ _ => isSome_compose, isPartialAction_apply,
    fun _ _ => ⟨eq_of_apply_eq, fun h _ => h ▸ rfl⟩⟩

end Assignment

end SymbolicXor
