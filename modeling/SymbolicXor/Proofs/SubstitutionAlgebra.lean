import SymbolicXor.Proofs.LeafMaps
import SymbolicXor.Proofs.MapLookup

/-!
# The algebra of substitutions

A substitution acts on canonical terms as a homomorphism: it commutes with application and with
exclusive or, and a composition acts by its two parts in turn. A substitution absorbs another if
applying the other first makes no difference; a unifier absorbs every binding that it satisfies,
and a substitution in solved form absorbs itself.
-/

namespace SymbolicXor.Substitution

open Term

variable {σ θ ρ : Substitution}

theorem mem_domain {v : Variable} : v ∈ σ.domain ↔ ∃ t, σ.get? v = some t := FinMap.mem_keys

theorem mem_range {t : Term} : t ∈ σ.range ↔ ∃ v, σ.get? v = some t := FinMap.mem_values

theorem contains_eq_true {v : Variable} : σ.contains v = true ↔ v ∈ σ.domain :=
  FinMap.contains_eq_true

theorem lookup_of_get? {v : Variable} {t : Term} (h : σ.get? v = some t) : σ.lookup v = t := by
  simp [lookup, h]

theorem lookup_of_not_mem_domain {v : Variable} (h : v ∉ σ.domain) : σ.lookup v = .var v := by
  cases hv : σ.get? v with
  | none => simp [lookup, hv]
  | some t => exact absurd (mem_domain.2 ⟨t, hv⟩) h

/-- A variable stands for itself or for a term of the range. -/
theorem lookup_mem_range {v : Variable} (h : v ∈ σ.domain) : σ.lookup v ∈ σ.range := by
  obtain ⟨t, ht⟩ := mem_domain.1 h
  rw [lookup_of_get? ht]
  exact mem_range.2 ⟨v, ht⟩

theorem Into.lookup {p : Term → Prop} (h : σ.Into p) (hv : ∀ v, p (.var v)) (v : Variable) :
    p (σ.lookup v) := by
  by_cases hd : v ∈ σ.domain
  · exact h _ (lookup_mem_range hd)
  · rw [lookup_of_not_mem_domain hd]
    exact hv v

theorem into_empty (p : Term → Prop) : (∅ : Substitution).Into p :=
  fun _ h => absurd h List.not_mem_nil

theorem get?_single (v w : Variable) (t : Term) :
    (single v t).get? w = if w = v then some t else none := by
  simp only [single, get?]
  rw [FinMap.get?_insert, FinMap.get?_empty]

theorem mem_domain_single {v w : Variable} {t : Term} : w ∈ (single v t).domain ↔ w = v := by
  simp [mem_domain, get?_single]

theorem mem_range_single {v : Variable} {s t : Term} : s ∈ (single v t).range ↔ s = t := by
  simp [mem_range, get?_single, eq_comm]

theorem into_single {p : Term → Prop} {v : Variable} {t : Term} (h : p t) : (single v t).Into p :=
  fun _ hs => mem_range_single.1 hs ▸ h

/-- A substitution with one variable bound anew. -/
def bind (θ : Substitution) (v : Variable) (t : Term) : Substitution := ⟨θ.bindings.insert v t⟩

theorem lookup_bind (θ : Substitution) (v w : Variable) (t : Term) :
    (bind θ v t).lookup w = if w = v then t else θ.lookup w := by
  simp only [bind, lookup, get?, FinMap.get?_insert]
  split <;> rfl

theorem canonical_bind (hθ : θ.Into Canonical) (v : Variable) {t : Term} (ht : t.Canonical) :
    (bind θ v t).Into Canonical := by
  intro s hs
  obtain ⟨w, hw⟩ := mem_range.1 hs
  have hl := lookup_of_get? hw
  rw [lookup_bind] at hl
  split at hl
  · exact hl ▸ ht
  · exact hl ▸ hθ.lookup canonical_var w

@[simp] theorem apply_var (v : Variable) : σ.apply (.var v) = σ.lookup v := rfl

@[simp] theorem apply_const (c : Constant) : σ.apply (.const c) = .const c := rfl

@[simp] theorem apply_zero : σ.apply zero = zero := rfl

@[simp] theorem apply_app (f : FunctionSymbol) (ts : List Term) :
    σ.apply (.app f ts) = .app f (ts.map σ.apply) := mapLeaves_app f ts

theorem apply_sum (ts : List Term) : σ.apply (.sum ts) = xor (ts.map σ.apply) := mapLeaves_sum ts

/-- Canonical terms that stand for variables take the places of leaves. -/
theorem canonicalLeaves_lookup (hσ : σ.Into Canonical) : CanonicalLeaves σ.lookup .const :=
  ⟨hσ.lookup canonical_var, canonical_const⟩

/-- Instances under substitutions into canonical terms are canonical. -/
theorem canonical_apply (hσ : σ.Into Canonical) (t : Term) : (σ.apply t).Canonical :=
  canonical_mapLeaves (canonicalLeaves_lookup hσ) t

theorem canonical_map_apply (hσ : σ.Into Canonical) (ts : List Term) :
    ∀ u ∈ ts.map σ.apply, u.Canonical := by
  intro u hu
  obtain ⟨t, _, rfl⟩ := List.mem_map.1 hu
  exact canonical_apply hσ t

/-- Instances keep the numbers of arguments. -/
theorem respectsArity_apply (hσ : σ.Into RespectsArity) {t : Term} (ht : t.RespectsArity) :
    (σ.apply t).RespectsArity := by
  induction t using Term.induction with
  | var v => exact hσ.lookup respectsArity_var v
  | const c => exact respectsArity_const c
  | app f ts ih =>
    obtain ⟨hlen, hts⟩ := (respectsArity_app f ts).1 ht
    rw [apply_app, respectsArity_app, List.length_map]
    refine ⟨hlen, ?_⟩
    rw [List.forall_mem_map]
    exact fun t ht => ih t ht (hts t ht)
  | sum ts ih =>
    rw [apply_sum]
    refine respectsArity_xor ?_
    rw [List.forall_mem_map]
    exact fun t ht' => ih t ht' ((respectsArity_sum ts).1 ht t ht')

/-- Terms without sums have no sums after bindings to such terms. -/
theorem sumFree_apply (hσ : σ.Into SumFree) {t : Term} (ht : t.SumFree) :
    (σ.apply t).SumFree := by
  induction t using Term.induction with
  | var v => exact hσ.lookup sumFree_var v
  | const c => exact sumFree_const c
  | app f ts ih =>
    rw [apply_app, sumFree_app, List.forall_mem_map]
    exact fun t ht' => ih t ht' ((sumFree_app f ts).1 ht t ht')
  | sum ts _ => exact absurd ht (not_sumFree_sum ts)

/-- The indicator of an instance is the sum over the instances of the summands. -/
theorem vec_apply_eq_sum (hσ : σ.Into Canonical) (t : Term) :
    vec (σ.apply t) = (t.summands.map fun a => vec (σ.apply a)).sum :=
  vec_mapLeaves (canonicalLeaves_lookup hσ) apply_zero t

theorem vec_apply_xor (hσ : σ.Into Canonical) {ts : List Term} (h : ∀ t ∈ ts, t.Canonical) :
    vec (σ.apply (xor ts)) = (ts.map fun t => vec (σ.apply t)).sum :=
  vec_mapLeaves_xor (canonicalLeaves_lookup hσ) apply_zero h

/-- Substitutions respect exclusive or. -/
theorem apply_xor (hσ : σ.Into Canonical) {ts : List Term} (h : ∀ t ∈ ts, t.Canonical) :
    σ.apply (xor ts) = xor (ts.map σ.apply) :=
  mapLeaves_xor (canonicalLeaves_lookup hσ) apply_zero h

/-- An instance depends only on the terms that stand for the variables. -/
theorem apply_congr {t : Term} (h : ∀ v ∈ t.vars, σ.lookup v = θ.lookup v) :
    σ.apply t = θ.apply t :=
  mapLeaves_congr h fun _ _ => rfl

/-- A canonical term without bound variables stays as it is. -/
theorem apply_eq_self {t : Term} (ht : t.Canonical) (h : ∀ v ∈ t.vars, σ.lookup v = .var v) :
    σ.apply t = t :=
  mapLeaves_eq_self ht h fun _ _ => rfl

/-- A substitution that takes every variable where two others take it in turn acts like both. -/
theorem apply_eq_apply_apply (hσ : σ.Into Canonical) (hθ : θ.Into Canonical) {t : Term}
    (h : ∀ v ∈ t.vars, ρ.lookup v = θ.apply (σ.lookup v)) :
    ρ.apply t = θ.apply (σ.apply t) :=
  mapLeaves_mapLeaves (canonicalLeaves_lookup hσ) (canonicalLeaves_lookup hθ) apply_zero h
    fun _ _ => rfl

/-- A composition binds exactly the variables that the two parts in turn do not fix. -/
theorem get?_compose (σ θ : Substitution) (v : Variable) : (σ.compose θ).get? v =
    if θ.apply (σ.lookup v) = .var v then none else some (θ.apply (σ.lookup v)) := by
  simp only [compose, get?, FinMap.get?_union, FinMap.get?_filterMap]
  cases hσ : σ.bindings.get? v with
  | some t =>
    have hl : σ.lookup v = t := lookup_of_get? hσ
    have hc : σ.contains v = true := contains_eq_true.2 (mem_domain.2 ⟨t, hσ⟩)
    cases θ.bindings.get? v with
    | none => simp [hl]
    | some u => simp [hl, hc]
  | none =>
    have hv : v ∉ σ.domain := by
      intro h
      obtain ⟨t, ht⟩ := mem_domain.1 h
      rw [get?, hσ] at ht
      cases ht
    have hl : σ.lookup v = .var v := lookup_of_not_mem_domain hv
    have hc : σ.contains v = false := by
      rw [← Bool.not_eq_true, contains_eq_true]
      exact hv
    rw [hl, apply_var]
    cases hθ : θ.bindings.get? v with
    | none =>
      have : θ.lookup v = .var v := by simp [lookup, get?, hθ]
      simp [this]
    | some u =>
      have : θ.lookup v = u := lookup_of_get? hθ
      simp [this, hc]

@[simp] theorem lookup_compose (σ θ : Substitution) (v : Variable) :
    (σ.compose θ).lookup v = θ.apply (σ.lookup v) := by
  rw [lookup, get?_compose]
  split
  · rename_i h
    exact h.symm
  · rfl

/-- A term of the range of a composition is the image of a variable of one of its parts. -/
theorem exists_of_mem_range_compose {t : Term} (h : t ∈ (σ.compose θ).range) :
    ∃ v, (v ∈ σ.domain ∨ v ∈ θ.domain) ∧ t = θ.apply (σ.lookup v) := by
  obtain ⟨v, hv⟩ := mem_range.1 h
  rw [get?_compose] at hv
  split at hv
  · cases hv
  · rename_i hne
    cases hv
    refine ⟨v, ?_, rfl⟩
    by_contra hn
    rw [not_or] at hn
    rw [lookup_of_not_mem_domain hn.1, apply_var, lookup_of_not_mem_domain hn.2] at hne
    exact hne rfl

theorem mem_domain_of_mem_domain_compose {v : Variable} (h : v ∈ (σ.compose θ).domain) :
    v ∈ σ.domain ∨ v ∈ θ.domain := by
  obtain ⟨t, ht⟩ := mem_domain.1 h
  rw [get?_compose] at ht
  split at ht
  · cases ht
  · rename_i hne
    by_contra hn
    rw [not_or] at hn
    rw [lookup_of_not_mem_domain hn.1, apply_var, lookup_of_not_mem_domain hn.2] at hne
    exact hne rfl

theorem into_compose {p : Term → Prop} (h : ∀ v, p (θ.apply (σ.lookup v))) :
    (σ.compose θ).Into p := by
  intro t ht
  obtain ⟨v, _, rfl⟩ := exists_of_mem_range_compose ht
  exact h v

theorem canonical_compose (hθ : θ.Into Canonical) : (σ.compose θ).Into Canonical :=
  into_compose fun _ => canonical_apply hθ _

/-- A composition acts by its two parts in turn. -/
theorem apply_compose (hσ : σ.Into Canonical) (hθ : θ.Into Canonical) (t : Term) :
    (σ.compose θ).apply t = θ.apply (σ.apply t) :=
  apply_eq_apply_apply hσ hθ fun v _ => lookup_compose σ θ v

/-- Applying `σ` first makes no difference to `θ`. -/
def Absorbs (θ σ : Substitution) : Prop := ∀ v, θ.apply (σ.lookup v) = θ.lookup v

theorem Absorbs.apply (h : θ.Absorbs σ) (hσ : σ.Into Canonical) (hθ : θ.Into Canonical)
    (t : Term) : θ.apply (σ.apply t) = θ.apply t :=
  (apply_eq_apply_apply hσ hθ fun v _ => (h v).symm).symm

theorem absorbs_empty (θ : Substitution) : θ.Absorbs ∅ := fun _ => rfl

/-- A substitution absorbs a binding that it satisfies. -/
theorem absorbs_single {v : Variable} {t : Term} (h : θ.lookup v = θ.apply t) :
    θ.Absorbs (single v t) := by
  intro w
  rw [lookup_single]
  split
  · rename_i hvw
    rw [← hvw, h]
  · rfl

theorem Absorbs.compose {δ : Substitution} (hσ : θ.Absorbs σ) (hδ : θ.Absorbs δ)
    (cδ : δ.Into Canonical) (cθ : θ.Into Canonical) : θ.Absorbs (σ.compose δ) := by
  intro v
  rw [lookup_compose, hδ.apply cδ cθ, hσ v]

/-- No bound variable occurs in a term of the range. -/
def SolvedForm (σ : Substitution) : Prop := ∀ v ∈ σ.domain, ∀ t ∈ σ.range, v ∉ t.vars

/-- The test for idempotence asks for the solved form. -/
theorem isIdempotent_eq_true : σ.isIdempotent = true ↔ σ.SolvedForm := by
  simp only [isIdempotent, List.all_eq_true, Bool.not_eq_true', Bool.eq_false_iff, ne_eq,
    contains_eq_true, SolvedForm]
  exact ⟨fun h v hv t ht hvt => h t ht v hvt hv, fun h t ht v hvt hv => h v hv t ht hvt⟩

/-- A substitution in solved form absorbs itself. -/
theorem SolvedForm.absorbs (h : σ.SolvedForm) (hσ : σ.Into Canonical) : σ.Absorbs σ := by
  intro v
  by_cases hv : v ∈ σ.domain
  · refine apply_eq_self (hσ.lookup canonical_var v) fun w hw => lookup_of_not_mem_domain ?_
    intro hd
    exact h w hd _ (lookup_mem_range hv) hw
  · rw [lookup_of_not_mem_domain hv]
    exact lookup_of_not_mem_domain hv

/-- In solved form no variable is bound to a term in which it occurs. -/
theorem SolvedForm.not_mem_vars (h : σ.SolvedForm) {v : Variable} {t : Term}
    (hv : σ.get? v = some t) : v ∉ t.vars :=
  h v (mem_domain.2 ⟨t, hv⟩) t (mem_range.2 ⟨v, hv⟩)

theorem solvedForm_single {v : Variable} {t : Term} (h : v ∉ t.vars) :
    (single v t).SolvedForm := by
  intro w hw s hs
  rwa [mem_domain_single.1 hw, mem_range_single.1 hs]

section Unbound

variable {S : Variable → Prop} {δ : Substitution} (hδ : δ.SolvedForm)
  (hrange : ∀ t ∈ δ.range, ∀ v ∈ t.vars, S v ∧ v ∉ σ.domain)

include hδ hrange

/-- Bindings to terms over variables that are not bound yet take such terms to terms over variables
that are not bound afterwards. -/
theorem vars_apply_of_unbound {t : Term} (ht : ∀ v ∈ t.vars, S v ∧ v ∉ σ.domain) :
    ∀ v ∈ (δ.apply t).vars, S v ∧ v ∉ (σ.compose δ).domain := by
  intro v hv
  suffices hnew : S v ∧ v ∉ σ.domain ∧ v ∉ δ.domain from
    ⟨hnew.1, fun hd => (mem_domain_of_mem_domain_compose hd).elim hnew.2.1 hnew.2.2⟩
  obtain ⟨w, hw, hvw⟩ := mem_vars_apply hv
  by_cases hwd : w ∈ δ.domain
  · have hmem := lookup_mem_range hwd
    obtain ⟨hS, hσ⟩ := hrange _ hmem v hvw
    exact ⟨hS, hσ, fun hvd => hδ v hvd _ hmem hvw⟩
  · rw [lookup_of_not_mem_domain hwd, vars_var, List.mem_singleton] at hvw
    exact hvw ▸ ⟨(ht w hw).1, (ht w hw).2, hwd⟩

/-- If the bindings so far speak of such variables, so does the composition. -/
theorem vars_range_compose_of_unbound (hdomain : ∀ v ∈ δ.domain, S v ∧ v ∉ σ.domain)
    (hσ : ∀ t ∈ σ.range, ∀ v ∈ t.vars, S v ∧ v ∉ σ.domain) :
    ∀ t ∈ (σ.compose δ).range, ∀ v ∈ t.vars, S v ∧ v ∉ (σ.compose δ).domain := by
  intro t ht
  obtain ⟨w, hw, rfl⟩ := exists_of_mem_range_compose ht
  refine vars_apply_of_unbound hδ hrange ?_
  by_cases hwd : w ∈ σ.domain
  · exact hσ _ (lookup_mem_range hwd)
  · rw [lookup_of_not_mem_domain hwd, vars_var, List.forall_mem_singleton]
    exact hdomain w (hw.resolve_left hwd)

end Unbound

/-- Solved forms compose if the second speaks only of variables that the first does not bind. -/
theorem SolvedForm.compose {δ : Substitution} (hσ : σ.SolvedForm) (hδ : δ.SolvedForm)
    (hdomain : ∀ v ∈ δ.domain, v ∉ σ.domain) (hrange : ∀ t ∈ δ.range, ∀ v ∈ t.vars, v ∉ σ.domain) :
    (σ.compose δ).SolvedForm := by
  have hunbound := vars_range_compose_of_unbound (S := fun _ => True) hδ
    (fun t ht v hv => ⟨trivial, hrange t ht v hv⟩) (fun v hv => ⟨trivial, hdomain v hv⟩)
    fun t ht v hv => ⟨trivial, fun hd => hσ v hd t ht hv⟩
  exact fun v hv t ht hvt => (hunbound t ht v hvt).2 hv

section Over

variable {P : Variable → Prop}

/-- Variables of a kind are bound, to terms over such variables. -/
structure Over (P : Variable → Prop) (σ : Substitution) : Prop where
  /-- The bound variables are of the kind. -/
  domain : ∀ v ∈ σ.domain, P v
  /-- So are the variables of the terms. -/
  range : ∀ t ∈ σ.range, ∀ v ∈ t.vars, P v

theorem over_empty (P : Variable → Prop) : (∅ : Substitution).Over P :=
  ⟨fun _ h => absurd h List.not_mem_nil, fun _ h => absurd h List.not_mem_nil⟩

theorem Over.mono {Q : Variable → Prop} (h : σ.Over P) (hPQ : ∀ v, P v → Q v) : σ.Over Q :=
  ⟨fun v hv => hPQ v (h.domain v hv), fun t ht v hv => hPQ v (h.range t ht v hv)⟩

/-- Terms over variables of the kind have instances over such variables. -/
theorem Over.vars_apply (h : σ.Over P) {t : Term} (ht : ∀ v ∈ t.vars, P v) :
    ∀ v ∈ (σ.apply t).vars, P v := by
  intro v hv
  obtain ⟨w, hw, hvw⟩ := mem_vars_apply hv
  by_cases hwd : w ∈ σ.domain
  · exact h.range _ (lookup_mem_range hwd) v hvw
  · rw [lookup_of_not_mem_domain hwd, vars_var, List.mem_singleton] at hvw
    exact hvw ▸ ht w hw

theorem Over.compose (hσ : σ.Over P) (hθ : θ.Over P) : (σ.compose θ).Over P := by
  refine ⟨fun v hv => (mem_domain_of_mem_domain_compose hv).elim (hσ.domain v) (hθ.domain v),
    fun t ht => ?_⟩
  obtain ⟨v, hv, rfl⟩ := exists_of_mem_range_compose ht
  refine hθ.vars_apply ?_
  by_cases hvd : v ∈ σ.domain
  · exact hσ.range _ (lookup_mem_range hvd)
  · rw [lookup_of_not_mem_domain hvd, vars_var, List.forall_mem_singleton]
    exact hθ.domain v (hv.resolve_left hvd)

/-- Whether a substitution is absorbed depends only on the values of the variables that it speaks
of. -/
theorem Absorbs.of_agree (h : θ.Absorbs σ) (hσ : σ.Over P)
    (hagree : ∀ v, P v → ρ.lookup v = θ.lookup v) : ρ.Absorbs σ := by
  intro v
  by_cases hv : v ∈ σ.domain
  · have hrange := hσ.range _ (lookup_mem_range hv)
    rw [apply_congr fun w hw => hagree w (hrange w hw), h v, hagree v (hσ.domain v hv)]
  · rw [lookup_of_not_mem_domain hv, apply_var]

end Over

end SymbolicXor.Substitution
