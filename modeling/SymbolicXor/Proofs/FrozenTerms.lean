import SymbolicXor.Proofs.AddedBindings
import SymbolicXor.Proofs.Freshness
import SymbolicXor.Proofs.WellSorted
import SymbolicXor.Rule.Freeze

/-!
# Frozen terms thaw

The constants that a term is frozen with have names that nothing else has, so thawing turns just
these back: a frozen term thaws to what it was, and the thawed instance of a term is its instance
under the thawed bindings. Zero is the exception. A variable that is spelled like zero may be frozen
to zero itself, which cancels.
-/

namespace SymbolicXor

namespace Name

theorem isInner_suffix : "_1".toList.all Spelling.isInner = true := by decide

/-- The name with `_1` appended a number of times. -/
def suffixed (n : Name) : Nat → Name
  | 0 => n
  | i + 1 => (n.append "_1" isInner_suffix).suffixed i

theorem length_suffixed (n : Name) (i : Nat) :
    (n.suffixed i).text.length = n.text.length + 2 * i := by
  induction i generalizing n with
  | zero => rfl
  | succ i ih =>
    have happend : (n.append "_1").text.length = n.text.length + 2 := String.length_append _ _
    rw [suffixed, ih, happend]
    omega

/-- Names with different numbers of suffixes are different. -/
theorem suffixed_injective (n : Name) : Function.Injective n.suffixed := by
  intro i j hij
  have hlen : (n.suffixed i).text.length = (n.suffixed j).text.length := by rw [hij]
  rw [length_suffixed, length_suffixed] at hlen
  omega

/-- The search for a free name passes over taken names only, and stops at a free one or when it has
tried as often as it may. -/
theorem exists_suffixUntil (taken : List Name) (tries : Nat) (n : Name) :
    ∃ i ≤ tries, n.suffixUntil taken tries = n.suffixed i ∧ (∀ j < i, n.suffixed j ∈ taken) ∧
      (i < tries → n.suffixed i ∉ taken) := by
  induction tries generalizing n with
  | zero => exact ⟨0, Nat.le_refl 0, rfl, by omega, by omega⟩
  | succ tries ih =>
    simp only [suffixUntil, List.contains_iff_mem]
    split
    · rename_i hn
      obtain ⟨i, hi, heq, hpassed, hfree⟩ := ih (n.append "_1")
      refine ⟨i + 1, Nat.succ_le_succ hi, heq, fun j hj => ?_, fun h => hfree (by omega)⟩
      cases j with
      | zero => exact hn
      | succ j => exact hpassed j (by omega)
    · rename_i hn
      exact ⟨0, Nat.zero_le _, rfl, by omega, fun _ => hn⟩

theorem exists_apartFrom (n : Name) (taken : List Name) :
    ∃ i, n.apartFrom taken = n.suffixed i :=
  have ⟨i, _, heq, _⟩ := exists_suffixUntil taken taken.length n
  ⟨i, heq⟩

/-- The name that the search finds is not taken. -/
theorem apartFrom_not_mem (n : Name) (taken : List Name) : n.apartFrom taken ∉ taken := by
  obtain ⟨i, hi, heq, hpassed, hfree⟩ := exists_suffixUntil taken taken.length n
  obtain ⟨j, hj, hnot⟩ := exists_not_mem_of_injective n.suffixed_injective taken
  rw [apartFrom, heq]
  rcases Nat.lt_or_eq_of_le hi with hlt | heq
  · exact hfree hlt
  · -- All names before the last were taken, so the free one is the last.
    have hij : i = j := Nat.le_antisymm (Nat.le_of_not_lt fun h => hnot (hpassed j h)) (heq ▸ hj)
    exact hij ▸ hnot

/-- A name that is not taken stays as it is. -/
theorem apartFrom_of_not_mem {n : Name} {taken : List Name} (h : n ∉ taken) :
    n.apartFrom taken = n := by
  rw [apartFrom]
  cases taken.length with
  | zero => rfl
  | succ tries => rw [suffixUntil, if_neg (by simpa using h)]

theorem isName_zero : Spelling.isName "0".toList = true := by decide

/-- The name of zero. -/
def zero : Name := ⟨"0", isName_zero⟩

/-- The only name from which suffixes lead to that of zero is that name itself. -/
theorem eq_zero_of_suffixed {n : Name} {i : Nat} (h : n.suffixed i = zero) : n = zero := by
  have hlen : n.text.length + 2 * i = 1 := by rw [← length_suffixed, h]; rfl
  have hpos : n.text.length ≠ 0 := by
    intro hzero
    have hspelled := n.spelled
    rw [String.length_eq_zero_iff.1 hzero] at hspelled
    exact absurd hspelled (by decide)
  have hi : i = 0 := by omega
  rwa [hi] at h

end Name

namespace Variable

variable {taken : List Name} {vs : List Variable}

theorem map_fst_namesApart (taken : List Name) (vs : List Variable) :
    (namesApart taken vs).map Prod.fst = vs := by
  induction vs generalizing taken with
  | nil => rfl
  | cons v vs ih => rw [namesApart, List.map_cons, ih]

theorem exists_mem_namesApart {v : Variable} : (∃ n, (v, n) ∈ namesApart taken vs) ↔ v ∈ vs := by
  conv_rhs => rw [← map_fst_namesApart taken vs, List.mem_map]
  simp

/-- Each name is that of its variable with suffixes, and not taken. -/
theorem exists_of_mem_namesApart {v : Variable} {n : Name} (h : (v, n) ∈ namesApart taken vs) :
    n ∉ taken ∧ ∃ i, n = v.symbol.suffixed i := by
  induction vs generalizing taken with
  | nil => cases h
  | cons w vs ih =>
    rcases List.mem_cons.1 h with heq | h
    · cases heq
      exact ⟨Name.apartFrom_not_mem _ _, Name.exists_apartFrom _ _⟩
    · exact ⟨fun hn => (ih h).1 (List.mem_cons_of_mem _ hn), (ih h).2⟩

/-- Different variables have different names. -/
theorem nodup_namesApart : ((namesApart taken vs).map Prod.snd).Nodup := by
  induction vs generalizing taken with
  | nil => exact List.nodup_nil
  | cons v vs ih =>
    rw [namesApart, List.map_cons, List.nodup_cons]
    refine ⟨fun h => ?_, ih⟩
    obtain ⟨⟨w, n⟩, hmem, heq⟩ := List.mem_map.1 h
    have heq : n = v.symbol.apartFrom taken := heq
    exact (exists_of_mem_namesApart hmem).1 (heq ▸ List.mem_cons_self)

theorem map_fst_bindings_namesApart (make : Variable → Name → Term) :
    ((namesApart taken vs).map fun e => (e.1, make e.1 e.2)).map Prod.fst = vs := by
  rw [List.map_map]
  exact map_fst_namesApart taken vs

/-- Bindings made of the names can be added if every variable accepts its term. -/
theorem exists_ofBindings_namesApart (taken : List Name) (make : Variable → Name → Term)
    (hvs : vs.Nodup) (hmake : ∀ (v : Variable) (n : Name), v.accepts (make v n) = true) :
    ∃ σ, Substitution.ofBindings ((namesApart taken vs).map fun e => (e.1, make e.1 e.2)) =
      .ok σ := by
  refine Substitution.exists_foldlM_add ((map_fst_bindings_namesApart make).symm ▸ hvs) ?_
    fun _ _ => rfl
  rw [List.forall_mem_map]
  exact fun e _ => hmake e.1 e.2

/-- With bindings made of the names, the variables stand for the terms made of their names and all
others for themselves. -/
theorem lookup_ofBindings_namesApart (make : Variable → Name → Term) {σ : Substitution}
    (hvs : vs.Nodup)
    (h : Substitution.ofBindings ((namesApart taken vs).map fun e => (e.1, make e.1 e.2)) =
      .ok σ) :
    (∀ v n, (v, n) ∈ namesApart taken vs → σ.lookup v = make v n) ∧
      ∀ v ∉ vs, σ.lookup v = .var v := by
  have hlookup := Substitution.lookup_ofBindings
    ((map_fst_bindings_namesApart make).symm ▸ hvs) h
  rw [map_fst_bindings_namesApart] at hlookup
  exact ⟨fun v n hvn => hlookup.1 v _ (List.mem_map_of_mem hvn), hlookup.2⟩

/-- A map from constants with the names to the variables tells of each constant which variable it
stands for. -/
theorem get?_ofList_namesApart {c : Constant} {v : Variable} :
    (FinMap.ofList ((namesApart taken vs).map fun e =>
      (({ symbol := e.2, sort := e.1.sort } : Constant), e.1))).get? c = some v ↔
        (v, c.symbol) ∈ namesApart taken vs ∧ v.sort = c.sort := by
  have hkeys : (((namesApart taken vs).map fun e =>
      (({ symbol := e.2, sort := e.1.sort } : Constant), e.1)).map Prod.fst).Nodup := by
    refine List.Nodup.of_map Constant.symbol ?_
    rw [List.map_map, List.map_map]
    exact nodup_namesApart
  rw [FinMap.get?_ofList hkeys, List.mem_map]
  constructor
  · rintro ⟨e, he, heq⟩
    cases heq
    exact ⟨he, rfl⟩
  · rintro ⟨he, hsort⟩
    exact ⟨(v, c.symbol), he, by rw [hsort]⟩

end Variable

/-- The variable without a sort that is spelled like zero. -/
def Variable.likeZero : Variable := { symbol := .zero }

namespace Term

variable {m : FinMap Constant Variable} {t : Term}

theorem nodup_uniqueVars (t : Term) : t.uniqueVars.Nodup :=
  (OrderedList.ordered_ofList _).nodup

@[simp] theorem mem_uniqueVars {v : Variable} : v ∈ t.uniqueVars ↔ v ∈ t.vars :=
  OrderedList.mem_ofList

theorem thaw_const (c : Constant) :
    (const c).thaw m = ((m.get? c).map var).getD (.const c) := rfl

theorem thaw_const_of_some {c : Constant} {v : Variable} (h : m.get? c = some v) :
    (const c).thaw m = .var v := by
  rw [thaw_const, h]
  rfl

theorem thaw_const_of_none {c : Constant} (h : m.get? c = none) :
    (const c).thaw m = .const c := by
  rw [thaw_const, h]
  rfl

theorem canonicalLeaves_thaw (m : FinMap Constant Variable) :
    CanonicalLeaves .var fun c => (const c).thaw m := by
  refine ⟨canonical_var, fun c => ?_⟩
  cases h : m.get? c with
  | none =>
    rw [thaw_const_of_none h]
    exact canonical_const c
  | some v =>
    rw [thaw_const_of_some h]
    exact canonical_var v

theorem canonical_thaw (m : FinMap Constant Variable) (t : Term) : (t.thaw m).Canonical :=
  canonical_mapLeaves (canonicalLeaves_thaw m) t

/-- A variable of a thawed term was in the term, or a constant stood for it. -/
theorem mem_vars_thaw {v : Variable} (h : v ∈ (t.thaw m).vars) :
    v ∈ t.vars ∨ ∃ c, m.get? c = some v := by
  induction t using Term.induction with
  | var w => exact Or.inl h
  | const c =>
    cases hc : m.get? c with
    | none => simp [thaw_const_of_none hc] at h
    | some w =>
      rw [thaw_const_of_some hc, vars_var, List.mem_singleton] at h
      exact Or.inr ⟨c, h ▸ hc⟩
  | app f ts ih =>
    rw [thaw, mapLeaves_app, vars_app, List.mem_flatMap] at h
    obtain ⟨_, hmem, hv⟩ := h
    obtain ⟨u, hu, rfl⟩ := List.mem_map.1 hmem
    rw [vars_app]
    exact (ih u hu hv).imp_left fun hvu => List.mem_flatMap_of_mem hu hvu
  | sum ts ih =>
    rw [thaw, mapLeaves_sum] at h
    obtain ⟨_, hmem, hv⟩ := mem_vars_xor h
    obtain ⟨u, hu, rfl⟩ := List.mem_map.1 hmem
    rw [vars_sum]
    exact (ih u hu hv).imp_left fun hvu => List.mem_flatMap_of_mem hu hvu

/-- Thawing keeps the sorts of terms if it turns constants into variables of the same sort. -/
theorem sort_thaw (hm : ∀ c v, m.get? c = some v → v.sort = c.sort) (h : t.sort ≠ none) :
    (t.thaw m).sort = t.sort := by
  cases t with
  | var v => rfl
  | const c =>
    cases hc : m.get? c with
    | none => rw [thaw_const_of_none hc]
    | some v =>
      rw [thaw_const_of_some hc]
      exact hm c v hc
  | app f ts => rw [thaw, mapLeaves_app, sort, sort]
  | sum ts => exact absurd rfl h

theorem accepts_thaw (hm : ∀ c v, m.get? c = some v → v.sort = c.sort) {v : Variable}
    (h : v.accepts t = true) : v.accepts (t.thaw m) = true := by
  rw [Variable.accepts_iff] at *
  intro s hs
  obtain ⟨r, hr, hrs⟩ := h s hs
  exact ⟨r, by rw [sort_thaw hm (by simp [hr]), hr], hrs⟩

end Term

open Term

namespace Substitution

variable {m : FinMap Constant Variable} {σ : Substitution}

/-- The bindings with thawed terms. -/
def thawed (σ : Substitution) (m : FinMap Constant Variable) : Substitution :=
  ⟨σ.bindings.map fun t => t.thaw m⟩

theorem lookup_thawed (v : Variable) : (σ.thawed m).lookup v = (σ.lookup v).thaw m := by
  simp only [lookup, get?, thawed, FinMap.get?_map]
  cases σ.bindings.get? v <;> rfl

theorem canonical_thawed (σ : Substitution) (m : FinMap Constant Variable) :
    (σ.thawed m).Into Canonical := by
  intro t ht
  obtain ⟨v, hv⟩ := mem_range.1 ht
  rw [← lookup_of_get? hv, lookup_thawed]
  exact canonical_thaw m _

theorem WellSorted.thawed (hσ : σ.WellSorted) (hm : ∀ c v, m.get? c = some v → v.sort = c.sort) :
    (σ.thawed m).WellSorted := by
  intro v _
  rw [lookup_thawed]
  exact accepts_thaw hm (hσ.lookup v)

/-- The thawed instance of a term in which nothing thaws is its instance under the thawed
bindings. -/
theorem thaw_apply (hσ : σ.Into Canonical) (hz : zero.thaw m = zero) {t : Term}
    (ht : ∀ c ∈ t.constants, m.get? c = none) : (σ.apply t).thaw m = (σ.thawed m).apply t :=
  (mapLeaves_mapLeaves (canonicalLeaves_lookup hσ) (canonicalLeaves_thaw m) hz
    (fun v _ => lookup_thawed v) fun c hc => (thaw_const_of_none (ht c hc)).symm).symm

end Substitution

namespace Frozen

/-- A term was frozen under a substitution, with constants that have names of their own. -/
structure Freezes (frozen : Frozen) (taken : List Name) (t : Term) (φ : Substitution) : Prop where
  /-- The frozen term is the instance. -/
  term_eq : frozen.term = φ.apply t
  /-- Every variable of the term becomes a constant that thaws to it. -/
  lookup : ∀ v ∈ t.vars, ∃ c, φ.lookup v = .const c ∧ frozen.thawing.get? c = some v
  /-- Other variables are left alone. -/
  lookup_other : ∀ v ∉ t.vars, φ.lookup v = .var v
  /-- A constant that thaws to a variable has its sort and its name, apart from suffixes that make
  the name different from the taken ones. -/
  thaws : ∀ c v, frozen.thawing.get? c = some v → v ∈ t.vars ∧ v.sort = c.sort ∧
    c.symbol ∉ taken ∧ ∃ i, c.symbol = v.symbol.suffixed i

variable {frozen : Frozen} {taken : List Name} {t : Term} {φ : Substitution}

/-- The bindings that freeze a term: each variable is bound to the constant of its sort with its new
name. -/
def bindings (taken : List Name) (t : Term) : List (Variable × Term) :=
  (Variable.namesApart taken t.uniqueVars).map fun e =>
    (e.1, .const { symbol := e.2, sort := e.1.sort })

/-- The way back from a frozen term. -/
def wayBack (taken : List Name) (t : Term) : FinMap Constant Variable :=
  .ofList ((Variable.namesApart taken t.uniqueVars).map fun e =>
    ({ symbol := e.2, sort := e.1.sort }, e.1))

theorem freezeApart_eq (t : Term) (taken : List Name) : t.freezeApart taken =
    (Substitution.ofBindings (bindings taken t)).map fun φ => ⟨φ.apply t, wayBack taken t⟩ := by
  simp only [freezeApart, bindings, wayBack, List.map_map, Function.comp_def]

/-- Under these bindings the term is frozen. -/
theorem freezes_of_ofBindings (h : Substitution.ofBindings (bindings taken t) = .ok φ) :
    Freezes ⟨φ.apply t, wayBack taken t⟩ taken t φ := by
  obtain ⟨hlookup, hother⟩ := Variable.lookup_ofBindings_namesApart
    (fun v n => .const { symbol := n, sort := v.sort }) t.nodup_uniqueVars h
  refine ⟨rfl, fun v hv => ?_, fun v hv => hother v (by simpa using hv), fun c v hc => ?_⟩
  · obtain ⟨n, hn⟩ := Variable.exists_mem_namesApart.2 (mem_uniqueVars.2 hv)
    exact ⟨_, hlookup v n hn, Variable.get?_ofList_namesApart.2 ⟨hn, rfl⟩⟩
  · obtain ⟨hmem, hsort⟩ := Variable.get?_ofList_namesApart.1 hc
    have hv : v ∈ t.vars := mem_uniqueVars.1 (Variable.exists_mem_namesApart.1 ⟨_, hmem⟩)
    exact ⟨hv, hsort, Variable.exists_of_mem_namesApart hmem⟩

theorem exists_freezes (h : t.freezeApart taken = .ok frozen) :
    ∃ φ, frozen.Freezes taken t φ := by
  rw [freezeApart_eq] at h
  cases hφ : Substitution.ofBindings (bindings taken t) with
  | error e =>
    rw [hφ] at h
    cases h
  | ok φ =>
    rw [hφ] at h
    cases h
    exact ⟨φ, freezes_of_ofBindings hφ⟩

/-- Every term can be frozen, because its variables accept constants of their sorts. -/
theorem exists_freezeApart (t : Term) (taken : List Name) : ∃ frozen φ,
    t.freezeApart taken = .ok frozen ∧ Substitution.ofBindings (bindings taken t) = .ok φ ∧
      frozen.Freezes taken t φ := by
  obtain ⟨φ, hφ⟩ := Variable.exists_ofBindings_namesApart taken
    (fun v n => .const { symbol := n, sort := v.sort }) t.nodup_uniqueVars
    fun _ _ => Variable.accepts_of_sort_eq rfl
  refine ⟨_, φ, ?_, hφ, freezes_of_ofBindings hφ⟩
  rw [freezeApart_eq, bindings, hφ]
  rfl

namespace Freezes

variable (h : frozen.Freezes taken t φ)

include h

/-- A property of variables and constants holds of the terms that are bound. -/
theorem into {P : Term → Prop} (hvar : ∀ v, P (.var v)) (hconst : ∀ c, P (.const c)) :
    φ.Into P := by
  intro u hu
  obtain ⟨v, hv⟩ := Substitution.mem_range.1 hu
  rw [← Substitution.lookup_of_get? hv]
  by_cases hmem : v ∈ t.vars
  · obtain ⟨c, hc, _⟩ := h.lookup v hmem
    rw [hc]
    exact hconst c
  · rw [h.lookup_other v hmem]
    exact hvar v

theorem canonical : φ.Into Canonical := h.into canonical_var canonical_const

theorem wellSorted : φ.WellSorted := by
  intro v _
  by_cases hmem : v ∈ t.vars
  · obtain ⟨c, hc, hthaws⟩ := h.lookup v hmem
    rw [hc]
    exact Variable.accepts_of_sort_eq (h.thaws c v hthaws).2.1.symm
  · rw [h.lookup_other v hmem]
    exact v.accepts_self

theorem canonical_term : frozen.term.Canonical := by
  rw [h.term_eq]
  exact Substitution.canonical_apply h.canonical t

theorem respectsArity_term (ht : t.RespectsArity) : frozen.term.RespectsArity := by
  rw [h.term_eq]
  exact Substitution.respectsArity_apply (h.into respectsArity_var respectsArity_const) ht

/-- No variable remains in a frozen term. -/
theorem vars_term : frozen.term.vars = [] := by
  refine List.eq_nil_iff_forall_not_mem.2 fun v hv => ?_
  rw [h.term_eq] at hv
  obtain ⟨w, hw, hvw⟩ := Substitution.mem_vars_apply hv
  obtain ⟨c, hc, _⟩ := h.lookup w hw
  simp [hc] at hvw

/-- A frozen term is its only instance. -/
theorem apply_term (θ : Substitution) : θ.apply frozen.term = frozen.term :=
  Substitution.apply_eq_self h.canonical_term fun v hv => by simp [h.vars_term] at hv

/-- Constants with taken names do not thaw. -/
theorem get?_eq_none {c : Constant} (hc : c.symbol ∈ taken) : frozen.thawing.get? c = none := by
  cases hv : frozen.thawing.get? c with
  | none => rfl
  | some v => exact absurd hc (h.thaws c v hv).2.2.1

theorem sort_eq (c : Constant) (v : Variable) (hv : frozen.thawing.get? c = some v) :
    v.sort = c.sort :=
  (h.thaws c v hv).2.1

/-- Only the variable that is spelled like zero thaws from zero. -/
theorem eq_likeZero {v : Variable} (hv : frozen.thawing.get? { symbol := .zero } = some v) :
    v = Variable.likeZero := by
  obtain ⟨_, hsort, _, i, hi⟩ := h.thaws _ v hv
  have hsymbol := Name.eq_zero_of_suffixed hi.symm
  cases v
  cases hsymbol
  cases hsort
  rfl

section Zero

variable (hz : Variable.likeZero ∉ t.vars)

include hz

/-- Zero does not thaw, unless a variable is spelled like it. -/
theorem thaw_zero : zero.thaw frozen.thawing = zero := by
  suffices hnone : frozen.thawing.get? { symbol := .zero } = none from thaw_const_of_none hnone
  cases hv : frozen.thawing.get? { symbol := .zero } with
  | none => rfl
  | some v => exact absurd (h.eq_likeZero hv ▸ (h.thaws _ v hv).1) hz

/-- The instance of a term over taken names thaws to an instance of the same term. -/
theorem thaw_apply {σ : Substitution} (hσ : σ.Into Canonical) {u : Term}
    (hu : ∀ c ∈ u.constants, c.symbol ∈ taken) :
    (σ.apply u).thaw frozen.thawing = (σ.thawed frozen.thawing).apply u :=
  Substitution.thaw_apply hσ (h.thaw_zero hz) fun c hc => h.get?_eq_none (hu c hc)

/-- A frozen term thaws to the term that was frozen. -/
theorem thaw_term (ht : t.Canonical) (htaken : ∀ c ∈ t.constants, c.symbol ∈ taken) :
    frozen.term.thaw frozen.thawing = t := by
  rw [h.term_eq, h.thaw_apply hz h.canonical htaken]
  refine Substitution.apply_eq_self ht fun v hv => ?_
  obtain ⟨c, hc, hthaws⟩ := h.lookup v hv
  rw [Substitution.lookup_thawed, hc, thaw_const_of_some hthaws]

end Zero

end Freezes

end Frozen

end SymbolicXor
