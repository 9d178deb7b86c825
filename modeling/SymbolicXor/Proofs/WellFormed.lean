import SymbolicXor.Equation
import SymbolicXor.Substitution
import SymbolicXor.Unification.Measure

/-!
# Well-formed terms

The term type holds more than the library builds. In a built term, and so in every subterm of it, a
sum is canonical, and an application has as many arguments as the arity of its symbol says. Both are
instances of one property of a term, that all its subterms pass a test.
-/

namespace SymbolicXor

namespace Term

/-- Induction on terms, with the hypothesis for all arguments and all summands. -/
theorem induction {motive : Term → Prop} (var : ∀ v, motive (.var v))
    (const : ∀ c, motive (.const c))
    (app : ∀ f ts, (∀ t ∈ ts, motive t) → motive (.app f ts))
    (sum : ∀ ts, (∀ t ∈ ts, motive t) → motive (.sum ts)) (t : Term) : motive t := by
  cases t with
  | var v => exact var v
  | const c => exact const c
  | app f ts => exact app f ts fun u _ => induction var const app sum u
  | sum ts => exact sum ts fun u _ => induction var const app sum u

/-- Induction on terms, with the hypothesis for all that is right below a term. -/
theorem args_induction {motive : Term → Prop}
    (h : ∀ t, (∀ u ∈ t.args, motive u) → motive t) (t : Term) : motive t := by
  induction t using Term.induction with
  | var v => exact h _ nofun
  | const c => exact h _ nofun
  | app f ts ih => exact h _ ih
  | sum ts ih => exact h _ ih

/-- The subterms of a term are the term and those of its arguments or summands. -/
theorem subterms_eq (t : Term) : t.subterms = t :: t.args.flatMap subterms := by
  cases t with
  | app f ts => exact subterms_app f ts
  | sum ts => exact subterms_sum ts
  | _ => rfl

/-- Every subterm of a term, the term itself included, passes a test. -/
def Everywhere (p : Term → Prop) (t : Term) : Prop := ∀ s ∈ t.subterms, p s

instance (p : Term → Prop) [DecidablePred p] (t : Term) : Decidable (t.Everywhere p) :=
  inferInstanceAs (Decidable (∀ s ∈ t.subterms, p s))

section Everywhere

variable {p q : Term → Prop}

@[simp] theorem everywhere_var (v : Variable) : (var v).Everywhere p ↔ p (var v) := by
  simp [Everywhere]

@[simp] theorem everywhere_const (c : Constant) : (const c).Everywhere p ↔ p (const c) := by
  simp [Everywhere]

@[simp] theorem everywhere_app (f : FunctionSymbol) (ts : List Term) :
    (app f ts).Everywhere p ↔ p (app f ts) ∧ ∀ t ∈ ts, t.Everywhere p := by
  simp only [Everywhere, subterms_app, List.forall_mem_cons, List.mem_flatMap]
  exact and_congr_right fun _ => ⟨fun h t ht s hs => h s ⟨t, ht, hs⟩,
    fun h s ⟨t, ht, hs⟩ => h t ht s hs⟩

@[simp] theorem everywhere_sum (ts : List Term) :
    (sum ts).Everywhere p ↔ p (sum ts) ∧ ∀ t ∈ ts, t.Everywhere p := by
  simp only [Everywhere, subterms_sum, List.forall_mem_cons, List.mem_flatMap]
  exact and_congr_right fun _ => ⟨fun h t ht s hs => h s ⟨t, ht, hs⟩,
    fun h s ⟨t, ht, hs⟩ => h t ht s hs⟩

theorem Everywhere.args {t : Term} (h : t.Everywhere p) : ∀ u ∈ t.args, u.Everywhere p := by
  cases t with
  | var v => exact fun _ hu => absurd hu List.not_mem_nil
  | const c => exact fun _ hu => absurd hu List.not_mem_nil
  | app f ts => exact ((everywhere_app f ts).1 h).2
  | sum ts => exact ((everywhere_sum ts).1 h).2

theorem mem_subterms_self (t : Term) : t ∈ t.subterms := by
  cases t <;> simp

theorem mem_subterms_of_mem_args {t u : Term} (h : u ∈ t.args) : u ∈ t.subterms := by
  rw [subterms_eq]
  exact List.mem_cons_of_mem _ (List.mem_flatMap_of_mem h (mem_subterms_self u))

theorem mem_subterms_of_mem_summands {t a : Term} (h : a ∈ t.summands) : a ∈ t.subterms := by
  cases t with
  | sum ts => exact mem_subterms_of_mem_args h
  | _ =>
    simp only [summands] at h
    split at h
    · cases h
    · exact List.mem_singleton.1 h ▸ mem_subterms_self _

theorem mem_vars_of_mem_args {t u : Term} (hu : u ∈ t.args) {v : Variable} (hv : v ∈ u.vars) :
    v ∈ t.vars := by
  cases t with
  | app f ts => exact vars_app f ts ▸ List.mem_flatMap_of_mem hu hv
  | sum ts => exact vars_sum ts ▸ List.mem_flatMap_of_mem hu hv
  | _ => cases hu

/-- A subterm of a subterm is a subterm. -/
theorem mem_subterms_trans {s t u : Term} (hs : s ∈ t.subterms) (hu : u ∈ s.subterms) :
    u ∈ t.subterms := by
  induction t using args_induction with
  | h t ih =>
    rw [subterms_eq, List.mem_cons, List.mem_flatMap] at hs
    rcases hs with rfl | ⟨a, ha, hs⟩
    · exact hu
    · rw [subterms_eq]
      exact List.mem_cons_of_mem _ (List.mem_flatMap_of_mem ha (ih a ha hs))

theorem Everywhere.subterm {s t : Term} (h : t.Everywhere p) (hs : s ∈ t.subterms) :
    s.Everywhere p := fun _ hu => h _ (mem_subterms_trans hs hu)

end Everywhere

theorem mem_vars_iff {t : Term} {v : Variable} : v ∈ t.vars ↔ var v ∈ t.subterms := by
  rw [vars, List.mem_filterMap]
  constructor
  · rintro ⟨s, hs, hv⟩
    cases s <;> cases hv
    exact hs
  · exact fun h => ⟨var v, h, rfl⟩

theorem mem_constants_iff {t : Term} {c : Constant} : c ∈ t.constants ↔ const c ∈ t.subterms := by
  rw [constants, List.mem_filterMap]
  constructor
  · rintro ⟨s, hs, hc⟩
    cases s <;> cases hc
    exact hs
  · exact fun h => ⟨const c, h, rfl⟩

/-- A term that may be a summand: it is not zero and not a sum. -/
def Atomic (t : Term) : Prop := t ≠ zero ∧ t.isSum = false

instance (t : Term) : Decidable t.Atomic := inferInstanceAs (Decidable (_ ∧ _))

/-- A sum at the head of a term is in canonical form: at least two atomic summands in strictly
increasing order. -/
def CanonicalHead : Term → Prop
  | sum ts => 2 ≤ ts.length ∧ OrderedList.Ordered ts ∧ ∀ t ∈ ts, t.Atomic
  | _ => True

instance : DecidablePred CanonicalHead
  | sum ts => inferInstanceAs (Decidable (2 ≤ ts.length ∧ OrderedList.Ordered ts ∧ _))
  | var _ | const _ | app _ _ => isTrue trivial

/-- Every sum in a term, at any depth, is in canonical form. -/
def Canonical (t : Term) : Prop := t.Everywhere CanonicalHead

instance (t : Term) : Decidable t.Canonical := inferInstanceAs (Decidable (t.Everywhere _))

/-- An application at the head of a term has as many arguments as its symbol asks for. -/
def HeadRespectsArity : Term → Prop
  | app f ts => ts.length = f.arity
  | _ => True

instance : DecidablePred HeadRespectsArity
  | app f ts => inferInstanceAs (Decidable (ts.length = f.arity))
  | var _ | const _ | sum _ => isTrue trivial

/-- Every application in a term has as many arguments as its symbol asks for. -/
def RespectsArity (t : Term) : Prop := t.Everywhere HeadRespectsArity

instance (t : Term) : Decidable t.RespectsArity := inferInstanceAs (Decidable (t.Everywhere _))

/-- No sum occurs in a term. -/
def SumFree (t : Term) : Prop := t.Everywhere fun s => s.isSum = false

/-- Every sum in a term is ground: no variable occurs in it. -/
def SumsGround (t : Term) : Prop := t.Everywhere fun s => s.isSum = true → s.vars = []

instance (t : Term) : Decidable t.SumsGround := inferInstanceAs (Decidable (t.Everywhere _))

@[simp] theorem canonical_var (v : Variable) : (var v).Canonical := by
  simp [Canonical, CanonicalHead]

@[simp] theorem canonical_const (c : Constant) : (const c).Canonical := by
  simp [Canonical, CanonicalHead]

@[simp] theorem canonical_app (f : FunctionSymbol) (ts : List Term) :
    (app f ts).Canonical ↔ ∀ t ∈ ts, t.Canonical := by
  simp [Canonical, CanonicalHead]

theorem canonical_sum (ts : List Term) : (sum ts).Canonical ↔
    (2 ≤ ts.length ∧ OrderedList.Ordered ts ∧ ∀ t ∈ ts, t.Atomic) ∧ ∀ t ∈ ts, t.Canonical := by
  simp [Canonical, CanonicalHead]

@[simp] theorem canonical_zero : zero.Canonical := canonical_const _

@[simp] theorem respectsArity_var (v : Variable) : (var v).RespectsArity := by
  simp [RespectsArity, HeadRespectsArity]

@[simp] theorem respectsArity_const (c : Constant) : (const c).RespectsArity := by
  simp [RespectsArity, HeadRespectsArity]

@[simp] theorem respectsArity_app (f : FunctionSymbol) (ts : List Term) :
    (app f ts).RespectsArity ↔ ts.length = f.arity ∧ ∀ t ∈ ts, t.RespectsArity := by
  simp [RespectsArity, HeadRespectsArity]

@[simp] theorem respectsArity_sum (ts : List Term) :
    (sum ts).RespectsArity ↔ ∀ t ∈ ts, t.RespectsArity := by
  simp [RespectsArity, HeadRespectsArity]

@[simp] theorem sumFree_var (v : Variable) : (var v).SumFree := by
  simp [SumFree, isSum]

@[simp] theorem sumFree_const (c : Constant) : (const c).SumFree := by
  simp [SumFree, isSum]

@[simp] theorem sumFree_app (f : FunctionSymbol) (ts : List Term) :
    (app f ts).SumFree ↔ ∀ t ∈ ts, t.SumFree := by
  simp [SumFree, isSum]

@[simp] theorem not_sumFree_sum (ts : List Term) : ¬ (sum ts).SumFree := by
  simp [SumFree, isSum]

@[simp] theorem sumsGround_var (v : Variable) : (var v).SumsGround := by
  simp [SumsGround, isSum]

@[simp] theorem sumsGround_const (c : Constant) : (const c).SumsGround := by
  simp [SumsGround, isSum]

@[simp] theorem sumsGround_app (f : FunctionSymbol) (ts : List Term) :
    (app f ts).SumsGround ↔ ∀ t ∈ ts, t.SumsGround := by
  simp [SumsGround, isSum]

theorem vars_of_sumsGround {ts : List Term} (h : (sum ts).SumsGround) : (sum ts).vars = [] :=
  ((everywhere_sum ts).1 h).1 rfl

theorem sumsGround_of_vars_eq_nil {t : Term} (h : t.vars = []) : t.SumsGround := by
  intro s hs _
  refine List.eq_nil_iff_forall_not_mem.2 fun v hv => ?_
  have hmem : v ∈ t.vars := mem_vars_iff.2 (mem_subterms_trans hs (mem_vars_iff.1 hv))
  rw [h] at hmem
  cases hmem

theorem SumFree.sumsGround {t : Term} (h : t.SumFree) : t.SumsGround :=
  fun s hs hsum => absurd hsum (by simp [h s hs])

/-- A term without an open sum has only ground sums. -/
theorem hasOpenSum_eq_false {t : Term} : t.hasOpenSum = false ↔ t.SumsGround := by
  simp [hasOpenSum, SumsGround, Everywhere]

section Xor

variable {p : Term → Prop}

theorem Everywhere.summands {t : Term} (h : t.Everywhere p) : ∀ a ∈ t.summands, a.Everywhere p := by
  intro a ha
  cases t with
  | sum ts => exact h.args a ha
  | _ =>
    simp only [Term.summands] at ha
    split at ha
    · cases ha
    · exact List.mem_singleton.1 ha ▸ h

/-- A property that holds of zero and of every sum with such summands passes to sums. -/
theorem everywhere_xor (hz : p zero) (hs : ∀ ts, p (sum ts)) {ts : List Term}
    (h : ∀ t ∈ ts, t.Everywhere p) : (xor ts).Everywhere p := by
  have hc : ∀ a ∈ cancel ts, a.Everywhere p := by
    intro a ha
    obtain ⟨t, ht, hat⟩ := List.mem_flatMap.1 (OrderedList.mem_of_mem_oddOnes ha)
    exact (h t ht).summands a hat
  rw [xor]
  match hl : cancel ts with
  | [] => exact (everywhere_const _).2 hz
  | [a] => exact hc a (hl ▸ List.mem_cons_self)
  | a :: b :: l => exact (everywhere_sum _).2 ⟨hs _, fun t ht => hc t (hl ▸ ht)⟩

theorem respectsArity_xor {ts : List Term} (h : ∀ t ∈ ts, t.RespectsArity) :
    (xor ts).RespectsArity :=
  everywhere_xor trivial (fun _ => trivial) h

end Xor

end Term

/-- Both sides of an equation satisfy a property. -/
def Equation.Both (p : Term → Prop) (e : Equation) : Prop := p e.left ∧ p e.right

instance (p : Term → Prop) [DecidablePred p] (e : Equation) : Decidable (e.Both p) :=
  inferInstanceAs (Decidable (_ ∧ _))

/-- All variables are bound to terms with a property. -/
def Substitution.Into (p : Term → Prop) (σ : Substitution) : Prop := ∀ t ∈ σ.range, p t

instance (p : Term → Prop) [DecidablePred p] (σ : Substitution) : Decidable (σ.Into p) :=
  inferInstanceAs (Decidable (∀ t ∈ σ.range, p t))

/-- A substitution makes the sides of every equation equal. -/
def Substitution.Solves (θ : Substitution) (es : List Equation) : Prop :=
  ∀ e ∈ es, θ.apply e.left = θ.apply e.right

instance (θ : Substitution) (es : List Equation) : Decidable (θ.Solves es) :=
  inferInstanceAs (Decidable (∀ e ∈ es, _))

end SymbolicXor
