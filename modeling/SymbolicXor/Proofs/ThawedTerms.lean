import Mathlib.Algebra.Order.BigOperators.Group.List
import Mathlib.Data.List.Perm.Subperm
import SymbolicXor.Proofs.FrozenTerms
import SymbolicXor.Proofs.Samples
import SymbolicXor.Proofs.Traversals

/-!
# Thawed terms

Frozen variables have names of their own, so different summands are frozen to different ones, and
thawing restores the sum. The exception is the variable that is spelled like zero: where its name is
free it is frozen to zero itself, which is no summand. A summand that is lost in this way cannot
come back, because neither freezing nor thawing makes a term larger. So a term is restored exactly
if the name of zero is taken or that variable is no summand in it.
-/

namespace SymbolicXor

namespace OrderedList

variable {α : Type} [Ord α]

theorem subperm_toggle (a : α) (l : List α) : (toggle a l).Subperm (a :: l) := by
  induction l with
  | nil => exact List.Subperm.refl _
  | cons b l ih =>
    simp only [toggle]
    split
    · exact List.Subperm.refl _
    · exact ((List.sublist_cons_self b l).trans (List.sublist_cons_self a _)).subperm
    · exact ((List.subperm_cons b).2 ih).trans (List.Perm.swap a b l).subperm

/-- The elements that occur an odd number of times are part of the list. -/
theorem subperm_oddOnes (l : List α) : (oddOnes l).Subperm l := by
  induction l with
  | nil => exact List.Subperm.refl _
  | cons a l ih => exact (subperm_toggle a _).trans ((List.subperm_cons a).2 ih)

end OrderedList

namespace Term

variable {onVar : Variable → Term} {onConst : Constant → Term} {t : Term}

theorem size_app (f : FunctionSymbol) (ts : List Term) :
    (app f ts).size = (ts.map size).sum + 1 := size_eq _

theorem size_sum (ts : List Term) : (sum ts).size = (ts.map size).sum + 1 := size_eq _

theorem size_ofSummands_le (ts : List Term) : (ofSummands ts).size ≤ (ts.map size).sum + 1 := by
  match ts with
  | [] => exact Nat.le_refl 1
  | [t] => simp [ofSummands]
  | t :: u :: ts => exact (size_sum _).le

/-- The summands of a term are places in it; zero is a place without a summand. -/
theorem size_summands_le (t : Term) :
    (t.summands.map size).sum + (if t = zero then 1 else 0) ≤ t.size := by
  rcases eq_zero_or_atomic_or_sum t with rfl | ht | ⟨ts, rfl⟩
  · rw [summands_zero, if_pos rfl]
    exact Nat.le_refl 1
  · simp [summands_of_atomic ht, ht.1]
  · simp [summands, zero, size_sum]

/-- Terms have at least as many places as their summands, and one more for each zero. -/
theorem size_flatMap_summands_le (ts : List Term) :
    ((ts.flatMap summands).map size).sum + ts.count zero ≤ (ts.map size).sum := by
  induction ts with
  | nil => exact Nat.le_refl 0
  | cons t ts ih =>
    have ht := size_summands_le t
    simp only [List.flatMap_cons, List.map_append, List.sum_append, List.count_cons,
      List.map_cons, List.sum_cons, beq_iff_eq]
    omega

/-- A sum is hardly larger than its terms together, and each zero among them makes it smaller. -/
theorem size_xor_le (ts : List Term) :
    (xor ts).size + ts.count zero ≤ (ts.map size).sum + 1 := by
  obtain ⟨l, hperm, hsub⟩ := OrderedList.subperm_oddOnes (ts.flatMap summands)
  calc (xor ts).size + ts.count zero
      ≤ ((cancel ts).map size).sum + 1 + ts.count zero :=
        Nat.add_le_add_right (size_ofSummands_le _) _
    _ = (l.map size).sum + 1 + ts.count zero := by rw [cancel, (hperm.map size).sum_eq]
    _ ≤ ((ts.flatMap summands).map size).sum + 1 + ts.count zero := by
        gcongr
        exact (hsub.map size).sum_le_sum fun _ _ => Nat.zero_le _
    _ ≤ (ts.map size).sum + 1 := by
        have hsummands := size_flatMap_summands_le ts
        omega

section LeafSize

variable (hv : ∀ v, (onVar v).size = 1) (hc : ∀ c, (onConst c).size = 1)

include hv hc

/-- Putting leaves in the places of leaves makes no term larger. -/
theorem size_mapLeaves_le (t : Term) : (t.mapLeaves onVar onConst).size ≤ t.size := by
  induction t using Term.induction with
  | var v => exact (hv v).le
  | const c => exact (hc c).le
  | app f ts ih =>
    rw [mapLeaves_app, size_app, size_app, List.map_map]
    exact Nat.succ_le_succ (List.sum_le_sum ih)
  | sum ts ih =>
    have hxor := size_xor_le (ts.map (mapLeaves onVar onConst))
    have hsum : ((ts.map (mapLeaves onVar onConst)).map size).sum ≤ (ts.map size).sum := by
      rw [List.map_map]
      exact List.sum_le_sum ih
    rw [mapLeaves_sum, size_sum]
    omega

/-- A term that stays as large as it was loses no summand: none becomes zero. -/
theorem mapLeaves_ne_zero_of_size (h : t.size ≤ (t.mapLeaves onVar onConst).size) :
    t.Everywhere fun s => s.isSum = true → ∀ a ∈ s.args, a.mapLeaves onVar onConst ≠ zero := by
  -- If a part became smaller, so would the whole.
  have size_le_of_mem {ts : List Term}
      (hts : (ts.map size).sum ≤ ((ts.map (mapLeaves onVar onConst)).map size).sum) {u : Term}
      (hu : u ∈ ts) : u.size ≤ (u.mapLeaves onVar onConst).size := by
    by_contra hlt
    rw [List.map_map] at hts
    exact Nat.not_lt.2 hts (List.sum_lt_sum _ _ (fun a _ => size_mapLeaves_le hv hc a)
      ⟨u, hu, Nat.lt_of_not_le hlt⟩)
  induction t using Term.induction with
  | var v => simp [isSum]
  | const c => simp [isSum]
  | app f ts ih =>
    rw [mapLeaves_app, size_app, size_app] at h
    refine (everywhere_app f ts).2 ⟨by simp [isSum], fun u hu => ?_⟩
    exact ih u hu (size_le_of_mem (Nat.le_of_succ_le_succ h) hu)
  | sum ts ih =>
    have hxor := size_xor_le (ts.map (mapLeaves onVar onConst))
    have hsum := List.sum_le_sum fun u (_ : u ∈ ts) => size_mapLeaves_le hv hc u
    rw [mapLeaves_sum, size_sum] at h
    refine (everywhere_sum ts).2 ⟨fun _ a ha hzero => ?_, fun u hu =>
      ih u hu (size_le_of_mem (by omega) hu)⟩
    have hcount : 0 < (ts.map (mapLeaves onVar onConst)).count zero :=
      List.count_pos_iff.2 (hzero ▸ List.mem_map_of_mem ha)
    rw [List.map_map] at hxor
    simp only [Function.comp_def] at hxor
    omega

end LeafSize

/-- Replacing leaves respects a sum of different atoms, with any term in the place of zero. -/
theorem mapLeaves_xor_of_distinct (h : CanonicalLeaves onVar onConst) {ts : List Term}
    (hne : ts ≠ []) (hdistinct : ts.Nodup) (hts : ∀ t ∈ ts, t.Canonical)
    (hatomic : ∀ t ∈ ts, t.Atomic) :
    (xor ts).mapLeaves onVar onConst = xor (ts.map (mapLeaves onVar onConst)) := by
  have hmap := canonical_map_mapLeaves h ts
  obtain ⟨a, ha⟩ := List.exists_mem_of_ne_nil ts hne
  have hzero : xor ts ≠ zero := by
    intro hz
    have hmem := mem_summands_xor_of_nodup hdistinct hts hatomic ha
    rw [hz, summands_zero] at hmem
    cases hmem
  have hvec : vec ((xor ts).mapLeaves onVar onConst) =
      ((xor ts).summands.map fun a => vec (a.mapLeaves onVar onConst)).sum := by
    rcases eq_zero_or_atomic_or_sum (xor ts) with hz | hatom | ⟨us, hus⟩
    · exact absurd hz hzero
    · simp [summands_of_atomic hatom]
    · rw [hus, mapLeaves_sum, vec_xor (canonical_map_mapLeaves h us), List.map_map]
      rfl
  rw [← vec_inj (canonical_mapLeaves h _) (canonical_xor hmap), hvec,
    sum_map_summands_xor add_self_eq_zero _ hts, vec_xor hmap, List.map_map]
  refine congrArg List.sum (List.map_congr_left fun u hu => ?_)
  simp [summands_of_atomic (hatomic u hu)]

/-- A variable is no summand of any sum in a term. -/
def SumsOmit (v : Variable) (t : Term) : Prop :=
  t.Everywhere fun s => s.isSum = true → var v ∉ s.args

instance (v : Variable) (t : Term) : Decidable (t.SumsOmit v) :=
  inferInstanceAs (Decidable (t.Everywhere _))

end Term

open Term

namespace Variable

variable {taken : List Name} {vs : List Variable}

/-- No variable of that name comes before the one without a sort. -/
theorem symbol_ne_zero_of_compare {v : Variable} (h : compare v likeZero = .lt) :
    v.symbol ≠ .zero := by
  intro hv
  rcases Ordering.then_eq_lt.1 h with h | ⟨_, h⟩
  · have hname : compare v.symbol Name.zero = .lt := h
    rw [hv, Std.ReflOrd.compare_self] at hname
    cases hname
  · have hsort : compare v.sort none = .lt := h
    cases hs : v.sort with
    | none => simp [hs] at hsort
    | some s =>
      rw [hs] at hsort
      cases hsort

/-- Where the name of zero is free, the variable that is spelled like zero keeps it. -/
theorem likeZero_mem_namesApart (hvs : OrderedList.Ordered vs) (h : likeZero ∈ vs)
    (hfree : Name.zero ∉ taken) : (likeZero, Name.zero) ∈ namesApart taken vs := by
  induction vs generalizing taken with
  | nil => cases h
  | cons v vs ih =>
    obtain ⟨hfirst, hvs⟩ := List.pairwise_cons.1 hvs
    rw [namesApart, List.mem_cons]
    rcases List.mem_cons.1 h with rfl | h
    · exact Or.inl (Prod.ext rfl (Name.apartFrom_of_not_mem hfree).symm)
    · refine Or.inr (ih hvs h fun hmem => ?_)
      rcases List.mem_cons.1 hmem with heq | hmem
      · obtain ⟨i, hi⟩ := Name.exists_apartFrom v.symbol taken
        exact symbol_ne_zero_of_compare (hfirst _ h) (Name.eq_zero_of_suffixed (hi ▸ heq.symm))
      · exact hfree hmem

end Variable

namespace Frozen.Freezes

variable {frozen : Frozen} {taken : List Name} {t s a : Term} {φ : Substitution}
  (h : frozen.Freezes taken t φ)

include h

/-- No atom is frozen to a sum. -/
theorem isSum_apply (ha : a.isSum = false) : (φ.apply a).isSum = false := by
  cases a with
  | var v =>
    have hinto : φ.Into fun u => u.isSum = false := h.into (fun _ => rfl) fun _ => rfl
    exact hinto.lookup (fun _ => rfl) v
  | const c => rfl
  | app f ts =>
    rw [Substitution.apply_app]
    rfl
  | sum ts => cases ha

/-- Only the variable that is spelled like zero is frozen to zero, and only where that name is
free. -/
theorem apply_ne_zero (ha : a.Atomic) (hmem : a ∈ t.subterms)
    (hzero : Name.zero ∈ taken ∨ a ≠ .var Variable.likeZero) : φ.apply a ≠ zero := by
  cases a with
  | var v =>
    obtain ⟨c, hc, hthaws⟩ := h.lookup v (mem_vars_iff.2 hmem)
    rw [Substitution.apply_var, hc]
    rintro heq
    cases heq
    rcases hzero with hzero | hzero
    · exact (h.thaws _ v hthaws).2.2.1 hzero
    · exact hzero (congrArg Term.var (h.eq_likeZero hthaws))
  | const c => exact ha.1
  | app f ts =>
    rw [Substitution.apply_app]
    exact fun heq => nomatch heq
  | sum ts => exact absurd ha.2 (by simp [isSum])

/-- Where no summand is frozen to zero, every part of the term is restored. -/
theorem thaw_apply_subterm (ht : t.Canonical) (htaken : ∀ c ∈ t.constants, c.symbol ∈ taken)
    (hzero : Name.zero ∈ taken ∨ t.SumsOmit Variable.likeZero) (hs : s ∈ t.subterms) :
    (φ.apply s).thaw frozen.thawing = s := by
  have below {u v : Term} (hv : v ∈ t.subterms) (hu : u ∈ v.args) : u ∈ t.subterms :=
    mem_subterms_trans hv (mem_subterms_of_mem_args hu)
  have restored {ts : List Term} (ih : ∀ u ∈ ts, (φ.apply u).thaw frozen.thawing = u) :
      (ts.map φ.apply).map (fun u => u.thaw frozen.thawing) = ts := by
    rw [List.map_map]
    exact (List.map_congr_left ih).trans (List.map_id ts)
  induction s using Term.induction with
  | var v =>
    obtain ⟨c, hc, hthaws⟩ := h.lookup v (mem_vars_iff.2 hs)
    rw [Substitution.apply_var, hc, thaw_const_of_some hthaws]
  | const c =>
    have hc := htaken c (mem_constants_iff.2 hs)
    rw [Substitution.apply_const, thaw_const_of_none (h.get?_eq_none hc)]
  | app f ts ih =>
    rw [Substitution.apply_app, thaw, mapLeaves_app]
    exact congrArg (app f) (restored fun u hu => ih u hu (below hs hu))
  | sum ts ih =>
    have hself (u : Term) (hu : u ∈ ts) := ih u hu (below hs hu)
    have hcanonical : (sum ts).Canonical := ht.subterm hs
    obtain ⟨hlen, hordered, hatomic⟩ := ((canonical_sum ts).1 hcanonical).1
    have hdistinct : (ts.map φ.apply).Nodup :=
      hordered.nodup.map_on fun u hu v hv heq => by rw [← hself u hu, heq, hself v hv]
    have hatoms : ∀ u ∈ ts.map φ.apply, u.Atomic := by
      rw [List.forall_mem_map]
      refine fun u hu => ⟨h.apply_ne_zero (hatomic u hu) (below hs hu) ?_,
        h.isSum_apply (hatomic u hu).2⟩
      exact hzero.imp_right fun homit heq => homit _ hs rfl (heq ▸ hu)
    have hne : ts.map φ.apply ≠ [] := by
      intro hnil
      rw [List.map_eq_nil_iff.1 hnil] at hlen
      cases hlen
    have hsum := mapLeaves_xor_of_distinct (canonicalLeaves_thaw frozen.thawing) hne hdistinct
      (Substitution.canonical_map_apply h.canonical ts) hatoms
    rw [Substitution.apply_sum]
    exact hsum.trans ((congrArg Term.xor (restored hself)).trans (xor_summands hcanonical))

/-- Neither freezing nor thawing makes a term larger, so a restored term was never smaller. -/
theorem size_le_of_thaw (hback : frozen.term.thaw frozen.thawing = t) :
    t.size ≤ (φ.apply t).size := by
  rw [← h.term_eq]
  conv_lhs => rw [← hback]
  refine size_mapLeaves_le (fun _ => rfl) (fun c => ?_) frozen.term
  cases frozen.thawing.get? c <;> rfl

/-- A term that is restored has no summand that was frozen to zero. -/
theorem apply_ne_zero_of_thaw (hback : frozen.term.thaw frozen.thawing = t) :
    t.Everywhere fun s => s.isSum = true → ∀ a ∈ s.args, φ.apply a ≠ zero := by
  have hinto : φ.Into fun u => u.size = 1 := h.into (fun _ => rfl) fun _ => rfl
  exact mapLeaves_ne_zero_of_size (hinto.lookup fun _ => rfl) (fun _ => rfl)
    (h.size_le_of_thaw hback)

end Frozen.Freezes

/-- Every term can be frozen, and no variable remains. With all its constants among the names that
are kept apart, thawing restores it exactly if the name of zero is among them too or the variable
that is spelled like zero is no summand in it. -/
theorem Term.thaw_freezeApart_iff {t : Term} {taken : List Name} (ht : t.Canonical)
    (htaken : ∀ c ∈ t.constants, c.symbol ∈ taken) :
    ∃ frozen, t.freezeApart taken = .ok frozen ∧ frozen.term.vars = [] ∧
      (frozen.term.thaw frozen.thawing = t ↔
        Name.zero ∈ taken ∨ t.SumsOmit Variable.likeZero) := by
  obtain ⟨frozen, φ, hfrozen, hbindings, h⟩ := Frozen.exists_freezeApart t taken
  refine ⟨frozen, hfrozen, h.vars_term, fun hback => ?_, fun hzero => ?_⟩
  · by_contra hlost
    rw [not_or] at hlost
    refine hlost.2 fun s hs hsum hmem => h.apply_ne_zero_of_thaw hback s hs hsum _ hmem ?_
    have hvar : Variable.likeZero ∈ t.vars :=
      mem_vars_iff.2 (mem_subterms_trans hs (mem_subterms_of_mem_args hmem))
    have hnamed := Variable.likeZero_mem_namesApart (OrderedList.ordered_ofList _)
      (mem_uniqueVars.2 hvar) hlost.1
    exact (Variable.lookup_ofBindings_namesApart (fun v n => .const { symbol := n, sort := v.sort })
      t.nodup_uniqueVars hbindings).1 _ _ hnamed
  · rw [h.term_eq]
    exact h.thaw_apply_subterm ht htaken hzero (mem_subterms_self t)

section Samples

open Sample

/-- The variable that is spelled like zero below a symbol, beside a sum with another variable. -/
def besideSum : Term := .app p [.var .likeZero, .sum [.var x, a]]

/-- The variable that is spelled like zero as a summand. -/
def likeZeroSummand : Term := .sum [.var .likeZero, a]

/-- The names of the constants of a term. -/
def Term.constantNames (t : Term) : List Name := t.constants.map Constant.symbol

theorem Term.thaw_freezeApart_iff_likeZero :
    (besideSum.Canonical ∧ (∀ c ∈ besideSum.constants, c.symbol ∈ besideSum.constantNames) ∧
      ∃ frozen, besideSum.freezeApart besideSum.constantNames = .ok frozen ∧
        frozen.term.vars = [] ∧ frozen.term.thaw frozen.thawing = besideSum) ∧
    likeZeroSummand.Canonical ∧
      (∀ c ∈ likeZeroSummand.constants, c.symbol ∈ .zero :: likeZeroSummand.constantNames) ∧
      ∃ frozen, likeZeroSummand.freezeApart (.zero :: likeZeroSummand.constantNames) =
          .ok frozen ∧
        frozen.term.vars = [] ∧ frozen.term.thaw frozen.thawing = likeZeroSummand := by
  have hbeside : besideSum.Canonical := by decide
  have hbeside' : ∀ c ∈ besideSum.constants, c.symbol ∈ besideSum.constantNames := by decide
  have hsummand : likeZeroSummand.Canonical := by decide
  have hsummand' : ∀ c ∈ likeZeroSummand.constants,
      c.symbol ∈ .zero :: likeZeroSummand.constantNames := by decide
  obtain ⟨frozen, hok, hvars, hiff⟩ := Term.thaw_freezeApart_iff hbeside hbeside'
  obtain ⟨frozen', hok', hvars', hiff'⟩ := Term.thaw_freezeApart_iff hsummand hsummand'
  exact ⟨⟨hbeside, hbeside', frozen, hok, hvars, hiff.2 (Or.inr (by decide))⟩, hsummand,
    hsummand', frozen', hok', hvars', hiff'.2 (Or.inl (by decide))⟩

/-- A summand that is spelled like zero is lost where the name of zero is free. -/
theorem Term.thaw_freezeApart_likeZeroSummand :
    likeZeroSummand.Canonical ∧
      (∀ c ∈ likeZeroSummand.constants, c.symbol ∈ likeZeroSummand.constantNames) ∧
      ∃ frozen, likeZeroSummand.freezeApart likeZeroSummand.constantNames = .ok frozen ∧
        frozen.term.thaw frozen.thawing = a ∧ a ≠ likeZeroSummand := by
  refine ⟨by decide, by decide, ⟨a, .ofList [({ symbol := .zero }, .likeZero)]⟩, by cbv, by decide,
    by decide⟩

end Samples

end SymbolicXor
