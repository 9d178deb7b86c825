import Mathlib.Data.Finset.Card
import Mathlib.Data.Finset.Filter
import Mathlib.Logic.Function.Iterate
import SymbolicXor.Proofs.Samples
import SymbolicXor.Proofs.SubstitutionAlgebra

/-!
# Substitutions one after the other

Substitutions that follow each other act like their composition, so the order in which several are
composed does not matter. To unravel a term is to let one substitution follow itself. If a ranking
goes down from each bound variable to the bound variables in its term, every round lowers the rank
of the bound variables that remain, and as many rounds as there are bindings leave none. Sums may
cancel on the way, but they never bring a variable back.
-/

namespace SymbolicXor.Substitution

open Term

variable {σ θ ρ : Substitution} {rank : Variable → Nat} {v w : Variable} {t : Term}

/-- Compositions are told apart by the terms that stand for the variables. -/
theorem compose_eq_compose {σ' θ' : Substitution}
    (h : ∀ v, θ.apply (σ.lookup v) = θ'.apply (σ'.lookup v)) : σ.compose θ = σ'.compose θ' := by
  refine congrArg Substitution.mk (FinMap.ext_get? fun v => ?_)
  change (σ.compose θ).get? v = (σ'.compose θ').get? v
  rw [get?_compose, get?_compose, h]

theorem compose_assoc (hθ : θ.Into Canonical) (hρ : ρ.Into Canonical) :
    (σ.compose θ).compose ρ = σ.compose (θ.compose ρ) := by
  refine compose_eq_compose fun v => ?_
  rw [lookup_compose, apply_compose hθ hρ]

theorem contains_compose :
    (σ.compose θ).contains v = true ↔ θ.apply (σ.lookup v) ≠ .var v := by
  rw [contains_eq_true, mem_domain, get?_compose]
  split <;> simp_all

/-- Substitutions respect exclusive or and compose like functions: a composition acts by its parts
in turn, composing is associative, and a composition binds exactly the variables that its parts in
turn do not fix. -/
theorem compose_laws (hσ : σ.Into Canonical) (hθ : θ.Into Canonical) (hρ : ρ.Into Canonical) :
    (∀ ts : List Term, (∀ t ∈ ts, t.Canonical) → σ.apply (xor ts) = xor (ts.map σ.apply)) ∧
      (∀ t, (σ.compose θ).apply t = θ.apply (σ.apply t)) ∧
      (σ.compose θ).compose ρ = σ.compose (θ.compose ρ) ∧
      ∀ v, (σ.compose θ).contains v = true ↔ θ.apply (σ.apply (.var v)) ≠ .var v :=
  ⟨fun _ => apply_xor hσ, apply_compose hσ hθ, compose_assoc hθ hρ, fun _ => contains_compose⟩

section Samples

open Sample

/-- The variable `x` is masked by a variable and a constant. -/
def masked : Substitution := single x (.sum [.var y, a])

/-- The mask is replaced so that `x` comes out again. -/
def unmasked : Substitution := single y (.sum [.var x, a])

theorem compose_laws_restoredVariable :
    masked.Into Canonical ∧ unmasked.Into Canonical ∧ (single x b).Into Canonical ∧
      (∀ t ∈ [Term.var x, .sum [.var y, a]], t.Canonical) ∧
      masked.apply (xor [.var x, .sum [.var y, a]]) = zero ∧
      (masked.compose unmasked).apply (.app f [.var x]) = .app f [.var x] ∧
      (masked.compose unmasked).compose (single x b) =
        masked.compose (unmasked.compose (single x b)) ∧
      (masked.compose unmasked).contains x = false := by
  have hmasked : masked.Into Canonical := by decide
  have hunmasked : unmasked.Into Canonical := by decide
  have hsingle : (single x b).Into Canonical := by decide
  have hts : ∀ t ∈ [Term.var x, .sum [.var y, a]], t.Canonical := by decide
  obtain ⟨hxor, hturn, hassoc, hcontains⟩ := compose_laws hmasked hunmasked hsingle
  refine ⟨hmasked, hunmasked, hsingle, hts, ?_, ?_, hassoc, ?_⟩
  · rw [hxor _ hts]
    decide
  · rw [hturn]
    decide
  · rw [Bool.eq_false_iff, ne_eq, hcontains]
    decide

end Samples

/-- Stopping at a term that does not change leaves out only rounds that change nothing. -/
theorem applyUpTo_eq_iterate (n : Nat) (t : Term) : σ.applyUpTo n t = σ.apply^[n] t := by
  induction n generalizing t with
  | zero => rfl
  | succ n ih =>
    rw [applyUpTo]
    split
    · rename_i hfix
      exact (Function.iterate_fixed hfix (n + 1)).symm
    · rw [ih, Function.iterate_succ_apply]

/-- To unravel is to go through all rounds. -/
theorem unravel_eq_iterate (t : Term) : σ.unravel t = σ.apply^[σ.size + 1] t :=
  applyUpTo_eq_iterate _ t

/-- Going through rounds makes no difference to a substitution that satisfies the bindings. -/
theorem Absorbs.apply_iterate (h : θ.Absorbs σ) (hσ : σ.Into Canonical) (hθ : θ.Into Canonical)
    (n : Nat) (t : Term) : θ.apply (σ.apply^[n] t) = θ.apply t := by
  induction n generalizing t with
  | zero => rfl
  | succ n ih => rw [Function.iterate_succ_apply, ih, h.apply hσ hθ]

/-- Ranks go down from each bound variable to the bound variables in its term. -/
def RankedBy (σ : Substitution) (rank : Variable → Nat) : Prop :=
  ∀ v ∈ σ.domain, ∀ w ∈ (σ.lookup v).vars, w ∈ σ.domain → rank w < rank v

instance (σ : Substitution) (rank : Variable → Nat) : Decidable (σ.RankedBy rank) :=
  inferInstanceAs (Decidable (∀ v ∈ σ.domain, ∀ w ∈ (σ.lookup v).vars, _))

/-- No bound variable depends on itself: the bound variables can be ranked. -/
def Acyclic (σ : Substitution) : Prop := ∃ rank, σ.RankedBy rank

/-- The number of bound variables that rank below a variable. -/
def height (σ : Substitution) (rank : Variable → Nat) (v : Variable) : Nat :=
  (σ.domain.toFinset.filter fun w => rank w < rank v).card

theorem height_lt_height (hw : w ∈ σ.domain) (h : rank w < rank v) :
    σ.height rank w < σ.height rank v := by
  refine Finset.card_lt_card ((Finset.ssubset_iff_of_subset fun u hu => ?_).2 ⟨w, ?_, ?_⟩)
  · rw [Finset.mem_filter] at hu ⊢
    exact ⟨hu.1, hu.2.trans h⟩
  · rw [Finset.mem_filter, List.mem_toFinset]
    exact ⟨hw, h⟩
  · simp

theorem height_lt_size (hv : v ∈ σ.domain) : σ.height rank v < σ.size := by
  have hlt : σ.height rank v < σ.domain.toFinset.card :=
    Finset.card_lt_card (Finset.filter_ssubset.2 ⟨v, List.mem_toFinset.2 hv, Nat.lt_irrefl _⟩)
  have hsize : σ.domain.length = σ.size := List.length_map _
  exact hlt.trans_le (hsize ▸ List.toFinset_card_le σ.domain)

/-- The heights of the bound variables rank them too, and are smaller than their number. -/
theorem RankedBy.height (h : σ.RankedBy rank) : σ.RankedBy (σ.height rank) :=
  fun v hv w hw hwd => height_lt_height hwd (h v hv w hw hwd)

/-- The bound variables in a term have ranks below a bound. -/
def RanksBelow (σ : Substitution) (rank : Variable → Nat) (n : Nat) (t : Term) : Prop :=
  ∀ v ∈ t.vars, v ∈ σ.domain → rank v < n

/-- A round lowers the ranks. -/
theorem RankedBy.ranksBelow_apply (h : σ.RankedBy rank) {n : Nat}
    (ht : σ.RanksBelow rank (n + 1) t) : σ.RanksBelow rank n (σ.apply t) := by
  intro v hv hvd
  obtain ⟨w, hw, hvw⟩ := mem_vars_apply hv
  by_cases hwd : w ∈ σ.domain
  · have hlt := h w hwd v hvw hvd
    have hbound := ht w hw hwd
    omega
  · rw [lookup_of_not_mem_domain hwd, vars_var, List.mem_singleton] at hvw
    exact absurd (hvw ▸ hvd) hwd

/-- As many rounds as there are ranks leave no bound variable. -/
theorem RankedBy.not_mem_domain_iterate (h : σ.RankedBy rank) {n : Nat}
    (ht : σ.RanksBelow rank n t) : ∀ v ∈ (σ.apply^[n] t).vars, v ∉ σ.domain := by
  induction n generalizing t with
  | zero => exact fun v hv hvd => Nat.not_lt_zero _ (ht v hv hvd)
  | succ n ih =>
    rw [Function.iterate_succ_apply]
    exact ih (h.ranksBelow_apply ht)

theorem Acyclic.not_mem_domain_unravel (h : σ.Acyclic) (t : Term) :
    ∀ v ∈ (σ.unravel t).vars, v ∉ σ.domain := by
  obtain ⟨rank, hrank⟩ := h
  rw [unravel_eq_iterate]
  exact hrank.height.not_mem_domain_iterate fun v _ hvd => (height_lt_size hvd).trans_le (by omega)

/-- Unravelling reaches the solved form. With an acyclic substitution no bound variable remains and
one more round changes nothing; with a substitution in solved form the first round is enough. With
any substitution, the two terms have the same instance under each solution of the bindings. -/
theorem unravel_solved (hσ : σ.Into Canonical) :
    (σ.Acyclic → (∀ v ∈ (σ.unravel t).vars, v ∉ σ.domain) ∧
      σ.apply (σ.unravel t) = σ.unravel t) ∧
    (σ.isIdempotent = true → σ.unravel t = σ.apply t) ∧
    ∀ θ : Substitution, θ.Into Canonical → θ.Absorbs σ → θ.apply (σ.unravel t) = θ.apply t := by
  refine ⟨fun h => ?_, fun h => ?_, fun θ hθ h => ?_⟩
  · have hfree := h.not_mem_domain_unravel t
    have hcanonical : (σ.unravel t).Canonical := by
      rw [unravel_eq_iterate, Function.iterate_succ_apply']
      exact canonical_apply hσ _
    exact ⟨hfree, apply_eq_self hcanonical fun v hv => lookup_of_not_mem_domain (hfree v hv)⟩
  · have hagain := ((isIdempotent_eq_true.1 h).absorbs hσ).apply hσ hσ
    rw [unravel_eq_iterate, Function.iterate_succ_apply]
    exact Function.iterate_fixed (hagain t) σ.size
  · rw [unravel_eq_iterate]
    exact h.apply_iterate hσ hθ _ t

section Samples

open Sample

/-- Each variable but the last is bound to a term with the next. -/
def chain : Substitution :=
  ⟨⟨[(x, .app f [.var y]), (y, .sum [.var z, a]), (z, b)], by decide⟩⟩

/-- The place of a variable, counted from the end of the chain. -/
def fromEnd (v : Variable) : Nat := if v = x then 2 else if v = y then 1 else 0

/-- Two variables are bound to terms with a third. -/
def fan : Substitution := ⟨⟨[(x, .app f [.var z]), (y, .sum [.var z, a])], by decide⟩⟩

theorem unravel_solved_cancellingChain :
    chain.Into Canonical ∧ chain.Acyclic ∧
      chain.apply (chain.unravel (.sum [.var x, .app f [.var y]])) =
        chain.unravel (.sum [.var x, .app f [.var y]]) ∧
      chain.unravel (.sum [.var x, .app f [.var y]]) = zero ∧
      fan.Into Canonical ∧ fan.isIdempotent = true ∧
      fan.unravel (.app p [.var x, .var y]) =
        .app p [.app f [.var z], .sum [.var z, a]] := by
  have hchain : chain.Into Canonical := by decide
  have hacyclic : chain.Acyclic := ⟨fromEnd, by decide⟩
  have hfan : fan.Into Canonical := by decide
  have hidempotent : fan.isIdempotent = true := by decide
  refine ⟨hchain, hacyclic, ((unravel_solved hchain).1 hacyclic).2, ?_, hfan, hidempotent, ?_⟩
  · decide
  · rw [(unravel_solved hfan).2.1 hidempotent]
    decide

end Samples

end SymbolicXor.Substitution
