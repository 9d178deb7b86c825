import SymbolicXor.Proofs.FrozenTerms
import SymbolicXor.Proofs.KeptProperties
import SymbolicXor.Proofs.Positions
import SymbolicXor.Proofs.SoundCollisions
import SymbolicXor.Rule.Basic
import SymbolicXor.Term.Application

/-!
# Terms stay canonical

Equality of terms is equality of their sums as they are written, so every operation that builds a
term has to bring its sums into canonical form again. Each operation is treated by itself, and the
terms that any sequence of operations builds from canonical ones are canonical by induction on the
sequence.

Some operations do more than keep canonical form: what replaces leaves, purifies equations or reads
a term off a coefficient term rebuilds every sum on its way, and gives canonical terms whatever it
is given.
-/

namespace SymbolicXor

open Term Substitution

theorem Term.canonical_freeze (t : Term) : t.freeze.Canonical :=
  canonical_mapLeaves ⟨fun _ => canonical_const _, canonical_const⟩ t

/-- Applying a symbol, that of exclusive or included, gives canonical terms. -/
theorem FunctionSymbol.canonical_of_apply {f : FunctionSymbol} {ts : List Term} {t : Term}
    (hts : ∀ u ∈ ts, u.Canonical) (h : f.apply ts = .ok t) : t.Canonical := by
  unfold FunctionSymbol.apply at h
  split at h
  · cases h
    exact canonical_xor hts
  · split at h
    · split at h
      · cases h
      · split at h <;> cases h
        · exact canonical_const _
        · exact (canonical_app f ts).2 hts
    · cases h

namespace Substitution

variable {σ : Substitution}

theorem canonical_applyUpTo (hσ : σ.Into Canonical) (n : Nat) {t : Term} (ht : t.Canonical) :
    (σ.applyUpTo n t).Canonical := by
  induction n generalizing t with
  | zero => exact ht
  | succ n ih =>
    rw [applyUpTo]
    split
    · exact ht
    · exact ih (canonical_apply hσ t)

theorem canonical_unravel (hσ : σ.Into Canonical) {t : Term} (ht : t.Canonical) :
    (σ.unravel t).Canonical :=
  canonical_applyUpTo hσ _ ht

end Substitution

/-- The term read off a coefficient term is canonical, be the coefficient term simplified or not. -/
theorem CoeffTerm.canonical_toTerm (t : CoeffTerm) : t.toTerm.Canonical := by
  induction t using CoeffTerm.induction with
  | zero => exact canonical_zero
  | one => exact canonical_const _
  | const c => exact canonical_const c
  | coeff b => exact canonical_var _
  | var v => exact canonical_var v
  | app f ts ih =>
    rw [toTerm, toTerms_eq_map, canonical_app, List.forall_mem_map]
    exact ih
  | sum ts ih =>
    rw [toTerm, toTerms_eq_map]
    refine canonical_xor ?_
    rw [List.forall_mem_map]
    exact ih
  | mul s t hs ht =>
    rw [toTerm, canonical_app]
    exact canonical_pair hs ht

namespace Rule

variable {r : Rule} {s t u new : Term} {p : Position}

/-- A rule applies to a term at the root as follows: the rule is renamed apart, the term is frozen,
and a substitution that matches the two gives the instance of the conclusion, which is thawed. -/
theorem applyAtRoot_eq_ok_some : r.applyAtRoot s = .ok (some new) ↔
    ∃ r' frozen σ, r.renamedApart s = .ok r' ∧
      s.freezeApart (s.constants.map Constant.symbol ++ r'.constantNames) = .ok frozen ∧
      matching? r'.hypothesis frozen.term = some σ ∧
      new = (σ.apply r'.conclusion).thaw frozen.thawing := by
  cases hr : r.renamedApart s with
  | error e => simp [applyAtRoot, hr, Bind.bind, Except.bind]
  | ok r' =>
    cases hf : s.freezeApart (s.constants.map Constant.symbol ++ r'.constantNames) with
    | error e => simp [applyAtRoot, hr, hf, Bind.bind, Except.bind]
    | ok frozen => simp [applyAtRoot, hr, hf, Bind.bind, Except.bind, pure, Except.pure, eq_comm]

/-- A rule is applied to the subterm at a position, and its result takes the place of the
subterm. -/
theorem applyAt_eq_ok_some : r.applyAt t p = .ok (some u) ↔
    ∃ s new, t.subtermAt p = .ok s ∧ r.applyAtRoot s = .ok (some new) ∧
      t.replaceAt p new = .ok u := by
  cases hs : t.subtermAt p with
  | error e => simp [applyAt, hs, Bind.bind, Except.bind, Except.mapError]
  | ok s =>
    cases hr : r.applyAtRoot s with
    | error e => simp [applyAt, hs, hr, Bind.bind, Except.bind, Except.mapError]
    | ok new? =>
      cases new? with
      | none => simp [applyAt, hs, hr, Bind.bind, Except.bind, Except.mapError, pure, Except.pure]
      | some new =>
        cases hu : t.replaceAt p new with
        | error e =>
          simp [applyAt, hs, hr, hu, Bind.bind, Except.bind, Except.mapError]
        | ok u' =>
          simp [applyAt, hs, hr, hu, Bind.bind, Except.bind, Except.mapError, pure, Except.pure]

/-- A rule with any two sides leaves a canonical term canonical. -/
theorem canonical_of_applyAt (ht : t.Canonical) (h : r.applyAt t p = .ok (some u)) :
    u.Canonical := by
  obtain ⟨s, new, _, hnew, hu⟩ := applyAt_eq_ok_some.1 h
  obtain ⟨_, frozen, _, _, _, _, rfl⟩ := applyAtRoot_eq_ok_some.1 hnew
  exact canonical_replaceAt (canonical_thaw _ _) ht hu

end Rule

namespace Purifier

variable {p : Purifier}

/-- The sums that were named are canonical. -/
def NamesCanonical (p : Purifier) : Prop := ∀ n ∈ p.named, n.2.Canonical

/-- A purifier goes through a term and gives canonical terms. -/
def MakesCanonical (t : Term) : Prop :=
  ∀ p : Purifier, p.NamesCanonical → (p.term t).1.NamesCanonical ∧ (p.term t).2.Canonical

theorem canonical_name (hp : p.NamesCanonical) {t : Term} (ht : t.Canonical) :
    (p.name t).1.NamesCanonical ∧ (p.name t).2.Canonical := by
  unfold name
  split
  · split
    · exact ⟨hp, canonical_var _⟩
    · exact ⟨List.forall_mem_append.2 ⟨hp, List.forall_mem_singleton.2 ht⟩, canonical_var _⟩
  · exact ⟨hp, ht⟩

theorem canonical_arguments {ts : List Term} (ih : ∀ t ∈ ts, MakesCanonical t)
    (hp : p.NamesCanonical) :
    (p.arguments ts).1.NamesCanonical ∧ ∀ u ∈ (p.arguments ts).2, u.Canonical := by
  induction ts generalizing p with
  | nil => exact ⟨hp, fun _ hu => absurd hu List.not_mem_nil⟩
  | cons t ts ihs =>
    obtain ⟨hq, hu⟩ := ih t List.mem_cons_self p hp
    have hrest {q : Purifier} (hq : q.NamesCanonical) :=
      ihs (fun s hs => ih s (List.mem_cons_of_mem _ hs)) hq
    simp only [arguments]
    split
    · obtain ⟨hn, hv⟩ := canonical_name hq hu
      exact ⟨(hrest hn).1, List.forall_mem_cons.2 ⟨hv, (hrest hn).2⟩⟩
    · exact ⟨(hrest hq).1, List.forall_mem_cons.2 ⟨hu, (hrest hq).2⟩⟩

theorem canonical_summands {ts : List Term} (ih : ∀ t ∈ ts, MakesCanonical t)
    (hp : p.NamesCanonical) :
    (p.summands ts).1.NamesCanonical ∧ ∀ u ∈ (p.summands ts).2, u.Canonical := by
  induction ts generalizing p with
  | nil => exact ⟨hp, fun _ hu => absurd hu List.not_mem_nil⟩
  | cons t ts ihs =>
    obtain ⟨hq, hu⟩ := ih t List.mem_cons_self p hp
    have hrest := ihs (fun s hs => ih s (List.mem_cons_of_mem _ hs)) hq
    exact ⟨hrest.1, List.forall_mem_cons.2 ⟨hu, hrest.2⟩⟩

/-- Purification rebuilds every sum, so its terms are canonical from any terms. -/
theorem makesCanonical (t : Term) : MakesCanonical t := by
  intro p hp
  induction t using Term.induction generalizing p with
  | var v => exact ⟨hp, canonical_var v⟩
  | const c => exact ⟨hp, canonical_const c⟩
  | app f ts ih =>
    obtain ⟨hq, hus⟩ := canonical_arguments ih hp
    exact ⟨hq, (canonical_app f _).2 hus⟩
  | sum ts ih =>
    obtain ⟨hq, hus⟩ := canonical_summands ih hp
    exact ⟨hq, canonical_xor hus⟩

theorem canonical_equations (hp : p.NamesCanonical) (es : List Equation) :
    (p.equations es).1.NamesCanonical ∧ ∀ e ∈ (p.equations es).2, e.Both Canonical := by
  induction es generalizing p with
  | nil => exact ⟨hp, fun _ he => absurd he List.not_mem_nil⟩
  | cons e es ih =>
    obtain ⟨hl, hleft⟩ := makesCanonical e.left p hp
    obtain ⟨hr, hright⟩ := makesCanonical e.right _ hl
    exact ⟨(ih hr).1, List.forall_mem_cons.2 ⟨⟨hleft, hright⟩, (ih hr).2⟩⟩

theorem canonical_purify (es : List Equation) (fresh : FreshNames) :
    ∀ e ∈ (purify es fresh).1, e.Both Canonical := by
  have hstart : NamesCanonical { fresh } := fun _ hn => absurd hn List.not_mem_nil
  obtain ⟨hp, hes⟩ := canonical_equations hstart es
  refine List.forall_mem_append.2 ⟨hes, ?_⟩
  rw [definitions, List.forall_mem_map]
  exact fun n hn => ⟨canonical_var n.1, hp n hn⟩

end Purifier

/-- Searches keep canonical form. -/
theorem Term.invariant_canonical : Invariant Canonical where
  subterm ht hs := Everywhere.subterm ht hs
  xor := canonical_xor
  var := canonical_var
  apply _ hθ _ := canonical_apply hθ _
  purify fresh _ := Purifier.canonical_purify _ fresh

/-- A collision binds variables to terms that are read off coefficient terms. -/
theorem canonical_of_mem_collisions {outputs : List Term} {constraints : Constraints}
    {maxSteps : Nat} {σ : Substitution}
    (h : σ ∈ (collisions outputs constraints maxSteps).solutions) : σ.Into Canonical := by
  rw [Collision.solutions_collisions] at h
  obtain ⟨a, _, _, hσ⟩ := Collision.exists_of_mem_solutions h
  refine foldlM_add_induction (fun hb hσ => ?_) (into_empty _) (Collision.instantiate_eq_some.1 hσ)
  obtain ⟨e, _, rfl⟩ := List.mem_map.1 hb
  exact into_add hσ (CoeffTerm.canonical_toTerm _)

/-- The terms that sequences of operations build from canonical terms. -/
inductive Term.Produced : Term → Prop
  /-- A canonical term is given. -/
  | given {t : Term} (ht : t.Canonical) : Produced t
  /-- A symbol is applied to arguments. -/
  | application {f : FunctionSymbol} {ts : List Term} {t : Term} (hts : ∀ u ∈ ts, Produced u)
      (h : f.apply ts = .ok t) : Produced t
  /-- Terms are added up. -/
  | addition {ts : List Term} (hts : ∀ u ∈ ts, Produced u) : Produced (xor ts)
  /-- A substitution is applied. -/
  | substitution {σ : Substitution} {t : Term} (hσ : ∀ u ∈ σ.range, Produced u)
      (ht : Produced t) : Produced (σ.apply t)
  /-- A term is bound in a composition. -/
  | composition {σ θ : Substitution} {t : Term} (hσ : ∀ u ∈ σ.range, Produced u)
      (hθ : ∀ u ∈ θ.range, Produced u) (h : t ∈ (σ.compose θ).range) : Produced t
  /-- A substitution is unravelled. -/
  | unravelling {σ : Substitution} {t : Term} (hσ : ∀ u ∈ σ.range, Produced u)
      (ht : Produced t) : Produced (σ.unravel t)
  /-- A term is frozen. -/
  | freezing {t : Term} (ht : Produced t) : Produced t.freeze
  /-- A subterm is replaced. -/
  | replacement {t new u : Term} {p : Position} (ht : Produced t) (hnew : Produced new)
      (h : t.replaceAt p new = .ok u) : Produced u
  /-- A rule is applied at a position. -/
  | rewriting {r : Rule} {t u : Term} {p : Position} (hyp : Produced r.hypothesis)
      (hcon : Produced r.conclusion) (ht : Produced t) (h : r.applyAt t p = .ok (some u)) :
      Produced u
  /-- A term stands on a side of a purified equation. -/
  | purification {es : List Equation} {fresh : FreshNames} {e : Equation} {t : Term}
      (hl : ∀ e ∈ es, Produced e.left) (hr : ∀ e ∈ es, Produced e.right)
      (he : e ∈ (purify es fresh).1) (ht : t = e.left ∨ t = e.right) : Produced t
  /-- A term is bound by syntactic unification. -/
  | unification {es : List Equation} {σ : Substitution} {t : Term}
      (hl : ∀ e ∈ es, Produced e.left) (hr : ∀ e ∈ es, Produced e.right)
      (h : Unification.unify es = .ok σ) (ht : t ∈ σ.range) : Produced t
  /-- A term is bound by a unifier modulo exclusive or. -/
  | unificationModulo {es : List Equation} {maxSteps : Nat} {σ : Substitution} {t : Term}
      (hl : ∀ e ∈ es, Produced e.left) (hr : ∀ e ∈ es, Produced e.right)
      (h : σ ∈ (xorUnify es maxSteps).solutions) (ht : t ∈ σ.range) : Produced t
  /-- A term is bound by an adversary. -/
  | attack {a : Adversary} {es : List Equation} {constraints : Constraints} {maxSteps : Nat}
      {σ : Substitution} {t : Term} (hl : ∀ e ∈ es, Produced e.left)
      (hr : ∀ e ∈ es, Produced e.right)
      (hC : ∀ v ts, constraints.get? v = some ts → ∀ u ∈ ts, Produced u)
      (h : σ ∈ (a.unify es constraints maxSteps).solutions) (ht : t ∈ σ.range) : Produced t
  /-- A term is bound by a collision. -/
  | collision {outputs : List Term} {constraints : Constraints} {maxSteps : Nat}
      {σ : Substitution} {t : Term} (hout : ∀ u ∈ outputs, Produced u)
      (hC : ∀ v ts, constraints.get? v = some ts → ∀ u ∈ ts, Produced u)
      (h : σ ∈ (collisions outputs constraints maxSteps).solutions) (ht : t ∈ σ.range) :
      Produced t
  /-- A term is read off a coefficient term. -/
  | coefficients (t : CoeffTerm) : Produced t.toTerm

/-- Every term that is built from canonical terms is canonical. -/
theorem Term.canonical_of_produced {t : Term} (h : t.Produced) : t.Canonical := by
  induction h with
  | given ht => exact ht
  | application _ h ih => exact FunctionSymbol.canonical_of_apply ih h
  | addition _ ih => exact canonical_xor ih
  | substitution _ _ ihσ _ => exact canonical_apply ihσ _
  | composition _ _ h _ ihθ => exact canonical_compose ihθ _ h
  | unravelling _ _ ihσ iht => exact canonical_unravel ihσ iht
  | freezing _ _ => exact canonical_freeze _
  | replacement _ _ h iht ihnew => exact canonical_replaceAt ihnew iht h
  | rewriting _ _ _ h _ _ iht => exact Rule.canonical_of_applyAt iht h
  | purification _ _ he ht _ _ =>
    have hboth := Purifier.canonical_purify _ _ _ he
    rcases ht with rfl | rfl
    · exact hboth.1
    · exact hboth.2
  | unification _ _ h ht ihl ihr =>
    exact (invariant_canonical.unify (fun e he => ⟨ihl e he, ihr e he⟩) h).2 _ ht
  | unificationModulo _ _ h ht ihl ihr =>
    exact (invariant_canonical.xorUnifyWith (fun e he => ⟨ihl e he, ihr e he⟩) h).2 _ ht
  | attack _ _ _ h ht ihl ihr ihC =>
    exact (invariant_canonical.adversaryUnify (fun e he => ⟨ihl e he, ihr e he⟩) ihC h).2 _ ht
  | collision _ _ h ht _ _ => exact canonical_of_mem_collisions h _ ht
  | coefficients t => exact CoeffTerm.canonical_toTerm t

open Sample

/-- A sum below a function symbol. -/
def sumBelow : Term := .app f [.sum [.var x, a]]

/-- A binding under which one summand of the sum is cancelled by a part of another. -/
def cancelling : Substitution := single x (.sum [a, b])

theorem Term.canonical_of_produced_sumBelow :
    (cancelling.apply sumBelow).Produced ∧ cancelling.apply sumBelow = .app f [b] ∧
      (cancelling.apply sumBelow).Canonical := by
  have hgiven : sumBelow.Produced := .given (by decide)
  have hbound : ∀ u ∈ cancelling.range, u.Produced := by
    intro u hu
    rw [mem_range_single.1 hu]
    exact .given (by decide)
  have hbuilt := Produced.substitution hbound hgiven
  exact ⟨hbuilt, by decide, canonical_of_produced hbuilt⟩

end SymbolicXor
