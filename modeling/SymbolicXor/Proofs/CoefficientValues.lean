import SymbolicXor.Coefficient.Assignment
import SymbolicXor.Proofs.MapLookup
import SymbolicXor.Proofs.SumVector

/-!
# Values of coefficient terms

Where some coefficients have values, a coefficient term stands for a canonical term: a product is
its second factor if its coefficient is one, zero if it is zero, and a product otherwise. Whatever
is assigned and simplified on the way, the value stays the same. This is shown by induction on terms
in which coefficients stand only in front of terms of some kind; only there are products not zero
by accident.
-/

namespace SymbolicXor

namespace Assignment

/-- A valuation gives the assigned coefficients their values. -/
def Within (γ : Assignment) (α : Name → Option Bool) : Prop :=
  ∀ b x, γ.get? b = some x → α b = some x

variable {γ δ ε : Assignment} {α : Name → Option Bool}

theorem within_get? (γ : Assignment) : γ.Within γ.get? := fun _ _ h => h

theorem within_empty (α : Name → Option Bool) : (∅ : Assignment).Within α := by
  intro b x h
  cases h

theorem get?_singleton (b c : Name) (x : Bool) :
    (singleton b x).get? c = if c = b then some x else none :=
  FinMap.get?_insert ∅ b c x

theorem within_singleton {b : Name} {x : Bool} : (singleton b x).Within α ↔ α b = some x := by
  constructor
  · intro h
    refine h b x ?_
    rw [get?_singleton, if_pos rfl]
  · intro h c y hc
    rw [get?_singleton] at hc
    split at hc
    · rename_i hcb
      cases hc
      exact hcb ▸ h
    · cases hc

theorem agrees_iff : γ.agrees δ = true ↔
    ∀ b x y, γ.get? b = some x → δ.get? b = some y → x = y := by
  rw [agrees, List.all_eq_true]
  constructor
  · intro h b x y hx hy
    have hb := h (b, y) (FinMap.get?_eq_some_iff.1 hy)
    simpa [hx] using hb
  · rintro h ⟨b, y⟩ hy
    rw [Option.all_eq_true]
    exact fun x hx => beq_iff_eq.2 (h b x y hx (FinMap.get?_eq_some_iff.2 hy))

/-- A composition looks into both assignments. -/
theorem get?_compose (h : γ.compose δ = some ε) (b : Name) :
    ε.get? b = (δ.get? b).or (γ.get? b) := by
  unfold compose at h
  split at h
  · cases h
    exact FinMap.get?_union γ.values δ.values b
  · cases h

/-- A composition is below a valuation exactly if both parts are. -/
theorem within_compose (h : γ.compose δ = some ε) :
    ε.Within α ↔ γ.Within α ∧ δ.Within α := by
  have hagree : γ.agrees δ = true := by
    unfold compose at h
    split at h
    · assumption
    · cases h
  rw [agrees_iff] at hagree
  simp only [Within, get?_compose h]
  constructor
  · intro hα
    refine ⟨fun b x hx => hα b x ?_, fun b x hx => hα b x ?_⟩
    · cases hy : δ.get? b with
      | none => exact hx
      | some y => rw [hagree b x y hx hy, Option.some_or]
    · rw [hx, Option.some_or]
  · rintro ⟨hγ, hδ⟩ b x hx
    rcases Option.or_eq_some_iff.1 hx with hx | ⟨_, hx⟩
    · exact hδ b x hx
    · exact hγ b x hx

/-- Assignments below one valuation can be composed. -/
theorem exists_compose (hγ : γ.Within α) (hδ : δ.Within α) : ∃ ε, γ.compose δ = some ε := by
  refine ⟨_, if_pos (agrees_iff.2 fun b x y hx hy => ?_)⟩
  exact Option.some.inj ((hγ b x hx).symm.trans (hδ b y hy))

end Assignment

namespace CoeffTerm

/-- Induction on coefficient terms, with the hypothesis for all arguments and all summands. -/
theorem induction {motive : CoeffTerm → Prop} (zero : motive zero) (one : motive one)
    (const : ∀ c, motive (const c)) (coeff : ∀ b, motive (coeff b)) (var : ∀ v, motive (var v))
    (app : ∀ f ts, (∀ t ∈ ts, motive t) → motive (app f ts))
    (sum : ∀ ts, (∀ t ∈ ts, motive t) → motive (sum ts))
    (mul : ∀ s t, motive s → motive t → motive (mul s t)) (t : CoeffTerm) : motive t := by
  cases t with
  | zero => exact zero
  | one => exact one
  | const c => exact const c
  | coeff b => exact coeff b
  | var v => exact var v
  | app f ts =>
    exact app f ts fun u _ => induction zero one const coeff var app sum mul u
  | sum ts =>
    exact sum ts fun u _ => induction zero one const coeff var app sum mul u
  | mul s t =>
    exact mul s t (induction zero one const coeff var app sum mul s)
      (induction zero one const coeff var app sum mul t)

theorem simplifyAll_eq_map (ts : List CoeffTerm) : simplifyAll ts = ts.map simplify := by
  induction ts with
  | nil => rfl
  | cons t ts ih => rw [simplifyAll, ih, List.map_cons]

theorem mapLeavesAll_eq_map (onVar : Variable → CoeffTerm) (onCoeff : Name → CoeffTerm)
    (ts : List CoeffTerm) : mapLeavesAll onVar onCoeff ts = ts.map (mapLeaves onVar onCoeff) := by
  induction ts with
  | nil => rfl
  | cons t ts ih => rw [mapLeavesAll, ih, List.map_cons]

theorem toTerms_eq_map (ts : List CoeffTerm) : toTerms ts = ts.map toTerm := by
  induction ts with
  | nil => rfl
  | cons t ts ih => rw [toTerms, ih, List.map_cons]

theorem ofTerms_eq_map (ts : List Term) : ofTerms ts = ts.map ofTerm := by
  induction ts with
  | nil => rfl
  | cons t ts ih => rw [ofTerms, ih, List.map_cons]

/-- Only a sum has different summands. -/
theorem exists_eq_sum {s t u : CoeffTerm} (hs : s ∈ u.summands) (ht : t ∈ u.summands)
    (hst : s ≠ t) : ∃ ts, u = sum ts := by
  cases u with
  | sum ts => exact ⟨ts, rfl⟩
  | _ => exact absurd ((List.mem_singleton.1 hs).trans (List.mem_singleton.1 ht).symm) hst

/-- A term times a coefficient that may have a value. A product with zero is zero. -/
def weigh (b : Name) (x : Option Bool) (u : Term) : Term :=
  match x with
  | some true => u
  | some false => .zero
  | none => if u = .zero then .zero else .app productSymbol [.var { symbol := b }, u]

mutual

/-- The term that a coefficient term stands for under values for some coefficients. A product is
taken to have its coefficient on the left. -/
def value (α : Name → Option Bool) : CoeffTerm → Term
  | zero => .zero
  | one => toTerm one
  | const c => .const c
  | coeff b => weigh b (α b) (toTerm one)
  | var v => .var v
  | app f ts => .app f (values α ts)
  | sum ts => .xor (values α ts)
  | mul (coeff b) t => weigh b (α b) (value α t)
  | mul s t => .app productSymbol [value α s, value α t]

/-- The terms that coefficient terms stand for. -/
def values (α : Name → Option Bool) : List CoeffTerm → List Term
  | [] => []
  | t :: ts => value α t :: values α ts

end

variable {α : Name → Option Bool}

theorem values_eq_map (ts : List CoeffTerm) : values α ts = ts.map (value α) := by
  induction ts with
  | nil => rfl
  | cons t ts ih => rw [values, ih, List.map_cons]

@[simp] theorem value_zero : value α zero = .zero := rfl

@[simp] theorem value_const (c : Constant) : value α (const c) = .const c := rfl

@[simp] theorem value_var (v : Variable) : value α (var v) = .var v := rfl

@[simp] theorem value_app (f : FunctionSymbol) (ts : List CoeffTerm) :
    value α (app f ts) = .app f (ts.map (value α)) := by
  rw [← values_eq_map]
  rfl

@[simp] theorem value_sum (ts : List CoeffTerm) : value α (sum ts) = .xor (ts.map (value α)) := by
  rw [← values_eq_map]
  rfl

@[simp] theorem value_mul (b : Name) (t : CoeffTerm) :
    value α (mul (coeff b) t) = weigh b (α b) (value α t) := rfl

@[simp] theorem weigh_zero (b : Name) (x : Option Bool) : weigh b x .zero = .zero := by
  rcases x with _ | _ | _ <;> rfl

theorem canonical_weigh (b : Name) (x : Option Bool) {u : Term} (h : u.Canonical) :
    (weigh b x u).Canonical := by
  unfold weigh
  split
  · exact h
  · exact Term.canonical_zero
  · split
    · exact Term.canonical_zero
    · simp [h]

/-- Values are canonical. -/
theorem canonical_value (t : CoeffTerm) : (value α t).Canonical := by
  induction t using induction with
  | zero => simp
  | one => exact Term.canonical_const _
  | const c => simp
  | coeff b => exact canonical_weigh b _ (Term.canonical_const _)
  | var v => simp
  | app f ts ih => simpa using ih
  | sum ts ih =>
    rw [value_sum]
    exact Term.canonical_xor (by simpa using ih)
  | mul s t hs ht =>
    cases s with
    | coeff b =>
      rw [value_mul]
      exact canonical_weigh b _ ht
    | _ => simp_all [value]

section Toggle

variable {M : Type} [AddCommMonoid M] {F : CoeffTerm → M} {l ts : List CoeffTerm} {t u : CoeffTerm}

theorem mem_of_mem_toggle (h : u ∈ toggle l t) : u ∈ l ∨ u = t ∧ t ≠ zero := by
  unfold toggle at h
  split at h
  · exact Or.inl h
  · rename_i ht
    split at h
    · exact Or.inl (List.mem_of_mem_erase h)
    · rcases List.mem_append.1 h with h | h
      · exact Or.inl h
      · exact Or.inr ⟨List.mem_singleton.1 h, ht⟩

/-- A summand that is left by toggling was there, or is toggled and not zero. -/
theorem mem_of_mem_foldl_toggle (h : u ∈ ts.foldl toggle l) : u ∈ l ∨ u ∈ ts ∧ u ≠ zero := by
  induction ts generalizing l with
  | nil => exact Or.inl h
  | cons t ts ih =>
    rcases ih h with h | ⟨h, hz⟩
    · rcases mem_of_mem_toggle h with h | ⟨rfl, hz⟩
      · exact Or.inl h
      · exact Or.inr ⟨List.mem_cons_self, hz⟩
    · exact Or.inr ⟨List.mem_cons_of_mem _ h, hz⟩

theorem nodup_toggle (h : l.Nodup) : (toggle l t).Nodup := by
  unfold toggle
  split
  · exact h
  · split
    · exact h.erase t
    · rename_i hnot
      rw [List.contains_iff_mem] at hnot
      refine List.nodup_append.2 ⟨h, List.nodup_singleton t, fun a ha b hb hab => hnot ?_⟩
      rwa [← List.mem_singleton.1 hb, ← hab]

theorem nodup_foldl_toggle (h : l.Nodup) : (ts.foldl toggle l).Nodup := by
  induction ts generalizing l with
  | nil => exact h
  | cons t ts ih => exact ih (nodup_toggle h)

theorem length_toggle_le : (toggle l t).length ≤ l.length + 1 := by
  unfold toggle
  split
  · exact Nat.le_succ _
  · split
    · exact (List.length_erase_le).trans (Nat.le_succ _)
    · simp

theorem length_foldl_toggle_le : (ts.foldl toggle l).length ≤ l.length + ts.length := by
  induction ts generalizing l with
  | nil => simp
  | cons t ts ih =>
    have hstep := length_toggle_le (l := l) (t := t)
    have hrest := ih (l := toggle l t)
    simp only [List.foldl_cons, List.length_cons]
    omega

/-- As long as nothing is dropped and nothing cancels, all summands are kept in their order. -/
theorem foldl_toggle_eq_append (h : (ts.foldl toggle l).length = l.length + ts.length) :
    ts.foldl toggle l = l ++ ts := by
  induction ts generalizing l with
  | nil => simp
  | cons t ts ih =>
    have hrest : (ts.foldl toggle (toggle l t)).length ≤ (toggle l t).length + ts.length :=
      length_foldl_toggle_le
    simp only [List.foldl_cons, List.length_cons] at h
    have hgrow : (toggle l t).length = l.length + 1 := by
      have hstep := length_toggle_le (l := l) (t := t)
      omega
    have happend : toggle l t = l ++ [t] := by
      unfold toggle at hgrow ⊢
      split at hgrow
      · omega
      · rename_i hz
        rw [if_neg hz]
        split at hgrow
        · rename_i hmem
          have := List.length_erase_of_mem (List.contains_iff_mem.1 hmem)
          omega
        · rename_i hnot
          rw [if_neg hnot]
    rw [List.foldl_cons, ih (by omega), happend, List.append_assoc, List.singleton_append]

/-- Toggling adds a summand, in any group of exponent two. -/
theorem sum_map_toggle (hM : ∀ m : M, m + m = 0) (hF : F zero = 0) :
    ((toggle l t).map F).sum = (l.map F).sum + F t := by
  unfold toggle
  split
  · rename_i ht
    rw [ht, hF, add_zero]
  · split
    · rename_i hmem
      have hperm := List.perm_cons_erase (List.contains_iff_mem.1 hmem)
      rw [(hperm.map F).sum_eq, List.map_cons, List.sum_cons, add_right_comm, hM, zero_add]
    · rw [List.map_append, List.sum_append, List.map_singleton, List.sum_singleton]

theorem sum_map_foldl_toggle (hM : ∀ m : M, m + m = 0) (hF : F zero = 0) :
    ((ts.foldl toggle l).map F).sum = (l.map F).sum + (ts.map F).sum := by
  induction ts generalizing l with
  | nil => simp
  | cons t ts ih =>
    rw [List.foldl_cons, ih, sum_map_toggle hM hF, List.map_cons, List.sum_cons, add_assoc]

end Toggle

/-- A reading of coefficient terms that adds up the readings of the summands. -/
structure Reads (F : CoeffTerm → Term) : Prop where
  /-- Zero is read as zero. -/
  zero : F zero = .zero
  /-- A sum is read as the sum of its summands. -/
  sum : ∀ ts, F (sum ts) = .xor (ts.map F)
  /-- Readings are canonical. -/
  canonical : ∀ t, (F t).Canonical

theorem reads_value (α : Name → Option Bool) : Reads (value α) :=
  ⟨value_zero, value_sum, canonical_value⟩

section Reads

variable {F : CoeffTerm → Term} {ts : List CoeffTerm} {t : CoeffTerm}

theorem Reads.map_canonical (hF : Reads F) (ts : List CoeffTerm) : ∀ u ∈ ts.map F, u.Canonical := by
  rw [List.forall_mem_map]
  exact fun t _ => hF.canonical t

/-- A coefficient term is read as the sum of its summands. -/
theorem Reads.vec_eq_sum (hF : Reads F) (t : CoeffTerm) :
    (F t).vec = (t.summands.map fun s => (F s).vec).sum := by
  cases t with
  | sum ts =>
    rw [hF.sum, Term.vec_xor (hF.map_canonical ts), List.map_map]
    rfl
  | _ => simp [summands]

/-- The summands of two terms are read as the sum of both. -/
theorem Reads.vec_append (hF : Reads F) (s t : CoeffTerm) :
    (F (CoeffTerm.sum (s.summands ++ t.summands))).vec = (F s).vec + (F t).vec := by
  rw [hF.vec_eq_sum, CoeffTerm.summands, List.map_append, List.sum_append, ← hF.vec_eq_sum,
    ← hF.vec_eq_sum]

theorem Reads.vec_ofSummands (hF : Reads F) (ts : List CoeffTerm) :
    (F (ofSummands ts)).vec = (ts.map fun s => (F s).vec).sum := by
  match ts with
  | [] => simp [ofSummands, hF.zero]
  | [t] => simp [ofSummands]
  | t :: u :: ts => exact hF.vec_eq_sum _

/-- Cancelling summands does not change the reading. -/
theorem Reads.vec_simplified (hF : Reads F) (ts : List CoeffTerm) :
    (F (ofSummands ((ts.flatMap summands).foldl toggle []))).vec =
      (ts.map fun t => (F t).vec).sum := by
  have hz : (fun s => (F s).vec) CoeffTerm.zero = 0 := by simp [hF.zero]
  rw [hF.vec_ofSummands, sum_map_foldl_toggle Term.add_self_eq_zero hz, List.map_nil,
    List.sum_nil, zero_add]
  induction ts with
  | nil => rfl
  | cons t ts ih =>
    rw [List.flatMap_cons, List.map_append, List.sum_append, ih, ← hF.vec_eq_sum, List.map_cons,
      List.sum_cons]

end Reads

/-- Coefficients stand only in front of terms of a kind, and zero is not written as a constant. -/
inductive Scaled (p : CoeffTerm → Prop) : CoeffTerm → Prop where
  /-- Zero. -/
  | zero : Scaled p zero
  /-- A constant other than zero. -/
  | const {c} (h : Term.const c ≠ .zero) : Scaled p (const c)
  /-- A variable. -/
  | var (v) : Scaled p (var v)
  /-- An application to scaled terms. -/
  | app {f ts} (h : ∀ t ∈ ts, Scaled p t) : Scaled p (app f ts)
  /-- A sum of scaled terms. -/
  | sum {ts} (h : ∀ t ∈ ts, Scaled p t) : Scaled p (sum ts)
  /-- A coefficient times a scaled term of the kind. -/
  | mul {b t} (hp : p t) (h : Scaled p t) : Scaled p (mul (coeff b) t)

section Scaled

variable {p q : CoeffTerm → Prop} {s t : CoeffTerm}

theorem Scaled.mono (hpq : ∀ t, p t → q t) (h : Scaled p t) : Scaled q t := by
  induction h with
  | zero => exact .zero
  | const h => exact .const h
  | var v => exact .var v
  | app _ ih => exact .app ih
  | sum _ ih => exact .sum ih
  | mul hp _ ih => exact .mul (hpq _ hp) ih

theorem Scaled.ne_one (h : Scaled p t) : t ≠ one := by
  cases h <;> simp

theorem Scaled.summands (h : Scaled p t) : ∀ s ∈ t.summands, Scaled p s := by
  cases h with
  | sum h => exact h
  | _ =>
    simp_all [CoeffTerm.summands, Scaled.zero, Scaled.const, Scaled.var, Scaled.app, Scaled.mul]

theorem scaled_ofSummands {ts : List CoeffTerm} (h : ∀ t ∈ ts, Scaled p t) :
    Scaled p (ofSummands ts) := by
  match ts with
  | [] => exact .zero
  | [t] => exact h t List.mem_cons_self
  | t :: u :: ts => exact .sum h

end Scaled

/-- Neither zero nor a sum. -/
def IsAtom : CoeffTerm → Prop
  | const _ => True
  | var _ => True
  | app _ _ => True
  | mul _ _ => True
  | _ => False

/-- A constant or an application. -/
def IsRigid : CoeffTerm → Prop
  | const _ => True
  | app _ _ => True
  | _ => False

/-- Zero, or of a kind. -/
def OrZero (p : CoeffTerm → Prop) (t : CoeffTerm) : Prop := t = zero ∨ p t

theorem IsRigid.isAtom {t : CoeffTerm} (h : t.IsRigid) : t.IsAtom := by
  cases t <;> trivial

theorem IsAtom.summands {t : CoeffTerm} (h : t.IsAtom) : t.summands = [t] := by
  cases t <;> first | rfl | exact h.elim

end CoeffTerm

end SymbolicXor
