import SymbolicXor.Proofs.WellSorted
import SymbolicXor.Unification.Syntactic
import Mathlib.Tactic.TFAE

/-!
# The forest of sorts

A sort conforms to those whose chain of names ends its own. So conforming is a partial order, and
what is above a sort is a chain. The same is true of sorts that are stored with all sorts above them
and compared with these: such sorts are made one below another, and the ones that can be made are
the records of sorts. Two sorted variables therefore have a well-sorted common instance exactly if
their sorts are comparable, and only then is one of them bound to the other.
-/

namespace SymbolicXor

/-- A partial order in which any two elements above one are comparable. -/
structure IsForestOrder {α : Type} (le : α → α → Prop) : Prop where
  /-- Every element is below itself. -/
  refl (a : α) : le a a
  /-- The order is transitive. -/
  trans {a b c : α} : le a b → le b c → le a c
  /-- Different elements are not below each other. -/
  antisymm {a b : α} : le a b → le b a → a = b
  /-- The elements above an element form a chain. -/
  chain {a b c : α} : le a b → le a c → le b c ∨ le c b

/-- Elements that stand for those of a forest are ordered as a forest. -/
theorem IsForestOrder.of_surjective {α β : Type} {le : α → α → Prop} {le' : β → β → Prop}
    (h : IsForestOrder le) (f : α → β) (hf : Function.Surjective f)
    (hle : ∀ a b, le' (f a) (f b) ↔ le a b) : IsForestOrder le' where
  refl := hf.forall.2 fun a => (hle a a).2 (h.refl a)
  trans {a b c} hab hbc := by
    obtain ⟨a, rfl⟩ := hf a
    obtain ⟨b, rfl⟩ := hf b
    obtain ⟨c, rfl⟩ := hf c
    exact (hle a c).2 (h.trans ((hle a b).1 hab) ((hle b c).1 hbc))
  antisymm {a b} hab hba := by
    obtain ⟨a, rfl⟩ := hf a
    obtain ⟨b, rfl⟩ := hf b
    exact congrArg f (h.antisymm ((hle a b).1 hab) ((hle b a).1 hba))
  chain {a b c} hab hac := by
    obtain ⟨a, rfl⟩ := hf a
    obtain ⟨b, rfl⟩ := hf b
    obtain ⟨c, rfl⟩ := hf c
    rw [hle, hle]
    exact h.chain ((hle a b).1 hab) ((hle a c).1 hac)

namespace TermSort

/-- A sort conforms to those whose chain of names ends its own. -/
theorem conformsTo_iff_suffix {s t : TermSort} :
    s.conformsTo t = true ↔ t.chain <:+ s.chain := by
  induction s with
  | root n =>
    rw [conformsTo_root, chain, List.suffix_cons_iff, List.suffix_nil]
    exact ⟨fun h => h ▸ .inl rfl,
      fun h => (chain_inj.1 (h.resolve_right (chain_ne_nil t))).symm⟩
  | sub n p ih =>
    rw [conformsTo_sub, chain, List.suffix_cons_iff, ih, eq_comm, ← chain_inj, chain]

theorem isForestOrder_conformsTo : IsForestOrder fun s t : TermSort => s.conformsTo t = true where
  refl := conformsTo_self
  trans := conformsTo_trans
  antisymm {s t} hst hts := by
    rw [conformsTo_iff_suffix] at hst hts
    exact chain_inj.1 (hts.eq_of_length_le hst.length_le)
  chain := conformsTo_or_conformsTo

end TermSort

/-- A sort that is stored with all sorts above it, nearest first. -/
inductive SortRecord where
  | mk (name : Name) (above : List SortRecord)

namespace SortRecord

/-- The sorts that are stored above a sort. -/
def above : SortRecord → List SortRecord
  | mk _ rs => rs

/-- Make a sort without a parent. -/
def root (n : Name) : SortRecord := mk n []

/-- Make a sort below a parent. What is above the parent is copied. -/
def sub (n : Name) (parent : SortRecord) : SortRecord := mk n (parent :: parent.above)

/-- Whether a stored sort is another one, or has it among those above it. Stored sorts are compared
with all that is stored in them. -/
def ConformsTo (r q : SortRecord) : Prop := r = q ∨ q ∈ r.above

/-- The stored sorts that can be made, one after the other. -/
inductive Made : SortRecord → Prop where
  | root (n : Name) : Made (root n)
  | sub (n : Name) {parent : SortRecord} (h : Made parent) : Made (sub n parent)

end SortRecord

namespace TermSort

open SortRecord (Made)

/-- The record of a sort. -/
def record : TermSort → SortRecord
  | root n => .root n
  | sub n p => .sub n p.record

theorem above_record (s : TermSort) : s.record.above = s.ancestors.map record := by
  induction s with
  | root n => rfl
  | sub n p ih => rw [record, ancestors, List.map_cons, ← ih]; rfl

theorem record_injective : Function.Injective record := by
  intro s t h
  induction s generalizing t with
  | root m =>
    cases t with
    | root n => cases h; rfl
    | sub n q => cases h
  | sub m p ih =>
    cases t with
    | root n => cases h
    | sub n q =>
      obtain ⟨hname, habove⟩ := SortRecord.mk.inj h
      rw [hname, ih (List.cons.inj habove).1]

/-- The records that can be made are those of the sorts. -/
theorem made_iff {r : SortRecord} : Made r ↔ ∃ s : TermSort, s.record = r := by
  constructor
  · intro h
    induction h with
    | root n => exact ⟨root n, rfl⟩
    | sub n _ ih =>
      obtain ⟨p, rfl⟩ := ih
      exact ⟨sub n p, rfl⟩
  · rintro ⟨s, rfl⟩
    induction s with
    | root n => exact .root n
    | sub n p ih => exact .sub n ih

/-- Stored sorts conform to each other as the sorts do. -/
theorem conformsTo_record {s t : TermSort} :
    s.record.ConformsTo t.record ↔ s.conformsTo t = true := by
  rw [SortRecord.ConformsTo, above_record, List.mem_map_of_injective record_injective,
    record_injective.eq_iff, conformsTo_iff]

theorem isForestOrder_made :
    IsForestOrder fun r q : { r : SortRecord // Made r } => r.1.ConformsTo q.1 :=
  isForestOrder_conformsTo.of_surjective (fun s => ⟨s.record, made_iff.2 ⟨s, rfl⟩⟩)
    (fun ⟨_, h⟩ => (made_iff.1 h).imp fun _ => Subtype.ext) fun _ _ => conformsTo_record

end TermSort

namespace Variable

open Substitution

variable {v w : Variable} {s t : TermSort}

/-- A sorted variable accepts the variables whose sort conforms to its own. -/
theorem accepts_var (hv : v.sort = some s) (hw : w.sort = some t) :
    v.accepts (.var w) = true ↔ t.conformsTo s = true := by
  simp [accepts, TermSort.admits, Term.sort, hv, hw]

/-- A variable can be bound to another one or the other way round. -/
theorem exists_binding : (∃ b, Unification.binding v (.var w) = .ok b) ↔
    v.accepts (.var w) = true ∨ w.accepts (.var v) = true := by
  rw [Unification.binding, Term.asVar?]
  by_cases hv : v.accepts (.var w) = true
  · simp [hv]
  · by_cases hw : w.accepts (.var v) = true <;> simp [hv, hw]

/-- A variable that accepts another one has a common instance with it. -/
theorem exists_unifies (h : v.accepts (.var w) = true) :
    ∃ σ : Substitution, σ.WellSorted ∧ σ.apply (.var v) = σ.apply (.var w) := by
  refine ⟨single v (.var w), wellSorted_single h, ?_⟩
  rw [apply_var, apply_var, lookup_single, lookup_single, if_pos rfl]
  split <;> rfl

/-- Two sorted variables with comparable sorts are bound to each other, and only these have a common
instance. -/
theorem commonInstance_tfae (hv : v.sort = some s) (hw : w.sort = some t) : List.TFAE
    [s.conformsTo t = true ∨ t.conformsTo s = true,
      ∃ b, Unification.binding v (.var w) = .ok b,
      ∃ σ : Substitution, σ.WellSorted ∧ σ.apply (.var v) = σ.apply (.var w),
      ∃ u, v.accepts u = true ∧ w.accepts u = true] := by
  tfae_have 1 ↔ 2 := by rw [exists_binding, accepts_var hv hw, accepts_var hw hv, or_comm]
  tfae_have 2 → 3 := by
    intro h
    rcases exists_binding.1 h with h | h
    · exact exists_unifies h
    · obtain ⟨σ, hσ, heq⟩ := exists_unifies h
      exact ⟨σ, hσ, heq.symm⟩
  tfae_have 3 → 4 := by
    rintro ⟨σ, hσ, heq⟩
    rw [apply_var, apply_var] at heq
    exact ⟨σ.lookup v, hσ.lookup v, heq ▸ hσ.lookup w⟩
  tfae_have 4 → 2 := by
    rintro ⟨u, hvu, hwu⟩
    exact exists_binding.2 (accepts_or_accepts hvu hwu)
  tfae_finish

end Variable

/-- Sorts are a forest. Conforming is a partial order in which the sorts above a sort form a chain.
The stored sorts that can be made, one below another, are the records of sorts, which are equal and
conform to each other as the sorts do. Two sorted variables can be bound to each other, have a
well-sorted common instance and accept a common term exactly if the sort of one conforms to that of
the other. -/
theorem TermSort.conformsTo_forest :
    IsForestOrder (fun r q : { r : SortRecord // r.Made } => r.1.ConformsTo q.1) ∧
      (∀ r : SortRecord, r.Made ↔ ∃ s : TermSort, s.record = r) ∧
      (∀ s t : TermSort, s.record = t.record ↔ s = t) ∧
      (∀ s t : TermSort, s.record.ConformsTo t.record ↔ s.conformsTo t = true) ∧
      IsForestOrder (fun s t : TermSort => s.conformsTo t = true) ∧
      ∀ (m n : Name) (s t : TermSort), List.TFAE
        [s.conformsTo t = true ∨ t.conformsTo s = true,
          ∃ b, Unification.binding ⟨m, some s⟩ (.var ⟨n, some t⟩) = .ok b,
          ∃ σ : Substitution,
            σ.WellSorted ∧ σ.apply (.var ⟨m, some s⟩) = σ.apply (.var ⟨n, some t⟩),
          ∃ u, (⟨m, some s⟩ : Variable).accepts u = true ∧
            (⟨n, some t⟩ : Variable).accepts u = true] :=
  ⟨isForestOrder_made, fun _ => made_iff, fun _ _ => record_injective.eq_iff,
    fun _ _ => conformsTo_record, isForestOrder_conformsTo,
    fun _ _ _ _ => Variable.commonInstance_tfae rfl rfl⟩

end SymbolicXor
