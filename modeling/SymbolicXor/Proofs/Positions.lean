import SymbolicXor.Proofs.SumVector
import SymbolicXor.Term.Position

/-!
# Subterms and their replacement

A path in a term goes down from argument to argument or from summand to summand. Walking down
succeeds exactly on the paths of a term, and so does replacing the subterm that a path leads to. A
replacement rebuilds every term above it. An application is rebuilt as it was; a sum is brought into
canonical form again, so its summands may change their places or cancel, and the path may lead
elsewhere afterwards. A replacement in a sum adds the old summand and the new one.
-/

namespace SymbolicXor.Term

variable {n s t u : Term} {i : Nat} {is js : List Nat} {p : Position} {P : Term → Prop}

/-- A path leads from a term to a subterm. Each of its places is that of an argument or of a
summand, counted from one. -/
inductive PathTo : Term → List Nat → Term → Prop where
  /-- The empty path leads to the term itself. -/
  | root (t : Term) : PathTo t [] t
  /-- A path goes to an argument or a summand and on from there. -/
  | step {t a s : Term} {i : Nat} {is : List Nat} (ha : t.args[i]? = some a) (h : PathTo a is s) :
    PathTo t ((i + 1) :: is) s

theorem descend_succ (t : Term) (i : Nat) (is : List Nat) :
    t.descend ((i + 1) :: is) = t.args[i]?.bind fun a => a.descend is := by
  rw [descend]

/-- Walking down finds the subterm that a path leads to. -/
theorem descend_eq_some : t.descend is = some s ↔ t.PathTo is s := by
  constructor
  · intro h
    induction is generalizing t with
    | nil =>
      cases h
      exact .root _
    | cons i is ih =>
      cases i with
      | zero => cases h
      | succ i =>
        obtain ⟨a, ha, h⟩ := Option.bind_eq_some_iff.1 h
        exact .step ha (ih h)
  · intro h
    induction h with
    | root => rfl
    | step ha _ ih => rw [descend_succ, ha, Option.bind_some, ih]

theorem descend_eq_none : t.descend is = none ↔ ¬ ∃ s, t.PathTo is s := by
  simp only [Option.eq_none_iff_forall_ne_some, ne_eq, descend_eq_some, not_exists]

theorem subtermAt_eq_ok : t.subtermAt p = .ok s ↔ t.PathTo p.indices s := by
  rw [← descend_eq_some]
  cases h : t.descend p.indices <;> simp [subtermAt, h]

theorem subtermAt_eq_error {e : PositionError} :
    t.subtermAt p = .error e ↔ t.descend p.indices = none ∧ e = .missing p t := by
  cases h : t.descend p.indices <;> simp [subtermAt, h, eq_comm]

theorem toOption_subtermAt (t : Term) (p : Position) :
    (t.subtermAt p).toOption = t.descend p.indices := by
  cases h : t.descend p.indices <;> simp [subtermAt, h, Except.toOption]

/-- A path leads to subterms only. -/
theorem PathTo.mem_subterms (h : t.PathTo is s) : s ∈ t.subterms := by
  induction h with
  | root t => exact mem_subterms_self t
  | step ha _ ih => exact mem_subterms_trans (mem_subterms_of_mem_args (List.mem_of_getElem? ha)) ih

/-- A property that holds everywhere in a term holds everywhere in the subterm at a position. -/
theorem everywhere_subtermAt (ht : t.Everywhere P) (h : t.subtermAt p = .ok s) : s.Everywhere P :=
  ht.subterm (subtermAt_eq_ok.1 h).mem_subterms

theorem graft_succ (n t : Term) (i : Nat) (is : List Nat) :
    graft n t ((i + 1) :: is) =
      t.args[i]?.bind fun a => (graft n a is).map fun b => t.withArgs (t.args.set i b) := by
  rw [graft]

/-- A replacement below the root is one in an argument or a summand. -/
theorem graft_succ_eq_some : graft n t ((i + 1) :: is) = some u ↔
    ∃ a b, t.args[i]? = some a ∧ graft n a is = some b ∧ u = t.withArgs (t.args.set i b) := by
  simp only [graft_succ, Option.bind_eq_some_iff, Option.map_eq_some_iff, eq_comm (a := u),
    exists_and_left]

/-- A replacement fails exactly where walking down fails. -/
theorem graft_eq_none : graft n t is = none ↔ t.descend is = none := by
  induction is generalizing t with
  | nil => simp [graft, descend]
  | cons i is ih =>
    cases i with
    | zero => simp [graft, descend]
    | succ i =>
      rw [graft_succ, descend_succ]
      cases t.args[i]? with
      | none => rfl
      | some a => rw [Option.bind_some, Option.bind_some, Option.map_eq_none_iff, ih]

theorem exists_graft (new : Term) (h : t.descend is = some s) : ∃ u, graft new t is = some u := by
  refine Option.ne_none_iff_exists'.1 fun hnone => ?_
  rw [graft_eq_none.1 hnone] at h
  cases h

theorem replaceAt_eq_ok : t.replaceAt p n = .ok u ↔ graft n t p.indices = some u := by
  cases h : graft n t p.indices <;> simp [replaceAt, h]

theorem replaceAt_eq_error {e : PositionError} :
    t.replaceAt p n = .error e ↔ graft n t p.indices = none ∧ e = .missing p t := by
  cases h : graft n t p.indices <;> simp [replaceAt, h, eq_comm]

theorem toOption_replaceAt (t n : Term) (p : Position) :
    (t.replaceAt p n).toOption = graft n t p.indices := by
  cases h : graft n t p.indices <;> simp [replaceAt, h, Except.toOption]

/-- A term can be put wherever there is a subterm. -/
theorem exists_replaceAt (new : Term) (h : t.subtermAt p = .ok s) :
    ∃ u, t.replaceAt p new = .ok u := by
  obtain ⟨u, hu⟩ := exists_graft new (descend_eq_some.2 (subtermAt_eq_ok.1 h))
  exact ⟨u, replaceAt_eq_ok.2 hu⟩

theorem canonical_withArgs {ts : List Term} (h : ∀ u ∈ ts, u.Canonical) :
    (t.withArgs ts).Canonical := by
  cases t with
  | var v => exact canonical_var v
  | const c => exact canonical_const c
  | app f _ => exact (canonical_app f ts).2 h
  | sum _ => exact canonical_xor h

/-- Putting a canonical term in the place of a subterm rebuilds the sums above it. -/
theorem canonical_graft (hn : n.Canonical) (ht : t.Canonical) (h : graft n t is = some u) :
    u.Canonical := by
  induction is generalizing t u with
  | nil =>
    simp only [graft, Option.some.injEq] at h
    exact h ▸ hn
  | cons i is ih =>
    cases i with
    | zero => simp [graft] at h
    | succ i =>
      obtain ⟨a, b, ha, hb, rfl⟩ := graft_succ_eq_some.1 h
      have hargs : ∀ u ∈ t.args, u.Canonical := Everywhere.args ht
      refine canonical_withArgs fun u hu => ?_
      rcases List.mem_or_eq_of_mem_set hu with hu | rfl
      · exact hargs u hu
      · exact ih (hargs a (List.mem_of_getElem? ha)) hb

theorem canonical_replaceAt (hn : n.Canonical) (ht : t.Canonical) (h : t.replaceAt p n = .ok u) :
    u.Canonical :=
  canonical_graft hn ht (replaceAt_eq_ok.1 h)

end SymbolicXor.Term
