import SymbolicXor.Proofs.Positions
import SymbolicXor.Proofs.Samples

/-!
# The laws of replacement

Taking a subterm out and putting a term in its place obey the laws of a lens as far as exclusive or
allows. They fail together; putting back the subterm that was taken out changes nothing; and a
replacement at a long path is one at its first part. The term that was put in is found again only if
no sum stands on the way. Through a sum a replacement acts by addition: the old summand and the new
one are added to it.
-/

namespace SymbolicXor

namespace Term

variable {n s t u : Term} {i : Nat} {is js : List Nat} {p : Position}

/-- A canonical term is rebuilt from its arguments or summands. -/
theorem withArgs_args (ht : t.Canonical) : t.withArgs t.args = t := by
  cases t with
  | sum ts => exact xor_summands ht
  | _ => rfl

/-- Putting back the subterm that was taken out changes nothing. -/
theorem graft_of_descend (ht : t.Canonical) (h : t.descend is = some s) :
    graft s t is = some t := by
  rw [descend_eq_some] at h
  induction h with
  | root t => rfl
  | @step t a s i is ha _ ih =>
    have hself : t.args.set i a = t.args := by
      obtain ⟨hi, rfl⟩ := List.getElem?_eq_some_iff.1 ha
      exact List.set_getElem_self hi
    rw [graft_succ, ha, Option.bind_some, ih (Everywhere.args ht a (List.mem_of_getElem? ha)),
      Option.map_some, hself, withArgs_args ht]

/-- A replacement at a path in two parts is one at the first part, by a replacement at the second
part in the subterm there. -/
theorem graft_append (n t : Term) (is js : List Nat) :
    graft n t (is ++ js) =
      (t.descend is).bind fun s => (graft n s js).bind fun s' => graft s' t is := by
  induction is generalizing t with
  | nil => simp [descend, graft]
  | cons i is ih =>
    cases i with
    | zero => simp [descend, graft]
    | succ i =>
      rw [List.cons_append, graft_succ, descend_succ]
      cases ha : t.args[i]? with
      | none => rfl
      | some a =>
        have hstep (s' : Term) : graft s' t ((i + 1) :: is) =
            (graft s' a is).map fun b => t.withArgs (t.args.set i b) := by
          rw [graft_succ, ha, Option.bind_some]
        simp only [Option.bind_some, ih, Option.map_bind, hstep, Function.comp_def]

/-- If no sum stands on the way to it, the term that was put in is found again. -/
theorem descend_of_graft
    (hsum : ∀ js s, js <+: is → js ≠ is → t.PathTo js s → s.isSum = false)
    (h : graft n t is = some u) : u.descend is = some n := by
  induction is generalizing t u with
  | nil =>
    simp only [graft, Option.some.injEq] at h
    rw [h, descend]
  | cons i is ih =>
    cases i with
    | zero => simp [graft] at h
    | succ i =>
      obtain ⟨a, b, ha, hb, rfl⟩ := graft_succ_eq_some.1 h
      have hbelow : b.descend is = some n := by
        refine ih (fun js s hjs hne hs => ?_) hb
        exact hsum ((i + 1) :: js) s (List.cons_prefix_cons.2 ⟨rfl, hjs⟩)
          (fun heq => hne (List.cons.inj heq).2) (.step ha hs)
      have hroot : t.isSum = false :=
        hsum [] t List.nil_prefix (List.cons_ne_nil _ _).symm (.root t)
      cases t with
      | var v => cases ha
      | const c => cases ha
      | app f ts =>
        have hi : i < ts.length := (List.getElem?_eq_some_iff.1 ha).1
        have hset : (ts.set i b)[i]? = some b := List.getElem?_set_self hi
        rw [withArgs, descend_succ, args, args, hset, Option.bind_some, hbelow]
      | sum ts => exact absurd hroot (by simp [isSum])

/-- Replacing a summand adds the old one and the new one to the sum. -/
theorem xor_set {ts : List Term} {a b : Term} (ht : (sum ts).Canonical) (hb : b.Canonical)
    (ha : ts[i]? = some a) : xor (ts.set i b) = xor [sum ts, a, b] := by
  have hts := ((canonical_sum ts).1 ht).2
  have hac : a.Canonical := hts a (List.mem_of_getElem? ha)
  have hset : ∀ u ∈ ts.set i b, u.Canonical := fun u hu =>
    (List.mem_or_eq_of_mem_set hu).elim (hts u) fun heq => heq ▸ hb
  have hthree : ∀ u ∈ [sum ts, a, b], u.Canonical :=
    List.forall_mem_cons.2 ⟨ht, canonical_pair hac hb⟩
  have hsum : vec (sum ts) = (ts.map vec).sum := by
    conv_lhs => rw [← xor_summands ht]
    exact vec_xor hts
  obtain ⟨hi, rfl⟩ := List.getElem?_eq_some_iff.1 ha
  -- Both sides are the other summands and the new one, as the old summand cancels on the right.
  have hold : (ts.map vec).sum = ts[i].vec + ((ts.eraseIdx i).map vec).sum := by
    rw [((List.getElem_cons_eraseIdx_perm hi).symm.map vec).sum_eq, List.map_cons, List.sum_cons]
  have hnew : ((ts.set i b).map vec).sum = b.vec + ((ts.eraseIdx i).map vec).sum := by
    rw [((List.set_perm_cons_eraseIdx hi b).map vec).sum_eq, List.map_cons, List.sum_cons]
  rw [← vec_inj (canonical_xor hset) (canonical_xor hthree), vec_xor hset, vec_xor hthree, hnew]
  simp only [List.map_cons, List.map_nil, List.sum_cons, List.sum_nil, add_zero, hsum, hold]
  rw [add_left_comm, ← add_assoc, ← add_assoc, add_self_eq_zero, zero_add, add_comm]

/-- Replacing below a sum adds the summand that the path goes through, as it was and as it is
afterwards. -/
theorem graft_eq_xor (ht : t.Canonical) (hn : n.Canonical) (hsum : t.isSum = true)
    (h : graft n t (i :: is) = some u) :
    ∃ s s', t.descend [i] = some s ∧ graft n s is = some s' ∧ u = xor [t, s, s'] := by
  cases i with
  | zero => simp [graft] at h
  | succ i =>
    obtain ⟨a, b, ha, hb, rfl⟩ := graft_succ_eq_some.1 h
    have hbc : b.Canonical :=
      canonical_graft hn (Everywhere.args ht a (List.mem_of_getElem? ha)) hb
    refine ⟨a, b, descend_eq_some.2 (.step ha (.root a)), hb, ?_⟩
    cases t with
    | sum ts => exact xor_set ht hbc ha
    | _ => cases hsum

/-- The laws that replacing the subterm of `t` at the position `p` by `n` obeys. -/
structure ReplacementLaws (t n : Term) (p : Position) : Prop where
  /-- A replacement fails exactly where there is no path. -/
  missing : (∃ e, t.replaceAt p n = .error e) ↔ ¬ ∃ s, t.PathTo p.indices s
  /-- It fails as taking the subterm out does. -/
  error : ∀ e, t.replaceAt p n = .error e ↔ t.subtermAt p = .error e
  /-- Putting back the subterm that was taken out changes nothing. -/
  putBack : ∀ s, t.subtermAt p = .ok s → t.replaceAt p s = .ok t
  /-- A replacement further down replaces the subterm at the position by a replacement in it. -/
  further : ∀ q : Position, (t.replaceAt ⟨p.indices ++ q.indices⟩ n).toOption =
    (t.subtermAt p).toOption.bind fun s =>
      (s.replaceAt q n).toOption.bind fun s' => (t.replaceAt p s').toOption
  /-- If no sum stands on the way, the term that was put in is found again. -/
  found : (∀ (q : Position) (s : Term), q.indices <+: p.indices → q ≠ p → t.subtermAt q = .ok s →
    s.isSum = false) → ∀ u, t.replaceAt p n = .ok u → u.subtermAt p = .ok n
  /-- Replacing below a sum adds the old summand and the new one to it. -/
  summand : t.isSum = true → ∀ (i : Nat) (is : List Nat) (u : Term), p.indices = i :: is →
    t.replaceAt p n = .ok u →
      ∃ s s', t.subtermAt ⟨[i]⟩ = .ok s ∧ s.replaceAt ⟨is⟩ n = .ok s' ∧ u = xor [t, s, s']

/-- Replacing a subterm of a canonical term by a canonical term obeys the laws, at positions that
are in the term and at those that are not. -/
theorem replacementLaws (ht : t.Canonical) (hn : n.Canonical) (p : Position) :
    ReplacementLaws t n p where
  missing := by
    simp only [replaceAt_eq_error, exists_eq_right, graft_eq_none, descend_eq_none]
  error e := by rw [replaceAt_eq_error, subtermAt_eq_error, graft_eq_none]
  putBack s hs := by
    have hdescend : t.descend p.indices = some s := descend_eq_some.2 (subtermAt_eq_ok.1 hs)
    exact replaceAt_eq_ok.2 (graft_of_descend ht hdescend)
  further q := by simp only [toOption_replaceAt, toOption_subtermAt, graft_append]
  found hsum u hu := by
    have hway : ∀ js s, js <+: p.indices → js ≠ p.indices → t.PathTo js s → s.isSum = false :=
      fun js s hjs hne hs => hsum ⟨js⟩ s hjs (fun heq => hne (congrArg Position.indices heq))
        (subtermAt_eq_ok.2 hs)
    have hfound := descend_of_graft hway (replaceAt_eq_ok.1 hu)
    exact subtermAt_eq_ok.2 (descend_eq_some.1 hfound)
  summand hsum i is u hp hu := by
    have hgraft : graft n t (i :: is) = some u := hp ▸ replaceAt_eq_ok.1 hu
    obtain ⟨s, s', hs, hs', rfl⟩ := graft_eq_xor ht hn hsum hgraft
    exact ⟨s, s', subtermAt_eq_ok.2 (descend_eq_some.1 hs), replaceAt_eq_ok.2 hs', rfl⟩

open Sample

/-- The sum `a + f(a + b)`. -/
def sumBelowSum : Term := .sum [a, .app f [.sum [a, b]]]

/-- The inner sum cancels if its first summand is replaced by the second. -/
theorem replacementLaws_sumBelowSum :
    sumBelowSum.Canonical ∧ b.Canonical ∧ ReplacementLaws sumBelowSum b ⟨[2, 1, 1]⟩ ∧
      sumBelowSum.replaceAt ⟨[2, 1, 1]⟩ b = .ok (.sum [a, .app f [.zero]]) := by
  have ht : sumBelowSum.Canonical := by decide
  have hb : b.Canonical := by decide
  exact ⟨ht, hb, replacementLaws ht hb ⟨[2, 1, 1]⟩, by decide⟩

end Term

end SymbolicXor
