import Mathlib.Data.Set.Finite.Lattice
import SymbolicXor.Proofs.BooleanSolutions
import SymbolicXor.Proofs.SizedTerms

/-!
# Terms over finitely many letters

The letters of a coefficient term are its constants, coefficients, variables and function symbols.
Assigning and simplifying brings in no letter, and boolean unification gives values to coefficients
of its two terms only. Over finitely many letters there are finitely many terms of each size, and
finitely many assignments.
-/

namespace SymbolicXor

/-- Over a finite set there are finitely many lists of bounded length. -/
theorem finite_lists {α : Type} {S : Set α} (hS : S.Finite) (n : Nat) :
    {l : List α | l.length ≤ n ∧ ∀ a ∈ l, a ∈ S}.Finite := by
  induction n with
  | zero =>
    refine (Set.finite_singleton []).subset fun l hl => ?_
    exact List.length_eq_zero_iff.1 (Nat.le_zero.1 hl.1)
  | succ n ih =>
    refine ((hS.image2 List.cons ih).insert []).subset fun l ⟨hlen, hmem⟩ => ?_
    cases l with
    | nil => exact Set.mem_insert _ _
    | cons a l =>
      obtain ⟨ha, hl⟩ := List.forall_mem_cons.1 hmem
      exact Set.mem_insert_of_mem _ ⟨a, ha, l, ⟨Nat.le_of_succ_le_succ hlen, hl⟩, rfl⟩

namespace CoeffTerm

/-- A term with letters in a set. A function symbol is in the set as its application to nothing. -/
inductive Spelled (S : Set CoeffTerm) : CoeffTerm → Prop where
  /-- Zero. -/
  | zero : Spelled S zero
  /-- One. -/
  | one : Spelled S one
  /-- A constant in the set. -/
  | const {c} (h : const c ∈ S) : Spelled S (const c)
  /-- A coefficient in the set. -/
  | coeff {b} (h : coeff b ∈ S) : Spelled S (coeff b)
  /-- A variable in the set. -/
  | var {v} (h : var v ∈ S) : Spelled S (var v)
  /-- An application of a symbol in the set. -/
  | app {f ts} (hf : app f [] ∈ S) (h : ∀ t ∈ ts, Spelled S t) : Spelled S (app f ts)
  /-- A sum. -/
  | sum {ts} (h : ∀ t ∈ ts, Spelled S t) : Spelled S (sum ts)
  /-- A product. -/
  | mul {s t} (hs : Spelled S s) (ht : Spelled S t) : Spelled S (mul s t)

variable {S T : Set CoeffTerm} {s t u : CoeffTerm} {ts : List CoeffTerm}

theorem Spelled.mono (h : Spelled S t) (hST : S ⊆ T) : Spelled T t := by
  induction h with
  | zero => exact .zero
  | one => exact .one
  | const h => exact .const (hST h)
  | coeff h => exact .coeff (hST h)
  | var h => exact .var (hST h)
  | app hf _ ih => exact .app (hST hf) ih
  | sum _ ih => exact .sum ih
  | mul _ _ hs ht => exact .mul hs ht

theorem Spelled.summands (h : Spelled S t) : ∀ u ∈ t.summands, Spelled S u := by
  cases h with
  | sum h => exact h
  | zero => exact List.forall_mem_singleton.2 .zero
  | one => exact List.forall_mem_singleton.2 .one
  | const h => exact List.forall_mem_singleton.2 (.const h)
  | coeff h => exact List.forall_mem_singleton.2 (.coeff h)
  | var h => exact List.forall_mem_singleton.2 (.var h)
  | app hf h => exact List.forall_mem_singleton.2 (.app hf h)
  | mul hs ht => exact List.forall_mem_singleton.2 (.mul hs ht)

theorem spelled_ofSummands (h : ∀ t ∈ ts, Spelled S t) : Spelled S (ofSummands ts) := by
  match ts with
  | [] => exact .zero
  | [t] => exact h t List.mem_cons_self
  | t :: u :: ts => exact .sum h

theorem spelled_product (hs : Spelled S s) (ht : Spelled S t) : Spelled S (product s t) := by
  unfold product
  split
  · exact .zero
  · split
    · exact ht
    · split
      · exact hs
      · exact .mul hs ht

/-- Assigning and simplifying brings in no letter. -/
theorem Spelled.reduce (h : Spelled S t) (γ : Assignment) : Spelled S (γ.reduce t) := by
  induction h with
  | zero => exact .zero
  | one => exact .one
  | const h => exact .const h
  | @coeff b h =>
    unfold Assignment.reduce Assignment.apply mapLeaves Assignment.lookup
    split
    · exact .one
    · exact .zero
    · exact .coeff h
  | var h => exact .var h
  | app hf _ ih =>
    rw [Assignment.reduce_app]
    refine .app hf ?_
    rw [List.forall_mem_map]
    exact ih
  | sum _ ih =>
    rw [Assignment.reduce_sum]
    refine spelled_ofSummands fun u hu => ?_
    obtain ⟨hu, _⟩ := (mem_of_mem_foldl_toggle hu).resolve_left List.not_mem_nil
    obtain ⟨r, hr, hur⟩ := List.mem_flatMap.1 hu
    obtain ⟨t, ht, rfl⟩ := List.mem_map.1 hr
    exact (ih t ht).summands u hur
  | mul _ _ hs ht =>
    rw [Assignment.reduce_mul]
    exact spelled_product hs ht

theorem Spelled.simplify (h : Spelled S t) : Spelled S t.simplify := by
  rw [← Assignment.reduce_empty]
  exact h.reduce ∅

theorem Spelled.realTerm (h : Spelled S t) : Spelled S t.realTerm := by
  cases h with
  | @mul s t hs ht => cases s <;> assumption
  | zero => exact .zero
  | one => exact .one
  | const h => exact .const h
  | coeff h => exact .coeff h
  | var h => exact .var h
  | app hf h => exact .app hf h
  | sum h => exact .sum h

/-- The coefficient of a term is one of its letters. -/
theorem Spelled.coefficient (h : Spelled S t) {b : Name} (hb : t.coefficient? = some b) :
    CoeffTerm.coeff b ∈ S := by
  unfold coefficient? at hb
  split at hb
  · cases hb
    cases h with
    | mul hs _ => cases hs with | coeff h => exact h
  · cases hb
    cases h with
    | mul _ ht => cases ht with | coeff h => exact h
  · cases hb

/-- Terms with finitely many letters each have finitely many letters together. -/
theorem exists_spelled_of_forall {ts : List CoeffTerm}
    (h : ∀ t ∈ ts, ∃ S : Set CoeffTerm, S.Finite ∧ Spelled S t) :
    ∃ S : Set CoeffTerm, S.Finite ∧ ∀ t ∈ ts, Spelled S t := by
  induction ts with
  | nil => exact ⟨∅, Set.finite_empty, fun _ ht => absurd ht List.not_mem_nil⟩
  | cons t ts ih =>
    obtain ⟨⟨S, hS, ht⟩, hts⟩ := List.forall_mem_cons.1 h
    obtain ⟨T, hT, hts⟩ := ih hts
    exact ⟨S ∪ T, hS.union hT, List.forall_mem_cons.2 ⟨ht.mono Set.subset_union_left,
      fun u hu => (hts u hu).mono Set.subset_union_right⟩⟩

/-- A term has finitely many letters. -/
theorem exists_spelled (t : CoeffTerm) : ∃ S : Set CoeffTerm, S.Finite ∧ Spelled S t := by
  induction t using induction with
  | zero => exact ⟨∅, Set.finite_empty, .zero⟩
  | one => exact ⟨∅, Set.finite_empty, .one⟩
  | const c => exact ⟨{const c}, Set.finite_singleton _, .const rfl⟩
  | coeff b => exact ⟨{coeff b}, Set.finite_singleton _, .coeff rfl⟩
  | var v => exact ⟨{var v}, Set.finite_singleton _, .var rfl⟩
  | app f ts ih =>
    obtain ⟨S, hS, hts⟩ := exists_spelled_of_forall ih
    exact ⟨insert (app f []) S, hS.insert _, .app (Set.mem_insert _ _)
      fun t ht => (hts t ht).mono (Set.subset_insert _ _)⟩
  | sum ts ih =>
    obtain ⟨S, hS, hts⟩ := exists_spelled_of_forall ih
    exact ⟨S, hS, .sum hts⟩
  | mul s t hs ht =>
    obtain ⟨S, hS, hs⟩ := hs
    obtain ⟨T, hT, ht⟩ := ht
    exact ⟨S ∪ T, hS.union hT,
      .mul (hs.mono Set.subset_union_left) (ht.mono Set.subset_union_right)⟩

/-- Over finitely many letters there are finitely many terms of bounded size. -/
theorem finite_spelled (hS : S.Finite) (n : Nat) : {t | Spelled S t ∧ t.size ≤ n}.Finite := by
  induction n with
  | zero =>
    refine Set.finite_empty.subset fun t ht => ?_
    exact absurd ht.2 (Nat.not_le.2 t.size_pos)
  | succ n ih =>
    have hlists := finite_lists ih n
    have hbelow {ts : List CoeffTerm} (h : ∀ t ∈ ts, Spelled S t) (hsize : sizeAll ts ≤ n) :
        ts ∈ {l : List CoeffTerm | l.length ≤ n ∧ ∀ t ∈ l, t ∈ {t | Spelled S t ∧ t.size ≤ n}} :=
      ⟨(length_le_sizeAll ts).trans hsize,
        fun t ht => ⟨h t ht, (size_le_sizeAll ht).trans hsize⟩⟩
    have hsymbols : {f | app f [] ∈ S}.Finite :=
      hS.preimage fun f _ g _ hfg => by simpa using hfg
    refine ((((hS.insert one).insert zero).union (hsymbols.image2 app hlists)).union
      ((hlists.image sum).union (ih.image2 mul ih))).subset ?_
    rintro t ⟨ht, hsize⟩
    cases ht with
    | zero => exact Or.inl (Or.inl (Set.mem_insert _ _))
    | one => exact Or.inl (Or.inl (Set.mem_insert_of_mem _ (Set.mem_insert _ _)))
    | const h | coeff h | var h =>
      exact Or.inl (Or.inl (Set.mem_insert_of_mem _ (Set.mem_insert_of_mem _ h)))
    | @app f ts hf h =>
      rw [size] at hsize
      exact Or.inl (Or.inr ⟨f, hf, ts, hbelow h (Nat.le_of_succ_le_succ hsize), rfl⟩)
    | @sum ts h =>
      rw [size] at hsize
      exact Or.inr (Or.inl ⟨ts, hbelow h (Nat.le_of_succ_le_succ hsize), rfl⟩)
    | @mul s u hs hu =>
      rw [size] at hsize
      exact Or.inr (Or.inr ⟨s, ⟨hs, by omega⟩, u, ⟨hu, by omega⟩, rfl⟩)

end CoeffTerm

open CoeffTerm

namespace Assignment

variable {S : Set CoeffTerm} {γ δ ε : Assignment}

/-- Only coefficients among some letters have values. -/
def AssignsIn (S : Set CoeffTerm) (γ : Assignment) : Prop :=
  ∀ b x, γ.get? b = some x → coeff b ∈ S

theorem assignsIn_empty (S : Set CoeffTerm) : (∅ : Assignment).AssignsIn S := by
  intro b x h
  cases h

theorem assignsIn_singleton {b : Name} (h : coeff b ∈ S) (x : Bool) :
    (singleton b x).AssignsIn S := by
  intro c y hc
  rw [get?_singleton] at hc
  split at hc
  · rename_i hcb
    exact hcb ▸ h
  · cases hc

theorem AssignsIn.compose (hγ : γ.AssignsIn S) (hδ : δ.AssignsIn S)
    (h : γ.compose δ = some ε) : ε.AssignsIn S := by
  intro b x hb
  rw [get?_compose h, Option.or_eq_some_iff] at hb
  rcases hb with hb | ⟨_, hb⟩
  · exact hδ b x hb
  · exact hγ b x hb

theorem AssignsIn.foldlM_compose {as : List Assignment} (hγ : γ.AssignsIn S)
    (has : ∀ δ ∈ as, δ.AssignsIn S) (h : as.foldlM Assignment.compose γ = some ε) :
    ε.AssignsIn S := by
  induction as generalizing γ with
  | nil =>
    cases h
    exact hγ
  | cons δ as ih =>
    obtain ⟨η, hη, h⟩ := Option.bind_eq_some_iff.1 h
    obtain ⟨hδ, has⟩ := List.forall_mem_cons.1 has
    exact ih (hγ.compose hδ hη) has h

/-- Finitely many coefficients have finitely many assignments. -/
theorem finite_assignsIn (hS : S.Finite) : {γ : Assignment | γ.AssignsIn S}.Finite := by
  let graph (γ : Assignment) : Set (Name × Bool) := {e | γ.get? e.1 = some e.2}
  have hnames : {b | coeff b ∈ S}.Finite := hS.preimage fun b _ c _ hbc => by simpa using hbc
  have hgraphs := (hnames.prod (Set.finite_univ (α := Bool))).finite_subsets
  refine Set.Finite.of_finite_image (f := graph) (hgraphs.subset ?_) ?_
  · rintro _ ⟨γ, hγ, rfl⟩ ⟨b, x⟩ hb
    exact ⟨hγ b x hb, Set.mem_univ _⟩
  · intro γ _ δ _ hgraph
    have hget (b : Name) : γ.values.get? b = δ.values.get? b := by
      refine Option.ext fun x => ?_
      exact Set.ext_iff.1 hgraph (b, x)
    obtain ⟨m⟩ := γ
    obtain ⟨n⟩ := δ
    exact congrArg _ (FinMap.ext_get? hget)

end Assignment

namespace BooleanUnification

variable {S : Set CoeffTerm} {goals rest instead : List Goal} {g left : Goal} {new old : Assignment}
  {s t : CoeffTerm}

theorem spelled_argumentGoals (hs : Spelled S s) (ht : Spelled S t) :
    ∀ g ∈ argumentGoals s t, Spelled S g.term := by
  intro g hg
  unfold argumentGoals at hg
  split at hg
  · cases hs with
    | app _ hs =>
      cases ht with
      | app _ ht =>
        obtain ⟨i, hi, rfl⟩ := List.getElem_of_mem hg
        rw [List.length_zipWith] at hi
        rw [List.getElem_zipWith]
        refine Spelled.simplify (.sum (List.forall_mem_cons.2 ⟨hs _ (List.getElem_mem _), ?_⟩))
        exact List.forall_mem_singleton.2 (ht _ (List.getElem_mem _))
  · cases hg

theorem assignsIn_present (hs : Spelled S s) (ht : Spelled S t) : (present s t).AssignsIn S := by
  intro b x hb
  rw [get?_present] at hb
  split at hb
  · rename_i hmem
    rcases List.mem_append.1 hmem with hmem | hmem
    · exact hs.coefficient (Option.mem_toList.1 hmem)
    · exact ht.coefficient (Option.mem_toList.1 hmem)
  · cases hb

/-- A rule gives values to letters of its goal, and the goals in its place have no other. -/
theorem Rule.spelled (h : Rule g new instead left) (hg : Spelled S g.term) :
    new.AssignsIn S ∧ ∀ d ∈ instead, Spelled S d.term := by
  cases h with
  | disappear h =>
    obtain ⟨hc, _, ⟨l, r, hterm, rfl, rfl⟩ | ⟨ts, hterm, hmem, rfl⟩⟩ := vanishing?_cases h
    · rw [hterm] at hg
      exact ⟨Assignment.assignsIn_singleton (hg.coefficient hc) false,
        fun _ hr => absurd hr List.not_mem_nil⟩
    · rw [hterm] at hg
      refine ⟨Assignment.assignsIn_singleton ((hg.summands _ hmem).coefficient hc) false,
        List.forall_mem_singleton.2 (.sum fun u hu => ?_)⟩
      exact hg.summands u (List.mem_of_mem_erase hu)
  | @duplicate s t ts hterm ht =>
    rw [hterm] at hg
    obtain ⟨hs, hts⟩ := List.forall_mem_cons.1 hg.summands
    refine ⟨assignsIn_present hs (hts t ht), List.forall_mem_cons.2 ⟨.sum fun u hu => ?_, ?_⟩⟩
    · exact hts u (List.mem_of_mem_erase hu)
    · exact spelled_argumentGoals hs.realTerm (hts t ht).realTerm

namespace State

/-- A state with some letters only. -/
structure Spelled (S : Set CoeffTerm) (st : State) : Prop where
  /-- The goals have these letters. -/
  goals : ∀ g ∈ st.goals, CoeffTerm.Spelled S g.term
  /-- The values are those of such coefficients. -/
  assignment : st.assignment.AssignsIn S

variable {st next : State}

theorem spelled_of_mem_simplifyGoals (h : ∀ g ∈ goals, CoeffTerm.Spelled S g.term) :
    ∀ g ∈ simplifyGoals goals, CoeffTerm.Spelled S g.term := by
  intro g hg
  obtain ⟨_, d, hd, rfl⟩ := mem_simplifyGoals.1 hg
  exact (h d hd).simplify

/-- A step brings in no letter. -/
theorem Spelled.step (h : st.Spelled S) {states : List State} (hexp : st.expand = .branches states)
    (hnext : next ∈ states) : next.Spelled S := by
  obtain ⟨g, goals, hgoals, ⟨rfl, _⟩ | ⟨new, instead, left, hrule, rfl⟩⟩ := expand_branches hexp
  · cases hnext
  have hall := spelled_of_mem_simplifyGoals h.goals
  rw [hgoals] at hall
  obtain ⟨hg, hrest⟩ := List.forall_mem_cons.1 hall
  obtain ⟨hnew, hinstead⟩ := hrule.spelled hg
  rcases List.mem_append.1 hnext with hnext | hnext
  · obtain ⟨hcompose, hnext⟩ := assign_eq_some (Option.mem_toList.1 hnext)
    refine ⟨fun d hd => ?_, h.assignment.compose hnew hcompose⟩
    rw [hnext, mem_simplifyGoals] at hd
    obtain ⟨_, d', hd', rfl⟩ := hd
    obtain ⟨e, he, rfl⟩ := List.mem_map.1 hd'
    exact (List.forall_mem_append.2 ⟨hrest, hinstead⟩ e he).reduce new
  · rw [List.mem_singleton.1 hnext]
    refine ⟨List.forall_mem_append.2 ⟨hrest, List.forall_mem_singleton.2 ?_⟩, h.assignment⟩
    exact hrule.left_term ▸ hg

theorem Spelled.leads (h : st.Spelled S) (hnext : Search.Leads expand st next) :
    next.Spelled S := by
  induction hnext with
  | refl => exact h
  | tail _ hstep ih =>
    obtain ⟨states, hexp, hmem⟩ := hstep
    exact ih.step hexp hmem

end State

end BooleanUnification

/-- Boolean unification gives values to coefficients of its terms only. -/
theorem assignsIn_of_mem_booleanUnifyWith {S : Set CoeffTerm} {s t : CoeffTerm} {budget : Budget}
    {γ : Assignment} (hs : Spelled S s) (ht : Spelled S t)
    (h : γ ∈ (booleanUnifyWith s t budget).outcome.solutions) : γ.AssignsIn S := by
  obtain ⟨st, hleads, hexp⟩ := Search.exists_leads_of_mem_explore h
  have hstart : Spelled S (CoeffTerm.sum [s, t]).simplify :=
    Spelled.simplify (.sum (List.forall_mem_cons.2 ⟨hs, List.forall_mem_singleton.2 ht⟩))
  have hspelled : BooleanUnification.State.Spelled S
      { goals := [{ term := (CoeffTerm.sum [s, t]).simplify }] } :=
    ⟨List.forall_mem_singleton.2 hstart, Assignment.assignsIn_empty S⟩
  exact (BooleanUnification.solved_of_expand hexp).2 ▸ (hspelled.leads hleads).assignment

end SymbolicXor
