import SymbolicXor.Proofs.Freshness
import SymbolicXor.Proofs.LeafMaps
import SymbolicXor.Proofs.Samples

/-!
# Names that are handed out

One generator serves a whole run: names are reserved in it and taken from it in any order. In every
such sequence the numbers of the names that are handed out increase, and each of them is the least
that is possible: greater than the last one, with a name that was not reserved. That the search for
it comes to an end does not depend on how many names were reserved.
-/

namespace SymbolicXor

/-- A name is used in a term by a variable, a constant or a function symbol. -/
inductive Term.Uses : Term → Name → Prop where
  /-- The name of a variable. -/
  | var (v : Variable) : Uses (.var v) v.symbol
  /-- The name of a constant. -/
  | const (c : Constant) : Uses (.const c) c.symbol
  /-- The name of a function symbol. -/
  | app (f : FunctionSymbol) (ts : List Term) : Uses (.app f ts) f.symbol
  /-- A name in an argument or a summand. -/
  | arg {t u : Term} {n : Name} (hu : u ∈ t.args) (h : Uses u n) : Uses t n

theorem Term.mem_symbols {t : Term} {n : Name} : n ∈ t.symbols ↔ t.Uses n := by
  rw [symbols, List.mem_filterMap]
  constructor
  · rintro ⟨u, hu, hn⟩
    induction t using args_induction with
    | h t ih =>
      rw [subterms_eq, List.mem_cons, List.mem_flatMap] at hu
      rcases hu with rfl | ⟨a, ha, hu⟩
      · cases u with
        | var v => cases hn; exact .var v
        | const c => cases hn; exact .const c
        | app f ts => cases hn; exact .app f ts
        | sum ts => cases hn
      · exact .arg ha (ih a ha hu)
  · intro h
    induction h with
    | var v => exact ⟨_, mem_subterms_self _, rfl⟩
    | const c => exact ⟨_, mem_subterms_self _, rfl⟩
    | app f ts => exact ⟨_, mem_subterms_self _, rfl⟩
    | arg ha _ ih =>
      obtain ⟨u, hu, hn⟩ := ih
      exact ⟨u, mem_subterms_trans (mem_subterms_of_mem_args ha) hu, hn⟩

namespace FreshNames

/-- A search that goes on from a number, as long as the names that it comes to are reserved. -/
inductive Searches (g : FreshNames) : (last found : Nat) → Prop where
  /-- The name of the next number is free. -/
  | found {n : Nat} (h : g.name (n + 1) ∉ g.reserved) : Searches g n (n + 1)
  /-- The name of the next number is reserved, and the search goes on. -/
  | reserved {n k : Nat} (h : g.name (n + 1) ∈ g.reserved) (hk : Searches g (n + 1) k) :
    Searches g n k

variable {g : FreshNames} {n k : Nat}

/-- A search ends at the least number whose name is free. -/
theorem Searches.isLeast (h : g.Searches n k) :
    IsLeast {m | n < m ∧ g.name m ∉ g.reserved} k := by
  induction h with
  | @found n h => exact ⟨⟨Nat.lt_succ_self n, h⟩, fun m hm => hm.1⟩
  | @reserved n k h _ ih =>
    refine ⟨⟨Nat.lt_of_succ_lt ih.1.1, ih.1.2⟩, fun m ⟨hm, hfree⟩ => ih.2 ⟨?_, hfree⟩⟩
    exact lt_of_le_of_ne hm fun heq => hfree (heq ▸ h)

/-- The search that tries a limited number of names is the one without a limit, if it ends at a name
that is free. -/
theorem searches_firstFree {tries : Nat}
    (h : g.name (g.firstFree tries (n + 1)) ∉ g.reserved) :
    g.Searches n (g.firstFree tries (n + 1)) := by
  induction tries generalizing n with
  | zero => exact .found h
  | succ tries ih =>
    rw [firstFree] at h ⊢
    split at h
    · next hn =>
      rw [if_pos hn]
      exact .reserved (List.contains_iff_mem.1 hn) (ih h)
    · next hn =>
      rw [if_neg hn]
      exact .found h

theorem firstFree_le (g : FreshNames) (tries n : Nat) : g.firstFree tries n ≤ n + tries := by
  induction tries generalizing n with
  | zero => exact Nat.le_refl n
  | succ tries ih =>
    rw [firstFree]
    split
    · exact (ih (n + 1)).trans (by omega)
    · exact Nat.le_add_right n _

/-- The search after the last number ends. -/
theorem searches_nextNumber (g : FreshNames) : g.Searches g.counter g.nextNumber :=
  searches_firstFree g.name_nextNumber_not_mem

/-- A call of a generator. -/
inductive Call where
  /-- Reserve names. -/
  | avoid (ns : List Name)
  /-- Reserve the names in a term. -/
  | avoidTerm (t : Term)
  /-- Reserve the names in equations. -/
  | avoidEquations (es : List Equation)
  /-- Take a name. -/
  | next
  /-- Take a variable with a name of its own. -/
  | nextVariable

namespace Call

/-- A name is passed to a generator to be reserved. -/
def Passes : Call → Name → Prop
  | avoid ns, n => n ∈ ns
  | avoidTerm t, n => t.Uses n
  | avoidEquations es, n => ∃ e ∈ es, e.left.Uses n ∨ e.right.Uses n
  | next, _ => False
  | nextVariable, _ => False

/-- The names that a generator hands out at a call, and the generator after it. -/
def perform (g : FreshNames) : Call → List Name × FreshNames
  | avoid ns => ([], g.avoid ns)
  | avoidTerm t => ([], g.avoidTerm t)
  | avoidEquations es => ([], g.avoidEquations es)
  | next => ([g.next.1], g.next.2)
  | nextVariable => ([g.nextVariable.1.symbol], g.nextVariable.2)

end Call

/-- The names that a generator hands out in a sequence of calls, and the generator after it. -/
def run (g : FreshNames) (calls : List Call) : List Name × FreshNames :=
  calls.foldl (fun (names, g) c => (names ++ (c.perform g).1, (c.perform g).2)) ([], g)

theorem run_concat (g : FreshNames) (calls : List Call) (c : Call) : g.run (calls ++ [c]) =
    ((g.run calls).1 ++ (c.perform (g.run calls).2).1, (c.perform (g.run calls).2).2) := by
  rw [run, List.foldl_append]
  rfl

/-- A name that was passed to the generator or handed out by it. -/
def Taken (calls : List Call) (names : List Name) (n : Name) : Prop :=
  (∃ c ∈ calls, c.Passes n) ∨ n ∈ names

section Run

variable {stem : String} {hstem : Spelling.isStem stem.toList = true} {calls : List Call}
  {c : Call} {numbers : List Nat}

/-- The state of a generator after a sequence of calls in which it handed out the names with some
numbers. -/
structure Tracks (stem : String) (hstem : Spelling.isStem stem.toList = true) (calls : List Call)
    (numbers : List Nat) (g : FreshNames) : Prop where
  /-- The stem is the same. -/
  name : ∀ n, g.name n = Name.numbered stem hstem n
  /-- The last number is known. -/
  counter : g.counter = numbers.getLastD 0
  /-- The numbers increase, from one on. -/
  increasing : (0 :: numbers).Pairwise (· < ·)
  /-- No number is greater than the last one. -/
  le_counter : ∀ k ∈ 0 :: numbers, k ≤ g.counter
  /-- The reserved names are those that were passed or handed out. -/
  reserved : ∀ n, n ∈ g.reserved ↔ Taken calls (numbers.map (Name.numbered stem hstem)) n

theorem tracks_ofStem : (ofStem stem hstem).Tracks stem hstem [] [] where
  name _ := rfl
  counter := rfl
  increasing := List.pairwise_singleton ..
  le_counter := by simp
  reserved := by simp [ofStem, Taken]

/-- Reserving more names. -/
theorem Tracks.avoid (h : g.Tracks stem hstem calls numbers) {ns : List Name}
    (hc : ∀ n, c.Passes n ↔ n ∈ ns) : (g.avoid ns).Tracks stem hstem (calls ++ [c]) numbers where
  name := h.name
  counter := h.counter
  increasing := h.increasing
  le_counter := h.le_counter
  reserved n := by
    simp only [FreshNames.avoid, List.mem_append, h.reserved, Taken, List.mem_singleton,
      or_and_right, exists_or, exists_eq_left, hc]
    rw [or_left_comm, or_assoc]

/-- Handing out a name. -/
theorem Tracks.next (h : g.Tracks stem hstem calls numbers) (hc : ∀ n, ¬ c.Passes n) :
    g.next.2.Tracks stem hstem (calls ++ [c]) (numbers ++ [g.nextNumber]) := by
  have hlt : ∀ k ∈ 0 :: numbers, k < g.nextNumber := fun k hk =>
    (h.le_counter k hk).trans_lt g.searches_nextNumber.isLeast.1.1
  refine ⟨h.name, List.getLastD_concat.symm, ?_, ?_, fun n => ?_⟩
  · rw [← List.cons_append, List.pairwise_append]
    refine ⟨h.increasing, List.pairwise_singleton .., fun k hk m hm => ?_⟩
    rw [List.mem_singleton.1 hm]
    exact hlt k hk
  · rw [← List.cons_append]
    intro k hk
    rcases List.mem_append.1 hk with hk | hk
    · exact (hlt k hk).le
    · exact (List.mem_singleton.1 hk).le
  · simp only [FreshNames.next, List.mem_cons, h.reserved, h.name, Taken, List.mem_append,
      or_and_right, exists_or, exists_eq_left, hc, or_false, List.map_append, List.map_cons,
      List.map_nil, List.not_mem_nil]
    rw [or_comm, or_assoc]

/-- A call hands out names with greater numbers. -/
theorem Tracks.perform (h : g.Tracks stem hstem calls numbers) (c : Call) :
    ∃ more, (c.perform g).1 = more.map (Name.numbered stem hstem) ∧
      (c.perform g).2.Tracks stem hstem (calls ++ [c]) (numbers ++ more) := by
  have hreserve (ns : List Name) (hc : ∀ n, c.Passes n ↔ n ∈ ns)
      (hperform : c.perform g = ([], g.avoid ns)) :
      ∃ more, (c.perform g).1 = more.map (Name.numbered stem hstem) ∧
        (c.perform g).2.Tracks stem hstem (calls ++ [c]) (numbers ++ more) := by
    refine ⟨[], ?_⟩
    rw [hperform, List.append_nil]
    exact ⟨rfl, h.avoid hc⟩
  cases c with
  | avoid ns => exact hreserve ns (fun _ => Iff.rfl) rfl
  | avoidTerm t => exact hreserve t.symbols (fun _ => Term.mem_symbols.symm) rfl
  | avoidEquations es =>
    refine hreserve (es.flatMap Equation.symbols) (fun n => ?_) rfl
    simp only [Call.Passes, List.mem_flatMap, Equation.symbols, List.mem_append, Term.mem_symbols]
  | next => exact ⟨[g.nextNumber], congrArg (fun n => [n]) (h.name _), h.next fun _ => id⟩
  | nextVariable => exact ⟨[g.nextNumber], congrArg (fun n => [n]) (h.name _), h.next fun _ => id⟩

/-- A run hands out names with increasing numbers. -/
theorem tracks_run (hstem : Spelling.isStem stem.toList = true) (calls : List Call) :
    ∃ numbers, ((ofStem stem hstem).run calls).1 = numbers.map (Name.numbered stem hstem) ∧
      ((ofStem stem hstem).run calls).2.Tracks stem hstem calls numbers := by
  induction calls using List.reverseRecOn with
  | nil => exact ⟨[], rfl, tracks_ofStem⟩
  | append_singleton calls c ih =>
    obtain ⟨numbers, hnames, h⟩ := ih
    obtain ⟨more, hmore, h'⟩ := h.perform c
    refine ⟨numbers ++ more, ?_, ?_⟩
    · rw [run_concat, hnames, hmore, List.map_append]
    · rwa [run_concat]

/-- The names that a generator hands out in a run are different. After every run the search for the
next name comes to an end, and finds the least number after the last one whose name was neither
passed to the generator nor handed out by it. -/
theorem run_fresh (hstem : Spelling.isStem stem.toList = true) (calls : List Call)
    {names : List Name} (hrun : (ofStem stem hstem).run calls = (names, g)) :
    ∃ numbers : List Nat, ∃ k,
      names = numbers.map (Name.numbered stem hstem) ∧ (0 :: numbers).Pairwise (· < ·) ∧
      g.Searches (numbers.getLastD 0) k ∧ k ≤ numbers.getLastD 0 + g.reserved.length + 1 ∧
      IsLeast {m | numbers.getLastD 0 < m ∧ ¬ Taken calls names (Name.numbered stem hstem m)} k ∧
      g.next.1 = Name.numbered stem hstem k ∧
      g.nextVariable.1 = { symbol := Name.numbered stem hstem k } ∧
      (∀ c ∈ calls, ¬ c.Passes g.next.1) ∧ g.next.1 ∉ names := by
  obtain ⟨numbers, hnames, h⟩ := tracks_run hstem calls
  simp only [hrun] at hnames h
  have hsearch : g.Searches (numbers.getLastD 0) g.nextNumber := h.counter ▸ g.searches_nextNumber
  have hnext : g.next.1 = Name.numbered stem hstem g.nextNumber := h.name _
  have hfree : ¬ Taken calls names g.next.1 := by
    rw [hnames, ← h.reserved]
    exact g.name_nextNumber_not_mem
  refine ⟨numbers, g.nextNumber, hnames, h.increasing, hsearch, ?_, ?_, hnext,
    congrArg (fun n => ({ symbol := n } : Variable)) hnext,
    fun c hc hpass => hfree (.inl ⟨c, hc, hpass⟩), fun hmem => hfree (.inr hmem)⟩
  · have hle := g.firstFree_le g.reserved.length (g.counter + 1)
    rw [← h.counter, nextNumber]
    omega
  · have hleast := hsearch.isLeast
    simp only [h.name, h.reserved, ← hnames] at hleast
    exact hleast

end Run

/-- The name with the number 2 is passed, a variable is taken before it and a name after it. -/
def numberPassed : List Call :=
  [.nextVariable, .avoidTerm (.app Sample.f [.var { symbol := ⟨"N2", by decide⟩ }]), .next]

theorem run_fresh_numberPassed : Spelling.isStem "N".toList = true ∧
    ∃ names g, (ofStem "N").run numberPassed = (names, g) ∧
      names.map Name.text = ["N1", "N3"] ∧ g.next.1.text = "N4" ∧
      (∀ c ∈ numberPassed, ¬ c.Passes g.next.1) ∧ g.next.1 ∉ names := by
  have hstem : Spelling.isStem "N".toList = true := by decide
  cases hrun : (ofStem "N").run numberPassed with
  | mk names g =>
    obtain ⟨_, _, _, _, _, _, _, _, _, hpassed, hnames⟩ := run_fresh hstem numberPassed hrun
    refine ⟨hstem, names, g, rfl, ?_, ?_, hpassed, hnames⟩
    · rw [show names = ((ofStem "N").run numberPassed).1 by rw [hrun]]
      decide
    · rw [show g = ((ofStem "N").run numberPassed).2 by rw [hrun]]
      decide

end FreshNames

end SymbolicXor
