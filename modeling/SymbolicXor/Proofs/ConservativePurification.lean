import SymbolicXor.Proofs.PurifiedProblem
import SymbolicXor.Proofs.Samples
import SymbolicXor.Unification.Modulo

/-!
# Purification is a conservative extension

A name is given to a sum only after the names that occur in the sum, so the definitions of the
names can be read one after the other: once the variables of the problem have values, every name
has exactly one value that its definition allows. A solution of the problem is a solution of the
purified problem for exactly one choice of values for the names.
-/

namespace SymbolicXor

open Term Substitution

/-- Below an application that occurs in a layered canonical term, there is no sum. -/
theorem Term.Layered.sumFree_of_mem_subterms {t : Term} (hl : t.Layered) (hc : t.Canonical)
    {f : FunctionSymbol} {ts : List Term} (h : .app f ts ∈ t.subterms) : (app f ts).SumFree := by
  have below {a : Term} (ha : a.SumFree) (hmem : .app f ts ∈ a.subterms) : (app f ts).SumFree :=
    fun s hs => ha s (mem_subterms_trans hmem hs)
  cases t with
  | sum us =>
    rw [subterms_sum, List.mem_cons, List.mem_flatMap] at h
    obtain heq | ⟨a, ha, hmem⟩ := h
    · cases heq
    · exact below (hl a ha) hmem
  | _ => exact below (hl.sumFree rfl) h

namespace Purifier

variable {K : Purifier → Term → Prop} {p q : Purifier} {θ ρ : Substitution}

/-- A purifier names sums in order: a name occurs neither in a sum that was named before it nor in
its own, and no name is given twice. -/
structure InOrder (p : Purifier) : Prop where
  /-- The names are different. -/
  nodup : p.names.Nodup
  /-- No name occurs in a sum named before. -/
  earlier : p.named.Pairwise fun m n => n.1 ∉ m.2.vars
  /-- No name occurs in its own sum. -/
  own : ∀ n ∈ p.named, n.1 ∉ n.2.vars

/-- Introducing a name keeps the order, because it occurs in no sum so far. -/
theorem InOrder.introduce (h : p.InOrder) (hres : Reserving K) (hp : p.Sound K) {t : Term}
    (ht : p.Admits K t) : (p.introduce t).InOrder := by
  have hnew {s : Term} (hs : K p s) : p.fresh.nextVariable.1 ∉ s.vars :=
    fun hv => p.fresh.symbol_nextVariable_not_mem (hres hs _ hv)
  refine ⟨?_, ?_, ?_⟩
  · have happend : (p.introduce t).names = p.names ++ [p.fresh.nextVariable.1] := List.map_append
    rw [happend, List.nodup_append]
    refine ⟨h.nodup, List.nodup_singleton _, fun v hv w hw => ?_⟩
    obtain ⟨n, hn, rfl⟩ := List.mem_map.1 hv
    rw [List.mem_singleton.1 hw]
    intro heq
    exact hnew (hp n hn).1 (by simp [heq])
  · refine List.pairwise_append.2 ⟨h.earlier, List.pairwise_singleton _ _, fun m hm n hn => ?_⟩
    rw [List.mem_singleton.1 hn]
    exact hnew (hp m hm).2.kind
  · refine List.forall_mem_append.2 ⟨h.own, List.forall_mem_singleton.2 ?_⟩
    exact hnew ht.kind

theorem InOrder.extends (h : p.InOrder) (hK : TermKind K) (hres : Reserving K) (hp : p.Sound K)
    (hpq : p.Extends K q) : q.InOrder := by
  induction hpq with
  | refl => exact h
  | tail hpr hstep ih =>
    obtain ⟨t, ht, rfl⟩ := hstep
    exact ih.introduce hres (hp.extends hK hpr) ht

/-- A name occurs only in sums that are named after it. -/
theorem InOrder.lt_of_mem_vars (h : p.InOrder) {j k : Nat} (hj : j < p.named.length)
    (hk : k < p.named.length) (hv : p.named[j].1 ∈ p.named[k].2.vars) : j < k := by
  rcases Nat.lt_trichotomy j k with hlt | heq | hgt
  · exact hlt
  · subst heq
    exact absurd hv (h.own _ (List.getElem_mem hj))
  · exact absurd hv (List.pairwise_iff_getElem.1 h.earlier k j hk hj hgt)

/-- Solutions of the definitions that agree on all other variables agree on the names. -/
theorem InOrder.lookup_eq (h : p.InOrder) (hθ : θ.Solves p.definitions)
    (hρ : ρ.Solves p.definitions) (hoff : ∀ v ∉ p.names, ρ.lookup v = θ.lookup v)
    (v : Variable) : ρ.lookup v = θ.lookup v := by
  -- The value of a name is determined by those of the names before it.
  have hname (k : Nat) : ∀ hk : k < p.named.length,
      ρ.lookup p.named[k].1 = θ.lookup p.named[k].1 := by
    induction k using Nat.strong_induction_on with
    | _ k ih =>
      intro hk
      have hdef : (⟨.var p.named[k].1, p.named[k].2⟩ : Equation) ∈ p.definitions :=
        List.mem_map.2 ⟨_, List.getElem_mem hk, rfl⟩
      have hsame : ρ.apply p.named[k].2 = θ.apply p.named[k].2 := by
        refine apply_congr fun w hw => ?_
        by_cases hmem : w ∈ p.names
        · obtain ⟨n, hn, rfl⟩ := List.mem_map.1 hmem
          obtain ⟨j, hj, rfl⟩ := List.getElem_of_mem hn
          exact ih j (h.lt_of_mem_vars hj hk hw) hj
        · exact hoff w hmem
      calc ρ.lookup p.named[k].1
          = ρ.apply p.named[k].2 := hρ _ hdef
        _ = θ.apply p.named[k].2 := hsame
        _ = θ.lookup p.named[k].1 := (hθ _ hdef).symm
  by_cases hmem : v ∈ p.names
  · obtain ⟨n, hn, rfl⟩ := List.mem_map.1 hmem
    obtain ⟨k, hk, rfl⟩ := List.getElem_of_mem hn
    exact hname k hk
  · exact hoff v hmem

end Purifier

section Purify

variable {es : List Equation} {g : FreshNames}

/-- The sums of a problem are named in order. -/
theorem inOrder_purifier (hc : ∀ e ∈ es, e.Both Canonical)
    (hs : Speaks (fun g v => v.symbol ∈ g.reserved) g es) : (purifier es g).InOrder := by
  have hpur := purifies_purifier Purifier.kind_reserved.terms hc fun e he => both_vars (hs e he)
  have hstart : Purifier.InOrder { fresh := g } :=
    ⟨List.nodup_nil, List.Pairwise.nil, fun _ hn => absurd hn List.not_mem_nil⟩
  exact hstart.extends Purifier.kind_reserved.terms (fun h => h) (sound_start _ g) hpur.extension

/-- A sum that is named has variables of the problem, and names given before. -/
theorem vars_of_named (hc : ∀ e ∈ es, e.Both Canonical) (horder : (purifier es g).InOrder) {k : Nat}
    {n : Variable × Term} (hn : (purifier es g).named[k]? = some n) :
    ∀ v ∈ n.2.vars, (∃ e ∈ es, v ∈ e.vars) ∨ v ∈ (purifier es g).names.take k := by
  obtain ⟨hk, rfl⟩ := List.getElem?_eq_some_iff.1 hn
  have hkind := Purifier.termKind_names fun v => ∃ e ∈ es, v ∈ e.vars
  have hboth (e : Equation) (he : e ∈ es) : e.Both fun t => ∀ v ∈ t.vars,
      (∃ e ∈ es, v ∈ e.vars) ∨ v ∈ Purifier.names { fresh := g } :=
    both_vars fun v hv => Or.inl ⟨e, he, hv⟩
  have hsound := (sound_start _ g).extends hkind (purifies_purifier hkind hc hboth).extension
  intro v hv
  refine ((hsound _ (List.getElem_mem hk)).2.kind v hv).imp_right fun hname => ?_
  obtain ⟨m, hm, rfl⟩ := List.mem_map.1 hname
  obtain ⟨j, hj, rfl⟩ := List.getElem_of_mem hm
  have hlt := horder.lt_of_mem_vars hj hk hv
  rw [Purifier.names, ← List.map_take]
  exact List.mem_map_of_mem (List.mem_take_iff_getElem.2 ⟨j, by omega, rfl⟩)

/-- A generator that reserves the names of a problem reserves those of its variables. -/
theorem speaks_of_symbols (hres : ∀ e ∈ es, ∀ n ∈ e.symbols, n ∈ g.reserved) :
    Speaks (fun g v => v.symbol ∈ g.reserved) g es := by
  intro e he v hv
  refine hres e he _ (List.mem_append.2 ?_)
  exact (List.mem_append.1 hv).imp symbol_mem_symbols symbol_mem_symbols

/-- Purification is a conservative extension. No application in its result has a sum below it; the
names of sums are new and different, and a sum that is named has only variables of the problem and
names given before; a solution of the purified problem is one of the problem; and a solution of the
problem becomes one of the purified problem by exactly one choice of values for the names. -/
theorem purify_conservative (hc : ∀ e ∈ es, e.Both Canonical)
    (hres : ∀ e ∈ es, ∀ n ∈ e.symbols, n ∈ g.reserved) :
    (∀ e ∈ (purify es g).1,
        e.Both fun t => ∀ f ts, .app f ts ∈ t.subterms → (app f ts).SumFree) ∧
      (purify es g).1 =
        purifiedEquations es g ++ (purifier es g).named.map (fun n => ⟨.var n.1, n.2⟩) ∧
      ((purifier es g).names.Nodup ∧ (∀ v ∈ (purifier es g).names, v.symbol ∉ g.reserved) ∧
        ∀ k n, (purifier es g).named[k]? = some n →
          ∀ v ∈ n.2.vars, (∃ e ∈ es, v ∈ e.vars) ∨ v ∈ (purifier es g).names.take k) ∧
      (∀ θ : Substitution, θ.Into Canonical → θ.Solves (purify es g).1 → θ.Solves es) ∧
      ∀ θ : Substitution, θ.Into Canonical → θ.Solves es →
        ∃ ρ : Substitution, ρ.Into Canonical ∧ ρ.Solves (purify es g).1 ∧
          (∀ v ∉ (purifier es g).names, ρ.lookup v = θ.lookup v) ∧
          ∀ ρ' : Substitution, ρ'.Into Canonical → ρ'.Solves (purify es g).1 →
            (∀ v ∉ (purifier es g).names, ρ'.lookup v = θ.lookup v) →
            ∀ v, ρ'.lookup v = ρ.lookup v := by
  have hs := speaks_of_symbols hres
  have horder := inOrder_purifier hc hs
  refine ⟨fun e he => ?_, rfl, ⟨horder.nodup, fun v hv => ?_, fun _ _ => vars_of_named hc horder⟩,
    fun θ hθ h => ((solves_purify hc hθ).1 h).1, fun θ hθ h => ?_⟩
  · obtain ⟨hl, hr⟩ := both_admits_purify Purifier.termKind_any hc
      (fun _ _ => ⟨trivial, trivial⟩) e he
    exact ⟨fun _ _ => hl.layered.sumFree_of_mem_subterms hl.canonical,
      fun _ _ => hr.layered.sumFree_of_mem_subterms hr.canonical⟩
  · exact ((purifies_canonical hc g).extension.not_reserved hv).resolve_left List.not_mem_nil
  · obtain ⟨ρ, hρ, hsolves, hoff⟩ := exists_solves_purify hc hs hθ h
    refine ⟨ρ, hρ, hsolves, hoff, fun ρ' hρ' hsolves' hoff' => ?_⟩
    refine horder.lookup_eq ((solves_purify hc hρ).1 hsolves).2
      ((solves_purify hc hρ').1 hsolves').2 fun v hv => ?_
    rw [hoff v hv, hoff' v hv]

end Purify

open Sample

/-- A sum that occurs twice, once within another sum. -/
def nestedSums : List Equation :=
  [⟨.app p [.sum [.var x, a], .app f [.sum [.var y, .app g [.sum [.var x, a]]]]], .var z⟩]

/-- The right side bound to the left one. -/
def nestedChoice : Substitution :=
  ⟨⟨[(z, .app p [.sum [.var x, a], .app f [.sum [.var y, .app g [.sum [.var x, a]]]]])], by decide⟩⟩

theorem purify_conservative_nestedSums :
    (∀ e ∈ nestedSums, e.Both Canonical) ∧
      (∀ e ∈ nestedSums, ∀ n ∈ e.symbols, n ∈ (FreshNames.forEquations nestedSums).reserved) ∧
      (purifier nestedSums (.forEquations nestedSums)).named.length = 2 ∧
      nestedChoice.Into Canonical ∧ nestedChoice.Solves nestedSums ∧
      ∃ ρ : Substitution, ρ.Solves (purify nestedSums (.forEquations nestedSums)).1 ∧
        ρ.lookup z = nestedChoice.lookup z := by
  have hc : ∀ e ∈ nestedSums, e.Both Canonical := by decide
  have hres : ∀ e ∈ nestedSums, ∀ n ∈ e.symbols,
      n ∈ (FreshNames.forEquations nestedSums).reserved := by decide
  have hlen : (purifier nestedSums (.forEquations nestedSums)).named.length = 2 := by cbv
  have hθ : nestedChoice.Into Canonical := by decide
  have h : nestedChoice.Solves nestedSums := by decide
  obtain ⟨_, _, ⟨_, hnew, _⟩, _, hextend⟩ := purify_conservative hc hres
  obtain ⟨ρ, _, hsolves, hoff, _⟩ := hextend nestedChoice hθ h
  refine ⟨hc, hres, hlen, hθ, h, ρ, hsolves, hoff z fun hz => hnew z hz ?_⟩
  decide

end SymbolicXor
