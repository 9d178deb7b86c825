import Mathlib.Logic.Relation
import SymbolicXor.Proofs.Freshness
import SymbolicXor.Proofs.Layers
import SymbolicXor.Unification.Purification

/-!
# Purified problems

A purifier goes from state to state by naming sums. Every sum that is named speaks of variables
known before, so a substitution extends to the new names, and the definitions hold under the
extension; where the definitions hold, a purified term has the same instance as the term that it
came from. So purification neither gains solutions nor, up to the new names, loses any.
-/

namespace SymbolicXor

open Term Substitution

namespace Purifier

/-- A kind of variables, relative to a generator of names: variables stay of the kind when a name is
generated, and the new variable is of the kind. -/
structure Kind (Q : FreshNames → Variable → Prop) : Prop where
  /-- No variable ceases to be of the kind. -/
  keep : ∀ {g : FreshNames} {v}, Q g v → Q g.nextVariable.2 v
  /-- A new variable is of the kind. -/
  new : ∀ g : FreshNames, Q g.nextVariable.2 g.nextVariable.1

/-- All variables. -/
theorem kind_any : Kind fun _ _ => True := ⟨fun _ => trivial, fun _ => trivial⟩

/-- Among some variables with all unsorted ones, those whose names are reserved. -/
theorem kind_among {S : Variable → Prop} (hS : ∀ v, v.sort = none → S v) :
    Kind fun g v => v.symbol ∈ g.reserved ∧ S v where
  keep h := ⟨List.mem_cons_of_mem _ h.1, h.2⟩
  new g := ⟨List.mem_cons_self, hS _ g.sort_nextVariable⟩

/-- The variables whose names are reserved. -/
theorem kind_reserved : Kind fun g v => v.symbol ∈ g.reserved :=
  ⟨List.mem_cons_of_mem _, fun _ => List.mem_cons_self⟩

/-- The unsorted variables whose names are reserved. -/
theorem kind_unsorted : Kind fun g v => v.symbol ∈ g.reserved ∧ v.sort = none :=
  kind_among fun _ => id

/-- The purifier after giving a fresh name to a term. -/
def introduce (p : Purifier) (t : Term) : Purifier :=
  { fresh := p.fresh.nextVariable.2, named := p.named ++ [(p.fresh.nextVariable.1, t)] }

/-- The variables that name sums, in the order in which they were introduced. -/
def names (p : Purifier) : List Variable := p.named.map Prod.fst

theorem mem_names_introduce {p : Purifier} {t : Term} {v : Variable} :
    v ∈ (p.introduce t).names ↔ v ∈ p.names ∨ v = p.fresh.nextVariable.1 := by
  simp [names, introduce]

/-- A kind of terms, relative to a purifier: names are of the kind from when they are introduced,
and terms of the kind are purified to terms of the kind. -/
structure TermKind (K : Purifier → Term → Prop) : Prop where
  /-- No term ceases to be of the kind. -/
  keep : ∀ {p : Purifier} {s t : Term}, K p t → K (p.introduce s) t
  /-- A new name is of the kind. -/
  new : ∀ (p : Purifier) (s : Term), K (p.introduce s) (.var p.fresh.nextVariable.1)
  /-- Arguments and summands are of the kind. -/
  args : ∀ {p : Purifier} {t : Term}, K p t → ∀ u ∈ t.args, K p u
  /-- Arguments of the kind may be given to a symbol in the place of as many others. -/
  app : ∀ {p : Purifier} {f : FunctionSymbol} {ts us : List Term}, K p (.app f ts) →
    us.length = ts.length → (∀ u ∈ us, K p u) → K p (.app f us)
  /-- Sums of terms of the kind are of the kind. -/
  xor : ∀ {p : Purifier} {us : List Term}, (∀ u ∈ us, K p u) → K p (.xor us)

/-- Terms over variables of which more are admitted when a name is introduced. -/
theorem termKind_vars {R : Purifier → Variable → Prop}
    (keep : ∀ {p : Purifier} {s : Term} {v : Variable}, R p v → R (p.introduce s) v)
    (new : ∀ (p : Purifier) (s : Term), R (p.introduce s) p.fresh.nextVariable.1) :
    TermKind fun p t => ∀ v ∈ t.vars, R p v where
  keep h v hv := keep (h v hv)
  new p s v hv := List.mem_singleton.1 (vars_var _ ▸ hv) ▸ new p s
  args h u hu v hv := h v (mem_vars_of_mem_args hu hv)
  app _ _ h v hv := by
    rw [vars_app] at hv
    obtain ⟨u, hu, hvu⟩ := List.mem_flatMap.1 hv
    exact h u hu v hvu
  xor h v hv := by
    obtain ⟨u, hu, hvu⟩ := mem_vars_xor hv
    exact h u hu v hvu

/-- Terms over variables of a kind. -/
theorem Kind.terms {Q : FreshNames → Variable → Prop} (hQ : Kind Q) :
    TermKind fun p t => ∀ v ∈ t.vars, Q p.fresh v :=
  termKind_vars hQ.keep fun p _ => hQ.new p.fresh

/-- Terms over some variables and the names. -/
theorem termKind_names (P : Variable → Prop) :
    TermKind fun p t => ∀ v ∈ t.vars, P v ∨ v ∈ p.names := by
  refine termKind_vars (fun hv => hv.imp_right fun hn => ?_) fun p s => Or.inr ?_
  · exact mem_names_introduce.2 (Or.inl hn)
  · exact mem_names_introduce.2 (Or.inr rfl)

theorem termKind_respectsArity : TermKind fun _ => RespectsArity where
  keep := id
  new _ _ := respectsArity_var _
  args := Everywhere.args
  app h hlen hus :=
    (respectsArity_app _ _).2 ⟨hlen.trans ((respectsArity_app _ _).1 h).1, hus⟩
  xor := respectsArity_xor

theorem termKind_any : TermKind fun _ _ => True where
  keep _ := trivial
  new _ _ := trivial
  args _ _ _ := trivial
  app _ _ _ := trivial
  xor _ := trivial

theorem TermKind.and {K L : Purifier → Term → Prop} (hK : TermKind K) (hL : TermKind L) :
    TermKind fun p t => K p t ∧ L p t where
  keep h := ⟨hK.keep h.1, hL.keep h.2⟩
  new p s := ⟨hK.new p s, hL.new p s⟩
  args h u hu := ⟨hK.args h.1 u hu, hL.args h.2 u hu⟩
  app h hlen hus :=
    ⟨hK.app h.1 hlen fun u hu => (hus u hu).1, hL.app h.2 hlen fun u hu => (hus u hu).2⟩
  xor h := ⟨hK.xor fun u hu => (h u hu).1, hL.xor fun u hu => (h u hu).2⟩

/-- A canonical term of a kind without a sum below a function symbol. -/
structure Admits (K : Purifier → Term → Prop) (p : Purifier) (t : Term) : Prop where
  /-- It is canonical. -/
  canonical : t.Canonical
  /-- Its summands have no sums. -/
  layered : t.Layered
  /-- It is of the kind. -/
  kind : K p t

/-- One purifier comes from another by naming terms of a kind. -/
def Extends (K : Purifier → Term → Prop) : Purifier → Purifier → Prop :=
  Relation.ReflTransGen fun p q => ∃ t, p.Admits K t ∧ q = p.introduce t

/-- The terms that are named, and their names, are of the kind. -/
def Sound (K : Purifier → Term → Prop) (p : Purifier) : Prop :=
  ∀ n ∈ p.named, K p (.var n.1) ∧ p.Admits K n.2

variable {K : Purifier → Term → Prop} {p q r : Purifier} {θ : Substitution}

theorem solves_definitions_introduce {t : Term} : θ.Solves (p.introduce t).definitions ↔
    θ.Solves p.definitions ∧ θ.lookup p.fresh.nextVariable.1 = θ.apply t := by
  simp [definitions, introduce, Solves, or_imp, forall_and]

/-- Reserved names stay reserved. -/
theorem Extends.reserved (h : p.Extends K q) {n : Name} (hn : n ∈ p.fresh.reserved) :
    n ∈ q.fresh.reserved := by
  induction h with
  | refl => exact hn
  | tail _ hstep ih =>
    obtain ⟨t, _, rfl⟩ := hstep
    exact List.mem_cons_of_mem _ ih

/-- Names that were introduced had not been reserved. -/
theorem Extends.not_reserved (h : p.Extends K q) {v : Variable} (hv : v ∈ q.names) :
    v ∈ p.names ∨ v.symbol ∉ p.fresh.reserved := by
  induction h with
  | refl => exact Or.inl hv
  | tail hpr hstep ih =>
    obtain ⟨t, _, rfl⟩ := hstep
    rcases mem_names_introduce.1 hv with hv | rfl
    · exact ih hv
    · exact Or.inr fun hn => FreshNames.symbol_nextVariable_not_mem _ (Extends.reserved hpr hn)

theorem Extends.kind (hK : TermKind K) (h : p.Extends K q) {t : Term} (ht : K p t) : K q t := by
  induction h with
  | refl => exact ht
  | tail _ hstep ih =>
    obtain ⟨s, _, rfl⟩ := hstep
    exact hK.keep ih

theorem Extends.admits (hK : TermKind K) (h : p.Extends K q) {t : Term} (ht : p.Admits K t) :
    q.Admits K t :=
  ⟨ht.canonical, ht.layered, h.kind hK ht.kind⟩

theorem Extends.solves (h : p.Extends K q) (hθ : θ.Solves q.definitions) :
    θ.Solves p.definitions := by
  induction h with
  | refl => exact hθ
  | tail _ hstep ih =>
    obtain ⟨t, _, rfl⟩ := hstep
    exact ih (solves_definitions_introduce.1 hθ).1

theorem extends_introduce {t : Term} (ht : p.Admits K t) : p.Extends K (p.introduce t) :=
  .single ⟨t, ht, rfl⟩

theorem Sound.extends (hK : TermKind K) (hp : p.Sound K) (h : p.Extends K q) : q.Sound K := by
  induction h with
  | refl => exact hp
  | @tail q _ _ hstep ih =>
    obtain ⟨t, ht, rfl⟩ := hstep
    have hone := extends_introduce ht
    intro n hn
    rcases List.mem_append.1 hn with hn | hn
    · exact ⟨hone.kind hK (ih n hn).1, hone.admits hK (ih n hn).2⟩
    · rw [List.mem_singleton.1 hn]
      exact ⟨hK.new q t, hone.admits hK ht⟩

/-- The purifier reserves more names, if any, when it goes through a term. -/
def Reserves (t : Term) : Prop :=
  ∀ p : Purifier, p.fresh.reserved ⊆ (p.term t).1.fresh.reserved

theorem reserved_name (p : Purifier) (t : Term) :
    p.fresh.reserved ⊆ (p.name t).1.fresh.reserved := by
  unfold name
  split
  · split
    · exact List.Subset.refl _
    · exact List.subset_cons_self _ _
  · exact List.Subset.refl _

theorem reserved_arguments {ts : List Term} (ih : ∀ t ∈ ts, Reserves t) (p : Purifier) :
    p.fresh.reserved ⊆ (p.arguments ts).1.fresh.reserved := by
  induction ts generalizing p with
  | nil => exact List.Subset.refl _
  | cons t ts ihs =>
    have hrest (q : Purifier) := ihs (fun s hs => ih s (List.mem_cons_of_mem _ hs)) q
    have ht := ih t List.mem_cons_self p
    simp only [arguments]
    split
    · exact List.Subset.trans ht (List.Subset.trans (reserved_name _ _) (hrest _))
    · exact List.Subset.trans ht (hrest _)

theorem reserved_summands {ts : List Term} (ih : ∀ t ∈ ts, Reserves t) (p : Purifier) :
    p.fresh.reserved ⊆ (p.summands ts).1.fresh.reserved := by
  induction ts generalizing p with
  | nil => exact List.Subset.refl _
  | cons t ts ihs =>
    have hrest := ihs (fun s hs => ih s (List.mem_cons_of_mem _ hs)) (p.term t).1
    exact List.Subset.trans (ih t List.mem_cons_self p) hrest

theorem reserves (t : Term) : Reserves t := by
  induction t using Term.induction with
  | var v => exact fun p => List.Subset.refl _
  | const c => exact fun p => List.Subset.refl _
  | app f ts ih => exact reserved_arguments ih
  | sum ts ih => exact reserved_summands ih

/-- Names stay reserved while the purifier goes through equations. -/
theorem reserved_equations (p : Purifier) (es : List Equation) :
    p.fresh.reserved ⊆ (p.equations es).1.fresh.reserved := by
  induction es generalizing p with
  | nil => exact List.Subset.refl _
  | cons e es ih =>
    have hl := reserves e.left p
    have hr := reserves e.right (p.term e.left).1
    exact List.Subset.trans hl (List.Subset.trans hr (ih _))

/-- Two substitutions agree on all variables whose names are reserved. -/
def AgreeOn (g : FreshNames) (θ ρ : Substitution) : Prop :=
  ∀ v : Variable, v.symbol ∈ g.reserved → ρ.lookup v = θ.lookup v

theorem AgreeOn.apply {g : FreshNames} {ρ : Substitution} (h : AgreeOn g θ ρ) {t : Term}
    (ht : ∀ v ∈ t.vars, v.symbol ∈ g.reserved) : ρ.apply t = θ.apply t :=
  apply_congr fun v hv => h v (ht v hv)

/-- Substitutions that differ at new names only agree on the names that had been reserved. -/
theorem agreeOn_of_agree_off_names (hpq : p.Extends K q) (hp : p.names = []) {ρ : Substitution}
    (h : ∀ v ∉ q.names, ρ.lookup v = θ.lookup v) : AgreeOn p.fresh θ ρ := by
  refine fun v hv => h v fun hname => ?_
  rcases hpq.not_reserved hname with hold | hnew
  · rw [hp] at hold
    cases hold
  · exact hnew hv

/-- The names in terms of a kind are reserved. -/
def Reserving (K : Purifier → Term → Prop) : Prop :=
  ∀ {p : Purifier} {t : Term}, K p t → ∀ v ∈ t.vars, v.symbol ∈ p.fresh.reserved

/-- A solution of the definitions extends to the name of one more term. -/
theorem exists_extension_introduce (hres : Reserving K) (hp : p.Sound K) {t : Term}
    (ht : p.Admits K t) (hθ : θ.Into Canonical) (h : θ.Solves p.definitions) :
    ∃ ρ : Substitution, ρ.Into Canonical ∧ ρ.Solves (p.introduce t).definitions ∧
      ∀ v, v ≠ p.fresh.nextVariable.1 → ρ.lookup v = θ.lookup v := by
  have hother (v : Variable) (hv : v ≠ p.fresh.nextVariable.1) :
      (bind θ p.fresh.nextVariable.1 (θ.apply t)).lookup v = θ.lookup v := by
    rw [lookup_bind, if_neg hv]
  have hagree : AgreeOn p.fresh θ (bind θ p.fresh.nextVariable.1 (θ.apply t)) := by
    refine fun v hv => hother v ?_
    rintro rfl
    exact p.fresh.symbol_nextVariable_not_mem hv
  refine ⟨_, canonical_bind hθ _ (canonical_apply hθ t), ?_, hother⟩
  refine solves_definitions_introduce.2 ⟨?_, ?_⟩
  · intro e he
    obtain ⟨n, hn, rfl⟩ := List.mem_map.1 he
    obtain ⟨hname, hterm⟩ := hp n hn
    rw [hagree.apply (hres hname), hagree.apply (hres hterm.kind)]
    exact h _ he
  · rw [lookup_bind, if_pos rfl, hagree.apply (hres ht.kind)]

/-- A solution of the definitions extends to all names introduced later, and stays as it is at all
other variables. -/
theorem exists_extension (hK : TermKind K) (hres : Reserving K) (hp : p.Sound K)
    (hpq : p.Extends K q) (hθ : θ.Into Canonical) (h : θ.Solves p.definitions) :
    ∃ ρ : Substitution, ρ.Into Canonical ∧ ρ.Solves q.definitions ∧
      ∀ v, v ∈ p.names ∨ v ∉ q.names → ρ.lookup v = θ.lookup v := by
  induction hpq with
  | refl => exact ⟨θ, hθ, h, fun _ _ => rfl⟩
  | @tail r _ hpr hstep ih =>
    obtain ⟨t, ht, rfl⟩ := hstep
    obtain ⟨ρ, hρ, hsolves, hagree⟩ := ih
    obtain ⟨ρ', hρ', hsolves', hother⟩ :=
      exists_extension_introduce hres (hp.extends hK hpr) ht hρ hsolves
    refine ⟨ρ', hρ', hsolves', fun v hv => ?_⟩
    rw [mem_names_introduce, not_or] at hv
    rw [hother v, hagree v (hv.imp_right And.left)]
    rintro rfl
    refine hv.elim (fun hold => ?_) fun hnew => hnew.2 rfl
    obtain ⟨n, hn, hname⟩ := List.mem_map.1 hold
    have hsymbol := Extends.reserved hpr (hres (hp n hn).1 n.1 (by simp))
    rw [hname] at hsymbol
    exact r.fresh.symbol_nextVariable_not_mem hsymbol

/-- A purified term: it is layered and of a kind, and has the same instances wherever the
definitions hold. -/
structure Purifies (K : Purifier → Term → Prop) (p q : Purifier) (t u : Term) : Prop where
  /-- Only names are added. -/
  extension : p.Extends K q
  /-- The new term is layered and of the kind. -/
  admits : q.Admits K u
  /-- Both terms have the same instances under solutions of the definitions. -/
  same : ∀ θ : Substitution, θ.Into Canonical → θ.Solves q.definitions → θ.apply u = θ.apply t

/-- The purified terms of a list. -/
structure PurifiesAll (K : Purifier → Term → Prop) (p q : Purifier) (ts us : List Term) :
    Prop where
  /-- Only names are added. -/
  extension : p.Extends K q
  /-- There are as many terms as before. -/
  length_eq : us.length = ts.length
  /-- The new terms are layered and of the kind. -/
  admits : ∀ u ∈ us, q.Admits K u
  /-- The terms have the same instances under solutions of the definitions. -/
  same : ∀ θ : Substitution, θ.Into Canonical → θ.Solves q.definitions →
    us.map θ.apply = ts.map θ.apply

theorem PurifiesAll.nil : p.PurifiesAll K p [] [] where
  extension := .refl
  length_eq := rfl
  admits _ hu := absurd hu List.not_mem_nil
  same _ _ _ := rfl

theorem PurifiesAll.cons (hK : TermKind K) {t u : Term} {ts us : List Term}
    (h : p.Purifies K q t u) (hs : q.PurifiesAll K r ts us) :
    p.PurifiesAll K r (t :: ts) (u :: us) where
  extension := h.extension.trans hs.extension
  length_eq := by rw [List.length_cons, List.length_cons, hs.length_eq]
  admits := List.forall_mem_cons.2 ⟨hs.extension.admits hK h.admits, hs.admits⟩
  same θ hθ hsolves := by
    rw [List.map_cons, List.map_cons, h.same θ hθ (hs.extension.solves hsolves),
      hs.same θ hθ hsolves]

/-- A term that is purified twice is purified. -/
theorem Purifies.trans {s t u : Term} (h : p.Purifies K q s t) (h' : q.Purifies K r t u) :
    p.Purifies K r s u where
  extension := h.extension.trans h'.extension
  admits := h'.admits
  same θ hθ hsolves := by
    rw [h'.same θ hθ hsolves, h.same θ hθ (h'.extension.solves hsolves)]

/-- A variable of a kind is admitted. -/
theorem admits_var {v : Variable} (hv : K p (.var v)) : p.Admits K (.var v) :=
  ⟨canonical_var v, layered_of_sumFree (sumFree_var v), hv⟩

/-- Naming a term keeps its instances, and leaves no sum. -/
theorem purifies_name (hK : TermKind K) (hp : p.Sound K) {t : Term}
    (ht : p.Admits K t) :
    p.Purifies K (p.name t).1 t (p.name t).2 ∧ (p.name t).2.isSum = false := by
  unfold name
  split
  · split
    · rename_i v t' hfind
      have hmem := List.mem_of_find?_eq_some hfind
      have heq : t' = t := by simpa using List.find?_some hfind
      subst heq
      refine ⟨⟨.refl, admits_var (hp _ hmem).1, fun θ _ hsolves => ?_⟩, rfl⟩
      exact hsolves ⟨.var v, t'⟩ (List.mem_map.2 ⟨_, hmem, rfl⟩)
    · refine ⟨⟨extends_introduce ht, admits_var (hK.new p t), fun θ _ hsolves => ?_⟩, rfl⟩
      exact (solves_definitions_introduce.1 hsolves).2
  · rename_i hs
    exact ⟨⟨.refl, ht, fun _ _ _ => rfl⟩, by simpa using hs⟩

/-- A term that can be purified: it is canonical and of the kind. -/
structure Purifiable (K : Purifier → Term → Prop) (p : Purifier) (t : Term) : Prop where
  /-- It is canonical. -/
  canonical : t.Canonical
  /-- It is of the kind. -/
  kind : K p t

theorem Purifiable.extends (hK : TermKind K) {t : Term} (h : p.Purifiable K t)
    (hpq : p.Extends K q) : q.Purifiable K t :=
  ⟨h.canonical, hpq.kind hK h.kind⟩

theorem Purifiable.args (hK : TermKind K) {t : Term} (h : p.Purifiable K t) :
    ∀ u ∈ t.args, p.Purifiable K u :=
  fun u hu => ⟨Everywhere.args h.canonical u hu, hK.args h.kind u hu⟩

/-- The purifier purifies a term of the kind from any state. -/
def Handles (K : Purifier → Term → Prop) (t : Term) : Prop :=
  ∀ p : Purifier, p.Sound K → p.Purifiable K t → p.Purifies K (p.term t).1 t (p.term t).2

/-- A term that is no sum is no sum when purified. -/
theorem isSum_term {t : Term} (h : t.isSum = false) : (p.term t).2.isSum = false := by
  cases t with
  | sum ts => simp [isSum] at h
  | _ => simp [term, isSum]

theorem purifiesAll_summands (hK : TermKind K) {ts : List Term}
    (ih : ∀ t ∈ ts, Handles K t) (hp : p.Sound K) (hts : ∀ t ∈ ts, p.Purifiable K t) :
    p.PurifiesAll K (p.summands ts).1 ts (p.summands ts).2 := by
  induction ts generalizing p with
  | nil => exact .nil
  | cons t ts ihs =>
    have ht := ih t List.mem_cons_self p hp (hts t List.mem_cons_self)
    simp only [summands]
    refine .cons hK ht (ihs (fun s hs => ih s (List.mem_cons_of_mem _ hs))
      (hp.extends hK ht.extension) fun s hs => ?_)
    exact (hts s (List.mem_cons_of_mem _ hs)).extends hK ht.extension

/-- No argument is a sum after purification. -/
theorem purifiesAll_arguments (hK : TermKind K) {ts : List Term}
    (ih : ∀ t ∈ ts, Handles K t) (hp : p.Sound K) (hts : ∀ t ∈ ts, p.Purifiable K t) :
    p.PurifiesAll K (p.arguments ts).1 ts (p.arguments ts).2 ∧
      ∀ u ∈ (p.arguments ts).2, u.isSum = false := by
  induction ts generalizing p with
  | nil => exact ⟨.nil, fun _ hu => absurd hu List.not_mem_nil⟩
  | cons t ts ihs =>
    have ht := ih t List.mem_cons_self p hp (hts t List.mem_cons_self)
    have hq := hp.extends hK ht.extension
    -- What stands in the place of `t`, and the purifier after it.
    obtain ⟨q, u, hqu, hpu, hu⟩ : ∃ q u, (if t.isSum then (p.term t).1.name (p.term t).2
        else p.term t) = (q, u) ∧ p.Purifies K q t u ∧ u.isSum = false := by
      by_cases hs : t.isSum = true
      · have hname := purifies_name hK hq ht.admits
        exact ⟨_, _, by rw [if_pos hs], ht.trans hname.1, hname.2⟩
      · rw [if_neg hs]
        exact ⟨_, _, rfl, ht, isSum_term (by simpa using hs)⟩
    have hrest := ihs (fun s hs => ih s (List.mem_cons_of_mem _ hs))
      (hp.extends hK hpu.extension) fun s hs =>
        (hts s (List.mem_cons_of_mem _ hs)).extends hK hpu.extension
    simp only [arguments, hqu]
    exact ⟨.cons hK hpu hrest.1, List.forall_mem_cons.2 ⟨hu, hrest.2⟩⟩

/-- Every term is handled. -/
theorem handles (hK : TermKind K) (t : Term) : Handles K t := by
  induction t using Term.induction with
  | var v => exact fun p _ ht => ⟨.refl, admits_var ht.kind, fun _ _ _ => rfl⟩
  | const c =>
    intro p _ ht
    exact ⟨.refl, ⟨canonical_const c, layered_of_sumFree (sumFree_const c), ht.kind⟩,
      fun _ _ _ => rfl⟩
  | app f ts ih =>
    intro p hp ht
    obtain ⟨hall, hsums⟩ := purifiesAll_arguments hK ih hp (ht.args hK)
    simp only [term]
    refine ⟨hall.extension, ⟨?_, layered_of_sumFree ?_, ?_⟩, fun θ hθ hsolves => ?_⟩
    · exact (canonical_app _ _).2 fun u hu => (hall.admits u hu).canonical
    · exact (sumFree_app _ _).2 fun u hu => (hall.admits u hu).layered.sumFree (hsums u hu)
    · exact hK.app (hall.extension.kind hK ht.kind) hall.length_eq
        fun u hu => (hall.admits u hu).kind
    · rw [apply_app, apply_app, hall.same θ hθ hsolves]
  | sum ts ih =>
    intro p hp ht
    have hall := purifiesAll_summands hK ih hp (ht.args hK)
    have hcan : ∀ u ∈ (p.summands ts).2, u.Canonical := fun u hu => (hall.admits u hu).canonical
    simp only [term]
    refine ⟨hall.extension, ⟨canonical_xor hcan, ?_, ?_⟩, fun θ hθ hsolves => ?_⟩
    · exact layered_xor hcan fun u hu => (hall.admits u hu).layered
    · exact hK.xor fun u hu => (hall.admits u hu).kind
    · rw [apply_xor hθ hcan, apply_sum, hall.same θ hθ hsolves]

/-- Purified equations: they are layered and have the same solutions among the solutions of the
definitions. -/
structure PurifiesEquations (K : Purifier → Term → Prop) (p q : Purifier)
    (es ds : List Equation) : Prop where
  /-- Only names are added. -/
  extension : p.Extends K q
  /-- The new equations are between layered terms of the kind. -/
  admits : ∀ d ∈ ds, d.Both (q.Admits K)
  /-- Solutions of the definitions solve either both lists or none. -/
  same : ∀ θ : Substitution, θ.Into Canonical → θ.Solves q.definitions →
    (θ.Solves ds ↔ θ.Solves es)

theorem purifiesEquations (hK : TermKind K) {es : List Equation}
    (hp : p.Sound K) (hes : ∀ e ∈ es, e.Both (p.Purifiable K)) :
    p.PurifiesEquations K (p.equations es).1 es (p.equations es).2 := by
  induction es generalizing p with
  | nil => exact ⟨.refl, fun _ hd => absurd hd List.not_mem_nil, fun _ _ _ => Iff.rfl⟩
  | cons e es ih =>
    have he := hes e List.mem_cons_self
    have hl := handles hK e.left p hp he.1
    have hq := hp.extends hK hl.extension
    have hr := handles hK e.right _ hq (he.2.extends hK hl.extension)
    have hlr := hl.extension.trans hr.extension
    have hrest := ih (hp.extends hK hlr) fun d hd =>
      ⟨(hes d (List.mem_cons_of_mem _ hd)).1.extends hK hlr,
        (hes d (List.mem_cons_of_mem _ hd)).2.extends hK hlr⟩
    simp only [equations]
    refine ⟨hlr.trans hrest.extension, List.forall_mem_cons.2 ⟨⟨?_, ?_⟩, hrest.admits⟩, ?_⟩
    · exact hrest.extension.admits hK (hr.extension.admits hK hl.admits)
    · exact hrest.extension.admits hK hr.admits
    · intro θ hθ hsolves
      have hmid := hrest.extension.solves hsolves
      rw [Solves, List.forall_mem_cons, Solves, List.forall_mem_cons,
        hl.same θ hθ (hr.extension.solves hmid), hr.same θ hθ hmid]
      exact and_congr_right fun _ => hrest.same θ hθ hsolves

end Purifier

section Purify

open Purifier

variable {es : List Equation} {fresh : FreshNames} {θ : Substitution}

/-- The purifier after it has been through the equations. -/
def purifier (es : List Equation) (fresh : FreshNames) : Purifier :=
  (Purifier.equations { fresh } es).1

/-- The equations that define the names introduced by purification. -/
def nameDefinitions (es : List Equation) (fresh : FreshNames) : List Equation :=
  (purifier es fresh).definitions

/-- The purified equations, without the definitions of the names. -/
def purifiedEquations (es : List Equation) (fresh : FreshNames) : List Equation :=
  (Purifier.equations { fresh } es).2

theorem purify_eq (es : List Equation) (fresh : FreshNames) : purify es fresh =
    (purifiedEquations es fresh ++ nameDefinitions es fresh, (purifier es fresh).fresh) := rfl

theorem sound_start (K : Purifier → Term → Prop) (fresh : FreshNames) : Sound K { fresh } :=
  fun _ hn => absurd hn List.not_mem_nil

section TermKind

variable {K : Purifier → Term → Prop} (hK : TermKind K) (hc : ∀ e ∈ es, e.Both Canonical)
  (hk : ∀ e ∈ es, e.Both (K { fresh }))

include hK hc hk

theorem purifies_purifier :
    PurifiesEquations K { fresh } (purifier es fresh) es (purifiedEquations es fresh) :=
  purifiesEquations hK (sound_start K fresh) fun e he =>
    ⟨⟨(hc e he).1, (hk e he).1⟩, ⟨(hc e he).2, (hk e he).2⟩⟩

/-- Every purified equation is between layered terms of the kind. -/
theorem both_admits_purify : ∀ e ∈ (purify es fresh).1, e.Both ((purifier es fresh).Admits K) := by
  have h := purifies_purifier hK hc hk
  rw [purify_eq]
  intro e he
  rcases List.mem_append.1 he with he | he
  · exact h.admits e he
  · obtain ⟨n, hn, rfl⟩ := List.mem_map.1 he
    obtain ⟨hname, hterm⟩ := (sound_start K fresh).extends hK h.extension n hn
    exact ⟨admits_var hname, hterm⟩

end TermKind

/-- Whatever the kinds of their terms, canonical equations are purified. -/
theorem purifies_canonical (hc : ∀ e ∈ es, e.Both Canonical) (fresh : FreshNames) :
    PurifiesEquations (fun _ _ => True) { fresh } (purifier es fresh) es
      (purifiedEquations es fresh) :=
  purifies_purifier termKind_any hc fun _ _ => ⟨trivial, trivial⟩

/-- A substitution solves the purified problem exactly if it solves the problem and gives every new
name the term that it stands for. -/
theorem solves_purify (hc : ∀ e ∈ es, e.Both Canonical) (hθ : θ.Into Canonical) :
    θ.Solves (purify es fresh).1 ↔ θ.Solves es ∧ θ.Solves (nameDefinitions es fresh) := by
  have h := purifies_canonical hc fresh
  rw [purify_eq, Solves, List.forall_mem_append]
  exact and_congr_left fun hdefs => h.same θ hθ hdefs

/-- A problem has variables of one kind only. -/
def Speaks (Q : FreshNames → Variable → Prop) (fresh : FreshNames) (es : List Equation) : Prop :=
  ∀ e ∈ es, ∀ v ∈ e.vars, Q fresh v

theorem both_vars {e : Equation} {P : Variable → Prop} (h : ∀ v ∈ e.vars, P v) :
    e.Both fun t => ∀ v ∈ t.vars, P v :=
  ⟨fun v hv => h v (List.mem_append_left _ hv), fun v hv => h v (List.mem_append_right _ hv)⟩

/-- Every purified equation is between layered terms over variables that are admitted, if the
variables of the problem are. -/
theorem both_purify {R : Purifier → Variable → Prop} (hR : TermKind fun p t => ∀ v ∈ t.vars, R p v)
    (hc : ∀ e ∈ es, e.Both Canonical) (ha : ∀ e ∈ es, e.Both RespectsArity)
    (hs : ∀ e ∈ es, ∀ v ∈ e.vars, R { fresh } v) : ∀ e ∈ (purify es fresh).1,
      e.Both fun t => t.WellLayered ∧ ∀ v ∈ t.vars, R (purifier es fresh) v := by
  have hside {t : Term} (h : (purifier es fresh).Admits
      (fun p t => t.RespectsArity ∧ ∀ v ∈ t.vars, R p v) t) :
      t.WellLayered ∧ ∀ v ∈ t.vars, R (purifier es fresh) v :=
    ⟨⟨h.canonical, h.kind.1, h.layered⟩, h.kind.2⟩
  intro e he
  have hvars (e : Equation) (he : e ∈ es) := both_vars (hs e he)
  have hboth := both_admits_purify (termKind_respectsArity.and hR) hc
    (fun e he => ⟨⟨(ha e he).1, (hvars e he).1⟩, ⟨(ha e he).2, (hvars e he).2⟩⟩) e he
  exact ⟨hside hboth.1, hside hboth.2⟩

/-- Substitutions that differ at the names of sums only agree on the names that were reserved before
purification. -/
theorem agreeOn_purifier (hc : ∀ e ∈ es, e.Both Canonical) {ρ : Substitution}
    (h : ∀ v ∉ (purifier es fresh).names, ρ.lookup v = θ.lookup v) : AgreeOn fresh θ ρ :=
  agreeOn_of_agree_off_names (purifies_canonical hc fresh).extension rfl h

/-- Every solution of the problem extends to one of the purified problem, which differs from it at
the new names only. -/
theorem exists_solves_purify (hc : ∀ e ∈ es, e.Both Canonical)
    (hs : Speaks (fun g v => v.symbol ∈ g.reserved) fresh es) (hθ : θ.Into Canonical)
    (h : θ.Solves es) :
    ∃ ρ : Substitution, ρ.Into Canonical ∧ ρ.Solves (purify es fresh).1 ∧
      ∀ v ∉ (purifier es fresh).names, ρ.lookup v = θ.lookup v := by
  have hpur := purifies_purifier kind_reserved.terms hc fun e he => both_vars (hs e he)
  obtain ⟨ρ, hρ, hdefs, hagree⟩ := exists_extension kind_reserved.terms (fun h => h)
    (sound_start _ fresh) hpur.extension hθ fun e he => absurd he List.not_mem_nil
  have hoff (v : Variable) (hv : v ∉ (purifier es fresh).names) : ρ.lookup v = θ.lookup v :=
    hagree v (Or.inr hv)
  have hsame := agreeOn_purifier hc hoff
  refine ⟨ρ, hρ, (solves_purify hc hρ).2 ⟨fun e he => ?_, hdefs⟩, hoff⟩
  rw [hsame.apply (both_vars (hs e he)).1, hsame.apply (both_vars (hs e he)).2]
  exact h e he

end Purify

end SymbolicXor
