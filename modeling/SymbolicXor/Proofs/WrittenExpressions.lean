import SymbolicXor.Proofs.CancelledNeighbours
import SymbolicXor.Proofs.Samples
import SymbolicXor.Term.Application

/-!
# Canonical forms decide equality

Expressions as they are written, with binary sums in any arrangement, and the congruence that the
laws of exclusive or generate on them. Two expressions are congruent exactly if they have the same
canonical form. In one direction the laws hold for indicators; in the other every expression is
congruent to its canonical form read back as an expression.
-/

namespace SymbolicXor

/-- An expression as it is written: its sums are binary and in no particular form. -/
inductive Expression where
  /-- A variable. -/
  | var (v : Variable)
  /-- A constant. -/
  | const (c : Constant)
  /-- A free function symbol applied to arguments. -/
  | app (f : FunctionSymbol) (free : f.theory = .free) (args : List Expression)
  /-- The exclusive or of two expressions. -/
  | xor (left right : Expression)

namespace Expression

theorem isName_zero : Spelling.isName "0".toList = true := by decide

/-- Zero is the constant `0` without a sort. -/
def zero : Expression := const { symbol := ⟨"0", isName_zero⟩ }

/-- Induction on expressions, with the hypothesis for all arguments and both summands. -/
theorem induction {motive : Expression → Prop} (var : ∀ v, motive (.var v))
    (const : ∀ c, motive (.const c))
    (app : ∀ f h es, (∀ e ∈ es, motive e) → motive (.app f h es))
    (xor : ∀ e₁ e₂, motive e₁ → motive e₂ → motive (.xor e₁ e₂)) (e : Expression) : motive e := by
  cases e with
  | var v => exact var v
  | const c => exact const c
  | app f h es => exact app f h es fun d _ => induction var const app xor d
  | xor e₁ e₂ =>
    exact xor e₁ e₂ (induction var const app xor e₁) (induction var const app xor e₂)

/-- The sum of a list of expressions, nested to the right. -/
def sumOf (es : List Expression) : Expression := es.foldr xor zero

@[simp] theorem sumOf_nil : sumOf [] = zero := rfl

@[simp] theorem sumOf_cons (e : Expression) (es : List Expression) :
    sumOf (e :: es) = xor e (sumOf es) := rfl

/-- A symbol with arguments as the expression that is meant: a sum for the symbol of exclusive or, a
constant for a free symbol without arguments. -/
def application (f : FunctionSymbol) (es : List Expression) : Expression :=
  if free : f.theory = .free then
    if es = [] then const { symbol := f.symbol, sort := f.range } else app f free es
  else sumOf es

mutual

/-- The canonical form of an expression, built from the canonical forms of its parts. -/
def normalize : Expression → Term
  | var v => .var v
  | const c => .const c
  | app f _ es => .app f (normalizeAll es)
  | xor e₁ e₂ => .xor [normalize e₁, normalize e₂]

/-- The canonical forms of the expressions in a list. -/
def normalizeAll : List Expression → List Term
  | [] => []
  | e :: es => normalize e :: normalizeAll es

end

theorem normalizeAll_eq_map (es : List Expression) : normalizeAll es = es.map normalize := by
  induction es with
  | nil => rfl
  | cons e es ih => rw [normalizeAll, ih, List.map_cons]

@[simp] theorem normalize_zero : zero.normalize = .zero := rfl

@[simp] theorem normalize_app (f : FunctionSymbol) (h : f.theory = .free) (es : List Expression) :
    (app f h es).normalize = .app f (es.map normalize) := by
  rw [normalize, normalizeAll_eq_map]

theorem canonical_normalize (e : Expression) : e.normalize.Canonical := by
  induction e using Expression.induction with
  | var v => exact Term.canonical_var v
  | const c => exact Term.canonical_const c
  | app f h es ih =>
    rw [normalize_app, Term.canonical_app, List.forall_mem_map]
    exact ih
  | xor e₁ e₂ ih₁ ih₂ => exact Term.canonical_xor (Term.canonical_pair ih₁ ih₂)

/-- The congruence that is generated by the laws of exclusive or: sums are associative and
commutative, every expression cancels itself, and zero is neutral. -/
inductive Equal : Expression → Expression → Prop where
  | refl (a : Expression) : Equal a a
  | symm {a b : Expression} (h : Equal a b) : Equal b a
  | trans {a b c : Expression} (h : Equal a b) (h' : Equal b c) : Equal a c
  | assoc (a b c : Expression) : Equal (xor (xor a b) c) (xor a (xor b c))
  | comm (a b : Expression) : Equal (xor a b) (xor b a)
  | self (a : Expression) : Equal (xor a a) zero
  | neutral (a : Expression) : Equal (xor a zero) a
  | add {a b c d : Expression} (h : Equal a b) (h' : Equal c d) : Equal (xor a c) (xor b d)
  | argument {f : FunctionSymbol} (free : f.theory = .free) {a b : Expression}
      (before after : List Expression) (h : Equal a b) :
      Equal (app f free (before ++ a :: after)) (app f free (before ++ b :: after))

theorem vec_normalize_xor (a b : Expression) :
    Term.vec (xor a b).normalize = Term.vec a.normalize + Term.vec b.normalize :=
  Term.vec_xor_pair (canonical_normalize a) (canonical_normalize b)

/-- The sum of a list has the canonical sum of the canonical forms. -/
theorem normalize_sumOf (es : List Expression) :
    (sumOf es).normalize = .xor (es.map normalize) := by
  have hc : ∀ t ∈ es.map normalize, t.Canonical :=
    List.forall_mem_map.2 fun e _ => canonical_normalize e
  rw [← Term.vec_inj (canonical_normalize _) (Term.canonical_xor hc), Term.vec_xor hc]
  clear hc
  induction es with
  | nil => exact Term.vec_zero
  | cons e es ih =>
    rw [sumOf_cons, vec_normalize_xor, ih, List.map_cons, List.map_cons, List.sum_cons]

/-- Where the checked application accepts the canonical forms of arguments, it builds the canonical
form of the application. -/
theorem normalize_application {f : FunctionSymbol} {es : List Expression} {t : Term}
    (h : f.apply (es.map normalize) = .ok t) : (application f es).normalize = t := by
  cases hf : f.theory with
  | xor =>
    have hsum : application f es = sumOf es := by simp [application, hf]
    simp only [FunctionSymbol.apply, hf, Except.ok.injEq] at h
    rw [hsum, normalize_sumOf, h]
  | free =>
    simp only [FunctionSymbol.apply, hf, List.isEmpty_map, List.isEmpty_iff] at h
    split at h
    · split at h
      · cases h
      · simp only [application, hf, dif_pos]
        split at h
        · rename_i hnil
          rw [if_pos hnil]
          exact Except.ok.inj h
        · rename_i hne
          rw [if_neg hne, normalize_app]
          exact Except.ok.inj h
    · cases h

/-- Expressions whose canonical forms have the same summands have the same canonical form. -/
theorem normalize_eq_of_vec {a b : Expression} (h : Term.vec a.normalize = Term.vec b.normalize) :
    a.normalize = b.normalize :=
  (Term.vec_inj (canonical_normalize a) (canonical_normalize b)).1 h

/-- The laws hold for canonical forms. -/
theorem Equal.normalize_eq {a b : Expression} (h : Equal a b) : a.normalize = b.normalize := by
  induction h with
  | refl => rfl
  | symm _ ih => exact ih.symm
  | trans _ _ ih ih' => exact ih.trans ih'
  | assoc a b c =>
    refine normalize_eq_of_vec ?_
    simp only [vec_normalize_xor, add_assoc]
  | comm a b =>
    refine normalize_eq_of_vec ?_
    simp only [vec_normalize_xor, add_comm]
  | self a =>
    refine normalize_eq_of_vec ?_
    rw [vec_normalize_xor, Term.add_self_eq_zero, normalize_zero, Term.vec_zero]
  | neutral a =>
    refine normalize_eq_of_vec ?_
    rw [vec_normalize_xor, normalize_zero, Term.vec_zero, add_zero]
  | add _ _ ih ih' => simp only [normalize, ih, ih']
  | argument free before after _ ih => simp only [normalize_app, List.map_append, List.map_cons, ih]

theorem Equal.zero_xor (a : Expression) : Equal (xor zero a) a := (comm _ _).trans (neutral a)

/-- An expression cancels itself across a sum. -/
theorem Equal.cancel_left (a b : Expression) : Equal (xor a (xor a b)) b :=
  (assoc a a b).symm.trans (((self a).add (refl b)).trans (zero_xor b))

theorem Equal.left_comm (a b c : Expression) : Equal (xor a (xor b c)) (xor b (xor a c)) :=
  (assoc a b c).symm.trans (((comm a b).add (refl c)).trans (assoc b a c))

/-- Arguments may be replaced by equal ones all at once. -/
theorem Equal.app_of_forall₂ {f : FunctionSymbol} (free : f.theory = .free)
    {as bs : List Expression} (h : List.Forall₂ Equal as bs) :
    Equal (app f free as) (app f free bs) := by
  suffices hprefix : ∀ before, Equal (app f free (before ++ as)) (.app f free (before ++ bs)) from
    hprefix []
  induction h with
  | nil => exact fun _ => refl _
  | @cons a b as bs hab _ ih =>
    intro before
    have hrest := ih (before ++ [b])
    rw [List.append_assoc, List.append_assoc, List.singleton_append, List.singleton_append] at hrest
    exact (argument free before as hab).trans hrest

theorem equal_sumOf_append (ds es : List Expression) :
    Equal (sumOf (ds ++ es)) (xor (sumOf ds) (sumOf es)) := by
  induction ds with
  | nil => exact (Equal.zero_xor _).symm
  | cons d ds ih => exact ((Equal.refl d).add ih).trans (Equal.assoc _ _ _).symm

mutual

/-- A term read as an expression. Symbols that are not free do not occur in canonical forms and are
read as zero. -/
def ofTerm : Term → Expression
  | .var v => var v
  | .const c => const c
  | .app f ts => if h : f.theory = .free then app f h (ofTerms ts) else zero
  | .sum ts => sumOf (ofTerms ts)

/-- The terms of a list read as expressions. -/
def ofTerms : List Term → List Expression
  | [] => []
  | t :: ts => ofTerm t :: ofTerms ts

end

theorem ofTerms_eq_map (ts : List Term) : ofTerms ts = ts.map ofTerm := by
  induction ts with
  | nil => rfl
  | cons t ts ih => rw [ofTerms, ih, List.map_cons]

theorem ofTerm_zero : ofTerm .zero = zero := rfl

theorem ofTerm_sum (ts : List Term) : ofTerm (.sum ts) = sumOf (ts.map ofTerm) := by
  rw [ofTerm, ofTerms_eq_map]

/-- A term is the sum of its summands. -/
theorem equal_ofTerm_summands (t : Term) : Equal (ofTerm t) (sumOf (t.summands.map ofTerm)) := by
  rcases Term.eq_zero_or_atomic_or_sum t with rfl | ht | ⟨ts, rfl⟩
  · rw [Term.summands_zero, ofTerm_zero]
    exact Equal.refl _
  · rw [Term.summands_of_atomic ht]
    exact (Equal.neutral _).symm
  · rw [ofTerm_sum]
    exact Equal.refl _

theorem equal_ofTerm_ofSummands (ts : List Term) :
    Equal (ofTerm (Term.ofSummands ts)) (sumOf (ts.map ofTerm)) := by
  match ts with
  | [] => exact Equal.refl _
  | [t] => exact (Equal.neutral _).symm
  | t :: u :: ts =>
    rw [Term.ofSummands, ofTerm_sum]
    · exact Equal.refl _
    · simp
    · simp

/-- Toggling a summand adds it. -/
theorem equal_sumOf_toggle (t : Term) (ts : List Term) :
    Equal (sumOf ((OrderedList.toggle t ts).map ofTerm))
      (xor (ofTerm t) (sumOf (ts.map ofTerm))) := by
  induction ts with
  | nil => exact Equal.refl _
  | cons u ts ih =>
    simp only [OrderedList.toggle]
    split
    · exact Equal.refl _
    · rename_i h
      cases Std.LawfulEqOrd.eq_of_compare h
      exact (Equal.cancel_left _ _).symm
    · exact ((Equal.refl _).add ih).trans (Equal.left_comm _ _ _)

theorem equal_sumOf_oddOnes (ts : List Term) :
    Equal (sumOf ((OrderedList.oddOnes ts).map ofTerm)) (sumOf (ts.map ofTerm)) := by
  induction ts with
  | nil => exact Equal.refl _
  | cons t ts ih => exact (equal_sumOf_toggle t _).trans ((Equal.refl _).add ih)

/-- The canonical sum of terms is the sum of the terms. -/
theorem equal_ofTerm_xor (ts : List Term) :
    Equal (ofTerm (Term.xor ts)) (sumOf (ts.map ofTerm)) := by
  have hflat : Equal (sumOf ((ts.flatMap Term.summands).map ofTerm)) (sumOf (ts.map ofTerm)) := by
    induction ts with
    | nil => exact Equal.refl _
    | cons t ts ih =>
      rw [List.flatMap_cons, List.map_append]
      exact (equal_sumOf_append _ _).trans ((equal_ofTerm_summands t).symm.add ih)
  exact (equal_ofTerm_ofSummands _).trans ((equal_sumOf_oddOnes _).trans hflat)

/-- An expression is equal to its canonical form. -/
theorem equal_ofTerm_normalize (e : Expression) : Equal (ofTerm e.normalize) e := by
  induction e using Expression.induction with
  | var v => exact Equal.refl _
  | const c => exact Equal.refl _
  | app f h es ih =>
    rw [normalize_app, ofTerm, dif_pos h, ofTerms_eq_map, List.map_map]
    refine Equal.app_of_forall₂ h ?_
    rw [List.forall₂_map_left_iff, List.forall₂_same]
    exact ih
  | xor e₁ e₂ ih₁ ih₂ =>
    have hsum := equal_ofTerm_xor [e₁.normalize, e₂.normalize]
    exact hsum.trans (ih₁.add ((Equal.neutral _).trans ih₂))

/-- Expressions with the same canonical form are equal. -/
theorem Equal.of_normalize_eq {a b : Expression} (h : a.normalize = b.normalize) : Equal a b := by
  have ha := (equal_ofTerm_normalize a).symm
  rw [h] at ha
  exact ha.trans (equal_ofTerm_normalize b)

end Expression

namespace Term

/-- A sum among the terms that are added may be replaced by its own terms. -/
theorem xor_flatten {ts us vs : List Term} (h : ∀ t ∈ ts ++ us ++ vs, t.Canonical) :
    xor (ts ++ [xor us] ++ vs) = xor (ts ++ us ++ vs) := by
  have hus : ∀ u ∈ us, u.Canonical := fun u hu => h u (by simp [hu])
  have hnested : ∀ t ∈ ts ++ [xor us] ++ vs, t.Canonical := by
    intro t ht
    simp only [List.append_assoc, List.mem_append, List.mem_singleton] at ht
    rcases ht with ht | rfl | ht
    · exact h t (by simp [ht])
    · exact canonical_xor hus
    · exact h t (by simp [ht])
  rw [← vec_inj (canonical_xor hnested) (canonical_xor h), vec_xor hnested, vec_xor h]
  simp only [List.map_append, List.map_cons, List.map_nil, List.sum_append, List.sum_singleton,
    vec_xor hus]

/-- The order of the terms that are added does not matter. -/
theorem xor_perm {ts us : List Term} (h : ts.Perm us) (hts : ∀ t ∈ ts, t.Canonical) :
    xor ts = xor us := by
  have hus : ∀ u ∈ us, u.Canonical := fun u hu => hts u (h.mem_iff.2 hu)
  rw [← vec_inj (canonical_xor hts) (canonical_xor hus), vec_xor hts, vec_xor hus]
  exact (h.map vec).sum_eq

end Term

/-- Two expressions are equal modulo exclusive or exactly if they have the same canonical form. In
particular, sums of canonical terms may be flattened and rearranged. The canonical form is what
checked applications build, and its sums are sorted and freed of equal neighbours. -/
theorem Expression.normalize_decides_equal :
    (∀ a b : Expression, Equal a b ↔ a.normalize = b.normalize) ∧
      (∀ ts us vs : List Term, (∀ t ∈ ts ++ us ++ vs, t.Canonical) →
        Term.xor (ts ++ [Term.xor us] ++ vs) = Term.xor (ts ++ us ++ vs)) ∧
      (∀ ts us : List Term, ts.Perm us → (∀ t ∈ ts, t.Canonical) → Term.xor ts = Term.xor us) ∧
      (∀ (f : FunctionSymbol) (es : List Expression) (t : Term),
        f.apply (es.map normalize) = .ok t → (application f es).normalize = t) ∧
      ∀ ts : List Term,
        Term.xor ts = .ofSummands (OrderedList.cancelNeighbours (ts.flatMap Term.summands)) :=
  ⟨fun _ _ => ⟨Equal.normalize_eq, Equal.of_normalize_eq⟩, fun _ _ _ => Term.xor_flatten,
    fun _ _ => Term.xor_perm, fun _ _ _ => normalize_application,
    Term.xor_eq_ofSummands_cancelNeighbours⟩

open Sample in
/-- A variable that is added twice disappears, whether the sum between is nested or not. -/
theorem Expression.normalize_decides_equal_cancelledPair :
    Equal (.xor (.var x) (.xor (.ofTerm a) (.var x))) (.ofTerm a) ∧
      (∀ t ∈ [.var x] ++ [b, .var x] ++ [a], t.Canonical) ∧
      Term.xor ([.var x] ++ [Term.xor [b, .var x]] ++ [a]) =
        Term.xor ([.var x] ++ [b, .var x] ++ [a]) ∧
      Term.xor [.var x, b, .var x, a] = Term.xor [b, .var x, a, .var x] ∧
      f.apply ([.xor (.var x) (.var x)].map normalize) = .ok (.app f [.zero]) ∧
      (application f [.xor (.var x) (.var x)]).normalize = .app f [.zero] := by
  obtain ⟨hequal, hflatten, hperm, happly, _⟩ := normalize_decides_equal
  have hf : f.apply ([.xor (.var x) (.var x)].map normalize) = .ok (.app f [.zero]) := by decide
  have hcanonical : ∀ t ∈ [.var x] ++ [b, .var x] ++ [a], t.Canonical := by decide
  exact ⟨(hequal _ _).2 (by decide), hcanonical, hflatten _ _ _ hcanonical,
    hperm _ _ (by decide) hcanonical, hf, happly _ _ _ hf⟩

end SymbolicXor
