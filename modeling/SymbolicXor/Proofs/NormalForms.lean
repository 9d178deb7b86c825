import SymbolicXor.Proofs.ResolvedProducts
import SymbolicXor.Proofs.Samples
import SymbolicXor.Proofs.SizedTerms

/-!
# Normal forms of coefficient terms

Simplifying brings a coefficient term into a normal form: a sum has at least two summands, all of
them different and none of them zero or a sum, and no factor of a product is zero or one. Summands
keep their order, so equal terms may have several normal forms. All of them have the same values: if
the coefficients get their values afterwards, the term that is printed is the one that the original
term gives.
-/

namespace SymbolicXor

namespace CoeffTerm

/-- A sum at the head of a term has at least two summands, all of them different and none of them
zero or a sum, and a product at the head has neither zero nor one as a factor. -/
def NormalHead : CoeffTerm → Prop
  | sum ts => 2 ≤ ts.length ∧ ts.Nodup ∧ ∀ t ∈ ts, t ≠ zero ∧ ∀ us, t ≠ sum us
  | mul s t => s ≠ zero ∧ t ≠ zero ∧ s ≠ one ∧ t ≠ one
  | _ => True

variable {t : CoeffTerm}

/-- Simplified terms are in normal form everywhere. -/
theorem everywhere_normalHead_simplify (t : CoeffTerm) : t.simplify.Everywhere NormalHead := by
  induction t using induction with
  | app f ts ih =>
    rw [simplify, simplifyAll_eq_map, everywhere_app, List.forall_mem_map]
    exact ⟨trivial, ih⟩
  | sum ts ih =>
    rw [simplify, simplifyAll_eq_map]
    refine everywhere_ofSummands trivial (fun hlen => ⟨hlen, nodup_foldl_toggle List.nodup_nil,
      fun u hu => ?_⟩) (everywhere_foldl_toggle ?_)
    · obtain ⟨hu, hz⟩ := (mem_of_mem_foldl_toggle hu).resolve_left List.not_mem_nil
      obtain ⟨r, hr, hur⟩ := List.mem_flatMap.1 hu
      obtain ⟨t, _, rfl⟩ := List.mem_map.1 hr
      exact ⟨hz, ((settled_simplify t).summand hur).2⟩
    · rw [List.forall_mem_map]
      exact ih
  | mul s t hs ht =>
    rw [simplify]
    exact everywhere_product trivial (fun hs0 ht0 hs1 ht1 => ⟨hs0, ht0, hs1, ht1⟩) hs ht
  | _ => exact fun u hu => List.mem_singleton.1 hu ▸ trivial

/-- Simplifying gives a normal form, and changes neither the printed term once every coefficient has
a value, nor the term that the values themselves resolve it to. -/
theorem simplify_normal_form (t : CoeffTerm) :
    t.simplify.simplify = t.simplify ∧ t.simplify.Everywhere NormalHead ∧
      (t.Everywhere HasFactor → ∀ γ : Assignment, t.Everywhere γ.Assigns →
        (γ.apply t.simplify).simplify.toTerm = (γ.apply t).simplify.toTerm) ∧
      (t.Everywhere HasFactor → ∀ β : Name → Bool, resolve β t.simplify = resolve β t) := by
  refine ⟨simplify_simplify t, everywhere_normalHead_simplify t, fun hfactor γ ha => ?_,
    fun hfactor _ => resolve_simplify hfactor⟩
  calc (γ.apply t.simplify).simplify.toTerm
      = resolve γ.total t.simplify := Assignment.toTerm_reduce_eq_resolve γ.within_total
        (everywhere_hasFactor_simplify hfactor) (Assignment.everywhere_assigns_simplify ha)
    _ = resolve γ.total t := resolve_simplify hfactor
    _ = (γ.apply t).simplify.toTerm :=
        (Assignment.toTerm_reduce_eq_resolve γ.within_total hfactor ha).symm

section Samples

open Sample

/-- A term whose summands cancel in one way before the coefficients have values, and in another way
afterwards. -/
def interleaved : CoeffTerm :=
  mul (coeff c₁) (app f [sum [mul (var x) (coeff c₂), var x, sum [zero, mul one (var x)]]])

/-- Both coefficients of the sample are one. -/
def bothOnes : Assignment := ⟨(FinMap.insert ∅ c₁ true).insert c₂ true⟩

theorem simplify_normal_form_interleaved :
    interleaved.Everywhere HasFactor ∧ interleaved.Everywhere bothOnes.Assigns ∧
      interleaved.simplify = mul (coeff c₁) (app f [mul (var x) (coeff c₂)]) ∧
      (bothOnes.apply interleaved.simplify).simplify.toTerm =
        (bothOnes.apply interleaved).simplify.toTerm ∧
      ∀ β, resolve β interleaved.simplify = resolve β interleaved := by
  have hfactor : interleaved.Everywhere HasFactor := by decide
  have hassigned : interleaved.Everywhere bothOnes.Assigns := by decide
  obtain ⟨_, _, hprinted, hresolved⟩ := simplify_normal_form interleaved
  exact ⟨hfactor, hassigned, by decide, hprinted hfactor bothOnes hassigned, hresolved hfactor⟩

end Samples

end CoeffTerm

end SymbolicXor
