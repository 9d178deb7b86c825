import SymbolicXor.Proofs.SoundCollisions

/-!
# Sums at the end of a saturation

A saturation keeps every sum that it generates: it is still to be looked at, or finished, or a lone
product that was dropped in favour of zero. Where nothing was dropped, the finished sums of a
saturation that ended by itself are closed: every result of cancelling two deepest summands of one
of them, or of adding up two of them, is one of them.
-/

namespace SymbolicXor.Collision

/-- A lone product that is not looked at any more: zero was finished in its place, or its
coefficient cannot be zero. -/
def AttackerTerm.Dropped (a : AttackerTerm) (finished : List AttackerTerm) : Prop :=
  (∃ l r, a.term = .mul l r) ∧ ∀ z, a.vanished? = some z → z ∈ finished

/-- A lone product cannot vanish only if its coefficient is one already. -/
theorem AttackerTerm.exists_of_vanished?_eq_none {a : AttackerTerm} (h : a.vanished? = none) :
    ∃ b ∈ a.term.coefficient?, a.assignment.get? b = some true := by
  have hnone : a.zeroing.compose a.assignment = none := Option.map_eq_none_iff.1 h
  by_contra hnot
  have hagree : a.zeroing.agrees a.assignment = true := by
    rw [Assignment.agrees_iff]
    intro b x y hx hy
    unfold zeroing at hx
    split at hx
    · rename_i c hc
      obtain ⟨hbc, hx⟩ : b = c ∧ false = x := by
        simpa [Assignment.get?_singleton] using hx
      cases y with
      | false => exact hx.symm
      | true => exact absurd ⟨c, hc, hbc ▸ hy⟩ hnot
    · cases hx
  rw [Assignment.compose, if_pos hagree] at hnone
  cases hnone

/-- Sums that are closed under cancelling and adding up. -/
structure Closed (terms : List CoeffTerm) (sums : List AttackerTerm) : Prop where
  /-- The outputs are among the sums. -/
  outputs : ∀ i (h : i < terms.length), { term := terms[i], outputs := [i] } ∈ sums
  /-- No sum is a lone product. -/
  notProduct : ∀ a ∈ sums, ∀ l r, a.term ≠ .mul l r
  /-- The results of cancelling two summands are among the sums. -/
  cancelled : ∀ a ∈ sums, ∀ t u, a.CancelPair t u → (a.cancelling t u).Covered sums
  /-- The results of adding up two sums are among the sums. -/
  combined : ∀ a b, List.Sublist [a, b] sums → ∀ t u, a.CombinePair b t u →
    (a.combining b t u).Covered sums

namespace Saturation

variable {s next : Saturation} {terms : List CoeffTerm}

/-- No sum is lost, and every sum was tried before it was finished. -/
structure Keeps (terms : List CoeffTerm) (s : Saturation) : Prop where
  /-- The outputs were generated. -/
  outputs : ∀ i (h : i < terms.length), { term := terms[i], outputs := [i] } ∈ s.generated
  /-- Every sum is somewhere. -/
  placed : ∀ a ∈ s.generated, a ∈ s.finished ∨ a ∈ s.raw ∨ a.Dropped s.finished
  /-- No lone product is finished. -/
  notProduct : ∀ a ∈ s.finished, ∀ l r, a.term ≠ .mul l r
  /-- In a finished sum all summands were tried. -/
  cancelled : ∀ a ∈ s.finished, ∀ t u, a.CancelPair t u → (a.cancelling t u).Covered s.generated

theorem keeps_start (terms : List CoeffTerm) : (start terms).Keeps terms := by
  refine ⟨fun i h => ?_, fun a ha => Or.inr (Or.inl ha), fun a ha => absurd ha List.not_mem_nil,
    fun a ha => absurd ha List.not_mem_nil⟩
  refine List.mem_map.2 ⟨(terms[i], i), ?_, rfl⟩
  rw [List.mem_zipIdx_iff_getElem?, List.getElem?_eq_getElem h]

/-- A sum is somewhere else or the first to be looked at. -/
theorem Keeps.placed_of_cons (hs : s.Keeps terms) {a : AttackerTerm} {rest : List AttackerTerm}
    (hraw : s.raw = a :: rest) {b : AttackerTerm} (hb : b ∈ s.generated) :
    b = a ∨ b ∈ s.finished ∨ b ∈ rest ∨ b.Dropped s.finished := by
  rcases hs.placed b hb with hb | hb | hb
  · exact Or.inr (Or.inl hb)
  · rw [hraw, List.mem_cons] at hb
    exact hb.imp_right fun hb => Or.inr (Or.inl hb)
  · exact Or.inr (Or.inr (Or.inr hb))

theorem Keeps.vanish (hs : s.Keeps terms) {a : AttackerTerm} {rest : List AttackerTerm}
    {l r : CoeffTerm} (hraw : s.raw = a :: rest) (hterm : a.term = .mul l r) :
    (s.vanish a rest).Keeps terms := by
  rw [vanish_eq]
  cases hz : a.vanished? with
  | none =>
    refine ⟨hs.outputs, fun b hb => ?_, hs.notProduct, hs.cancelled⟩
    rcases hs.placed_of_cons hraw hb with rfl | hb
    · exact Or.inr (Or.inr ⟨⟨l, r, hterm⟩, fun z h => by rw [hz] at h; cases h⟩)
    · exact hb
  | some z =>
    have hzero : z.term = .zero := by
      obtain ⟨_, _, rfl⟩ := Option.map_eq_some_iff.1 hz
      rfl
    refine ⟨fun i h => List.mem_append_left _ (hs.outputs i h), ?_, ?_, ?_⟩
    · refine List.forall_mem_append.2 ⟨fun b hb => ?_, fun b hb =>
        Or.inl (List.mem_append_right _ hb)⟩
      rcases hs.placed_of_cons hraw hb with rfl | hb | hb | ⟨hproduct, hb⟩
      · refine Or.inr (Or.inr ⟨⟨l, r, hterm⟩, fun z' h => ?_⟩)
        cases hz.symm.trans h
        exact List.mem_append_right _ List.mem_cons_self
      · exact Or.inl (List.mem_append_left _ hb)
      · exact Or.inr (Or.inl hb)
      · exact Or.inr (Or.inr ⟨hproduct, fun z' h => List.mem_append_left _ (hb z' h)⟩)
    · refine List.forall_mem_append.2 ⟨hs.notProduct, List.forall_mem_singleton.2 fun l r h => ?_⟩
      rw [hzero] at h
      cases h
    · refine List.forall_mem_append.2 ⟨fun b hb t u hpair => ?_,
        List.forall_mem_singleton.2 fun t u hpair => ?_⟩
      · exact (hs.cancelled b hb t u hpair).mono (List.subset_append_left _ _)
      · obtain ⟨ts, hts, _⟩ := hpair
        rw [hzero] at hts
        cases hts

theorem Step.keeps (h : Step s next) (hs : s.Keeps terms) : next.Keeps terms := by
  cases h with
  | vanish hraw hterm => exact hs.vanish hraw hterm
  | @finish a rest hraw hterm hdone =>
    refine ⟨hs.outputs, fun b hb => ?_, ?_, ?_⟩
    · rcases hs.placed_of_cons hraw hb with rfl | hb | hb | ⟨hproduct, hb⟩
      · exact Or.inl (List.mem_append_right _ List.mem_cons_self)
      · exact Or.inl (List.mem_append_left _ hb)
      · exact Or.inr (Or.inl hb)
      · exact Or.inr (Or.inr ⟨hproduct, fun z h => List.mem_append_left _ (hb z h)⟩)
    · exact List.forall_mem_append.2 ⟨hs.notProduct, List.forall_mem_singleton.2 hterm⟩
    · exact List.forall_mem_append.2 ⟨hs.cancelled, List.forall_mem_singleton.2 hdone⟩
  | @record att found =>
    obtain ⟨new, _, _, heq⟩ := foldl_record (found.filterMap att.result?) s
    rw [heq]
    refine ⟨fun i h => List.mem_append_left _ (hs.outputs i h), ?_, hs.notProduct, ?_⟩
    · refine List.forall_mem_append.2 ⟨fun a ha => ?_, fun a ha => ?_⟩
      · exact (hs.placed a ha).imp_right (Or.imp_left (List.mem_append_left _))
      · exact Or.inr (Or.inl (List.mem_append_right _ ha))
    · exact fun a ha t u hpair =>
        (hs.cancelled a ha t u hpair).mono (List.subset_append_left _ _)

theorem keeps_of_steps (h : Relation.ReflTransGen Step (start terms) s) : s.Keeps terms := by
  induction h with
  | refl => exact keeps_start terms
  | tail _ hstep ih => exact hstep.keeps ih

/-- If no sum was dropped, the finished sums of a saturation that ended by itself are closed. -/
theorem Keeps.closed (hs : s.Keeps terms) (hend : s.Exhausted)
    (hdrop : ∀ a ∈ s.generated, ¬ a.Dropped s.finished) : Closed terms s.finished := by
  obtain ⟨hraw, hcombined⟩ := hend
  have hsub : s.generated ⊆ s.finished := by
    intro a ha
    rcases hs.placed a ha with h | h | h
    · exact h
    · rw [hraw] at h
      cases h
    · exact absurd h (hdrop a ha)
  exact ⟨fun i h => hsub (hs.outputs i h), hs.notProduct,
    fun a ha t u hpair => (hs.cancelled a ha t u hpair).mono hsub,
    fun a b hab t u hpair => (hcombined a b hab t u hpair).mono hsub⟩

end Saturation

end SymbolicXor.Collision
