import SymbolicXor.Proofs.AssignedTerms

/-!
# Sizes of coefficient terms

Assigning coefficients and simplifying makes no term larger, and what is simplified once is not
simplified any further. The size counts every node of a term. The load leaves out the node of a sum
and does not count zero: it is the size of what is there to cancel, so that it does not matter
whether summands are cancelled inside a sum or taken out of it.
-/

namespace SymbolicXor

namespace CoeffTerm

mutual

/-- The number of nodes of a term. -/
def size : CoeffTerm → Nat
  | app _ ts => sizeAll ts + 1
  | sum ts => sizeAll ts + 1
  | mul s t => size s + size t + 1
  | _ => 1

/-- The number of nodes of the terms in a list. -/
def sizeAll : List CoeffTerm → Nat
  | [] => 0
  | t :: ts => size t + sizeAll ts

end

/-- The number of nodes of the summands, where zero counts for nothing. -/
def load : CoeffTerm → Nat
  | zero => 0
  | sum ts => sizeAll ts
  | t => t.size

variable {s t : CoeffTerm} {l ts : List CoeffTerm}

theorem size_pos (t : CoeffTerm) : 0 < t.size := by
  cases t <;> simp [size]

theorem load_le_size (t : CoeffTerm) : t.load ≤ t.size := by
  cases t <;> simp [load, size]

theorem size_le_load (t : CoeffTerm) : t.size ≤ t.load + 1 := by
  cases t <;> simp [load, size]

@[simp] theorem sizeAll_append (ss ts : List CoeffTerm) :
    sizeAll (ss ++ ts) = sizeAll ss + sizeAll ts := by
  induction ss with
  | nil => simp [sizeAll]
  | cons s ss ih => rw [List.cons_append, sizeAll, sizeAll, ih, Nat.add_assoc]

theorem size_le_sizeAll (h : t ∈ ts) : t.size ≤ sizeAll ts := by
  induction ts with
  | nil => cases h
  | cons s ts ih =>
    rw [sizeAll]
    rcases List.mem_cons.1 h with rfl | h
    · exact Nat.le_add_right _ _
    · exact (ih h).trans (Nat.le_add_left _ _)

theorem length_le_sizeAll (ts : List CoeffTerm) : ts.length ≤ sizeAll ts := by
  induction ts with
  | nil => exact Nat.le_refl _
  | cons t ts ih =>
    have hpos := t.size_pos
    rw [sizeAll, List.length_cons]
    omega

/-- A term that is taken out of a list was part of its size. -/
theorem sizeAll_erase (h : t ∈ ts) : sizeAll (ts.erase t) + t.size = sizeAll ts := by
  induction ts with
  | nil => cases h
  | cons s ts ih =>
    by_cases hst : s = t
    · rw [hst, List.erase_cons_head, sizeAll, Nat.add_comm]
    · have hts := ih ((List.mem_cons.1 h).resolve_left (Ne.symm hst))
      rw [List.erase_cons_tail (by simpa using hst), sizeAll, sizeAll]
      omega

theorem sizeAll_map_le {f : CoeffTerm → CoeffTerm} (h : ∀ t ∈ ts, (f t).size ≤ t.size) :
    sizeAll (ts.map f) ≤ sizeAll ts := by
  induction ts with
  | nil => exact Nat.le_refl _
  | cons t ts ih =>
    obtain ⟨ht, hts⟩ := List.forall_mem_cons.1 h
    exact Nat.add_le_add ht (ih hts)

/-- The summands of a term are no more than its size. -/
theorem sizeAll_summands_le (t : CoeffTerm) : sizeAll t.summands ≤ t.size := by
  cases t <;> simp [summands, sizeAll, size]

theorem size_realTerm_le (t : CoeffTerm) : t.realTerm.size ≤ t.size := by
  cases t with
  | mul s t => cases s <;> simp only [realTerm, size] <;> omega
  | _ => exact Nat.le_refl _

theorem sizeAll_toggle_le (l : List CoeffTerm) (t : CoeffTerm) :
    sizeAll (toggle l t) ≤ sizeAll l + t.size := by
  unfold toggle
  split
  · exact Nat.le_add_right _ _
  · split
    · rename_i hmem
      have herase := sizeAll_erase (List.contains_iff_mem.1 hmem)
      omega
    · simp [sizeAll]

theorem sizeAll_foldl_toggle_le (l ts : List CoeffTerm) :
    sizeAll (ts.foldl toggle l) ≤ sizeAll l + sizeAll ts := by
  induction ts generalizing l with
  | nil => exact Nat.le_refl _
  | cons t ts ih =>
    have htoggle := sizeAll_toggle_le l t
    have hrest := ih (toggle l t)
    rw [List.foldl_cons, sizeAll]
    omega

/-- Adding the summands of a term adds no more than its load. -/
theorem sizeAll_foldl_toggle_summands_le (l : List CoeffTerm) (t : CoeffTerm) :
    sizeAll (t.summands.foldl toggle l) ≤ sizeAll l + t.load := by
  cases t with
  | zero => simp [summands, toggle, load]
  | sum ts => exact sizeAll_foldl_toggle_le l ts
  | _ => exact (sizeAll_foldl_toggle_le l _).trans (by simp [summands, sizeAll, load])

theorem sizeAll_added_le {f : CoeffTerm → CoeffTerm} (h : ∀ t ∈ ts, (f t).load ≤ t.load) :
    sizeAll (((ts.map f).flatMap summands).foldl toggle l) ≤ sizeAll l + sizeAll ts := by
  induction ts generalizing l with
  | nil => exact Nat.le_refl _
  | cons t ts ih =>
    obtain ⟨ht, hts⟩ := List.forall_mem_cons.1 h
    have hfirst := sizeAll_foldl_toggle_summands_le l (f t)
    have hrest := ih (l := (f t).summands.foldl toggle l) hts
    have hload := t.load_le_size
    rw [List.map_cons, List.flatMap_cons, List.foldl_append, sizeAll]
    omega

theorem load_ofSummands_le (ts : List CoeffTerm) : (ofSummands ts).load ≤ sizeAll ts := by
  match ts with
  | [] => exact Nat.le_refl _
  | [t] => exact t.load_le_size
  | t :: u :: ts => exact Nat.le_refl _

theorem size_product_le (s t : CoeffTerm) : (product s t).size ≤ s.size + t.size + 1 := by
  unfold product
  split
  · simp [size]
  · split
    · omega
    · split
      · omega
      · simp [size]

/-- Assigning coefficients and simplifying makes neither the size nor the load of a term larger. -/
theorem size_reduce_le (γ : Assignment) (t : CoeffTerm) :
    (γ.reduce t).size ≤ t.size ∧ (γ.reduce t).load ≤ t.load := by
  induction t using induction with
  | coeff b =>
    have hsize : (γ.reduce (coeff b)).size = 1 := by
      unfold Assignment.reduce Assignment.apply mapLeaves Assignment.lookup
      split <;> rfl
    exact ⟨hsize.le, (load_le_size _).trans hsize.le⟩
  | app f ts ih =>
    have hsize : (γ.reduce (app f ts)).size ≤ (app f ts).size := by
      rw [Assignment.reduce_app, size, size]
      exact Nat.succ_le_succ (sizeAll_map_le fun t ht => (ih t ht).1)
    exact ⟨hsize, (load_le_size _).trans hsize⟩
  | sum ts ih =>
    have hload : (γ.reduce (sum ts)).load ≤ (sum ts).load := by
      rw [Assignment.reduce_sum]
      refine (load_ofSummands_le _).trans ?_
      exact (sizeAll_added_le (l := []) fun t ht => (ih t ht).2).trans (Nat.zero_add _).le
    exact ⟨(size_le_load _).trans (Nat.succ_le_succ hload), hload⟩
  | mul s t hs ht =>
    have hsize : (γ.reduce (mul s t)).size ≤ (mul s t).size := by
      have hproduct := size_product_le (γ.reduce s) (γ.reduce t)
      rw [Assignment.reduce_mul, size]
      omega
    exact ⟨hsize, (load_le_size _).trans hsize⟩
  | _ => exact ⟨Nat.le_refl _, Nat.le_refl _⟩

theorem load_simplify_le (t : CoeffTerm) : t.simplify.load ≤ t.load := by
  rw [← Assignment.reduce_empty]
  exact (size_reduce_le ∅ t).2

/-- Nothing is left to simplify: a sum is made of several different terms that are neither zero nor
sums, and no such term can be simplified. -/
inductive Settled : CoeffTerm → Prop where
  /-- Any term but a sum. -/
  | single {t : CoeffTerm} (h : t.simplify = t) (hs : ∀ ts, t ≠ sum ts) : Settled t
  /-- A sum. -/
  | several {ts : List CoeffTerm} (h : ∀ t ∈ ts, t.simplify = t ∧ t ≠ zero ∧ ∀ us, t ≠ sum us)
    (hts : ts.Nodup) (hlen : 2 ≤ ts.length) : Settled (sum ts)

theorem foldl_toggle_eq_self (hz : ∀ t ∈ ts, t ≠ zero) (hts : (l ++ ts).Nodup) :
    ts.foldl toggle l = l ++ ts := by
  induction ts generalizing l with
  | nil => rw [List.foldl_nil, List.append_nil]
  | cons t ts ih =>
    obtain ⟨ht, hzs⟩ := List.forall_mem_cons.1 hz
    have hnot : t ∉ l := fun hmem =>
      (List.nodup_append.1 hts).2.2 t hmem t List.mem_cons_self rfl
    have htoggle : toggle l t = l ++ [t] := by
      rw [toggle, if_neg ht, if_neg (by simpa using hnot)]
    have happend : l ++ t :: ts = l ++ [t] ++ ts := by simp
    rw [List.foldl_cons, htoggle, happend]
    exact ih hzs (happend ▸ hts)

theorem ofSummands_of_two_le (h : 2 ≤ ts.length) : ofSummands ts = sum ts := by
  match ts with
  | [] => simp at h
  | [t] => simp at h
  | t :: u :: ts => rfl

theorem summands_of_ne_sum (h : ∀ ts, t ≠ sum ts) : t.summands = [t] := by
  cases t with
  | sum ts => exact absurd rfl (h ts)
  | _ => rfl

theorem Settled.simplify_eq (h : t.Settled) : t.simplify = t := by
  cases h with
  | single h _ => exact h
  | @several ts h hts hlen =>
    have hmap : ts.map simplify = ts := (List.map_congr_left fun t ht => (h t ht).1).trans
      (List.map_id ts)
    have hflat : ts.flatMap summands = ts := by
      rw [List.flatMap_congr fun t ht => summands_of_ne_sum (h t ht).2.2]
      simp
    rw [simplify, simplifyAll_eq_map, hmap, hflat,
      foldl_toggle_eq_self (l := []) (fun t ht => (h t ht).2.1) hts, List.nil_append,
      ofSummands_of_two_le hlen]

theorem Settled.summand (h : t.Settled) (hs : s ∈ t.summands) :
    s.simplify = s ∧ ∀ ts, s ≠ sum ts := by
  cases h with
  | single h hne =>
    rw [summands_of_ne_sum hne, List.mem_singleton] at hs
    exact hs ▸ ⟨h, hne⟩
  | several h _ _ => exact ⟨(h s hs).1, (h s hs).2.2⟩

theorem settled_ofSummands (h : ∀ t ∈ ts, t.simplify = t ∧ t ≠ zero ∧ ∀ us, t ≠ sum us)
    (hts : ts.Nodup) : (ofSummands ts).Settled := by
  match ts with
  | [] => exact .single rfl (by simp [ofSummands])
  | [t] =>
    obtain ⟨ht, _, hne⟩ := h t List.mem_cons_self
    exact .single ht hne
  | t :: u :: ts => exact .several h hts (by simp)

theorem settled_product (hs : s.Settled) (ht : t.Settled) : (product s t).Settled := by
  by_cases hz : s = zero ∨ t = zero
  · rw [product, if_pos hz]
    exact .single rfl (by simp)
  · by_cases h1 : s = one
    · rwa [product, if_neg hz, if_pos h1]
    · by_cases h2 : t = one
      · rwa [product, if_neg hz, if_neg h1, if_pos h2]
      · have hproduct : product s t = mul s t := by
          rw [product, if_neg hz, if_neg h1, if_neg h2]
        rw [hproduct]
        refine .single ?_ (by simp)
        rw [simplify, hs.simplify_eq, ht.simplify_eq, hproduct]

/-- A simplified term is settled. -/
theorem settled_simplify (t : CoeffTerm) : t.simplify.Settled := by
  induction t using induction with
  | app f ts ih =>
    refine .single ?_ (by simp [simplify])
    rw [simplify, simplify, simplifyAll_eq_map, simplifyAll_eq_map, List.map_map]
    exact congrArg _ (List.map_congr_left fun t ht => (ih t ht).simplify_eq)
  | sum ts ih =>
    rw [simplify, simplifyAll_eq_map]
    refine settled_ofSummands (fun u hu => ?_) (nodup_foldl_toggle List.nodup_nil)
    obtain ⟨hu, hz⟩ := (mem_of_mem_foldl_toggle hu).resolve_left List.not_mem_nil
    obtain ⟨r, hr, hur⟩ := List.mem_flatMap.1 hu
    obtain ⟨t, ht, rfl⟩ := List.mem_map.1 hr
    obtain ⟨hsimp, hne⟩ := (ih t ht).summand hur
    exact ⟨hsimp, hz, hne⟩
  | mul s t hs ht =>
    rw [simplify]
    exact settled_product hs ht
  | _ => exact .single rfl (by simp [simplify])

/-- Simplifying twice is simplifying once. -/
theorem simplify_simplify (t : CoeffTerm) : t.simplify.simplify = t.simplify :=
  (settled_simplify t).simplify_eq

end CoeffTerm

end SymbolicXor
