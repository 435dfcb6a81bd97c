import MzCache.Weights.State

/-!
# What the weight operations do

One lemma an operation: where `allocTensorRange` puts the tensors of a contiguous range, which
buffers `unload_buffers` frees, what loading leaves behind. Later modules use these and do not
open the definitions.
-/

namespace MzCache.Weights

open MzCache.Lib

/-- The bytes that `k` tensors from position `p` on take when each is padded. -/
def WeightModel.padSum (m : WeightModel) (p k : Nat) : Nat :=
  ∑ i ∈ Finset.range k, ggmlPad (m.nbytes (p + i)) m.alignment

/-- The bytes they take back to back. -/
def WeightModel.byteSum (m : WeightModel) (p k : Nat) : Nat :=
  ∑ i ∈ Finset.range k, m.nbytes (p + i)

theorem le_ggmlPad {x n : Nat} (hn : 0 < n) : x ≤ ggmlPad x n := by
  have := Nat.div_add_mod (x + n - 1) n
  have := Nat.mod_lt (x + n - 1) hn
  unfold ggmlPad
  rw [Nat.mul_comm]
  omega

theorem ggmlPad_eq_iff {x n : Nat} (hn : 0 < n) : ggmlPad x n = x ↔ n ∣ x := by
  constructor
  · exact fun h => ⟨(x + n - 1) / n, by rw [Nat.mul_comm]; exact h.symm⟩
  · rintro ⟨c, rfl⟩
    unfold ggmlPad
    rw [Nat.add_sub_assoc hn, Nat.mul_add_div hn, Nat.div_eq_of_lt (by omega), Nat.add_zero,
      Nat.mul_comm]

theorem ggmlPad_dvd (x n : Nat) : n ∣ ggmlPad x n := Dvd.intro_left _ rfl

section

variable {m : WeightModel}

@[simp] theorem padSum_zero (p : Nat) : m.padSum p 0 = 0 := rfl

@[simp] theorem byteSum_zero (p : Nat) : m.byteSum p 0 = 0 := rfl

theorem padSum_succ (p k : Nat) :
    m.padSum p (k + 1) = m.padSum p k + ggmlPad (m.nbytes (p + k)) m.alignment :=
  Finset.sum_range_succ _ _

theorem byteSum_succ (p k : Nat) : m.byteSum p (k + 1) = m.byteSum p k + m.nbytes (p + k) :=
  Finset.sum_range_succ _ _

theorem padSum_succ' (p k : Nat) :
    m.padSum p (k + 1) = ggmlPad (m.nbytes p) m.alignment + m.padSum (p + 1) k := by
  unfold WeightModel.padSum
  rw [Finset.sum_range_succ', Nat.add_comm]
  refine congrArg₂ _ rfl (Finset.sum_congr rfl fun i _ => ?_)
  rw [Nat.add_assoc, Nat.add_comm 1]

theorem padSum_mono {p k k' : Nat} (h : k ≤ k') : m.padSum p k ≤ m.padSum p k' :=
  Finset.sum_le_sum_of_subset (Finset.range_subset_range.mpr h)

theorem byteSum_le_padSum (ha : 0 < m.alignment) (p k : Nat) : m.byteSum p k ≤ m.padSum p k :=
  Finset.sum_le_sum fun _ _ => le_ggmlPad ha

/-- Back to back and padded, the first `n` tensors start at the same offsets if and only if
those in front of the last have sizes the alignment divides. -/
theorem offsets_agree_iff (ha : 0 < m.alignment) {p n : Nat} :
    (∀ k < n, m.byteSum p k = m.padSum p k) ↔
      ∀ k, k + 1 < n → m.alignment ∣ m.nbytes (p + k) := by
  constructor
  · intro h k hk
    have h1 := h (k + 1) hk
    rw [byteSum_succ, padSum_succ, h k (by omega)] at h1
    exact (ggmlPad_eq_iff ha).mp (Nat.add_left_cancel h1).symm
  · intro h k hk
    refine Finset.sum_congr rfl fun i hi => ?_
    have := Finset.mem_range.mp hi
    exact ((ggmlPad_eq_iff ha).mpr (h i (by omega))).symm

end

/-! ## Placing a range -/

/-- The tensors after `k` of them from `p` on were placed in buffer `b` from `offset` on. -/
def placed (m : WeightModel) (b p k offset : Nat) (tensors : Nat → Tensor) : Nat → Tensor :=
  fun t =>
    if p ≤ t ∧ t < p + k then
      { tensors t with buffer := some b, data := some (offset + m.padSum p (t - p)) }
    else tensors t

theorem placed_in {m : WeightModel} {b p k offset : Nat} {tensors : Nat → Tensor} {t : Nat}
    (h : p ≤ t ∧ t < p + k) :
    placed m b p k offset tensors t =
      { tensors t with buffer := some b, data := some (offset + m.padSum p (t - p)) } :=
  if_pos h

theorem placed_out {m : WeightModel} {b p k offset : Nat} {tensors : Nat → Tensor} {t : Nat}
    (h : ¬ (p ≤ t ∧ t < p + k)) : placed m b p k offset tensors t = tensors t :=
  if_neg h

/-- A range of tensors without memory is placed back to back in padded size, or the buffer is too
small for it. -/
theorem allocTensorRange_eq {m : WeightModel} {b size : Nat} {svm : Bool} {p k offset : Nat}
    {tensors : Nat → Tensor}
    (hunset : ∀ t, p ≤ t → t < p + k →
      (tensors t).data = none ∧ (tensors t).buffer = none ∧
        (svm = true → (tensors t).isWeight = true)) :
    allocTensorRange m b size svm (List.range' p k) offset tensors =
      if k = 0 ∨ offset + m.padSum p k ≤ size then some (placed m b p k offset tensors)
      else none := by
  induction k generalizing p offset tensors with
  | zero =>
      rw [if_pos (Or.inl rfl)]
      refine congrArg some (funext fun t => ?_)
      exact (placed_out (by omega)).symm
  | succ k ih =>
      obtain ⟨hdata, hbuffer, hweight⟩ := hunset p le_rfl (by omega)
      have hsum : m.padSum p (k + 1) = ggmlPad (m.nbytes p) m.alignment + m.padSum (p + 1) k :=
        padSum_succ' p k
      have hoff : (if svm && !(tensors p).isWeight then 0 else offset) = offset := by
        cases hs : svm with
        | false => rfl
        | true => simp [hweight hs]
      rw [List.range'_succ]
      unfold allocTensorRange
      simp only [hdata, hbuffer, Option.isSome_none, Bool.false_eq_true, if_false, hoff]
      by_cases hfit : size < offset + ggmlPad (m.nbytes p) m.alignment
      · rw [if_pos hfit, if_neg (by omega)]
      · rw [if_neg hfit, ih]
        · have hcond : (k = 0 ∨ offset + ggmlPad (m.nbytes p) m.alignment +
              m.padSum (p + 1) k ≤ size) ↔
              (k + 1 = 0 ∨ offset + m.padSum p (k + 1) ≤ size) := by
            rw [hsum]
            constructor
            · rintro (rfl | h)
              · rw [padSum_zero]
                omega
              · omega
            · omega
          simp only [hcond]
          split
          · refine congrArg some (funext fun t => ?_)
            by_cases htp : t = p
            · subst htp
              rw [placed_out (by omega), placed_in (by omega), Function.update_self,
                Nat.sub_self, padSum_zero, Nat.add_zero]
            · by_cases hin : p + 1 ≤ t ∧ t < p + 1 + k
              · obtain ⟨d, rfl⟩ := Nat.exists_eq_add_of_le hin.1
                rw [placed_in hin, placed_in (by omega), Function.update_of_ne htp,
                  Nat.add_sub_cancel_left, Nat.add_assoc p 1 d, Nat.add_sub_cancel_left,
                  Nat.add_comm 1 d, padSum_succ', Nat.add_assoc]
              · rw [placed_out hin, placed_out (by omega), Function.update_of_ne htp]
          · rfl
        · intro t hle hlt
          rw [Function.update_of_ne (by omega)]
          exact hunset t (by omega) (by omega)

/-! ## The buffers of a layer -/

theorem collectBuffer_spec {tensors : Nat → Tensor} {acc : List Nat} (hnodup : acc.Nodup)
    (t : Nat) :
    (collectBuffer tensors acc t).Nodup ∧
      ∀ b, b ∈ collectBuffer tensors acc t ↔ b ∈ acc ∨ (tensors t).buffer = some b := by
  unfold collectBuffer
  cases hb : (tensors t).buffer with
  | none => exact ⟨hnodup, fun b => by simp⟩
  | some c =>
      by_cases hc : c ∈ acc
      · simp only [if_pos hc, Option.some.injEq]
        refine ⟨hnodup, fun b => ⟨Or.inl, ?_⟩⟩
        rintro (h | rfl)
        · exact h
        · exact hc
      · simp only [if_neg hc, List.mem_append, List.mem_singleton, Option.some.injEq]
        refine ⟨List.nodup_append.mpr ⟨hnodup, List.nodup_singleton c, ?_⟩, fun b => ?_⟩
        · intro x hx y hy hxy
          exact hc (List.mem_singleton.mp hy ▸ hxy ▸ hx)
        · rw [eq_comm (a := b)]

theorem uniqueBuffers_spec (tensors : Nat → Tensor) (ts : List Nat) :
    (uniqueBuffers tensors ts).Nodup ∧
      ∀ b, b ∈ uniqueBuffers tensors ts ↔ ∃ t ∈ ts, (tensors t).buffer = some b := by
  unfold uniqueBuffers
  induction ts using List.reverseRecOn with
  | nil => simp
  | append_singleton ts t ih =>
      obtain ⟨hnodup, hmem⟩ := ih
      rw [List.foldl_append, List.foldl_cons, List.foldl_nil]
      obtain ⟨hnodup', hmem'⟩ := collectBuffer_spec hnodup t
      refine ⟨hnodup', fun b => ?_⟩
      rw [hmem' b, hmem b]
      simp [or_and_right, exists_or]

theorem unloadAll_eq {mb : MultiBuffer} {bs : List Nat} {s : List (Option Nat)}
    (h : SlotTable.releaseAll mb.buffers bs = some s) :
    mb.unloadAll bs = (true, ⟨s, mb.curNBuffers - bs.length⟩) := by
  induction bs generalizing mb with
  | nil =>
      obtain rfl := Option.some.inj h
      rfl
  | cons b bs ih =>
      obtain ⟨t, ht, hrest⟩ := Option.bind_eq_some_iff.mp h
      unfold MultiBuffer.unloadAll MultiBuffer.unloadChildBuffer
      rw [ht]
      show MultiBuffer.unloadAll ⟨t, mb.curNBuffers - 1⟩ bs = _
      rw [ih hrest, List.length_cons, Nat.sub_sub, Nat.add_comm 1]

end MzCache.Weights
