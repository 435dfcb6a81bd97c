import Mathlib

/-!
# Softmax averages computed on line

The softmax average of values under logits is computed block by block: a reference `M`, the
sum of the weights relative to it, and the weighted sum of the values. When the reference
moves, both sums are scaled; at the end the reference cancels. Nothing is asked of the
references, that they are running maxima only matters for rounding. A logit may be `⊥`, whose
weight is zero.
-/

namespace MzCache.Lib

/-- A positive function that turns sums into products. -/
structure Exponential (𝕜 : Type*) [Field 𝕜] [LinearOrder 𝕜] where
  toFun : 𝕜 → 𝕜
  pos : ∀ x, 0 < toFun x
  map_add : ∀ x y, toFun (x + y) = toFun x * toFun y

namespace Exponential

variable {𝕜 : Type*} [Field 𝕜] [LinearOrder 𝕜]

instance : CoeFun (Exponential 𝕜) fun _ => 𝕜 → 𝕜 := ⟨toFun⟩

/-- The weight of a logit relative to a reference. -/
def weight (e : Exponential 𝕜) (ref : 𝕜) : WithBot 𝕜 → 𝕜
  | ⊥ => 0
  | (l : 𝕜) => e (l - ref)

/-- The average of `value` over the first `n` keys with softmax weights. -/
def softmaxAverage (e : Exponential 𝕜) (logit : ℕ → WithBot 𝕜) (value : ℕ → 𝕜) (n : ℕ) : 𝕜 :=
  (∑ k ∈ Finset.range n, e.weight 0 (logit k) * value k) /
    ∑ k ∈ Finset.range n, e.weight 0 (logit k)

variable (e : Exponential 𝕜)

@[simp] theorem weight_bot (ref : 𝕜) : e.weight ref ⊥ = 0 := rfl

@[simp] theorem weight_coe (ref l : 𝕜) : e.weight ref l = e (l - ref) := rfl

theorem weight_rebase (ref ref' : 𝕜) (l : WithBot 𝕜) :
    e.weight ref l * e (ref - ref') = e.weight ref' l := by
  induction l using WithBot.recBotCoe with
  | bot => exact zero_mul _
  | coe l => rw [weight_coe, weight_coe, ← e.map_add, sub_add_sub_cancel]

theorem weight_nonneg (ref : 𝕜) (l : WithBot 𝕜) : 0 ≤ e.weight ref l := by
  induction l using WithBot.recBotCoe with
  | bot => exact le_rfl
  | coe l => exact (e.pos _).le

theorem weight_pos (ref : 𝕜) {l : WithBot 𝕜} (h : l ≠ ⊥) : 0 < e.weight ref l := by
  induction l using WithBot.recBotCoe with
  | bot => exact absurd rfl h
  | coe l => exact e.pos _

end Exponential

/-- `sum` and `acc` are the two sums over the first `n` keys, relative to `ref`. -/
structure SoftmaxSums {𝕜 : Type*} [Field 𝕜] [LinearOrder 𝕜] (e : Exponential 𝕜)
    (logit : ℕ → WithBot 𝕜) (value : ℕ → 𝕜) (n : ℕ) (ref sum acc : 𝕜) : Prop where
  sum_eq : sum = ∑ k ∈ Finset.range n, e.weight ref (logit k)
  acc_eq : acc = ∑ k ∈ Finset.range n, e.weight ref (logit k) * value k

namespace SoftmaxSums

variable {𝕜 : Type*} [Field 𝕜] [LinearOrder 𝕜] {e : Exponential 𝕜} {logit : ℕ → WithBot 𝕜}
  {value : ℕ → 𝕜} {n : ℕ} {ref sum acc : 𝕜}

theorem zero (ref : 𝕜) : SoftmaxSums e logit value 0 ref 0 0 := ⟨rfl, rfl⟩

/-- Both sums scaled belong to the new reference. -/
theorem rebase (h : SoftmaxSums e logit value n ref sum acc) (ref' : 𝕜) :
    SoftmaxSums e logit value n ref' (sum * e (ref - ref')) (acc * e (ref - ref')) := by
  refine ⟨?_, ?_⟩
  · rw [h.sum_eq, Finset.sum_mul]
    exact Finset.sum_congr rfl fun k _ => e.weight_rebase ref ref' _
  · rw [h.acc_eq, Finset.sum_mul]
    refine Finset.sum_congr rfl fun k _ => ?_
    rw [mul_right_comm, e.weight_rebase]

/-- A block of `b` keys added to both sums. -/
theorem extend (h : SoftmaxSums e logit value n ref sum acc) (b : ℕ) :
    SoftmaxSums e logit value (n + b) ref
      (sum + ∑ i ∈ Finset.range b, e.weight ref (logit (n + i)))
      (acc + ∑ i ∈ Finset.range b, e.weight ref (logit (n + i)) * value (n + i)) := by
  refine ⟨?_, ?_⟩
  · rw [h.sum_eq, Finset.sum_range_add]
  · rw [h.acc_eq, Finset.sum_range_add]

/-- The quotient of the sums is the softmax average, whatever the reference. -/
theorem div_eq (h : SoftmaxSums e logit value n ref sum acc) :
    acc / sum = e.softmaxAverage logit value n := by
  have h0 := h.rebase 0
  have hpos := (e.pos (ref - 0)).ne'
  unfold Exponential.softmaxAverage
  rw [← h0.sum_eq, ← h0.acc_eq, mul_div_mul_right _ _ hpos]

/-- A key that is not masked makes the sum positive. -/
theorem sum_pos [IsStrictOrderedRing 𝕜] (h : SoftmaxSums e logit value n ref sum acc)
    (hkey : ∃ k < n, logit k ≠ ⊥) : 0 < sum := by
  obtain ⟨k, hk, hne⟩ := hkey
  rw [h.sum_eq]
  exact Finset.sum_pos' (fun k _ => e.weight_nonneg ref _)
    ⟨k, Finset.mem_range.mpr hk, e.weight_pos ref hne⟩

end SoftmaxSums

end MzCache.Lib
