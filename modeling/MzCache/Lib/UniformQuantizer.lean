import Mathlib

/-!
# Uniform quantization

A value between `lo` and `hi` is sent to the nearest of `levels + 1` equidistant points, whose
number is its code. For any rounding to a nearest integer the code needs no clamping, and the
point differs from the value by at most half a step.
-/

namespace MzCache.Lib

variable {𝕜 : Type*} [Field 𝕜] [LinearOrder 𝕜] [IsStrictOrderedRing 𝕜]

/-- `r` is an integer nearest to `x`. -/
def Nearest (r : ℤ) (x : 𝕜) : Prop := |(r : 𝕜) - x| ≤ 1 / 2

/-- An integer nearest to a number between two integers is between them. -/
theorem Nearest.mem_range {r : ℤ} {x : 𝕜} (h : Nearest r x) {n : ℕ} (h0 : 0 ≤ x)
    (hn : x ≤ n) : 0 ≤ r ∧ r ≤ n := by
  obtain ⟨h1, h2⟩ := abs_le.mp h
  constructor
  · by_contra hneg
    have : (r : 𝕜) ≤ -1 := by exact_mod_cast (by omega : r ≤ -1)
    linarith
  · by_contra hbig
    have : (n : 𝕜) + 1 ≤ r := by exact_mod_cast (by omega : (n : ℤ) + 1 ≤ r)
    linarith

/-- The scale of `levels` steps between `lo` and `hi`. -/
def quantScale (levels : ℕ) (lo hi : 𝕜) : 𝕜 := if 0 < hi - lo then levels / (hi - lo) else 0

/-- A value in units of a step. -/
def quantPosition (levels : ℕ) (lo hi x : 𝕜) : 𝕜 :=
  -lo * quantScale levels lo hi + x * quantScale levels lo hi

section

variable {levels : ℕ} {lo hi x : 𝕜}

theorem quantPosition_mem (hlo : lo ≤ x) (hhi : x ≤ hi) :
    0 ≤ quantPosition levels lo hi x ∧ quantPosition levels lo hi x ≤ levels := by
  unfold quantPosition quantScale
  split
  · next hpos =>
      have hform : -lo * ((levels : 𝕜) / (hi - lo)) + x * (levels / (hi - lo)) =
          levels * ((x - lo) / (hi - lo)) := by ring
      rw [hform]
      have hlevels : (0 : 𝕜) ≤ levels := Nat.cast_nonneg levels
      constructor
      · exact mul_nonneg hlevels (div_nonneg (sub_nonneg.mpr hlo) hpos.le)
      · refine mul_le_of_le_one_right hlevels ((div_le_one hpos).mpr ?_)
        linarith
  · simp

/-- The point of a nearest code is within half a step of the value. -/
theorem quant_error (hlevels : 0 < levels) (hlo : lo ≤ x) (hhi : x ≤ hi) {code : ℤ}
    (hcode : Nearest code (quantPosition levels lo hi x)) :
    |lo + code * ((hi - lo) / levels) - x| ≤ (hi - lo) / (2 * levels) := by
  have hL : (0 : 𝕜) < levels := Nat.cast_pos.mpr hlevels
  by_cases hpos : 0 < hi - lo
  · have hstep : 0 < (hi - lo) / (levels : 𝕜) := div_pos hpos hL
    have hx : x = lo + quantPosition levels lo hi x * ((hi - lo) / levels) := by
      unfold quantPosition quantScale
      rw [if_pos hpos]
      field_simp
      ring
    have hdiff : lo + code * ((hi - lo) / levels) - x =
        (code - quantPosition levels lo hi x) * ((hi - lo) / levels) := by
      linear_combination (-1 : 𝕜) * hx
    rw [hdiff, abs_mul, abs_of_pos hstep]
    calc |(code : 𝕜) - quantPosition levels lo hi x| * ((hi - lo) / levels)
        ≤ 1 / 2 * ((hi - lo) / levels) := mul_le_mul_of_nonneg_right hcode hstep.le
      _ = (hi - lo) / (2 * levels) := by ring
  · have hx : x = lo := by linarith
    have hhi' : hi = lo := by linarith
    rw [hx, hhi']
    simp

end

section

variable [FloorRing 𝕜]

/-- Round to nearest, ties to even. -/
def roundTiesEven (x : 𝕜) : ℤ :=
  if x - ⌊x⌋ < 1 / 2 then ⌊x⌋
  else if 1 / 2 < x - ⌊x⌋ then ⌊x⌋ + 1
  else if ⌊x⌋ % 2 = 0 then ⌊x⌋ else ⌊x⌋ + 1

theorem roundTiesEven_nearest (x : 𝕜) : Nearest (roundTiesEven x) x := by
  have h0 : (⌊x⌋ : 𝕜) ≤ x := Int.floor_le x
  have h1 : x < ⌊x⌋ + 1 := Int.lt_floor_add_one x
  unfold Nearest roundTiesEven
  rw [abs_le]
  split
  · constructor <;> linarith
  · split
    · push_cast
      constructor <;> linarith
    · split
      · constructor <;> linarith
      · push_cast
        constructor <;> linarith

end

end MzCache.Lib
