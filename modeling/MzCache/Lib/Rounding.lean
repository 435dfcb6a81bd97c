import Mathlib

/-!
# Rounded arithmetic on rationals

A floating-point expression is modelled as an exact rational expression with a
rounding after each operation. A client that multiplies small counts by a ratio
and truncates needs three facts about the rounding, and no others. The laws about
counts stop at `limit`: IEEE round-to-nearest satisfies them up to the first
integer its significand cannot hold (`2 ^ 24` in single precision), and exact
arithmetic (`Rounding.exact`) up to any limit.
-/

namespace MzCache.Lib

/-- A rounding function with the laws a truncated product relies on. -/
structure Rounding where
  fl : ℚ → ℚ
  limit : ℕ
  mono : Monotone fl
  /-- Counts are representable. -/
  nat : ∀ n : ℕ, n ≤ limit → fl n = n
  /-- A representable ratio below one does not round a product up to the count. -/
  below : ∀ (n : ℕ) (r : ℚ), 0 < n → n ≤ limit → fl r = r → r < 1 → fl (n * r) < n

/-- No rounding at all. -/
def Rounding.exact (limit : ℕ) : Rounding where
  fl := id
  limit := limit
  mono := monotone_id
  nat := fun _ _ => rfl
  below := by
    intro n r hn _ _ hr
    have : (0 : ℚ) < n := by exact_mod_cast hn
    simpa using mul_lt_of_lt_one_right this hr

/-- Conversion of a floating-point value to an integer: towards zero. -/
def truncInt (x : ℚ) : Int := if 0 ≤ x then ⌊x⌋ else ⌈x⌉

theorem truncInt_of_nonneg {x : ℚ} (h : 0 ≤ x) : truncInt x = ⌊x⌋ := if_pos h

section

variable (R : Rounding) {r : ℚ}

theorem Rounding.zero : R.fl 0 = 0 := by
  simpa using R.nat 0 (Nat.zero_le _)

theorem Rounding.nonneg {x : ℚ} (h : 0 ≤ x) : 0 ≤ R.fl x := by
  simpa [R.zero] using R.mono h

theorem Rounding.le_nat {x : ℚ} {n : ℕ} (hn : n ≤ R.limit) (h : x ≤ n) : R.fl x ≤ n := by
  simpa [R.nat n hn] using R.mono h

theorem Rounding.nat_le {x : ℚ} {n : ℕ} (hn : n ≤ R.limit) (h : (n : ℚ) ≤ x) :
    (n : ℚ) ≤ R.fl x := by
  simpa [R.nat n hn] using R.mono h

/-- A rounded share of `n` stays between nothing and `n`. -/
theorem Rounding.mul_bounds {n : ℕ} (hn : n ≤ R.limit) (h0 : 0 ≤ r) (h1 : r ≤ 1) :
    0 ≤ R.fl (n * r) ∧ R.fl (n * r) ≤ n := by
  have hcast : (0 : ℚ) ≤ n := Nat.cast_nonneg n
  exact ⟨R.nonneg (mul_nonneg hcast h0), R.le_nat hn (mul_le_of_le_one_right hcast h1)⟩

/-- Truncating a value between two counts stays between them. -/
theorem truncInt_bounds {x : ℚ} {a b : ℕ} (ha : (a : ℚ) ≤ x) (hb : x ≤ b) :
    (a : Int) ≤ truncInt x ∧ truncInt x ≤ b := by
  have h0 : 0 ≤ x := le_trans (Nat.cast_nonneg a) ha
  rw [truncInt_of_nonneg h0]
  refine ⟨?_, ?_⟩
  · rw [Int.le_floor]
    exact_mod_cast ha
  · have hfl : (⌊x⌋ : ℚ) ≤ b := le_trans (Int.floor_le x) hb
    exact_mod_cast hfl

/-- A value strictly below a count truncates strictly below it. -/
theorem truncInt_lt {x : ℚ} {b : ℕ} (h0 : 0 ≤ x) (hb : x < b) : truncInt x < b := by
  rw [truncInt_of_nonneg h0, Int.floor_lt]
  exact_mod_cast hb

end

end MzCache.Lib
