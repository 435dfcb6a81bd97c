import MzCache.CacheGen.BlockSpec

/-!
# Code lengths of the range coder

How many bits a channel takes depends on the widths of its symbols' frequency intervals
alone. Sixteen symbols of width one take 255 rescalings, which the two terminating bits turn
into 33 bytes; a single wider symbol among the sixteen brings that down to 32 bytes, two for
each symbol.
-/

namespace MzCache.CacheGen

open MzCache.Lib

/-- The doublings that bring a range above one quarter. -/
def doublings (range : ℕ) : ℕ := if range ≤ 2 ^ 30 then (2 ^ 30 / range).log2 + 1 else 0

/-- The range after a symbol of width `f`, renormalised. -/
def codeRange (range f : ℕ) : ℕ := range * f / 2 ^ 16 * 2 ^ doublings (range * f / 2 ^ 16)

/-- The rescalings of a message, from the widths of its symbols. -/
def codeBits : ℕ → List ℕ → ℕ
  | _, [] => 0
  | range, f :: widths => doublings (range * f / 2 ^ 16) + codeBits (codeRange range f) widths

theorem doublings_le {s d : ℕ} (hs : 0 < s) : doublings s ≤ d ↔ 2 ^ 30 < s * 2 ^ d := by
  unfold doublings
  split
  · rename_i hle
    have hpos : 2 ^ 30 / s ≠ 0 := (Nat.div_pos hle hs).ne'
    rw [Nat.succ_le_iff, Nat.log2_lt hpos, Nat.div_lt_iff_lt_mul hs, Nat.mul_comm]
  · rename_i hgt
    have : s ≤ s * 2 ^ d := Nat.le_mul_of_pos_right s (by positivity)
    omega

/-- Doubled once, a range needs one doubling less. -/
theorem doublings_double {s : ℕ} (hs : 0 < s) (hle : s ≤ 2 ^ 30) :
    doublings s = doublings (2 * s) + 1 := by
  have h2 : ∀ d, 2 * s * 2 ^ d = s * 2 ^ (d + 1) := fun d => by ring
  refine le_antisymm ?_ ?_
  · rw [doublings_le hs, ← h2, ← doublings_le (by omega)]
  · have hlt := (doublings_le hs).mp (le_refl (doublings s))
    have hpos : doublings s ≠ 0 := by
      intro h0
      rw [h0, pow_zero, Nat.mul_one] at hlt
      omega
    obtain ⟨k, hk⟩ := Nat.exists_eq_succ_of_ne_zero hpos
    rw [hk, Nat.succ_eq_add_one, Nat.add_le_add_iff_right, doublings_le (by omega), h2,
      ← doublings_le hs, hk]

/-- A renormalised range lies above one quarter, and below two unless it was there. -/
theorem doublings_range {s : ℕ} (hs : 0 < s) :
    2 ^ 30 < s * 2 ^ doublings s ∧ (doublings s ≠ 0 → s * 2 ^ doublings s ≤ 2 ^ 31) := by
  refine ⟨(doublings_le hs).mp le_rfl, fun hne => ?_⟩
  obtain ⟨k, hk⟩ := Nat.exists_eq_succ_of_ne_zero hne
  have hnot : ¬ doublings s ≤ k := by omega
  rw [doublings_le hs] at hnot
  rw [hk, Nat.succ_eq_add_one, pow_succ, ← Nat.mul_assoc]
  omega

/-- The renormalisation of a window, in terms of its size. -/
theorem rangeScheme_settle (n : ℕ) : ∀ w : Window, 0 < w.size → 2 ^ 30 < w.size * 2 ^ n →
    rangeScheme.settleCount 30 n w = doublings w.size ∧
      (rangeScheme.settle 30 n w).size = w.size * 2 ^ doublings w.size := by
  induction n with
  | zero =>
      intro w hpos hn
      have h0 : doublings w.size = 0 := Nat.le_zero.mp ((doublings_le hpos).mpr hn)
      rw [h0, pow_zero, Nat.mul_one]
      exact ⟨rfl, rfl⟩
  | succ n ih =>
      intro w hpos hn
      rw [Scheme.settleCount, Scheme.settle]
      by_cases hle : w.size ≤ 2 ^ 30
      · have hpick : ∃ k, rangeScheme.pick w = some k := ⟨_, if_pos hle⟩
        obtain ⟨k, hk⟩ := hpick
        have hsize : (w.rescale 30 k).size = 2 * w.size := rfl
        have hn' : 2 ^ 30 < (w.rescale 30 k).size * 2 ^ n := by
          calc 2 ^ 30 < w.size * 2 ^ (n + 1) := hn
            _ = (w.rescale 30 k).size * 2 ^ n := by rw [hsize]; ring
        obtain ⟨h1, h2⟩ := ih (w.rescale 30 k) (by omega) hn'
        rw [hk]
        simp only
        rw [h1, h2, hsize, doublings_double hpos hle, pow_succ]
        exact ⟨rfl, by ring⟩
      · have hpick : rangeScheme.pick w = none := if_neg hle
        have h0 : doublings w.size = 0 := if_neg hle
        rw [hpick, h0, pow_zero, Nat.mul_one]
        exact ⟨rfl, rfl⟩

/-- A symbol's part of a renormalised range is never empty. -/
theorem part_pos {r f : ℕ} (hr : 2 ^ 30 < r) (hf : 0 < f) : 2 ^ 14 ≤ r * f / 2 ^ 16 := by
  rw [Nat.le_div_iff_mul_le (by positivity)]
  calc 2 ^ 14 * 2 ^ 16 ≤ r := by omega
    _ ≤ r * f := Nat.le_mul_of_pos_right r hf

theorem codeRange_gt {r f : ℕ} (hr : 2 ^ 30 < r) (hf : 0 < f) : 2 ^ 30 < codeRange r f := by
  have hpart := part_pos hr hf
  exact (doublings_range (by omega)).1

/-- The width of a frequency interval. -/
def width (f : ℕ × ℕ) : ℕ := f.2 - f.1

theorem rangeScheme_rescalings (freqs : List (ℕ × ℕ)) :
    ∀ w : Window, 2 ^ 30 < w.size → (∀ f ∈ freqs, f.1 < f.2) →
      rangeScheme.rescalings 30 32 w freqs = codeBits w.size (freqs.map width) := by
  induction freqs with
  | nil => intro w _ _; rfl
  | cons f freqs ih =>
      intro w hw hf
      have hpos : 0 < width f := Nat.sub_pos_of_lt (hf f (by simp))
      have hpart := part_pos hw hpos
      set v := rangeScheme.narrow w f.1 f.2 with hv
      have hsize : v.size = w.size * width f / 2 ^ 16 := rfl
      obtain ⟨hcount, hsettle⟩ := rangeScheme_settle 32 v (by omega) (by omega)
      rw [Scheme.rescalings, ← hv, hcount, ih _ (by rw [hsettle]; exact (doublings_range (by omega)).1)
        (fun g hg => hf g (by simp [hg])), hsettle, hsize]
      rfl

/-! ## Bounds -/

/-- The range a message ends with. -/
def codeEnd : ℕ → List ℕ → ℕ
  | range, [] => range
  | range, f :: widths => codeEnd (codeRange range f) widths

/-- One symbol: rounding loses less than one part in `2 ^ 14`. -/
theorem codeRange_ge {r f : ℕ} (hr : 2 ^ 30 < r) (hf : 0 < f) :
    r * f * 2 ^ doublings (r * f / 2 ^ 16) ≤ codeRange r f * (2 ^ 16 + 4) := by
  have hpart := part_pos hr hf
  set s := r * f / 2 ^ 16 with hs
  have hle : r * f ≤ s * (2 ^ 16 + 4) := by omega
  calc r * f * 2 ^ doublings s ≤ s * (2 ^ 16 + 4) * 2 ^ doublings s := Nat.mul_le_mul_right _ hle
    _ = codeRange r f * (2 ^ 16 + 4) := by
        rw [codeRange, ← hs]
        ring

theorem codeEnd_ge (widths : List ℕ) : ∀ r : ℕ, 2 ^ 30 < r → (∀ f ∈ widths, 0 < f) →
    r * widths.prod * 2 ^ codeBits r widths ≤ codeEnd r widths * (2 ^ 16 + 4) ^ widths.length := by
  induction widths with
  | nil => intro r _ _; simp [codeBits, codeEnd]
  | cons f widths ih =>
      intro r hr hf
      have hpos := hf f (by simp)
      have hone := codeRange_ge hr hpos
      have hrest := ih (codeRange r f) (codeRange_gt hr hpos) (fun g hg => hf g (by simp [hg]))
      rw [List.prod_cons, codeBits, codeEnd, List.length_cons, pow_add, pow_succ]
      set d := doublings (r * f / 2 ^ 16)
      set k := codeBits (codeRange r f) widths
      calc r * (f * widths.prod) * (2 ^ d * 2 ^ k)
          = r * f * 2 ^ d * (widths.prod * 2 ^ k) := by ring
        _ ≤ codeRange r f * (2 ^ 16 + 4) * (widths.prod * 2 ^ k) := Nat.mul_le_mul_right _ hone
        _ = codeRange r f * widths.prod * 2 ^ k * (2 ^ 16 + 4) := by ring
        _ ≤ codeEnd (codeRange r f) widths * (2 ^ 16 + 4) ^ widths.length * (2 ^ 16 + 4) :=
            Nat.mul_le_mul_right _ hrest
        _ = _ := by ring

/-- Once a range was doubled it stays below two quarters. -/
theorem codeEnd_le (widths : List ℕ) : ∀ r : ℕ, 2 ^ 30 < r → (∀ f ∈ widths, 0 < f ∧ f ≤ 2 ^ 16) →
    (r ≤ 2 ^ 31 → codeEnd r widths ≤ 2 ^ 31) ∧
      (codeBits r widths = 0 ∨ codeEnd r widths ≤ 2 ^ 31) := by
  induction widths with
  | nil => intro r _ _; exact ⟨fun h => h, Or.inl rfl⟩
  | cons f widths ih =>
      intro r hr hf
      obtain ⟨hpos, hle⟩ := hf f (by simp)
      have hpart := part_pos hr hpos
      obtain ⟨h1, h2⟩ := ih (codeRange r f) (codeRange_gt hr hpos) (fun g hg => hf g (by simp [hg]))
      rw [codeEnd, codeBits]
      by_cases h0 : doublings (r * f / 2 ^ 16) = 0
      · have hsame : codeRange r f = r * f / 2 ^ 16 := by rw [codeRange, h0, pow_zero, Nat.mul_one]
        have hshrink : r * f / 2 ^ 16 ≤ r := by
          refine (Nat.div_le_iff_le_mul_add_pred (by positivity)).mpr ?_
          have := Nat.mul_le_mul_left r hle
          omega
        refine ⟨fun h => h1 (by omega), ?_⟩
        rw [h0, Nat.zero_add]
        exact h2
      · have hsmall := (doublings_range (s := r * f / 2 ^ 16) (by omega)).2 h0
        exact ⟨fun _ => h1 hsmall, Or.inr (h1 hsmall)⟩

/-- Sixteen symbols of width one. -/
theorem codeBits_ones : codeBits (2 ^ 32 - 1) (List.replicate 16 1) = 255 := by decide

theorem two_le_prod {l : List ℕ} (hpos : ∀ f ∈ l, 0 < f) (h : ∃ f ∈ l, 2 ≤ f) : 2 ≤ l.prod := by
  obtain ⟨f, hf, h2⟩ := h
  have hdvd : f ∣ l.prod := List.dvd_prod hf
  have hne : l.prod ≠ 0 := by
    rw [Ne, List.prod_eq_zero_iff]
    exact fun h0 => absurd (hpos 0 h0) (by omega)
  exact h2.trans (Nat.le_of_dvd (Nat.pos_of_ne_zero hne) hdvd)

/-- With one wider symbol among sixteen, all fit two bytes each. -/
theorem codeBits_le {widths : List ℕ} (hlen : widths.length = 16)
    (hf : ∀ f ∈ widths, 0 < f ∧ f ≤ 2 ^ 16) (hwide : ∃ f ∈ widths, 2 ≤ f) :
    codeBits (2 ^ 32 - 1) widths ≤ 254 := by
  by_contra hgt
  have hge := codeEnd_ge widths (2 ^ 32 - 1) (by norm_num) (fun f h => (hf f h).1)
  have hprod := two_le_prod (fun f h => (hf f h).1) hwide
  have hend : codeEnd (2 ^ 32 - 1) widths ≤ 2 ^ 31 := by
    rcases (codeEnd_le widths (2 ^ 32 - 1) (by norm_num) hf).2 with h | h
    · omega
    · exact h
  have hpow : 2 ^ 255 ≤ 2 ^ codeBits (2 ^ 32 - 1) widths :=
    Nat.pow_le_pow_right (by norm_num) (by omega)
  have hlow : (2 ^ 32 - 1) * 2 * 2 ^ 255 ≤ 2 ^ 31 * (2 ^ 16 + 4) ^ 16 :=
    calc (2 ^ 32 - 1) * 2 * 2 ^ 255
        ≤ (2 ^ 32 - 1) * widths.prod * 2 ^ codeBits (2 ^ 32 - 1) widths :=
          Nat.mul_le_mul (Nat.mul_le_mul_left _ hprod) hpow
      _ ≤ codeEnd (2 ^ 32 - 1) widths * (2 ^ 16 + 4) ^ widths.length := hge
      _ ≤ 2 ^ 31 * (2 ^ 16 + 4) ^ 16 := by
          rw [hlen]
          exact Nat.mul_le_mul_right _ hend
  norm_num at hlow

end MzCache.CacheGen
