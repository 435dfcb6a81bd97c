import MzCache.CacheGen.Coder

/-!
# The coders refine window coding

Both interval arithmetics represent the windows of `Lib.ArithCode` with 32-bit positions.
From the laws that say so (`Lawful`) one channel's decoder is shown to return the encoded
symbols exactly when the final bits do not lie below the final window.
-/

namespace MzCache.CacheGen

open MzCache.Lib

/-! ## Frequency rows -/

/-- A row that increases up to its last symbol. -/
def Rises (row : ℕ → UInt16) (maxSymbol : ℕ) : Prop :=
  ∀ s < maxSymbol, (row s).toNat < (row (s + 1)).toNat

theorem Rises.cdfHigh_gt {row : ℕ → UInt16} {maxSymbol s : ℕ} (h : Rises row maxSymbol)
    (hs : s ≤ maxSymbol) : (row s).toNat < cdfHigh row maxSymbol s := by
  unfold cdfHigh
  split
  · exact (row s).toNat_lt
  · exact h s (by omega)

/-- A row that a coder can use: it starts at zero and increases up to its last symbol. -/
structure CdfRow (row : ℕ → UInt16) (maxSymbol : ℕ) : Prop where
  zero : (row 0).toNat = 0
  lt_succ : ∀ s < maxSymbol, (row s).toNat < (row (s + 1)).toNat

namespace CdfRow

variable {row : ℕ → UInt16} {maxSymbol : ℕ}

theorem mono (h : CdfRow row maxSymbol) {s t : ℕ} (hst : s ≤ t) (ht : t ≤ maxSymbol) :
    (row s).toNat ≤ (row t).toNat := by
  induction t, hst using Nat.le_induction with
  | base => exact le_rfl
  | succ t _ ih => exact (ih (by omega)).trans (h.lt_succ t (by omega)).le

theorem rises (h : CdfRow row maxSymbol) : Rises row maxSymbol := h.lt_succ

theorem cdfHigh_le (row : ℕ → UInt16) (maxSymbol s : ℕ) : cdfHigh row maxSymbol s ≤ 2 ^ 16 := by
  unfold cdfHigh
  split
  · exact le_rfl
  · exact (row _).toNat_lt.le

/-- Symbol `s` is the one whose frequency interval contains `count`. -/
def Covers (row : ℕ → UInt16) (maxSymbol count s : ℕ) : Prop :=
  s ≤ maxSymbol ∧ (row s).toNat ≤ count ∧ count < cdfHigh row maxSymbol s

theorem exists_covers (h : CdfRow row maxSymbol) {count : ℕ} (hc : count < 2 ^ 16) :
    ∃ s, Covers row maxSymbol count s := by
  -- the last symbol that starts at or below `count`
  let s := Nat.findGreatest (fun t => (row t).toNat ≤ count) maxSymbol
  have hle : s ≤ maxSymbol := Nat.findGreatest_le maxSymbol
  have hs : (row s).toNat ≤ count :=
    Nat.findGreatest_spec (P := fun t => (row t).toNat ≤ count) (Nat.zero_le _) (by rw [h.zero]; omega)
  refine ⟨s, hle, hs, ?_⟩
  unfold cdfHigh
  split
  · exact hc
  · by_contra hge
    have := Nat.le_findGreatest (P := fun t => (row t).toNat ≤ count)
      (show s + 1 ≤ maxSymbol by omega) (by omega)
    have : s + 1 ≤ s := this
    omega

theorem Covers.not_lt (h : CdfRow row maxSymbol) {count s t : ℕ}
    (hs : Covers row maxSymbol count s) (ht : t ≤ maxSymbol) (htc : (row t).toNat ≤ count) :
    t ≤ s := by
  by_contra hlt
  have hne : s ≠ maxSymbol := by omega
  have hup := hs.2.2
  rw [cdfHigh, if_neg hne] at hup
  have := h.mono (show s + 1 ≤ t by omega) ht
  omega

/-- The binary search finds the covering symbol. -/
theorem binsearchLoop_eq (h : CdfRow row maxSymbol) {count s : ℕ}
    (hs : Covers row maxSymbol count s) (fuel : ℕ) (lo hi : ℤ) (hlo : 0 ≤ lo)
    (hhi : hi ≤ maxSymbol) (hlh : lo ≤ hi + 1) (hfuel : hi - lo + 1 < fuel)
    (hmem : lo ≤ s ∧ s ≤ hi ∨ s = maxSymbol ∧ lo = maxSymbol + 1) :
    binsearchLoop row maxSymbol count fuel lo hi = s := by
  induction fuel generalizing lo hi with
  | zero => omega
  | succ fuel ih =>
      rw [binsearchLoop]
      by_cases hle : lo ≤ hi
      · rw [if_pos hle]
        set mid := (lo + hi) / 2 with hmid
        obtain ⟨m, hm⟩ : ∃ m : ℕ, mid = m := ⟨mid.toNat, by omega⟩
        have hmle : m ≤ maxSymbol := by omega
        simp only [hm, Int.toNat_natCast]
        have hs' : lo ≤ s ∧ s ≤ hi := by omega
        by_cases hlow : count < (row m).toNat
        · rw [if_pos hlow]
          -- `mid` starts above `count`, so the symbol lies before it
          have hsm : s < m := by
            by_contra hge
            have := h.mono (show m ≤ s by omega) hs.1
            have := hs.2.1
            omega
          exact ih _ _ hlo (by omega) (by omega) (by push_cast at *; omega) (by omega)
        · rw [if_neg hlow]
          have hms : m ≤ s := Covers.not_lt h hs hmle (by omega)
          by_cases hmax : m = maxSymbol
          · -- the truncated upper end sends the search past the last symbol
            have hz : count ≥ (if (m : ℤ) = maxSymbol then 0x10000 % 2 ^ 16
                else (row (m + 1)).toNat) := by
              rw [if_pos (by omega)]
              omega
            rw [if_pos hz]
            exact ih _ _ (by omega) hhi (by omega) (by push_cast at *; omega) (Or.inr (by omega))
          · rw [if_neg (show ¬ (m : ℤ) = maxSymbol by omega)]
            by_cases hhigh : count ≥ (row (m + 1)).toNat
            · rw [if_pos hhigh]
              have := Covers.not_lt h hs (show m + 1 ≤ maxSymbol by omega) hhigh
              exact ih _ _ (by omega) hhi (by omega) (by push_cast at *; omega) (by omega)
            · rw [if_neg hhigh]
              have hsm : s ≤ m := by
                by_contra hgt
                have := h.mono (show m + 1 ≤ s by omega) hs.1
                have := hs.2.1
                omega
              omega
      · rw [if_neg hle]
        obtain ⟨hsmax, hlo'⟩ : s = maxSymbol ∧ lo = maxSymbol + 1 := by omega
        rw [if_neg (by omega), if_pos (by omega), hsmax]

theorem binsearchSymbol_covers {lp : ℕ} (hlp : 2 ≤ lp) (h : CdfRow row (lp - 2)) {count : ℕ}
    (hc : count < 2 ^ 16) :
    Covers row (lp - 2) count (binsearchSymbol row lp count) := by
  obtain ⟨s, hs⟩ := h.exists_covers hc
  have hmax : ((lp - 2 : ℕ) : ℤ) = (lp : ℤ) - 2 := by omega
  have hle := hs.1
  have heq := binsearchLoop_eq h hs lp 0 (lp - 2) le_rfl (by omega) (by omega)
    (by omega) (by omega)
  rw [hmax] at heq
  rw [binsearchSymbol, heq, Int.toNat_natCast]
  exact hs

end CdfRow

/-- Scaling a position back to frequencies inverts the scaling of frequencies. -/
theorem le_scaled_iff {size c v : ℕ} (hsize : 0 < size) :
    c ≤ ((v + 1) * 2 ^ 16 - 1) / size ↔ size * c / 2 ^ 16 ≤ v := by
  rw [Nat.le_div_iff_mul_le hsize, ← Nat.lt_succ_iff (n := v),
    Nat.div_lt_iff_lt_mul (by positivity), Nat.mul_comm c, Nat.succ_eq_add_one]
  have : 0 < (v + 1) * 2 ^ 16 := by positivity
  omega

/-! ## Laws of an interval arithmetic -/

/-- A window between renormalisations. -/
structure Settled (S : Scheme) (w : Window) : Prop where
  within : w.Within 30
  wide : 2 ^ 30 < w.size
  done : S.pick w = none

/-- The interval arithmetic `K` follows the scheme `S` on the windows that `rep` relates its
states to. -/
structure Lawful {σ : Type} (K : IntervalCoder σ) (S : Scheme) (rep : σ → Window → Prop)
    (first : Window) : Prop where
  total : S.total = 2 ^ 16
  init : rep K.init first
  first_low : first.low = 0
  first_settled : Settled S first
  low_eq : ∀ s w, rep s w → K.low s = w.low
  narrow : ∀ s w cLo cHi, rep s w → Settled S w → cLo < cHi → cHi ≤ 2 ^ 16 →
    rep (K.narrow s cLo cHi) (S.narrow w cLo cHi) ∧ 2 ^ 14 ≤ S.cut w.size cLo cHi ∧
      w.size * cLo / 2 ^ 16 + S.cut w.size cLo cHi ≤ w.size * cHi / 2 ^ 16
  decNarrow : ∀ s w cLo cHi, rep s w → Settled S w → cLo < cHi → cHi ≤ 2 ^ 16 →
    K.decNarrow s cLo cHi = K.narrow s cLo cHi
  renorm_none : ∀ s w, rep s w → w.Within 30 → K.renorm s = none →
    S.pick w = none ∧ 2 ^ 30 < w.size
  renorm_some : ∀ s w k s', rep s w → w.Within 30 → K.renorm s = some (k, s') →
    S.pick w = some k ∧ w.Fits 30 k ∧ rep s' (w.rescale 30 k)
  decRenorm_none : ∀ s v, K.renorm s = none → K.decRenorm s v = none
  decRenorm_some : ∀ s w k s' v, rep s w → w.Within 30 → K.renorm s = some (k, s') →
    w.low ≤ v → v < w.low + w.size →
    ∃ v', K.decRenorm s v = some (s', v') ∧ u32 (v' <<< 1) = 2 * (v - k.offset 30)
  count_eq : ∀ s w v, rep s w → Settled S w → w.low ≤ v → v < w.low + w.size →
    K.count s v = ((v - w.low + 1) * 2 ^ 16 - 1) / w.size

/-! ## The two arithmetics are lawful -/

theorem shl_eq (n : ℕ) : u32 (n <<< 1) = 2 * (n % 2 ^ 31) := by
  rw [u32, Nat.shiftLeft_eq]
  omega

theorem or_one (n : ℕ) : 2 * n ||| 1 = 2 * n + 1 :=
  (Nat.two_pow_add_eq_or_of_lt (i := 1) (by norm_num) n).symm

theorem or_ends {n : ℕ} (h : n < 2 ^ 30) : 2 * n ||| 0x80000001 = 2 * n + 2 ^ 31 + 1 := by
  have hsplit : (0x80000001 : ℕ) = 1 ||| 2 ^ 31 * 1 := by decide
  rw [hsplit, ← Nat.or_assoc, or_one, Nat.or_comm, ← Nat.two_pow_add_eq_or_of_lt (by omega)]
  omega

theorem count_lt {size v : ℕ} (h : v < size) : ((v + 1) * 2 ^ 16 - 1) / size < 2 ^ 16 := by
  rw [Nat.div_lt_iff_lt_mul (by omega)]
  have : (v + 1) * 2 ^ 16 ≤ size * 2 ^ 16 := Nat.mul_le_mul_right _ h
  rw [Nat.mul_comm (2 ^ 16)]
  omega

/-- The numerator of the decoders' count does not wrap inside the window. -/
theorem count_num {low size v : ℕ} (hin : low + size ≤ 4 * 2 ^ 30) (hlo : low ≤ v)
    (hhi : v < low + size) :
    u64 (u64 (v + 2 ^ 64 - low + 1) * 0x10000 + 2 ^ 64 - 1) = (v - low + 1) * 2 ^ 16 - 1 := by
  simp only [u64]
  omega

/-- The products of the interval updates. -/
theorem scaled_bounds (size : ℕ) {cLo cHi : ℕ} (hlt : cLo < cHi) (htop : cHi ≤ 2 ^ 16) :
    size * cLo + size * (cHi - cLo) = size * cHi ∧ size ≤ size * (cHi - cLo) ∧
      size * cHi ≤ size * 2 ^ 16 := by
  refine ⟨?_, ?_, Nat.mul_le_mul_left _ htop⟩
  · rw [← Nat.mul_add]
    congr 1
    omega
  · exact Nat.le_mul_of_pos_right _ (by omega)

theorem diff_eq {cLo cHi : ℕ} (hlt : cLo < cHi) (htop : cHi ≤ 2 ^ 16) :
    u32 (cHi + 2 ^ 32 - cLo) = cHi - cLo := by
  rw [u32]
  omega

theorem quarter_eq : quarter = 2 ^ 30 := rfl
theorem half_eq : half = 2 ^ 31 := rfl
theorem threeQ_eq : threeQ = 3 * 2 ^ 30 := rfl

/-- The range coder rescales while one quarter holds the window's size. -/
def rangeScheme : Scheme where
  total := 2 ^ 16
  cut := fun size lo hi => size * (hi - lo) / 2 ^ 16
  pick := fun w =>
    if w.size ≤ 2 ^ 30 then
      some (if w.low < 2 ^ 30 then .lower else if 2 ^ 31 ≤ w.low then .upper else .middle)
    else none

/-- The low/high coder rescales while some half holds the window. -/
def lowHighScheme : Scheme where
  total := 2 ^ 16
  cut := fun size lo hi => size * hi / 2 ^ 16 - size * lo / 2 ^ 16
  pick := fun w =>
    if w.low + w.size ≤ 2 ^ 31 then some .lower
    else if 2 ^ 31 ≤ w.low then some .upper
    else if 2 ^ 30 ≤ w.low ∧ w.low + w.size ≤ 3 * 2 ^ 30 then some .middle
    else none

/-- The windows the two coders start from. -/
def rangeFirst : Window := ⟨0, 2 ^ 32 - 1⟩
def lowHighFirst : Window := ⟨0, 2 ^ 32⟩

structure LowRange.Rep (s : LowRange) (w : Window) : Prop where
  low : s.low = w.low
  range : s.range = w.size
  pos : 0 < w.size
  lt : w.size < 2 ^ 32

theorem LowRange.lawful : Lawful LowRange.coder rangeScheme LowRange.Rep rangeFirst where
  total := rfl
  init := ⟨rfl, rfl, by simp [rangeFirst], by simp [rangeFirst]⟩
  first_low := rfl
  first_settled := ⟨by simp [Window.Within, rangeFirst], by simp [rangeFirst], rfl⟩
  low_eq := fun s w h => h.low
  narrow := by
    rintro s w cLo cHi ⟨hl, hr, hp, hlt32⟩ ⟨hin, hwide, -⟩ hlt htop
    simp only [Window.Within] at hin
    obtain ⟨hsum, hpos, hall⟩ := scaled_bounds w.size hlt htop
    simp only [Scheme.narrow, rangeScheme]
    refine ⟨⟨?_, ?_, ?_, ?_⟩, by omega, by omega⟩
    · simp only [Window.part, LowRange.coder, LowRange.narrow, hl, hr, u32, u64,
        Nat.shiftRight_eq_div_pow]
      omega
    · simp only [Window.part, LowRange.coder, LowRange.narrow, hr, diff_eq hlt htop]
      simp only [u32, u64, Nat.shiftRight_eq_div_pow]
      omega
    · simp only [Window.part]
      omega
    · simp only [Window.part]
      omega
  decNarrow := by
    rintro s w cLo cHi ⟨hl, hr, hp, hlt32⟩ ⟨hin, hwide, -⟩ hlt htop
    simp only [Window.Within] at hin
    obtain ⟨hsum, hpos, hall⟩ := scaled_bounds w.size hlt htop
    simp only [LowRange.coder, LowRange.narrow, LowRange.decNarrow, LowRange.mk.injEq, hl, hr,
      u32, u64, Nat.shiftRight_eq_div_pow, and_true]
    omega
  renorm_none := by
    rintro s w ⟨hl, hr, hp, hlt32⟩ - h
    change LowRange.renorm s = none at h
    unfold LowRange.renorm at h
    split_ifs at h with hq
    rw [quarter_eq] at hq
    have hsize : ¬ w.size ≤ 2 ^ 30 := by omega
    exact ⟨by simp only [rangeScheme, if_neg hsize], by omega⟩
  renorm_some := by
    rintro s w k s' ⟨hl, hr, hp, hlt32⟩ hin h
    simp only [Window.Within] at hin
    change LowRange.renorm s = some (k, s') at h
    unfold LowRange.renorm at h
    have hQ := quarter_eq
    have hH := half_eq
    split_ifs at h with hq hlow hup
    all_goals
      simp only [Option.some.injEq, Prod.mk.injEq] at h
      obtain ⟨rfl, rfl⟩ := h
      simp only [shl_eq]
      have hsize : w.size ≤ 2 ^ 30 := by omega
      refine ⟨?_, ?_, ?_, ?_, ?_, ?_⟩
    all_goals
      try simp only [Window.Fits, Window.rescale, Rescale.offset, u32]
      try omega
    · simp only [rangeScheme, if_pos hsize]
      rw [if_pos (by omega)]
    · simp only [rangeScheme, if_pos hsize]
      rw [if_neg (by omega), if_pos (by omega)]
    · simp only [rangeScheme, if_pos hsize]
      rw [if_neg (by omega), if_neg (by omega)]
  decRenorm_none := by
    intro s v h
    change LowRange.renorm s = none at h
    change LowRange.decRenorm s v = none
    unfold LowRange.renorm at h
    split_ifs at h with hq
    rw [LowRange.decRenorm, if_neg hq]
  decRenorm_some := by
    rintro s w k s' v ⟨hl, hr, hp, hlt32⟩ hin h hlo hhi
    simp only [Window.Within] at hin
    change LowRange.renorm s = some (k, s') at h
    unfold LowRange.renorm at h
    have hQ := quarter_eq
    have hH := half_eq
    split_ifs at h with hq hlow hup
    all_goals
      simp only [Option.some.injEq, Prod.mk.injEq] at h
      obtain ⟨rfl, rfl⟩ := h
      simp only [LowRange.coder, LowRange.decRenorm]
    · refine ⟨v, by rw [if_pos hq, if_neg (by omega), if_neg (by omega)], ?_⟩
      simp only [shl_eq, Rescale.offset]
      omega
    · refine ⟨_, by rw [if_pos hq, if_pos hup], ?_⟩
      simp only [shl_eq, Rescale.offset]
      simp only [u32]
      omega
    · refine ⟨_, by rw [if_pos hq, if_neg hup, if_pos (by omega)], ?_⟩
      simp only [shl_eq, Rescale.offset]
      simp only [u32]
      omega
  count_eq := by
    rintro s w v ⟨hl, hr, hp, hlt32⟩ ⟨hin, -, -⟩ hlo hhi
    simp only [Window.Within] at hin
    simp only [LowRange.coder, LowRange.count, hl, hr, count_num hin hlo hhi]
    exact Nat.mod_eq_of_lt (count_lt (by omega))

structure LowHigh.Rep (s : LowHigh) (w : Window) : Prop where
  low : s.low = w.low
  high : s.high + 1 = w.low + w.size
  pos : 0 < w.size

theorem LowHigh.Rep.span_eq {s : LowHigh} {w : Window} (h : s.Rep w) (hin : w.Within 30) :
    s.span = w.size := by
  obtain ⟨hl, hh, hp⟩ := h
  simp only [Window.Within] at hin
  rw [LowHigh.span, u64]
  omega

theorem LowHigh.lawful :
    Lawful LowHigh.coder lowHighScheme LowHigh.Rep lowHighFirst where
  total := rfl
  init := ⟨rfl, rfl, by simp [lowHighFirst]⟩
  first_low := rfl
  first_settled := ⟨by simp [Window.Within, lowHighFirst], by simp [lowHighFirst], rfl⟩
  low_eq := fun s w h => h.low
  narrow := by
    rintro s w cLo cHi h ⟨hin, hwide, -⟩ hlt htop
    have hspan := h.span_eq hin
    obtain ⟨hl, hh, hp⟩ := h
    simp only [Window.Within] at hin
    obtain ⟨hsum, hpos, hall⟩ := scaled_bounds w.size hlt htop
    simp only [Scheme.narrow, lowHighScheme]
    refine ⟨⟨?_, ?_, ?_⟩, by omega, by omega⟩
    · simp only [Window.part, LowHigh.coder, LowHigh.narrow, hl, hspan, u32, u64,
        Nat.shiftRight_eq_div_pow]
      omega
    · -- `low - 1u` wraps at zero and the sum brings it back
      simp only [Window.part, LowHigh.coder, LowHigh.narrow, hl, hspan, u32, u64,
        Nat.shiftRight_eq_div_pow]
      omega
    · simp only [Window.part]
      omega
  decNarrow := fun _ _ _ _ _ _ _ _ => rfl
  renorm_none := by
    rintro s w ⟨hl, hh, hp⟩ - h
    change LowHigh.renorm s = none at h
    unfold LowHigh.renorm at h
    have hQ := quarter_eq
    have hH := half_eq
    have hT := threeQ_eq
    split_ifs at h
    refine ⟨?_, by omega⟩
    simp only [lowHighScheme]
    rw [if_neg (by omega), if_neg (by omega), if_neg (by omega)]
  renorm_some := by
    rintro s w k s' ⟨hl, hh, hp⟩ hin h
    simp only [Window.Within] at hin
    change LowHigh.renorm s = some (k, s') at h
    unfold LowHigh.renorm at h
    have hQ := quarter_eq
    have hH := half_eq
    have hT := threeQ_eq
    split_ifs at h with hlow hup hmid
    all_goals
      simp only [Option.some.injEq, Prod.mk.injEq] at h
      obtain ⟨rfl, rfl⟩ := h
    · refine ⟨?_, ?_, ?_, ?_, ?_⟩
      · simp only [lowHighScheme]
        rw [if_pos (by omega)]
      all_goals
        simp only [Window.Fits, Window.rescale, Rescale.offset, shl_eq, or_one]
        omega
    · refine ⟨?_, ?_, ?_, ?_, ?_⟩
      · simp only [lowHighScheme]
        rw [if_neg (by omega), if_pos (by omega)]
      all_goals
        simp only [Window.Fits, Window.rescale, Rescale.offset, shl_eq, or_one]
        omega
    · have hmask : ∀ n, n &&& 0x7FFFFFFF = n % 2 ^ 31 := fun n =>
        Nat.and_two_pow_sub_one_eq_mod n 31
      have hends := or_ends (n := s.high % 2 ^ 31) (by omega)
      refine ⟨?_, ?_, ?_, ?_, ?_⟩
      · simp only [lowHighScheme]
        rw [if_neg (by omega), if_neg (by omega), if_pos (by omega)]
      all_goals
        simp only [Window.Fits, Window.rescale, Rescale.offset, hmask, hends, shl_eq]
        omega
  decRenorm_none := by
    intro s v h
    change LowHigh.renorm s = none at h
    change LowHigh.decRenorm s v = none
    unfold LowHigh.renorm at h
    split_ifs at h with hlow hup hmid
    rw [LowHigh.decRenorm, if_neg (by omega), if_neg hmid]
  decRenorm_some := by
    rintro s w k s' v ⟨hl, hh, hp⟩ hin h hlo hhi
    simp only [Window.Within] at hin
    change LowHigh.renorm s = some (k, s') at h
    unfold LowHigh.renorm at h
    have hQ := quarter_eq
    have hH := half_eq
    have hT := threeQ_eq
    split_ifs at h with hlow hup hmid
    all_goals
      simp only [Option.some.injEq, Prod.mk.injEq] at h
      obtain ⟨rfl, rfl⟩ := h
      simp only [LowHigh.coder, LowHigh.decRenorm]
    · refine ⟨v, by rw [if_pos (by omega)], ?_⟩
      simp only [shl_eq, Rescale.offset]
      omega
    · refine ⟨v, by rw [if_pos (by omega)], ?_⟩
      simp only [shl_eq, Rescale.offset]
      omega
    · refine ⟨_, by rw [if_neg (by omega), if_pos hmid], ?_⟩
      simp only [shl_eq, Rescale.offset]
      simp only [u32]
      omega
  count_eq := by
    rintro s w v h ⟨hin, -, -⟩ hlo hhi
    have hspan := h.span_eq hin
    simp only [Window.Within] at hin
    simp only [LowHigh.coder, LowHigh.count, hspan, h.low, count_num hin hlo hhi]
    exact Nat.mod_eq_of_lt (count_lt (by omega))

/-! ## One channel -/

section Channel

variable {σ : Type} {K : IntervalCoder σ} {S : Scheme} {rep : σ → Window → Prop}
  {first : Window}

/-- The encoder state `e`, which started on the bits `pre`, represents the coded state `c`. -/
structure Encodes (rep : σ → Window → Prop) (pre : List Bool) (e : EncState σ) (c : Coded) :
    Prop where
  rep : rep e.iv c.win
  pending : e.pending = c.pending
  ok : e.out.Ok
  bits : e.out.bits = pre ++ c.bits

/-- The decoder state `d` follows the same interval on the stream of `len` bytes. -/
structure Follows (base : List UInt8) (len : ℕ) (iv : σ) (d : DecState σ) (c : Coded) :
    Prop where
  iv : d.iv = iv
  reads : c.Reads 30 (channelStream base len) d.value
  br : d.br.At base len c.shifts

theorem Encodes.emit {pre : List Bool} {e : EncState σ} {c : Coded} (h : Encodes rep pre e c)
    {k : Rescale} {iv : σ} (hrep : rep iv (c.win.rescale 30 k)) (hshort : c.shifts < 2 ^ 31) :
    Encodes rep pre (e.emit k iv) (c.rescale 30 k) := by
  have hpending : e.pending < 2 ^ 31 := by
    rw [h.pending]
    exact (Nat.le_add_left _ _).trans_lt hshort
  have hbit : ∀ bit, Appends e.out (appendBitAndPending bit e.pending e.out)
      (Lib.emit bit c.pending) := fun bit => by
    rw [← h.pending]
    exact appendBitAndPending_appends bit hpending e.out h.ok
  have hwin : rep (e.emit k iv).iv (c.rescale 30 k).win := by
    rw [Coded.rescale_win]
    cases k <;> exact hrep
  cases k with
  | lower =>
      refine ⟨hwin, ?_, (hbit false).ok, ?_⟩
      · simp only [EncState.emit, Coded.rescale]
      · simp only [EncState.emit, Coded.rescale, (hbit false).bits, h.bits, List.append_assoc]
  | upper =>
      refine ⟨hwin, ?_, (hbit true).ok, ?_⟩
      · simp only [EncState.emit, Coded.rescale]
      · simp only [EncState.emit, Coded.rescale, (hbit true).bits, h.bits, List.append_assoc]
  | middle =>
      refine ⟨hwin, ?_, h.ok, ?_⟩
      · rw [Coded.rescale_middle_pending, ← h.pending]
        rfl
      · rw [Coded.rescale_middle_bits, ← h.bits]
        rfl

/-- A decoder's renormalisation is the encoder's. -/
theorem Follows.rescale (hK : Lawful K S rep first) {base : List UInt8} {len : ℕ} {s s' : σ}
    {d : DecState σ} {c : Coded} {k : Rescale} (h : Follows base len s d c)
    (hrep : rep s c.win) (hin : c.win.Within 30) (hs : K.renorm s = some (k, s'))
    (hlo : c.NotBelow 30 (channelStream base len))
    (hhi : c.NotAbove 30 (channelStream base len)) :
    ∃ d', (∀ fuel, decRenormLoop K (fuel + 1) d = decRenormLoop K fuel d') ∧
      Follows base len s' d' (c.rescale 30 k) := by
  obtain ⟨-, hfit, -⟩ := hK.renorm_some s _ k s' hrep hin hs
  obtain ⟨v', hdec, hshift⟩ := hK.decRenorm_some s _ k s' d.value hrep hin hs
    (h.reads.notBelow_iff.mp hlo) (h.reads.notAbove_iff.mp hhi)
  obtain ⟨hbit, hbr⟩ := h.br.nextBit
  refine ⟨⟨s', u32 (v' <<< 1) ||| d.br.nextBit.1.toNat, d.br.nextBit.2⟩, fun fuel => ?_, rfl,
    ?_, ?_⟩
  · rw [decRenormLoop, h.iv, hdec]
  · have hor : 2 * (d.value - k.offset 30) ||| d.br.nextBit.1.toNat =
        2 * (d.value - k.offset 30) + d.br.nextBit.1.toNat := by
      have hlt : d.br.nextBit.1.toNat < 2 ^ 1 := d.br.nextBit.1.toNat_lt
      simpa using (Nat.two_pow_add_eq_or_of_lt hlt (d.value - k.offset 30)).symm
    show (c.rescale 30 k).Reads 30 _ (u32 (v' <<< 1) ||| d.br.nextBit.1.toNat)
    rw [hshift, hor, hbit]
    exact h.reads.rescale (hfit.1.trans (h.reads.notBelow_iff.mp hlo))
  · rw [Coded.shifts_rescale]
    exact hbr

/-- The renormalisation loops of encoder and decoder stop at the same window. The pending bits
fit an `int` while few enough rescalings can follow. -/
theorem renormLoop_spec (hK : Lawful K S rep first) {pre : List Bool} (fuel : ℕ) (e : EncState σ)
    (c : Coded) (he : Encodes rep pre e c) (hin : c.win.Within 30)
    (hfuel : 2 ^ 32 < c.win.size * 2 ^ fuel)
    (hshort : ∃ n, 2 ^ 32 < c.win.size * 2 ^ n ∧ c.shifts + n < 2 ^ 31) :
    ∃ e' c', encRenormLoop K fuel e = .ok e' ∧ Encodes rep pre e' c' ∧ Settled S c'.win ∧
      c.Nested 30 c' ∧ c'.win.size = 2 ^ (c'.shifts - c.shifts) * c.win.size ∧
      (∀ n, 2 ^ 32 < c.win.size * 2 ^ n → c'.win = S.settle 30 n c.win ∧
        c'.shifts = c.shifts + S.settleCount 30 n c.win) ∧
      ∀ base len d, Follows base len e.iv d c → c.NotBelow 30 (channelStream base len) →
        c'.NotAbove 30 (channelStream base len) →
        c'.NotBelow 30 (channelStream base len) ∧
        ∃ d', decRenormLoop K fuel d = .ok d' ∧ Follows base len e'.iv d' c' := by
  induction fuel generalizing e c with
  | zero =>
      simp only [Window.Within] at hin
      omega
  | succ fuel ih =>
      rw [encRenormLoop]
      cases hs : K.renorm e.iv with
      | none =>
          obtain ⟨hpick, hwide⟩ := hK.renorm_none _ _ he.rep hin hs
          refine ⟨e, c, rfl, he, ⟨hin, hwide, hpick⟩, .refl 30 c, by simp, fun n _ => ?_,
            fun base len d hd hlo _ => ⟨hlo, d, ?_, hd⟩⟩
          · cases n with
            | zero => exact ⟨rfl, rfl⟩
            | succ n =>
                rw [Scheme.settle, Scheme.settleCount, hpick]
                exact ⟨rfl, rfl⟩
          · rw [decRenormLoop, hd.iv, hK.decRenorm_none _ _ hs]
      | some ks =>
          obtain ⟨k, s'⟩ := ks
          obtain ⟨hpick, hfit, hrep⟩ := hK.renorm_some _ _ k s' he.rep hin hs
          have hin' : (c.rescale 30 k).win.Within 30 := by
            rw [Coded.rescale_win]
            exact hfit.within
          have hdouble : ∀ n, 2 ^ 32 < c.win.size * 2 ^ (n + 1) →
              2 ^ 32 < (c.rescale 30 k).win.size * 2 ^ n := fun n hn => by
            rw [Coded.rescale_win, Window.rescale]
            calc 2 ^ 32 < c.win.size * 2 ^ (n + 1) := hn
              _ = _ := by ring
          obtain ⟨n, hn, hshift⟩ := hshort
          have hshort' : ∃ n, 2 ^ 32 < (c.rescale 30 k).win.size * 2 ^ n ∧
              (c.rescale 30 k).shifts + n < 2 ^ 31 := by
            cases n with
            | zero =>
                simp only [Window.Within] at hin
                omega
            | succ n =>
                refine ⟨n, hdouble n hn, ?_⟩
                rw [Coded.shifts_rescale]
                omega
          obtain ⟨e', c', hloop, henc, hset, hnest, hsize, hwin, hdec⟩ :=
            ih (e.emit k s') (c.rescale 30 k) (he.emit hrep (by omega)) hin'
              (hdouble fuel hfuel) hshort'
          have hstep : c.Nested 30 (c.rescale 30 k) := .rescale hfit.1
          refine ⟨e', c', hloop, henc, hset, hstep.trans hnest, ?_, ?_, ?_⟩
          · obtain ⟨n, hn, -, -⟩ := hnest
            rw [Coded.shifts_rescale] at hn
            have h1 : c'.shifts - c.shifts = n + 1 := by omega
            have h2 : c'.shifts - (c.rescale 30 k).shifts = n := by
              rw [Coded.shifts_rescale]
              omega
            rw [hsize, h1, h2, Coded.rescale_win, Window.rescale]
            simp only
            ring
          · intro n hn
            cases n with
            | zero =>
                simp only [Window.Within] at hin
                omega
            | succ n =>
                obtain ⟨hwin', hcount⟩ := hwin n (hdouble n hn)
                rw [Scheme.settle, Scheme.settleCount, hpick]
                refine ⟨by rw [hwin', Coded.rescale_win], ?_⟩
                rw [hcount, Coded.shifts_rescale, Coded.rescale_win]
                simp only
                omega
          · intro base len d hd hlo hhi
            obtain ⟨d', hd', hfol⟩ := hd.rescale hK he.rep hin hs hlo
              ((hstep.trans hnest).notAbove hhi)
            have hiv : (e.emit k s').iv = s' := by cases k <;> rfl
            obtain ⟨hlo', d'', hrun, hfol'⟩ :=
              hdec base len d' (by rw [hiv]; exact hfol) (hlo.rescale hfit.1) hhi
            exact ⟨hlo', d'', by rw [hd', hrun], hfol'⟩

/-- How the decoder's symbol stands to the encoder's window for symbol `s`. -/
theorem decoded_symbol (hK : Lawful K S rep first) {row : ℕ → UInt16} {lp : ℕ} (hlp : 2 ≤ lp)
    (hrow : CdfRow row (lp - 2)) {iv : σ} {w : Window} {v s : ℕ} (hrep : rep iv w)
    (hw : Settled S w) (hlo : w.low ≤ v) (hhi : v < w.low + w.size) (hs : s ≤ lp - 2) :
    (v < w.low + w.size * (row s).toNat / 2 ^ 16 →
      binsearchSymbol row lp (K.count iv v) < s) ∧
    (w.low + w.size * (row s).toNat / 2 ^ 16 ≤ v →
      v < w.low + w.size * cdfHigh row (lp - 2) s / 2 ^ 16 →
      binsearchSymbol row lp (K.count iv v) = s) := by
  have hpos : 0 < w.size := by omega
  have hcount := hK.count_eq iv w v hrep hw hlo hhi
  have hiff : ∀ c, c ≤ K.count iv v ↔ w.size * c / 2 ^ 16 ≤ v - w.low := fun c => by
    rw [hcount]
    exact le_scaled_iff hpos
  have hlt : K.count iv v < 2 ^ 16 := by
    by_contra hge
    have := (hiff (2 ^ 16)).mp (by omega)
    rw [Nat.mul_div_cancel _ (by positivity)] at this
    omega
  have hcov := CdfRow.binsearchSymbol_covers hlp hrow hlt
  set r := binsearchSymbol row lp (K.count iv v)
  constructor
  · intro hbelow
    -- a symbol from `s` on would start at or below the count
    by_contra hge
    have hrs := hrow.mono (show s ≤ r by omega) hcov.1
    have := (hiff (row s).toNat).mp (hrs.trans hcov.2.1)
    omega
  · intro hbase htop
    have hle : s ≤ r :=
      CdfRow.Covers.not_lt hrow hcov hs ((hiff _).mpr (by omega))
    have hge : r ≤ s := by
      by_contra hgt
      have hne : s ≠ lp - 2 := by
        have := hcov.1
        omega
      rw [cdfHigh, if_neg hne] at htop
      have hnext := hrow.mono (show s + 1 ≤ r by omega) hcov.1
      have := (hiff (row (s + 1)).toNat).mp (hnext.trans hcov.2.1)
      omega
    omega

theorem bind_eq_ok {α β : Type} {x : Except Stop α} {f : α → Except Stop β} {b : β} :
    (x >>= f) = .ok b ↔ ∃ a, x = .ok a ∧ f a = .ok b := by
  cases x <;> simp [bind, Except.bind]

theorem decodeSymbols_head {row : ℕ → UInt16} {lp fuel n : ℕ} {d : DecState σ} {b : UInt8}
    {l : List UInt8} (h : decodeSymbols K fuel row lp (n + 1) d = .ok (b :: l)) :
    b = UInt8.ofNat (binsearchSymbol row lp (K.count d.iv d.value)) := by
  rw [decodeSymbols] at h
  by_cases hn : n = 0
  · rw [if_pos hn] at h
    simp only [Except.ok.injEq, List.cons.injEq] at h
    exact h.1.symm
  · simp only [if_neg hn, bind_eq_ok] at h
    obtain ⟨d', -, rest, -, hret⟩ := h
    simp only [pure, Except.pure, Except.ok.injEq, List.cons.injEq] at hret
    exact hret.1.symm

/-- The frequency intervals of the symbols of a message. -/
def frequencies (row : ℕ → UInt16) (maxSymbol : ℕ) (syms : List ℕ) : List (ℕ × ℕ) :=
  syms.map fun s => ((row s).toNat, cdfHigh row maxSymbol s)

/-- A window of at least `2 ^ 14` values doubles at most 18 times. -/
theorem rescalings_le {w : Window} {n size : ℕ} (hin : w.Within 30) (hgrow : w.size = 2 ^ n * size)
    (hsize : 2 ^ 14 ≤ size) : n ≤ 18 := by
  by_contra hgt
  have hpow : 2 ^ 19 ≤ 2 ^ n := Nat.pow_le_pow_right (by norm_num) (by omega)
  have hmul := Nat.mul_le_mul hpow hsize
  simp only [Window.Within] at hin
  omega

/-- The part of the window that symbol `s` gets. -/
def symbolPart (S : Scheme) (row : ℕ → UInt16) (maxSymbol s : ℕ) (c : Coded) : Coded :=
  c.narrow (c.win.size * (row s).toNat / 2 ^ 16)
    (S.cut c.win.size (row s).toNat (cdfHigh row maxSymbol s))

/-- One interval update of the encoder. -/
theorem Encodes.symbol (hK : Lawful K S rep first) {row : ℕ → UInt16} {maxSymbol s : ℕ}
    (hrise : Rises row maxSymbol) (hs : s ≤ maxSymbol) {pre : List Bool} {e : EncState σ}
    {c : Coded} (he : Encodes rep pre e c) (hw : Settled S c.win) :
    Encodes rep pre { e with iv := K.narrow e.iv (row s).toNat (cdfHigh row maxSymbol s) }
      (symbolPart S row maxSymbol s c) ∧ c.Nested 30 (symbolPart S row maxSymbol s c) ∧
      (symbolPart S row maxSymbol s c).win.Within 30 ∧
      2 ^ 14 ≤ (symbolPart S row maxSymbol s c).win.size ∧
      (symbolPart S row maxSymbol s c).win.low + (symbolPart S row maxSymbol s c).win.size ≤
        c.win.low + c.win.size * cdfHigh row maxSymbol s / 2 ^ 16 := by
  have hle := CdfRow.cdfHigh_le row maxSymbol s
  obtain ⟨hrep1, hsize, htop⟩ := hK.narrow e.iv c.win _ _ he.rep hw (hrise.cdfHigh_gt hs) hle
  rw [Scheme.narrow, hK.total] at hrep1
  have hfit : c.win.size * cdfHigh row maxSymbol s / 2 ^ 16 ≤ c.win.size := by
    rw [Nat.div_le_iff_le_mul_add_pred (by positivity)]
    have := Nat.mul_le_mul_left c.win.size hle
    omega
  have hin := hw.within
  refine ⟨⟨hrep1, he.pending, he.ok, he.bits⟩, .narrow (htop.trans hfit), ?_, hsize, ?_⟩
  · simp only [Window.Within, symbolPart, Coded.narrow, Window.part] at *
    omega
  · simp only [symbolPart, Coded.narrow, Window.part]
    omega

/-- The main loops. The encoder ends at a window inside the one it started from, and a
decoder on a stream not above that window returns the symbols exactly when the stream is
not below it, if the row starts at zero. -/
theorem codeSymbols_spec (hK : Lawful K S rep first) {row : ℕ → UInt16} {lp fuel : ℕ} (hlp : 2 ≤ lp)
    (hrise : Rises row (lp - 2)) (hfuel : 32 ≤ fuel) {pre : List Bool} (syms : List ℕ)
    (hsyms : ∀ s ∈ syms, s ≤ lp - 2 ∧ s < 256) (e : EncState σ) (c : Coded)
    (he : Encodes rep pre e c) (hw : Settled S c.win)
    (hshort : c.shifts + 18 * syms.length + 32 < 2 ^ 31) :
    ∃ e' c', encodeSymbols K fuel row (lp - 2) syms e = .ok e' ∧ Encodes rep pre e' c' ∧
      Settled S c'.win ∧ c.Nested 30 c' ∧ c'.shifts ≤ c.shifts + 18 * syms.length ∧
      c'.win = S.message 30 32 c.win (frequencies row (lp - 2) syms) ∧
      c'.shifts = c.shifts + S.rescalings 30 32 c.win (frequencies row (lp - 2) syms) ∧
      ((row 0).toNat = 0 → ∀ base len d, Follows base len e.iv d c → c.NotBelow 30 (channelStream base len) →
        c'.NotAbove 30 (channelStream base len) →
        (decodeSymbols K fuel row lp syms.length d = .ok (syms.map UInt8.ofNat) ↔
          c'.NotBelow 30 (channelStream base len))) := by
  induction syms generalizing e c with
  | nil =>
      exact ⟨e, c, rfl, he, hw, .refl 30 c, by simp, rfl, rfl, fun _ base len d _ hlo _ => by
        simp [decodeSymbols, hlo]⟩
  | cons s syms ih =>
      obtain ⟨hs, hbyte⟩ := hsyms s (by simp)
      have hgt := hrise.cdfHigh_gt hs
      have hle := CdfRow.cdfHigh_le row (lp - 2) s
      obtain ⟨henc1, hnest1, hin1, hsize, htop⟩ := he.symbol hK hrise hs hw
      unfold symbolPart at henc1 hnest1 hin1 hsize htop
      set base := c.win.size * (row s).toNat / 2 ^ 16 with hbase
      set size := S.cut c.win.size (row s).toNat (cdfHigh row (lp - 2) s) with hcut
      set iv1 := K.narrow e.iv (row s).toNat (cdfHigh row (lp - 2) s) with hiv1
      replace hsize : 2 ^ 14 ≤ size := hsize
      replace htop : base + size ≤ c.win.size * cdfHigh row (lp - 2) s / 2 ^ 16 := by
        simp only [Coded.narrow, Window.part] at htop
        omega
      have hfuel1 : ∀ n, 32 ≤ n → 2 ^ 32 < (c.narrow base size).win.size * 2 ^ n := fun n hn => by
        calc 2 ^ 32 < 2 ^ 14 * 2 ^ 32 := by norm_num
          _ ≤ size * 2 ^ n := Nat.mul_le_mul hsize (Nat.pow_le_pow_right (by norm_num) hn)
      obtain ⟨e2, c2, hloop, henc2, hset2, hnest2, hgrow, hwin2, hdec2⟩ :=
        renormLoop_spec hK fuel _ _ henc1 hin1 (hfuel1 fuel hfuel)
          ⟨32, hfuel1 32 le_rfl, by rw [Coded.shifts_narrow]; omega⟩
      obtain ⟨hwin2, hcount2⟩ := hwin2 32 (hfuel1 32 le_rfl)
      have hbound : c2.shifts - c.shifts ≤ 18 := rescalings_le hset2.within hgrow hsize
      rw [List.length_cons] at hshort
      obtain ⟨e', c', hrun, henc', hset', hnest', hshifts, hwin', hcount', hdec'⟩ :=
        ih (fun t ht => hsyms t (by simp [ht])) e2 c2 henc2 hset2 (by omega)
      refine ⟨e', c', ?_, henc', hset', (hnest1.trans hnest2).trans hnest', ?_, ?_, ?_, ?_⟩
      · simp only [encodeSymbols, ← hiv1]
        rw [hloop]
        exact hrun
      · simp only [List.length_cons]
        omega
      · rw [hwin', hwin2]
        simp only [Coded.narrow, Scheme.message, Scheme.narrow, hK.total, frequencies,
          List.map_cons, List.foldl_cons, ← hbase, ← hcut]
      · rw [hcount', hcount2, hwin2, Coded.shifts_narrow]
        simp only [Coded.narrow, Scheme.rescalings, Scheme.narrow, hK.total, frequencies,
          List.map_cons, ← hbase, ← hcut]
        omega
      · intro hzero bs len d hd hlo hhi
        have hrow : CdfRow row (lp - 2) := ⟨hzero, hrise⟩
        have hnotAbove2 := hnest'.notAbove hhi
        have hnotAbove1 := hnest2.notAbove hnotAbove2
        have hreads1 : (c.narrow base size).Reads 30 (channelStream bs len) d.value := hd.reads
        obtain ⟨hless, hsame⟩ := decoded_symbol hK hlp hrow he.rep hw
          (hd.reads.notBelow_iff.mp hlo)
          (hd.reads.notAbove_iff.mp ((hnest1.trans hnest2).trans hnest' |>.notAbove hhi)) hs
        have hsym : binsearchSymbol row lp (K.count d.iv d.value) =
            binsearchSymbol row lp (K.count e.iv d.value) := by rw [hd.iv]
        by_cases hcase : (c.narrow base size).NotBelow 30 (channelStream bs len)
        · -- the stream is inside the symbol's window
          have hlow := hreads1.notBelow_iff.mp hcase
          have hhigh := hreads1.notAbove_iff.mp hnotAbove1
          simp only [Coded.narrow, Window.part] at hlow hhigh
          have heq := hsame hlow (by omega)
          have hdn : K.decNarrow d.iv (row s).toNat (cdfHigh row (lp - 2) s) = iv1 := by
            rw [hd.iv]
            exact hK.decNarrow _ _ _ _ he.rep hw hgt hle
          have hfol1 : Follows bs len iv1 { d with iv := iv1 } (c.narrow base size) :=
            ⟨rfl, hd.reads, hd.br⟩
          obtain ⟨hlo2, d2, hdrun, hfol2⟩ := hdec2 bs len _ hfol1 hcase hnotAbove2
          simp only [List.length_cons, decodeSymbols, hsym, heq]
          have hrest := hdec' hzero bs len d2 hfol2 hlo2 hhi
          cases syms with
          | nil =>
              -- the last symbol needs no further interval
              rw [← hrest]
              simp [decodeSymbols]
          | cons t syms =>
              rw [← hrest, if_neg (by simp), hdn, hdrun]
              simp only [bind_eq_ok, pure, Except.pure, Except.ok.injEq, List.map_cons,
                List.cons.injEq, true_and, exists_eq_left']
              refine ⟨?_, fun h => ⟨_, h, rfl⟩⟩
              rintro ⟨l, hl, rfl⟩
              exact hl
        · -- the stream is below it, and so is the decoded symbol
          have hlow : ¬ (c.narrow base size).win.low ≤ d.value := fun h =>
            hcase (hreads1.notBelow_iff.mpr h)
          simp only [Coded.narrow, Window.part] at hlow
          have hlt := hless (by omega)
          refine ⟨fun hout => ?_, fun h =>
            absurd (hnest2.notBelow (hnest'.notBelow h)) hcase⟩
          exfalso
          have hhead := decodeSymbols_head hout
          rw [hsym] at hhead
          have hnat := congrArg UInt8.toNat hhead
          rw [UInt8.toNat_ofNat_of_lt' (by simpa using hbyte),
            UInt8.toNat_ofNat_of_lt' (show _ < 2 ^ 8 by omega)] at hnat
          omega

end Channel

end MzCache.CacheGen
