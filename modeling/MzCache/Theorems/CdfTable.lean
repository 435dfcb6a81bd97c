import MzCache.CacheGen.CdfTable

/-!
# Tables of a whole cache

A table counts the tokens of every chunk a cache has when it is built. With 255 chunks or less
its sums fit 16 bits. The 65536 tokens of the 256 chunks a cache may have do not: the last sum,
which every entry is divided by, wraps to zero.
-/

namespace MzCache.Theorems

open MzCache MzCache.Lib MzCache.CacheGen

/-- The tables of `n` chunks are well formed if and only if there are less than 256 of them. -/
theorem cdf_well_formed_iff (n C nLayers maxBins : ℕ) (hn : 1 ≤ n) (hmax : n ≤ maxChunksPerTensor)
    (hC : 1 ≤ C)
    (hbins : maxBins ∈ makeKeyBinsCpp nLayers ∨ maxBins ∈ makeValueBinsCpp nLayers)
    (q : ℕ → UInt8) (hq : ∀ i < tokensPerChunk * n * C, (q i).toNat ≤ maxBins - 2) :
    WellFormed maxBins (tokensPerChunk * n) C q ↔ n < maxChunksPerTensor := by
  obtain rfl := bins_of_mem hbins
  have hlevel : ∀ i < tokensPerChunk * n * C, (q i).toNat < bins := by
    intro i hi
    have hle := hq i hi
    unfold bins at *
    omega
  constructor
  · intro h
    apply lt_of_le_of_ne hmax
    rintro rfl
    -- the last sum counts every token, and no 16-bit sum is that large
    have hsum := h.sums 0 hC bins le_rfl
    rw [belowCount_all hC hlevel] at hsum
    have hwrap : cdfPrefix bins (tokensPerChunk * maxChunksPerTensor) C q 0 bins < 2 ^ 16 :=
      Nat.mod_lt _ (by norm_num)
    rw [hsum] at hwrap
    exact absurd hwrap (by decide)
  · intro hlt
    apply wellFormed_of_lt _ _ (by decide) hlevel
    · unfold tokensPerChunk
      omega
    · unfold tokensPerChunk maxChunksPerTensor at *
      omega

/-- One chunk. -/
theorem cdf_well_formed_one :
    WellFormed 32 (tokensPerChunk * 1) 1 (fun _ => 0) ↔ 1 < maxChunksPerTensor :=
  cdf_well_formed_iff 1 1 1 32 (by decide) (by decide) (by decide) (by decide) _
    (fun _ _ => Nat.zero_le _)

/-! ## Two levels -/

/-- Level 0 up to the middle of the tokens, then level 30. -/
def halves (i : ℕ) : UInt8 := if i < 2 ^ 15 then 0 else 30

/-- A chunk of one half. -/
def constantChunk (x : UInt16) : Bytes := fun i =>
  if i % 2 = 0 then UInt8.ofNat x.toNat else UInt8.ofNat (x.toNat / 256)

theorem halfAt_constantChunk (x : UInt16) (i : ℕ) : halfAt (constantChunk x) i = x := by
  have hx := x.toNat_lt
  have heven : 2 * i % 2 = 0 := by omega
  have hodd : ¬ (2 * i + 1) % 2 = 0 := by omega
  apply UInt16.toNat_inj.mp
  simp only [halfAt, constantChunk, heven, hodd, if_true, if_false, UInt8.toNat_ofNat',
    UInt16.toNat_ofNat']
  omega

/-- The chunks of one channel whose tokens are `-1` up to the middle, then `1`. -/
def signs (j : ℕ) : Bytes := constantChunk (if j < 128 then 0xBC00 else 0x3C00)

theorem halfValue_one : halfValue 0x3C00 = some 1 := by
  have hbits : (0x3C00 : UInt16).toNat = 15360 := rfl
  norm_num [halfValue, hbits]

theorem halfValue_minus_one : halfValue 0xBC00 = some (-1) := by
  have hbits : (0xBC00 : UInt16).toNat = 48128 := rfl
  norm_num [halfValue, hbits]

/-- Their levels are 0 and 30. -/
theorem quantizeEntry_signs (j t : ℕ) :
    quantizeEntry (.exact 256) 1 (signs j) t 0 = some (if j < 128 then 0 else 30) := by
  have hmax : UInt16.ofNat (tokenMax 1 (signs j) t) = 0x3C00 := by
    have htoken : tokenMax 1 (signs j) t = accMax 0 (if j < 128 then 0xBC00 else 0x3C00) := by
      simp [tokenMax, signs, halfAt_constantChunk]
    rw [htoken]
    split_ifs <;> decide
  unfold quantizeEntry
  rw [hmax, halfValue_one, signs, halfAt_constantChunk]
  split_ifs with h
  · rw [halfValue_minus_one]
    norm_num [roundHalfAway, bins, Rounding.exact]
  · rw [halfValue_one]
    norm_num [roundHalfAway, bins, Rounding.exact]
    rfl

/-- `quantize_from_bins_raw_chunked` makes these levels of them. -/
theorem quantizeChunked_signs (quant : Bytes → ℕ → UInt8) (hquant : Quantizes (.exact 256) 1 quant)
    (i : ℕ) : quantizeChunked 1 quant signs i = halves i := by
  have hlt : i % tokensPerChunk < tokensPerChunk * 1 := by
    rw [Nat.mul_one]
    exact Nat.mod_lt _ (by decide)
  have hentry := hquant (signs (i / tokensPerChunk)) (i % tokensPerChunk) hlt
    (UInt8.ofNat (if i / tokensPerChunk < 128 then 0 else 30)) (by
      simp [quantizeFromBinsRaw, Nat.mod_one, quantizeEntry_signs])
  simp only [quantizeChunked, Nat.div_one, Nat.mod_one, Nat.one_mul, Nat.zero_add]
  rw [hentry]
  unfold halves tokensPerChunk
  by_cases h : i < 2 ^ 15
  · rw [if_pos h, if_pos (by omega)]
    rfl
  · rw [if_neg h, if_neg (by omega)]
    rfl

theorem belowCount_halves : belowCount (2 ^ 16) 1 halves 0 30 = 2 ^ 15 := by
  have hlevel : ∀ t, ((halves (0 + 1 * t)).toNat < 30) ↔ t < 2 ^ 15 := by
    intro t
    unfold halves
    split_ifs with h
    · simpa using h
    · simpa using h
  unfold belowCount
  simp only [hlevel]
  rw [show 2 ^ 16 = 2 ^ 15 + 2 ^ 15 from rfl, List.range_add, List.countP_append,
    List.countP_eq_length.mpr (by simp), List.countP_eq_zero.mpr (by simp), List.length_range,
    Nat.add_zero]

/-- The row of these 65536 tokens goes up to 32798 and down again to 31. -/
theorem cdf_full_falls :
    (∀ quant, Quantizes (.exact 256) 1 quant → ∀ i, quantizeChunked 1 quant signs i = halves i) ∧
    (∀ i < tokensPerChunk * maxChunksPerTensor * 1, (halves i).toNat ≤ 32 - 2) ∧
    (cdfRow (cdfCalculateCpu 32 (tokensPerChunk * maxChunksPerTensor) 1 halves) 33 0 30).toNat =
      32798 ∧
    (cdfRow (cdfCalculateCpu 32 (tokensPerChunk * maxChunksPerTensor) 1 halves) 33 0 31).toNat =
      31 ∧
    ¬ WellFormed 32 (tokensPerChunk * maxChunksPerTensor) 1 halves := by
  have hq : ∀ i, (halves i).toNat < 31 := by
    intro i
    unfold halves
    split_ifs <;> decide
  have hup := @cdfRow_full bins (tokensPerChunk * maxChunksPerTensor) 1 halves rfl (by decide)
    (fun i _ => (hq i).trans (by decide)) 0 (by decide) 30 (by decide)
  have hdown := @cdfRow_full bins (tokensPerChunk * maxChunksPerTensor) 1 halves rfl (by decide)
    (fun i _ => (hq i).trans (by decide)) 0 (by decide) 31 (by decide)
  have hall : belowCount (tokensPerChunk * maxChunksPerTensor) 1 halves 0 31 = 2 ^ 16 :=
    belowCount_all (by decide) fun i _ => hq i
  have hhalf : belowCount (tokensPerChunk * maxChunksPerTensor) 1 halves 0 30 = 2 ^ 15 :=
    belowCount_halves
  rw [hhalf] at hup
  rw [hall] at hdown
  refine ⟨quantizeChunked_signs, fun i _ => Nat.le_of_lt_succ (hq i), hup, hdown, fun h => ?_⟩
  have hrise := lt_of_lt_of_eq (lt_of_eq_of_lt hup.symm (h.rises 0 (by decide) 30 (by decide))) hdown
  exact absurd hrise (by decide)

end MzCache.Theorems
