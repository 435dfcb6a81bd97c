import MzCache.CacheGen.BlockSpec

/-!
# Round trips of the CacheGen entropy coders

The range coder renormalises only while its range is at most a quarter, so its last window
may start past the middle of the coding range. The terminating bits then name the middle
itself, a value below the window. The low/high coder has no such windows; its encoders
compare the symbol with a bound cut to eight bits.
-/

namespace MzCache.Theorems

open MzCache.CacheGen

/-- The symbols of channel `c`. -/
def symbols (q : ℕ → UInt8) (C c : ℕ) : List ℕ :=
  (List.range maxTokensPerChunk).map fun t => (q (t * C + c)).toNat

/-- The entries of a block, each at most `bound`. -/
def boundedBlock (bound : ℕ) (q : ℕ → UInt8) (C : ℕ) : List UInt8 :=
  clampedBlock (fun x => min x.toNat bound) q C

/-- A table with one row of equal frequencies for two symbols and a wide last one. -/
def quarterTable : CdfTable 1 3 where
  entry := fun i => UInt16.ofNat (16384 * i)
  rows := by
    intro c hc
    obtain rfl : c = 0 := by omega
    refine ⟨by decide, fun s hs => ?_⟩
    obtain rfl : s = 0 := by omega
    decide

/-- Both low/high codecs return the clamped block exactly when the bound survives the cut to
eight bits or no entry exceeds what is left of it. -/
theorem lowHigh_codec_roundtrip_iff (fuel C lp : ℕ) (hfuel : 32 ≤ fuel) (hC : 1 ≤ C)
    (hlp : 3 ≤ lp) (cdf : CdfTable C lp) (q : ℕ → UInt8) :
    ((∃ bytes lengths,
      encodeNtokensCpuNew fuel cdf.entry C lp q maxTokensPerChunk = .ok (bytes, lengths) ∧
      decodeNtokensCpuNew fuel cdf.entry C lp bytes lengths = .ok (boundedBlock (lp - 2) q C)) ∧
    ∃ r, encodeNtokensCpu fuel cdf.entry 1 C lp q maxTokensPerChunk = .ok r ∧
      decodeNtokensCpu fuel cdf.entry 1 C lp r = .ok (boundedBlock (lp - 2) q C)) ↔
    lp - 2 < 256 ∨ ∀ i < maxTokensPerChunk * C, (q i).toNat ≤ (lp - 2) % 256 := by
  obtain ⟨⟨bytes, lengths, henc, hdec⟩, r, henc', hdec'⟩ :=
    lowHigh_roundtrip hC hlp hfuel cdf q
  -- the codecs agree with the claim when the two clamps do
  have hsame : clampedBlock (clampU8 (lp - 2)) q C = boundedBlock (lp - 2) q C ↔
      lp - 2 < 256 ∨ ∀ i < maxTokensPerChunk * C, (q i).toNat ≤ (lp - 2) % 256 := by
    have hentry : ∀ x : UInt8, UInt8.ofNat (clampU8 (lp - 2) x) =
        UInt8.ofNat (min x.toNat (lp - 2)) ↔ lp - 2 < 256 ∨ x.toNat ≤ (lp - 2) % 256 := by
      intro x
      have hx := x.toNat_lt
      rw [clampU8_eq, ← UInt8.toNat_inj, UInt8.toNat_ofNat', UInt8.toNat_ofNat']
      omega
    rw [boundedBlock, clampedBlock, clampedBlock, List.map_inj_left]
    simp only [List.mem_range, hentry]
    by_cases hsmall : lp - 2 < 256 <;> simp [hsmall]
  rw [← hsame]
  constructor
  · rintro ⟨⟨b, l, hbl, hout⟩, -⟩
    rw [henc, Except.ok.injEq, Prod.mk.injEq] at hbl
    obtain ⟨rfl, rfl⟩ := hbl
    rwa [hdec, Except.ok.injEq] at hout
  · intro heq
    rw [← heq]
    exact ⟨⟨bytes, lengths, henc, hdec⟩, r, henc', hdec'⟩

/-- With three entries a row, every byte above one comes back as one. -/
theorem lowHigh_codec_roundtrip_small :
    (∃ bytes lengths,
      encodeNtokensCpuNew 32 quarterTable.entry 1 3 (fun i => UInt8.ofNat i) maxTokensPerChunk =
        .ok (bytes, lengths) ∧
      decodeNtokensCpuNew 32 quarterTable.entry 1 3 bytes lengths =
        .ok (boundedBlock 1 (fun i => UInt8.ofNat i) 1)) ∧
    ∃ r, encodeNtokensCpu 32 quarterTable.entry 1 1 3 (fun i => UInt8.ofNat i)
        maxTokensPerChunk = .ok r ∧
      decodeNtokensCpu 32 quarterTable.entry 1 1 3 r =
        .ok (boundedBlock 1 (fun i => UInt8.ofNat i) 1) :=
  (lowHigh_codec_roundtrip_iff 32 1 3 le_rfl le_rfl le_rfl quarterTable _).mpr
    (Or.inl (by decide))

/-- A table with one row of 258 entries. -/
def wideTable : CdfTable 1 258 where
  entry := fun i => UInt16.ofNat i
  rows := by
    intro c hc
    obtain rfl : c = 0 := by omega
    refine ⟨by decide, fun s hs => ?_⟩
    simp only [cdfRow, UInt16.toNat_ofNat']
    omega

/-- With 258 entries a row the bound is cut to zero, and ones come back as zeros. -/
theorem lowHigh_codec_loses_ones :
    ¬ ∃ fuel bytes lengths, 32 ≤ fuel ∧
      encodeNtokensCpuNew fuel wideTable.entry 1 258 (fun _ => 1) maxTokensPerChunk =
        .ok (bytes, lengths) ∧
      decodeNtokensCpuNew fuel wideTable.entry 1 258 bytes lengths =
        .ok (boundedBlock 256 (fun _ => 1) 1) := by
  rintro ⟨fuel, bytes, lengths, hfuel, henc, hdec⟩
  obtain ⟨⟨b, l, hbl, hout⟩, -⟩ :=
    lowHigh_roundtrip le_rfl (show 3 ≤ 258 by norm_num) hfuel wideTable fun _ => 1
  rw [henc, Except.ok.injEq, Prod.mk.injEq] at hbl
  obtain ⟨rfl, rfl⟩ := hbl
  rw [hout, Except.ok.injEq] at hdec
  exact absurd hdec (by decide)

end MzCache.Theorems
