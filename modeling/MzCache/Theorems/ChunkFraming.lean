import MzCache.CacheGen.Framing

/-!
# Where the decoder looks for a sub-chunk

No channel of sixteen tokens takes more than 33 bytes, so its length fits 8 bits. The bytes
of a sub-chunk fit 16 bits as long as its channels together stay below `2 ^ 16`, as they do
up to 1985 channels.
-/

namespace MzCache.Theorems

open MzCache MzCache.Lib MzCache.CacheGen

/-- With 1985 channels at most no sub-chunk reaches `2 ^ 16` bytes. -/
theorem subChunk_lt_of_narrow {cdf : ℕ → UInt16} {C : ℕ} (hcdf : Increasing cdf C) (hC : C ≤ 1985)
    (q : ℕ → UInt8) (b : ℕ) : ((List.range C).map (blockBytes cdf C q b)).sum < 2 ^ 16 := by
  have hle := List.sum_le_card_nsmul ((List.range C).map (blockBytes cdf C q b)) 33 (by
    intro x hx
    obtain ⟨c, hc, rfl⟩ := List.mem_map.mp hx
    exact blockBytes_le hcdf.rises (List.mem_range.mp hc))
  rw [List.length_map, List.length_range, smul_eq_mul] at hle
  omega

/-- The table built from data of level 30 alone increases. -/
theorem constantTable_increasing (C : ℕ) :
    Increasing (cdfCalculateCpu bins 256 C fun _ => 30) C := by
  intro c _ b hb
  have hx : (30 : UInt8).toNat = 30 := rfl
  rw [cdfRow_constant (by decide) (by decide) (by decide) (by omega : b ≤ bins),
    cdfRow_constant (by decide) (by decide) (by decide) (by omega : b + 1 ≤ bins), hx]
  unfold bins at *
  split_ifs <;> omega

/-- A channel of level 0, which that table gives the width one, takes 33 bytes. -/
theorem blockBytes_rare (C b c : ℕ) :
    blockBytes (cdfCalculateCpu bins 256 C fun _ => 30) C (fun _ => 0) b c = 33 := by
  have hrow : ∀ s ≤ 30,
      (cdfRow (cdfCalculateCpu bins 256 C fun _ => 30) (bins + 1) c s).toNat = s := by
    intro s hs
    rw [cdfRow_constant (by decide) (by decide) (by decide) (by unfold bins; omega), if_pos]
    exact hs
  have hwidths : blockWidths (cdfCalculateCpu bins 256 C fun _ => 30) C (fun _ => 0) b c =
      List.replicate 16 1 := by
    have hsyms : blockSymbols C (fun _ => 0) b c = List.replicate 16 0 := rfl
    unfold blockWidths frequencies
    rw [hsyms, List.map_replicate, List.map_replicate]
    congr 1
    unfold width cdfHigh
    dsimp only
    rw [hrow 0 (by decide), if_neg (by decide), hrow (0 + 1) (by decide)]
  unfold blockBytes
  rw [hwidths, codeBits_ones]

end MzCache.Theorems
