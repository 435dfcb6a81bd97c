import MzCache.CacheGen.VectorDecode

/-!
# Vectorised decoders and the scalar one

In the groups they form, the vectorised decoders return what the scalar decoder does, also where
a stream runs out early. No loop decodes the channels behind the last whole group, which stay
zero.
-/

namespace MzCache.Theorems

open MzCache MzCache.Lib MzCache.CacheGen

section

variable {fuel C lp : ℕ} {cdf : ℕ → UInt16} {input lengths : List UInt8}

/-- A decoder of groups of `g` agrees with the scalar one if and only if the channels it leaves
out hold level 0 only. -/
theorem decodeGroups_agrees_iff {g : ℕ} (hfuel : 32 ≤ fuel) (hlp : 3 ≤ lp) (hlp' : lp ≤ 257)
    (hcdf : ∀ c < C, Rises (cdfRow cdf lp c) (lp - 2)) :
    decodeGroups fuel LowRange.decNarrow lp g cdf C input lengths =
        decodeNtokensCpuNewRange fuel cdf C lp input lengths ↔
      (lengths.length = C → ∀ c < C, g * (C / g) ≤ c → ZeroChannel fuel cdf lp input lengths c) := by
  by_cases hlengths : lengths.length = C
  · have hready : ∀ c, Ready (startLane lp cdf input lengths c).dec := fun c =>
      ⟨show quarter < full by decide, show full < 2 ^ 32 by decide⟩
    have hdecode : ∀ c, ∃ l, c < C → decodeChannel LowRange.coder fuel (cdfRow cdf lp c) lp
        maxTokensPerChunk (input.drop (channelOffset lengths c)) (lengths.getD c 0).toNat =
          .ok l := by
      intro c
      by_cases hc : c < C
      · obtain ⟨l, hl⟩ := decodeSymbols_ok (n := maxTokensPerChunk) hfuel (by omega) (hcdf c hc)
          (hready c)
        exact ⟨l, fun _ => hl⟩
      · exact ⟨[], fun h => absurd h hc⟩
    choose v hv using hdecode
    have hscalar : decodeNtokensCpuNewRange fuel cdf C lp input lengths =
        .ok (assemble C maxTokensPerChunk ((List.range C).map v)) := by
      unfold decodeNtokensCpuNewRange decodeBlockNew decodeColumns
      rw [if_neg (not_not.mpr hlengths), mapM_range_eq_ok hv]
      rfl
    rw [decodeGroups_eq hlengths hv, hscalar, Except.ok.injEq,
      assemble_tail_iff (Nat.mul_div_le C g) fun c hc => decodeSymbols_length (hv c hc)]
    constructor
    · intro h _ c hc hge
      exact (decodeSymbols_zero_iff hlp hlp' (hcdf c hc) (hv c hc)).mp (h c hc hge)
    · intro h c hc hge
      exact (decodeSymbols_zero_iff hlp hlp' (hcdf c hc) (hv c hc)).mpr (h hlengths c hc hge)
  · -- both throw
    unfold decodeGroups decodeNtokensCpuNewRange decodeBlockNew
    rw [if_pos hlengths, if_pos hlengths]
    exact iff_of_true rfl fun h => absurd h hlengths

end

/-- A table whose entries are their indices. -/
def indexTable (i : ℕ) : UInt16 := UInt16.ofNat (i % 33)

theorem cdfRow_indexTable (c : ℕ) {s : ℕ} (hs : s < 33) :
    (cdfRow indexTable 33 c s).toNat = s := by
  unfold cdfRow indexTable
  rw [Nat.mul_add_mod, Nat.mod_eq_of_lt hs, UInt16.toNat_ofNat', Nat.mod_eq_of_lt (by omega)]

theorem indexTable_rises (c : ℕ) : Rises (cdfRow indexTable 33 c) (33 - 2) := by
  intro s hs
  rw [cdfRow_indexTable c (by omega), cdfRow_indexTable c (by omega)]
  exact s.lt_succ_self

end MzCache.Theorems
