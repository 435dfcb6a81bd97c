import MzCache.FlexGen.Blocks

/-!
# The FlexGen round trip

Whatever number of workers compresses and decompresses, and in whatever order their groups are
taken, each value comes back as the point of its own code, at most half a step away.
-/

namespace MzCache.FlexGen

open MzCache.Lib MzCache.Lib.Lanes

variable {𝕜 : Type*} [Field 𝕜] [LinearOrder 𝕜] [FloorRing 𝕜]

/-- The code of value `e` before clamping, from the minimum and the maximum kept for its group. -/
def code (levels : Nat) (input : Nat → 𝕜) (c : Compressed 𝕜) (e : Nat) : Int :=
  roundTiesEven (quantPosition levels (c.mins (e / groupSz)) (c.maxs (e / groupSz)) (input e))

/-- `c` is `input` compressed to groups of `bytes` bytes over `c₀`, and `out` is `c` decompressed
over `out₀`. -/
structure RoundTrip (levels bytes hiddenDim : Nat) (input : Nat → 𝕜) (c₀ c : Compressed 𝕜)
    (out₀ out : Nat → 𝕜) : Prop where
  mins : ∀ g < numGroups hiddenDim, IsLeast (groupValues input g) (c.mins g)
  maxs : ∀ g < numGroups hiddenDim, IsGreatest (groupValues input g) (c.maxs g)
  code_range : ∀ e < tokensPerChunk * hiddenDim,
    0 ≤ code levels input c e ∧ code levels input c e ≤ levels
  value : ∀ e < tokensPerChunk * hiddenDim, out e = c.mins (e / groupSz) +
    code levels input c e * ((c.maxs (e / groupSz) - c.mins (e / groupSz)) / levels)
  error : ∀ e < tokensPerChunk * hiddenDim,
    |out e - input e| ≤ (c.maxs (e / groupSz) - c.mins (e / groupSz)) / (2 * levels)
  /-- nothing outside the chunk is written -/
  frame : (∀ a, numGroups hiddenDim * bytes ≤ a → c.output a = c₀.output a) ∧
    (∀ g, numGroups hiddenDim ≤ g → c.mins g = c₀.mins g ∧ c.maxs g = c₀.maxs g) ∧
    ∀ e, tokensPerChunk * hiddenDim ≤ e → out e = out₀ e

/-! ## All groups compressed -/

theorem numGroups_mul (hiddenDim : Nat) : numGroups hiddenDim * 64 = tokensPerChunk * hiddenDim := by
  unfold numGroups tokensPerChunk groupSz
  omega

section

variable {levels bytes : Nat} {quantize : 𝕜 → 𝕜 → 𝕜 → UInt8}
  {storeBlock : Nat → Nat → (Nat → UInt8) → (Nat → UInt8) → Nat → UInt8} {input : Nat → 𝕜}

omit [FloorRing 𝕜] in
theorem foldl_compressGroup_mins (groups : List Nat) (c : Compressed 𝕜) (g : Nat) :
    (groups.foldl (compressGroup levels bytes quantize storeBlock input) c).mins g =
      if g ∈ groups then groupReduce min (load input (g * groupSz)) else c.mins g := by
  rw [← foldl_update (fun g => groupReduce min (load input (g * groupSz))),
    ← List.foldl_hom Compressed.mins]
  intro c g
  rfl

omit [FloorRing 𝕜] in
theorem foldl_compressGroup_maxs (groups : List Nat) (c : Compressed 𝕜) (g : Nat) :
    (groups.foldl (compressGroup levels bytes quantize storeBlock input) c).maxs g =
      if g ∈ groups then groupReduce max (load input (g * groupSz)) else c.maxs g := by
  rw [← foldl_update (fun g => groupReduce max (load input (g * groupSz))),
    ← List.foldl_hom Compressed.maxs]
  intro c g
  rfl

end

theorem flexgenCompress_output (input : Nat → 𝕜) (groups : List Nat) (c : Compressed 𝕜) (a : Nat) :
    (flexgenCompress input groups c).output a =
      if a / 32 ∈ groups then
        packNibbles
          (groupQuantizer 15 quantize4 input (a / 32) (input (a / 32 * groupSz + 2 * (a % 32))))
          (groupQuantizer 15 quantize4 input (a / 32)
            (input (a / 32 * groupSz + (2 * (a % 32) + 1))))
      else c.output a := by
  unfold flexgenCompress
  rw [← foldl_store_blocks (by omega) (fun g i => packNibbles
      (groupQuantizer 15 quantize4 input g (input (g * groupSz + 2 * i)))
      (groupQuantizer 15 quantize4 input g (input (g * groupSz + (2 * i + 1))))),
    ← List.foldl_hom Compressed.output]
  intro c g
  exact (compressGroup4_output input c g).symm

theorem flexgenCompress8bit_output (input : Nat → 𝕜) (groups : List Nat) (c : Compressed 𝕜)
    (a : Nat) :
    (flexgenCompress8bit input groups c).output a =
      if a / 64 ∈ groups then groupQuantizer 255 quantize8 input (a / 64) (input a)
      else c.output a := by
  have hfold : (flexgenCompress8bit input groups c).output a = if a / 64 ∈ groups then
      groupQuantizer 255 quantize8 input (a / 64) (input (a / 64 * groupSz + a % 64))
      else c.output a := by
    unfold flexgenCompress8bit
    rw [← foldl_store_blocks (by omega) (fun g i =>
        groupQuantizer 255 quantize8 input g (input (g * groupSz + i))),
      ← List.foldl_hom Compressed.output]
    intro c g
    exact (compressGroup8_output input c g).symm
  rw [hfold]
  unfold groupSz
  rw [Nat.div_add_mod']

/-! ## Codes -/

section

variable [IsStrictOrderedRing 𝕜]

/-- A value of a group has its position between the first and the last level. -/
theorem code_mem_range (levels : Nat) {lo hi x : 𝕜} (hlo : lo ≤ x) (hhi : x ≤ hi) :
    0 ≤ roundTiesEven (quantPosition levels lo hi x) ∧
      roundTiesEven (quantPosition levels lo hi x) ≤ levels := by
  have hmem : 0 ≤ quantPosition levels lo hi x ∧ quantPosition levels lo hi x ≤ levels :=
    quantPosition_mem hlo hhi
  exact (roundTiesEven_nearest _).mem_range hmem.1 hmem.2

end

theorem narrow_toNat {x : Int} (h0 : 0 ≤ x) (h255 : x ≤ 255) : ((narrow x).toNat : Int) = x := by
  unfold narrow
  rw [UInt8.toNat_ofNat']
  omega

theorem quantize4_toNat {bias scale x : 𝕜} (h0 : 0 ≤ roundTiesEven (bias + x * scale))
    (h15 : roundTiesEven (bias + x * scale) ≤ 15) :
    ((quantize4 bias scale x).toNat : Int) = roundTiesEven (bias + x * scale) := by
  unfold quantize4 toInt32
  rw [narrow_toNat (by omega) (by omega)]
  omega

theorem quantize4_lt (bias scale x : 𝕜) : (quantize4 bias scale x).toNat < 16 := by
  have h : ((quantize4 bias scale x).toNat : Int) = max 0 (min (toInt32 (bias + x * scale)) 15) :=
    narrow_toNat (by omega) (by omega)
  omega

theorem quantize8_toNat {bias scale x : 𝕜} (h0 : 0 ≤ roundTiesEven (bias + x * scale))
    (h255 : roundTiesEven (bias + x * scale) ≤ 255) :
    ((quantize8 bias scale x).toNat : Int) = roundTiesEven (bias + x * scale) := by
  unfold quantize8 toUint32
  rw [narrow_toNat (by omega) (by omega)]
  omega

/-! ## All groups decompressed -/

omit [LinearOrder 𝕜] [FloorRing 𝕜] in
theorem flexgenDecompress_apply (c : Compressed 𝕜) (groups : List Nat) (out : Nat → 𝕜) (e : Nat) :
    flexgenDecompress c groups out e =
      if e / 64 ∈ groups then c.mins (e / 64) +
        (nibbleAt c.output e).toNat * ((c.maxs (e / 64) - c.mins (e / 64)) * (1 / 15))
      else out e := by
  have hstep : decompressGroup c = fun out g => store out (g * 64) 64 (fma (c.mins g)
      ((c.maxs g - c.mins g) * (1 / 15)) (fun i => nibbleAt c.output (g * 64 + i))) := by
    funext out g
    exact decompressGroup_eq c out g
  unfold flexgenDecompress
  rw [hstep, foldl_store_blocks (by omega)]
  simp only [fma, Nat.div_add_mod']

omit [LinearOrder 𝕜] [FloorRing 𝕜] in
theorem flexgenDecompress8bit_apply (c : Compressed 𝕜) (hiddenDim : Nat) (out : Nat → 𝕜)
    (e : Nat) :
    flexgenDecompress8bit c hiddenDim out e =
      if e / 64 < numGroups hiddenDim then c.mins (e / 64) +
        (c.output e).toNat * ((c.maxs (e / 64) - c.mins (e / 64)) / 255)
      else out e := by
  have hstep : decompressGroup8bit c = fun out g => store out (g * 64) 64 (fma (c.mins g)
      ((c.maxs g - c.mins g) / 255) (fun i => c.output (g * 64 + i))) := by
    funext out g
    exact decompressGroup8bit_eq c out g
  unfold flexgenDecompress8bit
  rw [hstep, foldl_store_blocks (by omega)]
  simp only [fma, Nat.div_add_mod', List.mem_range]

/-- The unpacker finds the code of each value where the packer put it. -/
theorem nibbleAt_flexgenCompress (input : Nat → 𝕜) (groups : List Nat) (c : Compressed 𝕜) {e : Nat}
    (he : e / 64 ∈ groups) :
    nibbleAt (flexgenCompress input groups c).output e =
      groupQuantizer 15 quantize4 input (e / 64) (input e) := by
  have hlt : ∀ x, (groupQuantizer 15 quantize4 input (e / 64) x).toNat < 16 :=
    fun x => quantize4_lt _ _ x
  have hgroup : e / 2 / 32 = e / 64 := by rw [Nat.div_div_eq_div_mul]
  unfold nibbleAt
  rw [flexgenCompress_output, hgroup, if_pos he]
  unfold groupSz
  by_cases heven : e % 2 = 0
  · rw [if_pos heven, packNibbles_low (hlt _) (hlt _),
      show e / 64 * 64 + 2 * (e / 2 % 32) = e by omega]
  · rw [if_neg heven, packNibbles_high (hlt _) (hlt _),
      show e / 64 * 64 + (2 * (e / 2 % 32) + 1) = e by omega]

/-! ## There and back -/

section

variable [IsStrictOrderedRing 𝕜] {levels bytes hiddenDim : Nat} {input : Nat → 𝕜}
  {c₀ c : Compressed 𝕜} {out₀ out : Nat → 𝕜}

/-- What both widths share: the minima and maxima of the groups are kept, and what a value comes
back as is the point of its own code. -/
theorem roundTrip_of_code (hlevels : 0 < levels)
    (hmins : ∀ g, c.mins g = if g < numGroups hiddenDim then
      groupReduce min (load input (g * groupSz)) else c₀.mins g)
    (hmaxs : ∀ g, c.maxs g = if g < numGroups hiddenDim then
      groupReduce max (load input (g * groupSz)) else c₀.maxs g)
    (houtput : ∀ a, numGroups hiddenDim * bytes ≤ a → c.output a = c₀.output a)
    (hframe : ∀ e, tokensPerChunk * hiddenDim ≤ e → out e = out₀ e)
    (hvalue : ∀ e < tokensPerChunk * hiddenDim,
      0 ≤ code levels input c e → code levels input c e ≤ levels →
      out e = c.mins (e / groupSz) +
        code levels input c e * ((c.maxs (e / groupSz) - c.mins (e / groupSz)) / levels)) :
    RoundTrip levels bytes hiddenDim input c₀ c out₀ out := by
  have hleast : ∀ g < numGroups hiddenDim, IsLeast (groupValues input g) (c.mins g) := by
    intro g hg
    rw [hmins, if_pos hg]
    exact groupReduce_min input g
  have hgreatest : ∀ g < numGroups hiddenDim, IsGreatest (groupValues input g) (c.maxs g) := by
    intro g hg
    rw [hmaxs, if_pos hg]
    exact groupReduce_max input g
  have hmem : ∀ e < tokensPerChunk * hiddenDim,
      c.mins (e / groupSz) ≤ input e ∧ input e ≤ c.maxs (e / groupSz) := by
    intro e he
    have hg : e / groupSz < numGroups hiddenDim := by
      have := numGroups_mul hiddenDim
      unfold groupSz
      omega
    have hvalue : input e ∈ groupValues input (e / groupSz) :=
      ⟨e % groupSz, Nat.mod_lt e (by decide), by rw [Nat.div_add_mod']⟩
    exact ⟨(hleast _ hg).2 hvalue, (hgreatest _ hg).2 hvalue⟩
  have hrange : ∀ e < tokensPerChunk * hiddenDim,
      0 ≤ code levels input c e ∧ code levels input c e ≤ levels := fun e he =>
    code_mem_range levels (hmem e he).1 (hmem e he).2
  refine ⟨hleast, hgreatest, hrange, ?_, ?_, houtput, ?_, hframe⟩
  · intro e he
    exact hvalue e he (hrange e he).1 (hrange e he).2
  · intro e he
    rw [hvalue e he (hrange e he).1 (hrange e he).2]
    exact quant_error hlevels (hmem e he).1 (hmem e he).2 (roundTiesEven_nearest _)
  · intro g hg
    rw [hmins, hmaxs, if_neg (by omega), if_neg (by omega)]
    exact ⟨rfl, rfl⟩

theorem div_lt_numGroups {hiddenDim e : Nat} :
    e / 64 < numGroups hiddenDim ↔ e < tokensPerChunk * hiddenDim := by
  have := numGroups_mul hiddenDim
  omega

/-- The 4-bit kernels, when each side visits the groups of the chunk. -/
theorem flexgen_roundTrip_of_mem {order order' : List Nat} (input : Nat → 𝕜) (c₀ : Compressed 𝕜)
    (out₀ : Nat → 𝕜) (hmem : ∀ g, g ∈ order ↔ g < numGroups hiddenDim)
    (hmem' : ∀ g, g ∈ order' ↔ g < numGroups hiddenDim) :
    RoundTrip 15 32 hiddenDim input c₀ (flexgenCompress input order c₀) out₀
      (flexgenDecompress (flexgenCompress input order c₀) order' out₀) := by
  have hmins : ∀ g, (flexgenCompress input order c₀).mins g = if g < numGroups hiddenDim then
      groupReduce min (load input (g * groupSz)) else c₀.mins g := by
    intro g
    simp only [flexgenCompress, foldl_compressGroup_mins, hmem]
  have hmaxs : ∀ g, (flexgenCompress input order c₀).maxs g = if g < numGroups hiddenDim then
      groupReduce max (load input (g * groupSz)) else c₀.maxs g := by
    intro g
    simp only [flexgenCompress, foldl_compressGroup_maxs, hmem]
  refine roundTrip_of_code (by omega) hmins hmaxs ?_ ?_ ?_
  · intro a ha
    rw [flexgenCompress_output, if_neg (by rw [hmem]; omega)]
  · intro e he
    rw [flexgenDecompress_apply, if_neg (by rw [hmem', div_lt_numGroups]; omega)]
  · intro e he h0 h15
    rw [flexgenDecompress_apply, if_pos (by rw [hmem', div_lt_numGroups]; exact he),
      nibbleAt_flexgenCompress _ _ _ (by rw [hmem, div_lt_numGroups]; exact he)]
    have hcode : ((groupQuantizer 15 quantize4 input (e / 64) (input e)).toNat : Int) =
        code 15 input (flexgenCompress input order c₀) e := by
      unfold code groupSz at h0 h15 ⊢
      rw [hmins, hmaxs, if_pos (div_lt_numGroups.mpr he), if_pos (div_lt_numGroups.mpr he)]
        at h0 h15 ⊢
      exact quantize4_toNat h0 h15
    rw [← hcode]
    unfold groupSz
    push_cast
    ring

/-- The 8-bit kernels, likewise. -/
theorem flexgen8bit_roundTrip_of_mem {order : List Nat} (input : Nat → 𝕜) (c₀ : Compressed 𝕜)
    (out₀ : Nat → 𝕜) (hmem : ∀ g, g ∈ order ↔ g < numGroups hiddenDim) :
    RoundTrip 255 64 hiddenDim input c₀ (flexgenCompress8bit input order c₀) out₀
      (flexgenDecompress8bit (flexgenCompress8bit input order c₀) hiddenDim out₀) := by
  have hmins : ∀ g, (flexgenCompress8bit input order c₀).mins g = if g < numGroups hiddenDim then
      groupReduce min (load input (g * groupSz)) else c₀.mins g := by
    intro g
    simp only [flexgenCompress8bit, foldl_compressGroup_mins, hmem]
  have hmaxs : ∀ g, (flexgenCompress8bit input order c₀).maxs g = if g < numGroups hiddenDim then
      groupReduce max (load input (g * groupSz)) else c₀.maxs g := by
    intro g
    simp only [flexgenCompress8bit, foldl_compressGroup_maxs, hmem]
  refine roundTrip_of_code (by omega) hmins hmaxs ?_ ?_ ?_
  · intro a ha
    rw [flexgenCompress8bit_output, if_neg (by rw [hmem]; omega)]
  · intro e he
    rw [flexgenDecompress8bit_apply, if_neg (by rw [div_lt_numGroups]; omega)]
  · intro e he h0 h255
    rw [flexgenDecompress8bit_apply, if_pos (div_lt_numGroups.mpr he),
      flexgenCompress8bit_output, if_pos (by rw [hmem, div_lt_numGroups]; exact he)]
    have hcode : ((groupQuantizer 255 quantize8 input (e / 64) (input e)).toNat : Int) =
        code 255 input (flexgenCompress8bit input order c₀) e := by
      unfold code groupSz at h0 h255 ⊢
      rw [hmins, hmaxs, if_pos (div_lt_numGroups.mpr he), if_pos (div_lt_numGroups.mpr he)]
        at h0 h255 ⊢
      exact quantize8_toNat h0 h255
    rw [← hcode]
    unfold groupSz
    push_cast
    ring

/-- **The FlexGen round trip.** The tasks of a compression have each group exactly once. Whatever
the numbers of workers and the orders in which their groups are taken, the pooled and the
single-threaded 4-bit decompression agree, and both widths reproduce the minimum and the maximum
of each group, need no clamping, and return each value as the point of its own code, within half
a step of it; nothing else is written. -/
theorem flexgen_round_trip (hiddenDim : Nat) (input : Nat → 𝕜) (c₀ : Compressed 𝕜)
    (out₀ : Nat → 𝕜) {compressors decompressors : Nat} (hcomp : 0 < compressors)
    (hdecomp : 0 < decompressors) {order order' : List Nat}
    (horder : order.Perm (workerGroups (numGroups hiddenDim) compressors))
    (horder' : order'.Perm (workerGroups (numGroups hiddenDim) decompressors)) :
    workerGroups (numGroups hiddenDim) compressors = List.range (numGroups hiddenDim) ∧
    flexgenDecompress (flexgenCompress input order c₀) order' out₀ =
      flexgenDecompressSingleThread (flexgenCompress input order c₀) hiddenDim out₀ ∧
    RoundTrip 15 32 hiddenDim input c₀ (flexgenCompress input order c₀) out₀
      (flexgenDecompress (flexgenCompress input order c₀) order' out₀) ∧
    RoundTrip 255 64 hiddenDim input c₀ (flexgenCompress8bit input order c₀) out₀
      (flexgenDecompress8bit (flexgenCompress8bit input order c₀) hiddenDim out₀) := by
  have hall := workerGroups_eq (numGroups hiddenDim) hcomp
  have hmem : ∀ g, g ∈ order ↔ g < numGroups hiddenDim := by
    intro g
    rw [horder.mem_iff, hall, List.mem_range]
  have hmem' : ∀ g, g ∈ order' ↔ g < numGroups hiddenDim := by
    intro g
    rw [horder'.mem_iff, workerGroups_eq _ hdecomp, List.mem_range]
  refine ⟨hall, ?_, flexgen_roundTrip_of_mem input c₀ out₀ hmem hmem',
    flexgen8bit_roundTrip_of_mem input c₀ out₀ hmem⟩
  funext e
  show _ = flexgenDecompress _ (List.range (numGroups hiddenDim)) out₀ e
  rw [flexgenDecompress_apply, flexgenDecompress_apply]
  simp only [hmem', List.mem_range]

/-- Three workers compress the four groups of a narrow chunk, two decompress them. -/
theorem flexgen_round_trip_fourGroups :
    workerGroups (numGroups 1) 3 = [0, 1, 2, 3] ∧
    RoundTrip 15 32 1 (fun e => (e : ℚ)) ⟨fun _ => 0, fun _ => 0, fun _ => 0⟩
      (flexgenCompress (fun e => (e : ℚ)) [2, 0, 3, 1] ⟨fun _ => 0, fun _ => 0, fun _ => 0⟩)
      (fun _ => 0) (flexgenDecompress (flexgenCompress (fun e => (e : ℚ)) [2, 0, 3, 1]
        ⟨fun _ => 0, fun _ => 0, fun _ => 0⟩) [2, 3, 0, 1] (fun _ => 0)) := by
  have h := flexgen_round_trip 1 (fun e => (e : ℚ)) ⟨fun _ => 0, fun _ => 0, fun _ => 0⟩
    (fun _ => 0) (show 0 < 3 by decide) (show 0 < 2 by decide)
    (show List.Perm [2, 0, 3, 1] (workerGroups (numGroups 1) 3) by decide)
    (show List.Perm [2, 3, 0, 1] (workerGroups (numGroups 1) 2) by decide)
  exact ⟨by decide, h.2.2.1⟩

end

end MzCache.FlexGen
