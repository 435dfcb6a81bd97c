import MzCache.CacheGen.Chunk
import MzCache.Core.State
import MzCache.Kv.Layout

/-!
# The arena bound of a CACHEGEN build

The pools and the fit test take a raw chunk, two bytes a value, as an upper bound of a
compressed one. The range coder keeps to it unless all sixteen symbols of a block have the
smallest frequency there is, one in `2 ^ 16`: such a block takes 33 bytes. Whether a chunk
overruns its arena is a matter of how many of its blocks do.
-/

namespace MzCache.Theorems

open MzCache MzCache.Lib MzCache.CacheGen

/-- A CACHEGEN build, with frequency tables built from any data. -/
structure CacheGenBuild (cfg : Config) where
  fuel : ℕ
  quant : Bytes → ℕ → UInt8
  tokens : ℕ
  /-- The levels each table was built from, by layer, for K and for V. -/
  data : ℕ → Bool → ℕ → UInt8
  decode : ℕ → ℕ → Bool → Bytes → Bytes → Bytes
  backend : cfg.backend = .cachegen
  dim_pos : 1 ≤ cfg.kvHiddenDim
  fuel_ge : 32 ≤ fuel
  quantizes : Quantizes cfg.f32 cfg.kvHiddenDim quant
  increasing : ∀ l isKey,
    Increasing (cdfCalculateCpu bins tokens cfg.kvHiddenDim (data l isKey)) cfg.kvHiddenDim
  kernel_eq : cfg.kernel = kernel fuel cfg.kvHiddenDim quant
    (fun l isKey => cdfCalculateCpu bins tokens cfg.kvHiddenDim (data l isKey)) decode

namespace CacheGenBuild

variable {cfg : Config} (B : CacheGenBuild cfg)

def cdf (l : ℕ) (isKey : Bool) : ℕ → UInt16 :=
  cdfCalculateCpu bins B.tokens cfg.kvHiddenDim (B.data l isKey)

/-- The bytes of a chunk's two streams. -/
def chunkStreams (l : ℕ) (mem : ChunkMem) : ℕ :=
  streamBytes (B.cdf l true) cfg.kvHiddenDim (B.quant mem.k) +
    streamBytes (B.cdf l false) cfg.kvHiddenDim (B.quant mem.v)

/-- In every block some token's symbol has a frequency above one. -/
def Wide (l : ℕ) (isKey : Bool) (h : Bytes) : Prop :=
  ∀ b < tokensPerChunk / maxTokensPerChunk, ∀ c < cfg.kvHiddenDim,
    ∃ f ∈ blockWidths (B.cdf l isKey) cfg.kvHiddenDim (B.quant h) b c, 2 ≤ f

theorem compSize (l : ℕ) (isKey : Bool) (h : Bytes) :
    cfg.compSize l isKey h = streamBytes (B.cdf l isKey) cfg.kvHiddenDim (B.quant h) := by
  obtain ⟨e, he, hlen⟩ := @encodeFunctionNew_length (B.cdf l isKey) cfg.kvHiddenDim B.fuel
    (B.quant h) B.fuel_ge B.dim_pos (B.increasing l isKey).rises
  unfold Config.compSize
  rw [B.backend, B.kernel_eq]
  dsimp only [kernel]
  rw [show encodeFunctionNew B.fuel (cdfCalculateCpu bins B.tokens cfg.kvHiddenDim
    (B.data l isKey)) cfg.kvHiddenDim (B.quant h) = .ok e from he]
  exact hlen

theorem chunkStreams_eq {l : ℕ} {mem : ChunkMem} {a b : ℕ}
    (hk : streamBytes (B.cdf l true) cfg.kvHiddenDim (B.quant mem.k) = a)
    (hv : streamBytes (B.cdf l false) cfg.kvHiddenDim (B.quant mem.v) = b) :
    B.chunkStreams l mem = a + b := by
  rw [chunkStreams, hk, hv]

/-- What appending a chunk does to an arena's top. -/
theorem append_top (l : ℕ) (mem : ChunkMem) (cur : Arena) :
    (cur.append cfg l mem).top = cur.top + B.chunkStreams l mem := by
  unfold Arena.append chunkStreams
  rw [← B.compSize, ← B.compSize]

/-- With no such block a stream takes at most two bytes a value. -/
theorem streamBytes_le {l : ℕ} {isKey : Bool} {h : Bytes} (hw : B.Wide l isKey h) :
    streamBytes (B.cdf l isKey) cfg.kvHiddenDim (B.quant h) ≤ cfg.rawChunkBytes := by
  have hblock : ∀ b < tokensPerChunk / maxTokensPerChunk, ∀ c < cfg.kvHiddenDim,
      blockBytes (B.cdf l isKey) cfg.kvHiddenDim (B.quant h) b c ≤ 32 := by
    intro b hb c hc
    obtain ⟨hlen, hf⟩ := @blockWidths_bounds (B.cdf l isKey) cfg.kvHiddenDim (B.quant h)
      (B.increasing l isKey).rises b c hc
    have := codeBits_le hlen hf (hw b hb c hc)
    unfold blockBytes
    omega
  unfold streamBytes
  calc ((List.range (tokensPerChunk / maxTokensPerChunk)).map fun b =>
        ((List.range cfg.kvHiddenDim).map
          (blockBytes (B.cdf l isKey) cfg.kvHiddenDim (B.quant h) b)).sum).sum
      ≤ ((List.range (tokensPerChunk / maxTokensPerChunk)).map
          fun _ => cfg.kvHiddenDim * 32).sum := by
        refine List.sum_le_sum fun b hb => ?_
        refine (List.sum_le_card_nsmul _ 32 ?_).trans ?_
        · intro x hx
          obtain ⟨c, hc, rfl⟩ := List.mem_map.mp hx
          exact hblock b (List.mem_range.mp hb) c (List.mem_range.mp hc)
        · simp
    _ ≤ cfg.rawChunkBytes := by
        rw [List.map_const', List.sum_replicate, List.length_range]
        unfold Config.rawChunkBytes tokensPerChunk maxTokensPerChunk sizeofFp16
        simp only [smul_eq_mul]
        omega

end CacheGenBuild

/-- A chunk half whose values are all the half `x`. -/
def constHalf (x : UInt16) : Bytes := fun i =>
  if i % 2 = 0 then UInt8.ofNat x.toNat else UInt8.ofNat (x.toNat / 256)

theorem halfAt_const (x : UInt16) (i : ℕ) : halfAt (constHalf x) i = x := by
  have hx := x.toNat_lt
  unfold halfAt constHalf
  rw [if_pos (by omega), if_neg (by omega), ← UInt16.toNat_inj]
  simp only [UInt16.toNat_ofNat', UInt8.toNat_ofNat']
  omega

/-- The quantizer with zeros where the source's is undefined. -/
def quantOr0 (f32 : Rounding) (C : ℕ) (h : Bytes) (i : ℕ) : UInt8 :=
  (quantizeFromBinsRaw f32 C h i).getD 0

theorem quantOr0_quantizes (f32 : Rounding) (C : ℕ) : Quantizes f32 C (quantOr0 f32 C) := by
  intro h i _ y hy
  unfold quantOr0
  rw [hy]
  rfl

/-- In four channels of equal values each value is its token's largest. -/
theorem tokenMax_const (x : UInt16) (t : ℕ) :
    tokenMax 4 (constHalf x) t = [x, x, x, x].foldl accMax 0 := by
  unfold tokenMax
  simp only [halfAt_const]
  rfl

theorem quantOr0_one (i : ℕ) : quantOr0 (.exact 256) 4 (constHalf 0x3C00) i = 30 := by
  unfold quantOr0 quantizeFromBinsRaw quantizeEntry
  rw [halfAt_const, tokenMax_const]
  with_unfolding_all decide

theorem quantOr0_minusOne (i : ℕ) : quantOr0 (.exact 256) 4 (constHalf 0xBC00) i = 0 := by
  unfold quantOr0 quantizeFromBinsRaw quantizeEntry
  rw [halfAt_const, tokenMax_const]
  with_unfolding_all decide

/-- The table of a layer whose chunk held minus ones: only level zero occurred. -/
def minusOnesData : ℕ → UInt8 :=
  quantizeChunked 4 (quantOr0 (.exact 256) 4) fun _ => constHalf 0xBC00

theorem minusOnes_cdf (c b : ℕ) (hb : b ≤ bins) :
    (cdfRow (cdfCalculateCpu bins 256 4 minusOnesData) (bins + 1) c b).toNat =
      if b = 0 then 0 else 65503 + b := by
  have hdata : minusOnesData = fun _ => 0 := funext fun i => quantOr0_minusOne _
  rw [hdata, cdfRow_constant (by decide) (by decide) (by decide) hb]
  by_cases h0 : b = 0
  · simp [h0]
  · simp [h0, bins]

/-- One layer of four channels, with pools of one page. -/
def fourConfig : Config where
  numLayers := 1
  kvHiddenDim := 4
  backend := .cachegen
  perLayerBalance := 0
  decompLoadRatio := 1
  weightLayerBytes := 1000
  f32 := .exact 256
  f64 := .exact 256
  kernel := kernel 32 4 (quantOr0 (.exact 256) 4)
    (fun _ _ => cdfCalculateCpu bins 256 4 minusOnesData) fun _ _ _ _ _ _ => 0
  uninit := fun _ => 0
  numLayers_pos := Nat.one_pos
  ratio_nonneg := ratio_one_nonneg
  ratio_le_one := ratio_one_le
  ratio_float := exact_fl_one
  limit_ge := exact_limit_ge
  one_double := exact_one_le

/-- The build over it: the constructor saw minus ones. -/
def fourBuild : CacheGenBuild fourConfig where
  fuel := 32
  quant := quantOr0 (.exact 256) 4
  tokens := 256
  data := fun _ _ => minusOnesData
  decode := fun _ _ _ _ _ _ => 0
  backend := rfl
  dim_pos := by decide
  fuel_ge := le_rfl
  quantizes := quantOr0_quantizes _ _
  increasing := by
    intro _ _ c _ b hb
    have h1 := minusOnes_cdf c b hb.le
    have h2 := minusOnes_cdf c (b + 1) hb
    show (cdfRow (cdfCalculateCpu bins 256 4 minusOnesData) (bins + 1) c b).toNat <
      (cdfRow (cdfCalculateCpu bins 256 4 minusOnesData) (bins + 1) c (b + 1)).toNat
    rw [h1, h2]
    split <;> simp
  kernel_eq := rfl

/-- A constant chunk has sixteen equal widths in every block. -/
theorem blockWidths_const (cdf : ℕ → UInt16) (C : ℕ) (v : UInt8) (b c : ℕ) :
    blockWidths cdf C (fun _ => v) b c = List.replicate 16
      (width ((cdfRow cdf (bins + 1) c (clampInt (bins - 1) v)).toNat,
        cdfHigh (cdfRow cdf (bins + 1) c) (bins - 1) (clampInt (bins - 1) v))) := by
  unfold blockWidths frequencies blockSymbols column
  dsimp only
  rw [List.map_const', List.map_replicate, List.map_replicate, List.length_range]
  rfl

/-- A chunk of ones takes 33 bytes a block. -/
theorem ones_streamBytes : streamBytes (cdfCalculateCpu bins 256 4 minusOnesData) 4
    (quantOr0 (.exact 256) 4 (constHalf 0x3C00)) = 2112 := by
  have hq : quantOr0 (.exact 256) 4 (constHalf 0x3C00) = fun _ => 30 := funext quantOr0_one
  have hblock : ∀ b c, blockBytes (cdfCalculateCpu bins 256 4 minusOnesData) 4 (fun _ => 30) b c =
      33 := by
    intro b c
    have h0 := minusOnes_cdf c 30 (by decide)
    have h1 := minusOnes_cdf c 31 (by decide)
    have hwidth : width ((cdfRow (cdfCalculateCpu bins 256 4 minusOnesData) (bins + 1) c
        (clampInt (bins - 1) 30)).toNat, cdfHigh (cdfRow (cdfCalculateCpu bins 256 4 minusOnesData)
          (bins + 1) c) (bins - 1) (clampInt (bins - 1) 30)) = 1 := by
      unfold width
      show (cdfRow (cdfCalculateCpu bins 256 4 minusOnesData) (bins + 1) c 31).toNat -
        (cdfRow (cdfCalculateCpu bins 256 4 minusOnesData) (bins + 1) c 30).toNat = 1
      rw [h0, h1]
      rfl
    unfold blockBytes
    rw [blockWidths_const, hwidth, codeBits_ones]
  have hrow : ∀ b, blockBytes (cdfCalculateCpu bins 256 4 minusOnesData) 4 (fun _ => 30) b =
      fun _ => 33 := fun b => funext (hblock b)
  rw [hq]
  unfold streamBytes
  simp only [hrow]
  rfl

end MzCache.Theorems
