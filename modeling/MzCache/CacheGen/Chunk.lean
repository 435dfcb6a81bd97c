import MzCache.CacheGen.CodeLength
import MzCache.Kv.Evict

/-!
# CacheGen over a whole chunk

The quantizer, the frequency tables and `encode_function_new`. A token's values are scaled by
its largest magnitude and rounded to one of 31 levels; each channel's levels are coded in
blocks of sixteen tokens with a table that was built, once, from the data the constructor saw.

Halves are bit patterns. A magnitude is kept as its bits, which order as the values do; the
value itself is a rational, and an infinity or a NaN has none.
-/

namespace MzCache.CacheGen

open MzCache.Lib

/-! ## Halves -/

/-- The `__fp16` with index `i` of a buffer. -/
def halfAt (h : Bytes) (i : ℕ) : UInt16 :=
  UInt16.ofNat ((h (2 * i)).toNat + 256 * (h (2 * i + 1)).toNat)

/-- The value of a half, unless it is an infinity or a NaN. -/
def halfValue (x : UInt16) : Option ℚ :=
  let sign : ℚ := if x.toNat < 2 ^ 15 then 1 else -1
  let exponent : ℕ := x.toNat / 2 ^ 10 % 2 ^ 5
  let mantissa : ℕ := x.toNat % 2 ^ 10
  if exponent = 31 then none
  else if exponent = 0 then some (sign * mantissa / 2 ^ 24)
  else some (sign * (2 ^ 10 + mantissa) * 2 ^ exponent / 2 ^ 25)

/-- `fabs`, as bits. -/
def magnitude (x : UInt16) : ℕ := x.toNat % 2 ^ 15

/-- `if (av > acc_max) acc_max = av`, which no NaN passes. -/
def accMax (acc : ℕ) (x : UInt16) : ℕ :=
  if magnitude x ≤ 0x7C00 ∧ acc < magnitude x then magnitude x else acc

/-- `max1` of token `t`: the largest magnitude of its `C` values. -/
def tokenMax (C : ℕ) (h : Bytes) (t : ℕ) : ℕ :=
  (List.range C).foldl (fun acc c => accMax acc (halfAt h (c + C * t))) 0

/-! ## Quantization -/

/-- `make_key_bins_cpp(1)` and `make_value_bins_cpp(1)`. -/
def bins : ℕ := 32

/-- `std::round`. -/
def roundHalfAway (x : ℚ) : ℤ := if 0 ≤ x then ⌊x + 1 / 2⌋ else -⌊-x + 1 / 2⌋

/-- The level of channel `c` of token `t`. The conversion to `int` is undefined for an
infinity or a NaN. -/
def quantizeEntry (f32 : Rounding) (C : ℕ) (h : Bytes) (t c : ℕ) : Option ℕ :=
  let maxq : ℕ := bins / 2 - 1
  (halfValue (halfAt h (c + C * t))).map fun vx =>
    let factor :=
      match halfValue (UInt16.ofNat (tokenMax C h t)) with
      | some acc => if 0 < acc then f32.fl (maxq / acc) else 0
      | none => 0
    let qf := roundHalfAway (f32.fl (f32.fl (vx * factor) + maxq))
    if qf < 0 then 0 else if qf > 2 * maxq then 2 * maxq else qf.toNat

/-- `quantize_from_bins_raw`: entry `c + C * t` is the level of channel `c` of token `t`. -/
def quantizeFromBinsRaw (f32 : Rounding) (C : ℕ) (h : Bytes) (i : ℕ) : Option UInt8 :=
  (quantizeEntry f32 C h (i / C) (i % C)).map UInt8.ofNat

/-- `quant` does what `quantize_from_bins_raw` is defined to do. -/
def Quantizes (f32 : Rounding) (C : ℕ) (quant : Bytes → ℕ → UInt8) : Prop :=
  ∀ h, ∀ i < tokensPerChunk * C, ∀ y, quantizeFromBinsRaw f32 C h i = some y → quant h i = y

/-- `quantize_from_bins_raw_chunked`: token `t` is token `t % 256` of chunk `t / 256`. -/
def quantizeChunked (C : ℕ) (quant : Bytes → ℕ → UInt8) (chunks : ℕ → Bytes) (i : ℕ) : UInt8 :=
  quant (chunks (i / C / tokensPerChunk)) (i % C + C * (i / C % tokensPerChunk))

/-! ## Frequency tables -/

section Cdf

variable (maxBins T C : ℕ) (q : ℕ → UInt8)

/-- `hist[value + 1]` of channel `c`. -/
def cdfHist (c value : ℕ) : ℕ :=
  (List.range T).countP (fun t => min (q (c + C * t)).toNat (maxBins % 256) = value) % 2 ^ 16

/-- `hist[b]` after the prefix sums. -/
def cdfPrefix (c b : ℕ) : ℕ := ((List.range b).map (cdfHist maxBins T C q c)).sum % 2 ^ 16

/-- `cdf_calculate_cpu`: row `c` has the entries `0 .. max_bins`. -/
def cdfCalculateCpu (i : ℕ) : UInt16 :=
  let c := i / (maxBins + 1)
  let b := i % (maxBins + 1)
  let denom := max 1 (cdfPrefix maxBins T C q c maxBins)
  UInt16.ofNat ((0xFFFF - maxBins) * cdfPrefix maxBins T C q c b / denom + b)

end Cdf

/-- What the constructor keeps for a layer. -/
structure EncoderMeta where
  cdfKey : ℕ → UInt16
  cdfValue : ℕ → UInt16
  maxKey : List ℕ
  maxValue : List ℕ

/-- `encode_meta_function_new` over `totalTokens` tokens. -/
def encodeMetaFunctionNew (quant : Bytes → ℕ → UInt8) (kChunks vChunks : ℕ → Bytes)
    (totalTokens C : ℕ) : EncoderMeta :=
  let max1 := fun (chunks : ℕ → Bytes) => (List.range totalTokens).map fun t =>
    tokenMax C (chunks (t / tokensPerChunk)) (t % tokensPerChunk)
  { cdfKey := cdfCalculateCpu bins totalTokens C (quantizeChunked C quant kChunks)
    cdfValue := cdfCalculateCpu bins totalTokens C (quantizeChunked C quant vChunks)
    maxKey := max1 kChunks
    maxValue := max1 vChunks }

/-! ## One stream -/

/-- What `encode_function_new` writes: the bytes, and for each block the channel lengths and
the byte count. -/
structure EncodedStream where
  output : List UInt8
  lengthsArr : List (List UInt8)
  byteSumsArr : List UInt16

instance : Inhabited EncodedStream := ⟨⟨[], [], []⟩⟩

/-- `encode_function_new`, over the quantized chunk. -/
def encodeFunctionNew (fuel : ℕ) (cdf : ℕ → UInt16) (C : ℕ) (q : ℕ → UInt8) :
    Except Stop EncodedStream := do
  let blocks ← (List.range (tokensPerChunk / maxTokensPerChunk)).mapM fun b =>
    encodeNtokensCpuNewRange fuel cdf C (bins + 1)
      (fun i => q (C * (b * maxTokensPerChunk) + i)) maxTokensPerChunk
  return ⟨(blocks.map Prod.fst).flatten, blocks.map Prod.snd,
    blocks.map fun b => UInt16.ofNat b.1.length⟩

/-- The kernel of a CACHEGEN build. `cdf` holds the tables of every layer, for K and for V. -/
def kernel (fuel C : ℕ) (quant : Bytes → ℕ → UInt8) (cdf : ℕ → Bool → ℕ → UInt16)
    (decode : ℕ → ℕ → Bool → Bytes → Bytes → Bytes) : Kernel :=
  let stream := fun (l : ℕ) (isKey : Bool) (h : Bytes) =>
    ((encodeFunctionNew fuel (cdf l isKey) C (quant h)).toOption).getD default
  { encode := fun l isKey h i => (stream l isKey h).output.getD i 0
    encodeSize := fun l isKey h => (stream l isKey h).output.length
    side := fun l isKey h i =>
      ((stream l isKey h).lengthsArr.flatten ++
        (stream l isKey h).byteSumsArr.flatMap fun n =>
          [UInt8.ofNat n.toNat, UInt8.ofNat (n.toNat / 256)]).getD i 0
    decode := decode }

/-! ## Sizes -/

/-- The symbols of one channel of block `b`. -/
def blockSymbols (C : ℕ) (q : ℕ → UInt8) (b c : ℕ) : List ℕ :=
  column (clampInt (bins - 1)) (fun i => q (C * (b * maxTokensPerChunk) + i)) C maxTokensPerChunk c

/-- The widths of their frequency intervals. -/
def blockWidths (cdf : ℕ → UInt16) (C : ℕ) (q : ℕ → UInt8) (b c : ℕ) : List ℕ :=
  (frequencies (cdfRow cdf (bins + 1) c) (bins - 1) (blockSymbols C q b c)).map width

/-- The bytes of a channel of a block, from these widths alone. -/
def blockBytes (cdf : ℕ → UInt16) (C : ℕ) (q : ℕ → UInt8) (b c : ℕ) : ℕ :=
  (codeBits (2 ^ 32 - 1) (blockWidths cdf C q b c) + 2 + 7) / 8

/-- The bytes of a stream. -/
def streamBytes (cdf : ℕ → UInt16) (C : ℕ) (q : ℕ → UInt8) : ℕ :=
  ((List.range (tokensPerChunk / maxTokensPerChunk)).map fun b =>
    ((List.range C).map (blockBytes cdf C q b)).sum).sum

/-- The rows of a table increase strictly. -/
def Increasing (cdf : ℕ → UInt16) (C : ℕ) : Prop :=
  ∀ c < C, ∀ b < bins, (cdfRow cdf (bins + 1) c b).toNat < (cdfRow cdf (bins + 1) c (b + 1)).toNat

section

variable {cdf : ℕ → UInt16} {C fuel : ℕ} {q : ℕ → UInt8}

/-- Such rows are usable when they start at zero, as those of `cdf_calculate_cpu` do. -/
theorem Increasing.table {T : ℕ} (h : Increasing (cdfCalculateCpu bins T C q) C) :
    ∀ c < C, CdfRow (cdfRow (cdfCalculateCpu bins T C q) (bins + 1) c) (bins + 1 - 2) := by
  intro c hc
  refine ⟨?_, fun s hs => h c hc s (by unfold bins at *; omega)⟩
  have hb : ((bins + 1) * c + 0) % (bins + 1) = 0 := by simp
  unfold cdfRow cdfCalculateCpu
  dsimp only
  rw [hb]
  simp [cdfPrefix]

theorem blockSymbols_le {b c s : ℕ} (hs : s ∈ blockSymbols C q b c) : s ≤ bins - 1 := by
  obtain ⟨t, -, rfl⟩ := List.mem_map.mp hs
  exact (clampInt_bounds _ _).1

theorem Increasing.rises (h : Increasing cdf C) :
    ∀ c < C, Rises (cdfRow cdf (bins + 1) c) (bins + 1 - 2) := by
  intro c hc s hs
  exact h c hc s (by unfold bins at *; omega)

/-- Every width is that of some symbol. -/
theorem blockWidths_bounds (hrise : ∀ c < C, Rises (cdfRow cdf (bins + 1) c) (bins + 1 - 2))
    {b c : ℕ} (hc : c < C) :
    (blockWidths cdf C q b c).length = 16 ∧
      ∀ f ∈ blockWidths cdf C q b c, 0 < f ∧ f ≤ 2 ^ 16 := by
  refine ⟨by simp [blockWidths, frequencies, blockSymbols, column, maxTokensPerChunk], ?_⟩
  intro f hf
  obtain ⟨p, hp, rfl⟩ := List.mem_map.mp hf
  obtain ⟨s, hs, rfl⟩ := List.mem_map.mp hp
  have hlt := (hrise c hc).cdfHigh_gt (blockSymbols_le hs)
  have hle := CdfRow.cdfHigh_le (cdfRow cdf (bins + 1) c) (bins - 1) s
  unfold width
  have heq : bins + 1 - 2 = bins - 1 := rfl
  rw [heq] at hlt
  dsimp only
  omega

/-- A channel of a block takes 33 bytes at most. -/
theorem blockBytes_le (hrise : ∀ c < C, Rises (cdfRow cdf (bins + 1) c) (bins + 1 - 2))
    {b c : ℕ} (hc : c < C) : blockBytes cdf C q b c ≤ 33 := by
  obtain ⟨hlen, hf⟩ := @blockWidths_bounds cdf C q hrise b c hc
  have hbits : codeBits (2 ^ 32 - 1) (blockWidths cdf C q b c) ≤ 255 := by
    by_cases hwide : ∃ f ∈ blockWidths cdf C q b c, 2 ≤ f
    · exact (codeBits_le hlen hf hwide).trans (by norm_num)
    · have hones : blockWidths cdf C q b c = List.replicate 16 1 := by
        rw [List.eq_replicate_iff]
        refine ⟨hlen, fun f hmem => ?_⟩
        have hpos := (hf f hmem).1
        have hnot : ¬ 2 ≤ f := fun h => hwide ⟨f, hmem, h⟩
        omega
      rw [hones, codeBits_ones]
  unfold blockBytes
  omega

/-- What `encode_function_new` makes of the channels of its blocks. -/
def streamOf (C : ℕ) (v : ℕ → ℕ → List UInt8) : EncodedStream where
  output := ((List.range (tokensPerChunk / maxTokensPerChunk)).map fun b =>
    ((List.range C).map (v b)).flatten).flatten
  lengthsArr := (List.range (tokensPerChunk / maxTokensPerChunk)).map fun b =>
    ((List.range C).map (v b)).map fun l => UInt8.ofNat l.length
  byteSumsArr := (List.range (tokensPerChunk / maxTokensPerChunk)).map fun b =>
    UInt16.ofNat ((List.range C).map (v b)).flatten.length

/-- `encode_function_new` returns, with the streams of the channels one behind the other. -/
theorem encodeFunctionNew_channels (hfuel : 32 ≤ fuel) (hC : 1 ≤ C)
    (hrise : ∀ c < C, Rises (cdfRow cdf (bins + 1) c) (bins + 1 - 2)) :
    ∃ v : ℕ → ℕ → List UInt8, encodeFunctionNew fuel cdf C q = .ok (streamOf C v) ∧
      ∀ b, ∀ c < C, encodeChannel LowRange.coder fuel (cdfRow cdf (bins + 1) c) (bins - 1)
          (blockSymbols C q b c) [] = .ok (v b c) ∧
        (v b c).length = blockBytes cdf C q b c := by
  have hblock := fun b => @range_encode C (bins + 1) fuel hC (by decide) hfuel cdf hrise
    (fun i => q (C * (b * maxTokensPerChunk) + i))
  choose v hok hchan using hblock
  refine ⟨v, ?_, fun b c hc => ⟨(hchan b c hc).1, (hchan b c hc).2.trans ?_⟩⟩
  · unfold encodeFunctionNew
    rw [mapM_range_eq_ok fun b _ => hok b]
    simp [streamOf, bind, Except.bind, pure, Except.pure, Function.comp_def]
  · unfold channelBytes blockBytes blockWidths
    rw [rangeScheme_rescalings _ rangeFirst (by decide)]
    · rfl
    · intro f hf
      obtain ⟨s, hs, rfl⟩ := List.mem_map.mp hf
      exact (hrise c hc).cdfHigh_gt (blockSymbols_le (b := b) hs)

/-- The bytes of the stream are those of its channels. -/
theorem encodeFunctionNew_length (hfuel : 32 ≤ fuel) (hC : 1 ≤ C)
    (hrise : ∀ c < C, Rises (cdfRow cdf (bins + 1) c) (bins + 1 - 2)) :
    ∃ e, encodeFunctionNew fuel cdf C q = .ok e ∧ e.output.length = streamBytes cdf C q := by
  obtain ⟨v, hok, hv⟩ := @encodeFunctionNew_channels cdf C fuel q hfuel hC hrise
  refine ⟨_, hok, ?_⟩
  unfold streamOf streamBytes
  simp only [List.length_flatten, List.map_map, Function.comp_def]
  refine congrArg List.sum (List.map_congr_left fun b _ => ?_)
  exact congrArg List.sum (List.map_congr_left fun c hc => (hv b c (List.mem_range.mp hc)).2)

end

/-! ## Tables of constant data -/

/-- The table of a channel in which only level `x` occurred. -/
theorem cdfRow_constant {x : UInt8} (hx : x.toNat < bins) {T C : ℕ} (hT : 0 < T)
    (hlt : T < 2 ^ 16) {c b : ℕ} (hb : b ≤ bins) :
    (cdfRow (cdfCalculateCpu bins T C fun _ => x) (bins + 1) c b).toNat =
      if b ≤ x.toNat then b else 0xFFFF - bins + b := by
  have hhist : ∀ value, cdfHist bins T C (fun _ => x) c value = if value = x.toNat then T else 0 := by
    intro value
    have hmin : min x.toNat (bins % 256) = x.toNat := by
      unfold bins at *
      omega
    show (List.range T).countP (fun _ => decide (min x.toNat (bins % 256) = value)) % 2 ^ 16 = _
    rw [hmin]
    by_cases hv : value = x.toNat
    · simpa [hv] using hlt
    · simp [hv, Ne.symm hv]
  have hprefix : ∀ n, cdfPrefix bins T C (fun _ => x) c n = if x.toNat < n then T else 0 := by
    intro n
    have hsum : ((List.range n).map (cdfHist bins T C (fun _ => x) c)).sum =
        if x.toNat < n then T else 0 := by
      induction n with
      | zero => rfl
      | succ n ih =>
          rw [List.sum_range_succ, ih, hhist]
          split_ifs <;> omega
    unfold cdfPrefix
    rw [hsum]
    split_ifs <;> omega
  have hdiv : ((bins + 1) * c + b) / (bins + 1) = c := by
    rw [Nat.mul_add_div (Nat.succ_pos _), Nat.div_eq_of_lt (Nat.lt_succ_of_le hb), Nat.add_zero]
  have hmod : ((bins + 1) * c + b) % (bins + 1) = b := by
    rw [Nat.mul_add_mod, Nat.mod_eq_of_lt (Nat.lt_succ_of_le hb)]
  unfold cdfRow cdfCalculateCpu
  dsimp only
  rw [hdiv, hmod, hprefix, hprefix, if_pos hx, max_eq_right hT]
  unfold bins at *
  by_cases hle : b ≤ x.toNat
  · rw [if_neg (by omega), if_pos hle, Nat.mul_zero, Nat.zero_div, Nat.zero_add,
      UInt16.toNat_ofNat']
    omega
  · rw [if_pos (by omega), if_neg hle, Nat.mul_div_cancel _ hT, UInt16.toNat_ofNat']
    omega

end MzCache.CacheGen
