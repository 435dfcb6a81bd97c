import MzCache.CacheGen.Chunk

/-!
# Framing of a chunk

`decode_function_new` finds the sub-chunks of a stream by their byte counts, which
`encode_function_new` leaves in 16 bits each, and the channels of a sub-chunk by their
lengths, in 8 bits each. The lengths never pass 33; the counts may pass 16 bits.
-/

namespace MzCache.CacheGen

open MzCache.Lib

/-! ## Decoding a stream -/

/-- A round of `decode_function_new`: `current_offset` and the values written so far.
`dequant` makes the values of the tokens from `t_in_dst` on. -/
def decodeRound (fuel : ℕ) (cdf : ℕ → UInt16) (C : ℕ) (dequant : ℕ → List UInt8 → List UInt16)
    (e : EncodedStream) (acc : ℕ × List UInt16) (i : ℕ) : Except Stop (ℕ × List UInt16) := do
  let tInDst := i * maxTokensPerChunk
  let q16 ← decodeNtokensCpuNewRange fuel cdf C (bins + 1) (e.output.drop acc.1)
    (e.lengthsArr.getD i [])
  return (acc.1 + (e.byteSumsArr.getD i 0).toNat, acc.2 ++ dequant tInDst q16)

/-- `decode_function_new`. -/
def decodeFunctionNew (fuel : ℕ) (cdf : ℕ → UInt16) (C : ℕ)
    (dequant : ℕ → List UInt8 → List UInt16) (e : EncodedStream) : Except Stop (List UInt16) := do
  let r ← (List.range (tokensPerChunk / maxTokensPerChunk)).foldlM
    (decodeRound fuel cdf C dequant e) (0, [])
  return r.2

/-- `current_offset` when sub-chunk `i` is decoded. -/
def decodeOffset (e : EncodedStream) (i : ℕ) : ℕ :=
  ((List.range i).map fun b => (e.byteSumsArr.getD b 0).toNat).sum

/-- The rounds before sub-chunk `i` leave this offset. -/
theorem decodeRounds_offset {fuel C : ℕ} {cdf : ℕ → UInt16}
    {dequant : ℕ → List UInt8 → List UInt16} {e : EncodedStream} (i : ℕ) :
    ∀ r, (List.range i).foldlM (decodeRound fuel cdf C dequant e) (0, []) = .ok r →
      r.1 = decodeOffset e i := by
  induction i with
  | zero =>
      intro r hr
      cases hr
      rfl
  | succ i ih =>
      intro r hr
      rw [List.range_succ, List.foldlM_append, bind_eq_ok] at hr
      obtain ⟨acc, hacc, hlast⟩ := hr
      rw [List.foldlM_cons, bind_eq_ok] at hlast
      obtain ⟨acc', hround, hnil⟩ := hlast
      cases hnil
      unfold decodeRound at hround
      dsimp only at hround
      rw [bind_eq_ok] at hround
      obtain ⟨q16, -, hret⟩ := hround
      cases hret
      show acc.1 + _ = _
      rw [ih acc hacc]
      unfold decodeOffset
      rw [List.range_succ, List.map_append, List.sum_append]
      simp

/-! ## Where the streams start -/

/-- The bytes of sub-chunk `b`. -/
def subChunkBytes (C : ℕ) (v : ℕ → ℕ → List UInt8) (b : ℕ) : ℕ :=
  ((List.range C).map fun c => (v b c).length).sum

/-- The stream `e` of the channel streams `v` is framed: every sub-chunk and every channel is
looked for where it starts, and no length is cut. -/
structure Framed (C : ℕ) (v : ℕ → ℕ → List UInt8) (e : EncodedStream) : Prop where
  output : e.output = ((List.range (tokensPerChunk / maxTokensPerChunk)).map fun b =>
    ((List.range C).map (v b)).flatten).flatten
  subChunk : ∀ b < tokensPerChunk / maxTokensPerChunk,
    decodeOffset e b = ((List.range b).map (subChunkBytes C v)).sum
  channel : ∀ b < tokensPerChunk / maxTokensPerChunk, ∀ c < C,
    channelOffset (e.lengthsArr.getD b []) c = ((List.range c).map fun c => (v b c).length).sum
  length : ∀ b < tokensPerChunk / maxTokensPerChunk, ∀ c < C, (v b c).length ≤ 33 ∧
    ((e.lengthsArr.getD b []).getD c 0).toNat = (v b c).length
  byteSum : ∀ b < tokensPerChunk / maxTokensPerChunk,
    (e.byteSumsArr.getD b 0).toNat = subChunkBytes C v b

/-- `encode_function_new` leaves a framed stream of its channels. -/
def FramesChunk (fuel : ℕ) (cdf : ℕ → UInt16) (C : ℕ) (q : ℕ → UInt8) : Prop :=
  ∃ v e, encodeFunctionNew fuel cdf C q = .ok e ∧
    (∀ b < tokensPerChunk / maxTokensPerChunk, ∀ c < C,
      encodeChannel LowRange.coder fuel (cdfRow cdf (bins + 1) c) (bins - 1)
        (blockSymbols C q b c) [] = .ok (v b c)) ∧
    Framed C v e

section

variable {C : ℕ} {v : ℕ → ℕ → List UInt8}

theorem streamOf_lengths {b : ℕ} (hb : b < tokensPerChunk / maxTokensPerChunk) :
    (streamOf C v).lengthsArr.getD b [] =
      ((List.range C).map (v b)).map fun l => UInt8.ofNat l.length := by
  simp [streamOf, List.getD_eq_getElem?_getD, List.getElem?_range hb]

theorem streamOf_byteSum {b : ℕ} (hb : b < tokensPerChunk / maxTokensPerChunk) :
    ((streamOf C v).byteSumsArr.getD b 0).toNat = subChunkBytes C v b % 2 ^ 16 := by
  simp [streamOf, List.getD_eq_getElem?_getD, List.getElem?_range hb, subChunkBytes,
    List.length_flatten, Function.comp_def]

/-- A stream is framed exactly when its sub-chunks stay below `2 ^ 16` bytes. -/
theorem framed_streamOf_iff
    (hlen : ∀ b < tokensPerChunk / maxTokensPerChunk, ∀ c < C, (v b c).length ≤ 33) :
    Framed C v (streamOf C v) ↔
      ∀ b < tokensPerChunk / maxTokensPerChunk, subChunkBytes C v b < 2 ^ 16 := by
  constructor
  · intro h b hb
    have hsum := h.byteSum b hb
    rw [streamOf_byteSum hb] at hsum
    omega
  · intro h
    have hsum : ∀ b < tokensPerChunk / maxTokensPerChunk,
        ((streamOf C v).byteSumsArr.getD b 0).toNat = subChunkBytes C v b := by
      intro b hb
      rw [streamOf_byteSum hb, Nat.mod_eq_of_lt (h b hb)]
    have hshort : ∀ b < tokensPerChunk / maxTokensPerChunk, ∀ c < C, (v b c).length < 256 := by
      intro b hb c hc
      have := hlen b hb c hc
      omega
    refine ⟨rfl, fun b hb => ?_, fun b hb c hc => ?_, fun b hb c hc => ⟨hlen b hb c hc, ?_⟩, hsum⟩
    · refine congrArg List.sum (List.map_congr_left fun b' hb' => hsum b' ?_)
      rw [List.mem_range] at hb'
      omega
    · rw [streamOf_lengths hb, channelOffset_eq (v b) C c hc.le (hshort b hb),
        List.length_flatten, List.map_map]
      rfl
    · rw [streamOf_lengths hb]
      have := hshort b hb c hc
      simp [List.getD_eq_getElem?_getD, List.getElem?_range hc]
      omega

/-- The channels have one stream each, whose length is known. -/
theorem channel_length {fuel b c : ℕ} {cdf : ℕ → UInt16} {q : ℕ → UInt8} {bytes : List UInt8}
    (hfuel : 32 ≤ fuel) (hcdf : Increasing cdf C) (hc : c < C)
    (hok : encodeChannel LowRange.coder fuel (cdfRow cdf (bins + 1) c) (bins - 1)
      (blockSymbols C q b c) [] = .ok bytes) : bytes.length = blockBytes cdf C q b c := by
  obtain ⟨w, -, hw⟩ := @encodeFunctionNew_channels cdf C fuel q hfuel (by omega) hcdf.rises
  obtain ⟨hw, hlen⟩ := hw b c hc
  rw [← hlen, Except.ok.inj (hok.symm.trans hw)]

end

end MzCache.CacheGen
