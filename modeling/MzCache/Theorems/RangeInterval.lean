import MzCache.CacheGen.BlockSpec
import MzCache.CacheGen.RangeRun

/-!
# The range decoder's interval

A decoder recovers a channel from every stream in the interval that the encoder's state denotes
after the last symbol, before it is terminated: the terminating bits are one way to name such a
stream. Both loops keep their interval bounds on the way.
-/

namespace MzCache.Theorems

open MzCache.Lib MzCache.CacheGen

/-- The encoder before the first symbol of a channel. -/
def rangeStart : EncState LowRange := ⟨LowRange.coder.init, 0, ⟨0, 0, []⟩⟩

/-- The decoder before the first symbol. -/
def rangeDecoder (base : List UInt8) (len : ℕ) : DecState LowRange :=
  ⟨LowRange.coder.init, loadU32Be base (if len ≥ 4 then 4 else len), BitReader.start base len 4⟩

/-- The coded state both start from. -/
def rangeOrigin : Coded := ⟨rangeFirst, [], 0⟩

theorem rangeStart_encodes : Encodes LowRange.Rep [] rangeStart rangeOrigin :=
  ⟨LowRange.lawful.init, rfl, BitOut.ok_empty _, rfl⟩

theorem rangeDecoder_follows (base : List UInt8) (len : ℕ) :
    Follows base len rangeStart.iv (rangeDecoder base len) rangeOrigin := by
  refine ⟨rfl, ?_, BitReader.start_at _ _⟩
  rw [Coded.Reads, rangeDecoder, loadU32Be_eq]
  simp [Coded.origin, Coded.shifts, rangeOrigin, bitsVal]

/-- Every channel of up to sixteen symbols decodes from every stream in the interval of its
encoder, and both main loops run as they should. -/
theorem range_decoder_interval (fuel lp : ℕ) (hfuel : 32 ≤ fuel) (hlp : 2 ≤ lp)
    (row : ℕ → UInt16) (hrow : CdfRow row (lp - 2)) (syms : List UInt8)
    (hlen : syms.length ≤ maxTokensPerChunk) (hsyms : ∀ s ∈ syms, s.toNat ≤ lp - 2) :
    ∃ e, encodeSymbols LowRange.coder fuel row (lp - 2) (syms.map UInt8.toNat) rangeStart =
        .ok e ∧
      EncodeRun fuel row (lp - 2) (syms.map UInt8.toNat) rangeStart ∧
      ∀ base len, e.Denotes (channelStream base len) →
        decodeChannel LowRange.coder fuel row lp syms.length base len = .ok syms ∧
        DecodeRun fuel row lp syms.length (rangeDecoder base len) := by
  have hlen' : syms.length ≤ 16 := hlen
  have hbyte : ∀ s ∈ syms.map UInt8.toNat, s ≤ lp - 2 ∧ s < 256 := by
    intro s hs
    obtain ⟨b, hb, rfl⟩ := List.mem_map.mp hs
    exact ⟨hsyms b hb, b.toNat_lt⟩
  have hshort : rangeOrigin.shifts + 18 * (syms.map UInt8.toNat).length + 32 < 2 ^ 31 := by
    rw [List.length_map, show rangeOrigin.shifts = 0 from rfl]
    omega
  obtain ⟨e, c, hrun, henc, -, -, -, -, -, hdec⟩ :=
    codeSymbols_spec LowRange.lawful hlp hrow.rises hfuel _ hbyte _ _ rangeStart_encodes
      LowRange.lawful.first_settled hshort
  refine ⟨e, hrun, encodeRun hrow.rises hfuel _ (fun s hs => (hbyte s hs).1) rangeStart_encodes
    LowRange.lawful.first_settled hshort, fun base len hx => ?_⟩
  rw [EncState.Denotes, henc.coded] at hx
  have hfol := rangeDecoder_follows base len
  constructor
  · have hstart : rangeOrigin.NotBelow 30 (channelStream base len) := Nat.zero_le _
    have hout := (hdec hrow.zero base len _ hfol hstart hx.2).mpr hx.1
    rw [List.length_map, List.map_map, show UInt8.ofNat ∘ UInt8.toNat = id from
      funext fun _ => UInt8.ofNat_toNat, List.map_id] at hout
    exact hout
  · have hall := decodeRun hlp hrow hfuel _ hbyte rangeStart_encodes
      LowRange.lawful.first_settled hshort hrun henc hx.1 hx.2 hfol
    rwa [List.length_map] at hall

/-- Two equally likely symbols. -/
def evenRow (i : ℕ) : UInt16 := if i = 0 then 0 else 0x8000

/-- The symbols 0 and 1 from the byte `01100000`, which the encoder would not have written. -/
theorem range_decoder_interval_even :
    decodeChannel LowRange.coder 32 evenRow 3 2 [0x60] 1 = .ok [0, 1] ∧
      DecodeRun 32 evenRow 3 2 (rangeDecoder [0x60] 1) := by
  obtain ⟨e, hrun, -, hdec⟩ := range_decoder_interval 32 3 (by decide) (by decide) evenRow
    ⟨rfl, by decide⟩ [0, 1] (by decide) (by simp)
  have he : encodeSymbols LowRange.coder 32 evenRow 1 [0, 1] rangeStart =
      .ok ⟨⟨2 ^ 31 - 2, 2 ^ 31 - 2⟩, 0, ⟨0, 1, []⟩⟩ := by
    simp [encodeSymbols, encRenormLoop, LowRange.coder, LowRange.narrow, LowRange.renorm,
      rangeStart, evenRow, cdfHigh, cdfTop, quarter, full, u32, u64, EncState.emit,
      appendBitAndPending, bind, Except.bind]
    rfl
  have heq : e = ⟨⟨2 ^ 31 - 2, 2 ^ 31 - 2⟩, 0, ⟨0, 1, []⟩⟩ :=
    (Except.ok.inj (hrun.symm.trans he))
  refine hdec [0x60] 1 ?_
  rw [heq]
  constructor
  · unfold Coded.NotBelow
    decide
  · unfold Coded.NotAbove
    decide

end MzCache.Theorems
