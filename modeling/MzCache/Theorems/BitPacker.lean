import MzCache.CacheGen.BitPacker

/-!
# Bit packer and reader

The bytes of a channel are the packing of the bits its calls stand for, exactly when no run of
pending bits is longer than the `int` that `add_bits_run` passes its tail in.
-/

namespace MzCache.Theorems

open MzCache.Lib MzCache.CacheGen

/-- The packer writes the bits of the calls behind `out`, as it would one at a time and without
a shift by 32 on a live value, and a decoder reads them back, then zeros. -/
structure PacksBits (calls : List (Bool × ℕ)) (out : List UInt8) : Prop where
  bytes : packCalls calls out = out ++ packBits (callBits calls)
  oneAtATime : packCalls calls out =
    (spillPartialRegToVec (feedBits (callBits calls) ⟨0, 0, out⟩)).out
  shifts : packCallsChecked calls out = some (packCalls calls out)
  reads : ∀ rest n, readChannel ((packCalls calls out ++ rest).drop out.length)
    ((packCalls calls out).length - out.length) n =
      (List.range (32 + n)).map (padded (callBits calls))

theorem channelStream_packBits (l : List Bool) (rest : List UInt8) :
    channelStream (packBits l ++ rest) (packBits l).length = padded l := by
  rw [channelStream, List.take_left, byteBits_packBits, padded_append_zeros]

/-- Packer and reader are inverse if and only if every run of pending bits fits. -/
theorem bit_packer_iff (calls : List (Bool × ℕ)) (out : List UInt8) :
    PacksBits calls out ↔ CallsFit calls ⟨0, 0, out⟩ := by
  constructor
  · intro h
    by_contra hfit
    have hshort := packCalls_short hfit
    rw [h.bytes] at hshort
    exact lt_irrefl _ hshort
  · intro hfit
    have hbytes := packCalls_eq hfit
    refine ⟨hbytes, ?_, packCallsChecked_eq calls out, fun rest n => ?_⟩
    · rw [hbytes, spillPartial_pack (feedBits_appends _ _ (BitOut.ok_empty out))]
    · rw [hbytes, List.append_assoc, List.drop_left, List.length_append, Nat.add_sub_cancel_left,
        readChannel_eq, channelStream_packBits]

/-- A bit and `2 ^ 31 + 7` pending ones: seven bits fill the byte, and the rest is passed on as
the `int` `-2 ^ 31`. One byte is written. -/
theorem bit_packer_drops_run :
    packCalls [(true, 2 ^ 31 + 7)] [] = [128] ∧
      (packBits (callBits [(true, 2 ^ 31 + 7)])).length = 2 ^ 28 + 1 ∧
      ¬ PacksBits [(true, 2 ^ 31 + 7)] [] := by
  have hone : packCalls [(true, 2 ^ 31 + 7)] [] = [128] := by
    decide
  have hlen : (packBits (callBits [(true, 2 ^ 31 + 7)])).length = 2 ^ 28 + 1 := by
    rw [length_packBits, callBits_cons, List.length_append, List.length_cons,
      List.length_replicate]
    rfl
  refine ⟨hone, hlen, fun h => ?_⟩
  have hbytes := congrArg List.length h.bytes
  rw [hone, List.nil_append, hlen] at hbytes
  norm_num at hbytes

end MzCache.Theorems
