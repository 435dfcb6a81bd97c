import MzCache.FlexGen.Groups

/-!
# Blocks of codes

A compression stores a group as one run of bytes, and a decompression stores it as one run of
values; which value a nibble belongs to is the same on both sides.
-/

namespace MzCache.FlexGen

open MzCache.Lib MzCache.Lib.Lanes

/-! ## Nibbles -/

/-- The nibble of value `e`, the even one in the low half of its byte. -/
def nibbleAt (input : Nat → UInt8) (e : Nat) : UInt8 :=
  if e % 2 = 0 then input (e / 2) &&& (0x0F : UInt8) else input (e / 2) >>> (4 : UInt8)

theorem packNibbles_toNat {a b : UInt8} (ha : a.toNat < 16) (hb : b.toNat < 16) :
    (packNibbles a b).toNat = 16 * b.toNat + a.toNat := by
  have hmask : ∀ x : UInt8, x.toNat < 16 → x.toNat &&& 15 = x.toNat := by
    intro x hx
    rw [show (15 : Nat) = 2 ^ 4 - 1 from rfl, Nat.and_two_pow_sub_one_eq_mod]
    exact Nat.mod_eq_of_lt hx
  have hshift : (b.toNat <<< 4) % 256 = b.toNat <<< 4 := by
    rw [Nat.shiftLeft_eq]
    exact Nat.mod_eq_of_lt (by omega)
  unfold packNibbles
  simp only [UInt8.toNat_or, UInt8.toNat_and, UInt8.toNat_shiftLeft, UInt8.reduceToNat,
    hmask a ha, hmask b hb, Nat.reducePow, Nat.reduceMod]
  rw [hshift, Nat.or_comm, ← Nat.shiftLeft_add_eq_or_of_lt (by exact ha) b.toNat, Nat.shiftLeft_eq]
  omega

theorem packNibbles_low {a b : UInt8} (ha : a.toNat < 16) (hb : b.toNat < 16) :
    packNibbles a b &&& (0x0F : UInt8) = a := by
  apply UInt8.toNat_inj.mp
  rw [UInt8.toNat_and, packNibbles_toNat ha hb]
  show (16 * b.toNat + a.toNat) &&& (2 ^ 4 - 1) = a.toNat
  rw [Nat.and_two_pow_sub_one_eq_mod]
  omega

theorem packNibbles_high {a b : UInt8} (ha : a.toNat < 16) (hb : b.toNat < 16) :
    packNibbles a b >>> (4 : UInt8) = b := by
  apply UInt8.toNat_inj.mp
  rw [UInt8.toNat_shiftRight, packNibbles_toNat ha hb]
  show (16 * b.toNat + a.toNat) >>> 4 = b.toNat
  rw [Nat.shiftRight_eq_div_pow]
  omega

/-! ## One group compressed -/

section

variable {𝕜 : Type*} [Field 𝕜] [LinearOrder 𝕜] [FloorRing 𝕜]

/-- What the lanes of group `g` do to a value. -/
def groupQuantizer (levels : Nat) (quantize : 𝕜 → 𝕜 → 𝕜 → UInt8) (input : Nat → 𝕜) (g : Nat) :
    𝕜 → UInt8 :=
  let lo := groupReduce min (load input (g * groupSz))
  let hi := groupReduce max (load input (g * groupSz))
  quantize (-lo * quantScale levels lo hi) (quantScale levels lo hi)

omit [Field 𝕜] [LinearOrder 𝕜] [FloorRing 𝕜] in
theorem quantizeVector_eq (quantize : 𝕜 → UInt8) (v : Nat → 𝕜) :
    quantizeVector quantize v = fun i => quantize (v i) :=
  combine_high 4 fun i => quantize (v i)

theorem storeBlock4_eq (dst block : Nat) (buf out : Nat → UInt8) :
    storeBlock4 dst block buf out =
      store out (dst + block * 4) 4 (fun i => packNibbles (buf (2 * i)) (buf (2 * i + 1))) :=
  foldl_update_range 4 (dst + block * 4) _ out

/-- The 32 bytes of a group of 4-bit codes. -/
theorem compressGroup4_output (input : Nat → 𝕜) (c : Compressed 𝕜) (g : Nat) :
    (compressGroup 15 (groupSz / 2) quantize4 storeBlock4 input c g).output =
      store c.output (g * 32) 32 (fun i =>
        packNibbles (groupQuantizer 15 quantize4 input g (input (g * groupSz + 2 * i)))
          (groupQuantizer 15 quantize4 input g (input (g * groupSz + (2 * i + 1))))) := by
  unfold compressGroup
  simp only [quantizeVector_eq, storeBlock4_eq]
  rw [foldl_store 4 8 (g * (groupSz / 2)) (fun block i => packNibbles _ _)]
  apply store_congr
  intro i hi
  unfold load groupQuantizer quantScale load
  rw [show i / 4 * 8 + 2 * (i % 4) = 2 * i by omega,
    show i / 4 * 8 + (2 * (i % 4) + 1) = 2 * i + 1 by omega]

/-- The 64 bytes of a group of 8-bit codes. -/
theorem compressGroup8_output (input : Nat → 𝕜) (c : Compressed 𝕜) (g : Nat) :
    (compressGroup 255 groupSz quantize8 storeBlock8 input c g).output =
      store c.output (g * 64) 64 (fun i =>
        groupQuantizer 255 quantize8 input g (input (g * groupSz + i))) := by
  unfold compressGroup storeBlock8
  simp only [quantizeVector_eq]
  rw [foldl_store 8 8 (g * groupSz) (fun block i => quantize8 _ _ _)]
  apply store_congr
  intro i hi
  unfold load groupQuantizer quantScale load
  rw [Nat.div_add_mod']

end

/-! ## One group decompressed -/

section

variable {𝕜 : Type*} [Field 𝕜]

theorem fma_high (vMin vStep : 𝕜) (codes : Nat → UInt8) (n : Nat) :
    fma vMin vStep (high n codes) = high n (fma vMin vStep codes) := rfl

theorem fma_combine (vMin vStep : 𝕜) (v w : Nat → UInt8) (n : Nat) :
    combine n (fma vMin vStep v) (fma vMin vStep w) = fma vMin vStep (combine n v w) := by
  funext i
  unfold combine
  show _ = vMin + (if i < n then v i else w (i - n)).toNat * vStep
  split <;> rfl

/-- The four stores of a block are one store of its 32 nibbles. -/
theorem unpackBlock4_eq (input : Nat → UInt8) (vMin vStep : 𝕜) (g : Nat) (out : Nat → 𝕜)
    (blk : Nat) :
    unpackBlock4 input vMin vStep (g * 32) (g * 64) out blk =
      store out (g * 64 + blk * 32) 32
        (fma vMin vStep (fun i => nibbleAt input (g * 64 + (blk * 32 + i)))) := by
  unfold unpackBlock4
  simp only [fma_high, Nat.add_zero]
  rw [show g * 64 + blk * 32 + 24 = g * 64 + blk * 32 + 16 + 8 by omega, store_split, store_split,
    store_halves, fma_combine]
  congr 2
  funext i
  rw [combine_zip 8]
  unfold zipLow nibbleAt load
  rw [show (g * 64 + (blk * 32 + i)) % 2 = i % 2 by omega,
    show (g * 64 + (blk * 32 + i)) / 2 = g * 32 + blk * 16 + i / 2 by omega]

theorem decompressGroup_eq (c : Compressed 𝕜) (out : Nat → 𝕜) (g : Nat) :
    decompressGroup c out g = store out (g * 64) 64 (fma (c.mins g)
      ((c.maxs g - c.mins g) * (1 / 15)) (fun i => nibbleAt c.output (g * 64 + i))) := by
  unfold decompressGroup
  show (List.range 2).foldl (unpackBlock4 _ _ _ (g * 32) (g * 64)) out = _
  have hstep : unpackBlock4 c.output (c.mins g) ((c.maxs g - c.mins g) * (1 / 15)) (g * 32)
      (g * 64) = fun out blk => store out (g * 64 + blk * 32) 32 (fma (c.mins g)
        ((c.maxs g - c.mins g) * (1 / 15))
        (fun i => nibbleAt c.output (g * 64 + (blk * 32 + i)))) := by
    funext out blk
    exact unpackBlock4_eq _ _ _ g out blk
  rw [hstep, foldl_store 32 2]
  congr 1
  funext i
  simp only [fma, Nat.div_add_mod']

/-- The two stores of a block are one store of its 16 bytes. -/
theorem unpackBlock8_eq (input : Nat → UInt8) (vMin vStep : 𝕜) (off : Nat) (out : Nat → 𝕜)
    (blk : Nat) :
    unpackBlock8 input vMin vStep off off out blk =
      store out (off + blk * 16) 16 (fma vMin vStep (fun i => input (off + (blk * 16 + i)))) := by
  unfold unpackBlock8
  simp only [fma_high, combine_high, Nat.add_zero]
  rw [store_split]
  congr 2
  funext i
  unfold load
  rw [Nat.add_assoc]

theorem decompressGroup8bit_eq (c : Compressed 𝕜) (out : Nat → 𝕜) (g : Nat) :
    decompressGroup8bit c out g = store out (g * 64) 64 (fma (c.mins g)
      ((c.maxs g - c.mins g) / 255) (fun i => c.output (g * 64 + i))) := by
  unfold decompressGroup8bit
  show (List.range 4).foldl (unpackBlock8 _ _ _ (g * 64) (g * 64)) out = _
  have hstep : unpackBlock8 c.output (c.mins g) ((c.maxs g - c.mins g) / 255) (g * 64)
      (g * 64) = fun out blk => store out (g * 64 + blk * 16) 16 (fma (c.mins g)
        ((c.maxs g - c.mins g) / 255) (fun i => c.output (g * 64 + (blk * 16 + i)))) := by
    funext out blk
    exact unpackBlock8_eq _ _ _ (g * 64) out blk
  rw [hstep, foldl_store 16 4]
  congr 1
  funext i
  simp only [fma, Nat.div_add_mod']

end

end MzCache.FlexGen
