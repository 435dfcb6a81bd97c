import MzCache.Lib.Lanes
import MzCache.Lib.UniformQuantizer

/-!
# The FlexGen quantizer

`flexgen_compress` and `flexgen_decompress` with their 8-bit variants, in exact arithmetic and
instruction by instruction. A chunk is cut into groups of 64 values; a group has a minimum, a
maximum and one code of four or eight bits for each value.
-/

namespace MzCache.FlexGen

open MzCache.Lib MzCache.Lib.Lanes

/-- `TOKENS_PER_CHUNK` -/
def tokensPerChunk : Nat := 256

/-- `GROUP_SZ` -/
def groupSz : Nat := 64

/-- `num_groups` -/
def numGroups (hiddenDim : Nat) : Nat := tokensPerChunk * hiddenDim / groupSz

/-! ## The thread pool -/

/-- The ranges of groups that are enqueued, one task each. -/
def workerRanges (numGroups numThreads : Nat) : List (Nat × Nat) :=
  let per := (numGroups + numThreads - 1) / numThreads
  (List.range numThreads).filterMap fun t =>
    let start := t * per
    let stop := min (start + per) numGroups
    if start < stop then some (start, stop) else none

/-- The groups of all tasks. The pool runs them in some order. -/
def workerGroups (numGroups numThreads : Nat) : List Nat :=
  (workerRanges numGroups numThreads).flatMap fun r => List.range' r.1 (r.2 - r.1)

/-! ## Compression -/

/-- What a compression writes: the codes, and the minimum and the maximum of each group. -/
structure Compressed (𝕜 : Type*) where
  output : Nat → UInt8
  mins : Nat → 𝕜
  maxs : Nat → 𝕜

/-- The eight vectors of a group reduced lane by lane, then across the lanes. -/
def groupReduce {𝕜 : Type*} (op : 𝕜 → 𝕜 → 𝕜) (src : Nat → 𝕜) : 𝕜 :=
  let v := (List.range' 1 7).foldl (fun v k i => op (v i) (load src (8 * k) i)) (load src 0)
  let p1 := pairwise 2 op v (high 4 v)
  let p2 := pairwise 2 op p1 p1
  pairwise 2 op p2 p2 0

/-- `vmovn`, twice: the low eight bits. -/
def narrow (x : Int) : UInt8 := UInt8.ofNat (x % 256).toNat

/-- Two codes in one byte. -/
def packNibbles (a b : UInt8) : UInt8 := (a &&& (0xF : UInt8)) ||| ((b &&& (0xF : UInt8)) <<< (4 : UInt8))

section

variable {𝕜 : Type*} [Field 𝕜] [LinearOrder 𝕜] [FloorRing 𝕜]

/-- `vcvtnq_s32_f32` -/
def toInt32 (x : 𝕜) : Int := max (-2 ^ 31) (min (2 ^ 31 - 1) (roundTiesEven x))

/-- `vcvtnq_u32_f32` -/
def toUint32 (x : 𝕜) : Int := max 0 (min (2 ^ 32 - 1) (roundTiesEven x))

/-- A lane of the 4-bit kernel from `x * scale + bias` on. -/
def quantize4 (bias scale x : 𝕜) : UInt8 := narrow (max 0 (min (toInt32 (bias + x * scale)) 15))

/-- A lane of the 8-bit kernel. -/
def quantize8 (bias scale x : 𝕜) : UInt8 := narrow (max 0 (min (toUint32 (bias + x * scale)) 255))

/-- Eight lanes, in two halves of 32-bit lanes. -/
def quantizeVector (quantize : 𝕜 → UInt8) (v : Nat → 𝕜) : Nat → UInt8 :=
  combine 4 (fun i => quantize (v i)) (fun i => quantize (high 4 v i))

/-- Pairs of lanes packed, at `dst[block * 4]`. -/
def storeBlock4 (dst block : Nat) (buf : Nat → UInt8) (out : Nat → UInt8) : Nat → UInt8 :=
  (List.range 4).foldl (fun out i =>
    Function.update out (dst + block * 4 + i) (packNibbles (buf (2 * i)) (buf (2 * i + 1)))) out

/-- `vst1_u8(dst + block * 8, packed)` -/
def storeBlock8 (dst block : Nat) (buf : Nat → UInt8) (out : Nat → UInt8) : Nat → UInt8 :=
  store out (dst + block * 8) 8 buf

/-- The body of the workers' loops. -/
def compressGroup (levels bytes : Nat) (quantize : 𝕜 → 𝕜 → 𝕜 → UInt8)
    (storeBlock : Nat → Nat → (Nat → UInt8) → (Nat → UInt8) → Nat → UInt8)
    (input : Nat → 𝕜) (c : Compressed 𝕜) (g : Nat) : Compressed 𝕜 :=
  let src := load input (g * groupSz)
  let dst := g * bytes
  let grpMin := groupReduce min src
  let grpMax := groupReduce max src
  let range := grpMax - grpMin
  let scale := if 0 < range then levels / range else 0
  let bias := -grpMin * scale
  { output := (List.range 8).foldl (fun out block =>
      storeBlock dst block (quantizeVector (quantize bias scale) (load src (block * 8))) out) c.output
    mins := Function.update c.mins g grpMin
    maxs := Function.update c.maxs g grpMax }

/-- `flexgen_compress`, its groups taken in the order `groups`. -/
def flexgenCompress (input : Nat → 𝕜) (groups : List Nat) (c : Compressed 𝕜) : Compressed 𝕜 :=
  groups.foldl (compressGroup 15 (groupSz / 2) quantize4 storeBlock4 input) c

/-- `flexgen_compress_8bit` -/
def flexgenCompress8bit (input : Nat → 𝕜) (groups : List Nat) (c : Compressed 𝕜) : Compressed 𝕜 :=
  groups.foldl (compressGroup 255 groupSz quantize8 storeBlock8 input) c

end

/-! ## Decompression -/

section

variable {𝕜 : Type*} [Field 𝕜]

/-- `vfmaq` of a register of codes. -/
def fma (vMin vStep : 𝕜) (codes : Nat → UInt8) : Nat → 𝕜 := fun i => vMin + (codes i).toNat * vStep

/-- One block of 16 bytes of the 4-bit kernel. -/
def unpackBlock4 (input : Nat → UInt8) (vMin vStep : 𝕜) (grpIn grpOut : Nat) (out : Nat → 𝕜)
    (blk : Nat) : Nat → 𝕜 :=
  let cin := load input (grpIn + blk * 16)
  let lowNibble := fun i => cin i &&& (0x0F : UInt8)
  let highNibble := fun i => cin i >>> (4 : UInt8)
  let zip0 := zipLow lowNibble highNibble
  let zip1 := zipHigh 8 lowNibble highNibble
  let out := store out (grpOut + blk * 32 + 0) 8 (fma vMin vStep zip0)
  let out := store out (grpOut + blk * 32 + 8) 8 (fma vMin vStep (high 8 zip0))
  let out := store out (grpOut + blk * 32 + 16) 8 (fma vMin vStep zip1)
  store out (grpOut + blk * 32 + 24) 8 (fma vMin vStep (high 8 zip1))

/-- One block of 16 bytes of the 8-bit kernel. -/
def unpackBlock8 (input : Nat → UInt8) (vMin vStep : 𝕜) (grpIn grpOut : Nat) (out : Nat → 𝕜)
    (blk : Nat) : Nat → 𝕜 :=
  let qbytes := load input (grpIn + blk * 16)
  let qLo := qbytes
  let qHi := high 8 qbytes
  let o0 := fma vMin vStep qLo
  let o1 := fma vMin vStep (high 4 qLo)
  let o2 := fma vMin vStep qHi
  let o3 := fma vMin vStep (high 4 qHi)
  let out := store out (grpOut + blk * 16 + 0) 8 (combine 4 o0 o1)
  store out (grpOut + blk * 16 + 8) 8 (combine 4 o2 o3)

/-- The loop body that `flexgen_decompress` and `flexgen_decompress_single_thread` share. -/
def decompressGroup (c : Compressed 𝕜) (out : Nat → 𝕜) (g : Nat) : Nat → 𝕜 :=
  let step := (c.maxs g - c.mins g) * (1 / 15)
  (List.range 2).foldl
    (unpackBlock4 c.output (c.mins g) step (g * (groupSz / 2)) (g * groupSz)) out

/-- The loop body of `flexgen_decompress_8bit`. -/
def decompressGroup8bit (c : Compressed 𝕜) (out : Nat → 𝕜) (g : Nat) : Nat → 𝕜 :=
  let step := (c.maxs g - c.mins g) / 255
  (List.range 4).foldl (unpackBlock8 c.output (c.mins g) step (g * groupSz) (g * groupSz)) out

/-- `flexgen_decompress`, its groups taken in the order `groups`. -/
def flexgenDecompress (c : Compressed 𝕜) (groups : List Nat) (out : Nat → 𝕜) : Nat → 𝕜 :=
  groups.foldl (decompressGroup c) out

/-- `flexgen_decompress_single_thread` -/
def flexgenDecompressSingleThread (c : Compressed 𝕜) (hiddenDim : Nat) (out : Nat → 𝕜) : Nat → 𝕜 :=
  (List.range (numGroups hiddenDim)).foldl (decompressGroup c) out

/-- `flexgen_decompress_8bit` -/
def flexgenDecompress8bit (c : Compressed 𝕜) (hiddenDim : Nat) (out : Nat → 𝕜) : Nat → 𝕜 :=
  (List.range (numGroups hiddenDim)).foldl (decompressGroup8bit c) out

end

end MzCache.FlexGen
