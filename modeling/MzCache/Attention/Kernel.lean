import MzCache.Lib.OnlineSoftmax
import MzCache.Lib.Writes

/-!
# The chunked flash-attention kernel

`kernel_mzcache_flash_attn_f16_kvchunk` in exact arithmetic. A work-group takes `ncols`
queries of one head, each of its warps every `nwarps`-th of them, and goes over the keys chunk
by chunk and tile by tile. A warp's lanes run in lockstep; what a lane keeps in registers is
a function of the lane here. Memory is indexed in elements: floats of `Q` and `dst`, halves
of the mask and of each chunk of `K` and `V`.
-/

namespace MzCache.Attention

open MzCache.Lib

/-- `TOKENS_PER_CHUNK` -/
def tokensPerChunk : Nat := 256

/-- The build options of the kernel. -/
structure Config where
  warp : Nat
  nwarps : Nat
  ncols : Nat
  kqTile : Nat
  /-- components of a `VKQ` register: 1 for `half`, 2 for `half2` -/
  width : Nat
  /-- keys in one step of the loop over `V` -/
  keysPerStep : Nat

/-- `D`: each lane has one `VKQ` register for each column. -/
def Config.headDim (c : Config) : Nat := c.width * c.warp

/-- `get_kernel_config` with the head dimensions the kernel is built for. -/
def kernelConfig (a8x wide : Bool) : Config where
  warp := 64
  nwarps := if a8x then 4 else 2
  ncols := 8
  kqTile := if a8x then 128 else 64
  width := if wide then 2 else 1
  keysPerStep := if wide then 2 else 4

/-- What the loops of the kernel need of the options. -/
structure Config.Valid (c : Config) : Prop where
  warp : 0 < c.warp
  nwarps : 0 < c.nwarps
  ncols : 0 < c.ncols
  kqTile : 0 < c.kqTile
  columns : c.nwarps ∣ c.ncols
  lanes : c.warp ∣ c.kqTile
  steps : c.keysPerStep ∣ c.kqTile
  tiles : c.kqTile ∣ tokensPerChunk
  width : c.width ∣ 2
  vectors : 8 ∣ c.headDim

/-- The arguments of a launch. `ne11` is the number of keys, and a mask entry `⊥` is `-inf`. -/
structure Args (𝕜 : Type*) where
  Q : Nat → 𝕜
  K : Nat → Nat → 𝕜
  V : Nat → Nat → 𝕜
  mask : Nat → WithBot 𝕜
  scale : 𝕜
  maxBias : 𝕜
  m0 : 𝕜
  m1 : 𝕜
  nHeadLog2 : Nat
  ne01 : Nat
  ne02 : Nat
  ne11 : Nat
  ne12 : Nat
  nb01 : Nat
  nb02 : Nat
  nb11 : Nat
  nb12 : Nat
  nb21 : Nat
  nb22 : Nat

section

variable {𝕜 : Type*} [Field 𝕜] [LinearOrder 𝕜]

/-- `get_alibi_slope` -/
def getAlibiSlope (maxBias : 𝕜) (h nHeadLog2 : Nat) (m0 m1 : 𝕜) : 𝕜 :=
  if maxBias ≤ 0 then 1
  else if h < nHeadLog2 then m0 ^ (h + 1)
  else m1 ^ (2 * (h - nHeadLog2) + 1)

def Args.slopef (a : Args 𝕜) (head : Nat) : 𝕜 :=
  getAlibiSlope a.maxBias head a.nHeadLog2 a.m0 a.m1

def Args.gqaRatio (a : Args 𝕜) : Nat := a.ne02 / a.ne12

/-- `hmax2`, with `-inf` as the second argument possible. -/
def hmax2 (a : 𝕜) : WithBot 𝕜 → 𝕜
  | ⊥ => a
  | (b : 𝕜) => max a b

/-! ## Logits -/

/-- Component `x` of `Kh8[row * sKV8 + k8]`. -/
def Args.kHalf8 (a : Args 𝕜) (chunk head row k8 x : Nat) : 𝕜 :=
  a.K chunk (a.nb12 * (head / a.gqaRatio) / 2 + 8 * (row * (a.nb11 / 4 / 4) + k8) + x)

/-- Component `x` of `Q_k` for query `j`: the row is clamped for the load and the value zeroed
when the query is out of range. -/
def Args.qHalf8 (a : Args 𝕜) (head j k8 x : Nat) : 𝕜 :=
  a.Q (a.nb02 * head / 4 + 2 * (min j (a.ne01 - 1) * (a.nb01 / 8) + 4 * k8) + x) *
    (if j < a.ne01 then 1 else 0) * a.scale

/-- `sum8`: the loop over `k8`. -/
def Args.sum8 (c : Config) (a : Args 𝕜) (chunk head row j : Nat) (x : Nat) : 𝕜 :=
  (List.range (c.headDim / 8)).foldl
    (fun sum k8 => sum + a.kHalf8 chunk head row k8 x * a.qHalf8 head j k8 x) 0

/-- `reduce8` -/
def reduce8 (v : Nat → 𝕜) : 𝕜 := v 0 + v 1 + v 2 + v 3 + v 4 + v 5 + v 6 + v 7

/-- What is stored in `KQ` for query `j` and row `row` of a chunk: the product, the mask added. -/
def Args.tileLogit (c : Config) (a : Args 𝕜) (head j chunk row : Nat) : WithBot 𝕜 :=
  (a.mask (j * a.ne11 + (chunk * tokensPerChunk + row))).map fun m =>
    reduce8 (a.sum8 c chunk head row j) + a.slopef head * m

/-- Component `x` of the `V` element that `lane` loads from `row` of a chunk. The kernel strides
`V` with the strides of `K`. -/
def Args.vHalf (c : Config) (a : Args 𝕜) (chunk head row lane x : Nat) : 𝕜 :=
  a.V chunk (a.nb12 * (head / a.gqaRatio) / 2 +
    (c.width * (row * (a.nb11 / (2 * c.width)) + lane) + x))

/-! ## One column -/

/-- The registers of a warp for one query column. -/
structure Column (𝕜 : Type*) where
  kqmax : Nat → 𝕜
  kqsum : Nat → 𝕜
  VKQ : Nat → Nat → 𝕜

/-- `-HALF_MAX_HALF` and zeros. -/
def Column.init : Column 𝕜 where
  kqmax := fun _ => -32752
  kqsum := fun _ => 0
  VKQ := fun _ _ => 0

/-- The loop over `V` of step 2-F, for one component of one lane. -/
def accumulateV (c : Config) (val value : Nat → 𝕜) (acc : 𝕜) : 𝕜 :=
  (List.range (c.kqTile / c.keysPerStep)).foldl
    (fun acc s =>
      (List.range c.keysPerStep).foldl
        (fun acc q => acc + value (s * c.keysPerStep + q) * val (s * c.keysPerStep + q)) acc)
    acc

/-- One tile of keys: the lanes' maxima reduced over the warp, the old sums scaled to the new
maximum, the weights added to the lane that computed them, and the values accumulated. -/
def Column.tile (c : Config) (e : Exponential 𝕜) (logit : Nat → WithBot 𝕜)
    (value : Nat → Nat → Nat → 𝕜) (s : Column 𝕜) : Column 𝕜 :=
  let laneMax := fun lane =>
    (List.range (c.kqTile / c.warp)).foldl
      (fun m t => hmax2 m (logit (t * c.warp + lane))) (s.kqmax lane)
  let newMax := (List.range c.warp).foldl (fun m lane => max m (laneMax lane)) (laneMax 0)
  let val := fun i => e.weight newMax (logit i)
  { kqmax := fun _ => newMax
    kqsum := fun lane =>
      s.kqsum lane * e (s.kqmax lane - newMax) +
        (List.range (c.kqTile / c.warp)).foldl
          (fun sum t => sum + val (t * c.warp + lane)) 0
    VKQ := fun lane x =>
      accumulateV c val (fun i => value i lane x)
        (s.VKQ lane x * e (s.kqmax lane - newMax)) }

/-- The loop over the tiles of a chunk. -/
def Column.chunk (c : Config) (e : Exponential 𝕜) (a : Args 𝕜) (head j : Nat) (s : Column 𝕜)
    (chunk : Nat) : Column 𝕜 :=
  (List.range (tokensPerChunk / c.kqTile)).foldl
    (fun s t =>
      s.tile c e (fun i => a.tileLogit c head j chunk (t * c.kqTile + i))
        (fun i lane x => a.vHalf c chunk head (t * c.kqTile + i) lane x))
    s

/-- The loop over the chunks. -/
def Column.run (c : Config) (e : Exponential 𝕜) (a : Args 𝕜) (head j : Nat) : Column 𝕜 :=
  (List.range (a.ne11 / tokensPerChunk)).foldl (Column.chunk c e a head j) Column.init

/-! ## Results -/

/-- Where feature `i` of query `j` and `head` goes. -/
def Args.dstIndex (c : Config) (a : Args 𝕜) (j head i : Nat) : Nat :=
  j * c.headDim * a.ne02 + c.headDim * head + i

/-- What the lanes of a warp write for query `j`. -/
def columnWrites (c : Config) (e : Exponential 𝕜) (a : Args 𝕜) (head j : Nat) :
    List (Nat × 𝕜) :=
  let s := Column.run c e a head j
  let kqsum := (List.range c.warp).foldl (fun sum lane => sum + s.kqsum lane) 0
  (List.range c.warp).flatMap fun lane =>
    (List.range c.width).map fun x =>
      (a.dstIndex c j head (c.width * lane + x), s.VKQ lane x / kqsum)

/-- What one warp of work-group `(group, head)` writes. It returns at its first query that is out
of range. -/
def warpWrites (c : Config) (e : Exponential 𝕜) (a : Args 𝕜) (group head warp : Nat) :
    List (Nat × 𝕜) :=
  ((List.range (c.ncols / c.nwarps)).takeWhile fun t =>
      group * c.ncols + (t * c.nwarps + warp) < a.ne01).flatMap fun t =>
    columnWrites c e a head (group * c.ncols + (t * c.nwarps + warp))

/-- The work of a launch: one item for each work-group and warp. -/
def Args.launchItems (c : Config) (a : Args 𝕜) : List (Nat × Nat × Nat) :=
  (List.range ((a.ne01 + c.ncols - 1) / c.ncols)).flatMap fun group =>
    (List.range a.ne02).flatMap fun head =>
      (List.range c.nwarps).map fun warp => (group, head, warp)

/-- A launch whose warps finish in the given order. -/
def launch (c : Config) (e : Exponential 𝕜) (a : Args 𝕜) (order : List (Nat × Nat × Nat))
    (dst : Nat → 𝕜) : Nat → 𝕜 :=
  writeAll (order.flatMap fun item => warpWrites c e a item.1 item.2.1 item.2.2) dst

/-! ## Attention -/

/-- Key `k` of a head: row `k % 256` of chunk `k / 256`. -/
def Args.kRow (a : Args 𝕜) (head k d : Nat) : 𝕜 :=
  a.K (k / tokensPerChunk)
    (a.nb12 * (head / a.gqaRatio) / 2 + (k % tokensPerChunk * (a.nb11 / 2) + d))

def Args.vRow (a : Args 𝕜) (head k d : Nat) : 𝕜 :=
  a.V (k / tokensPerChunk)
    (a.nb22 * (head / a.gqaRatio) / 2 + (k % tokensPerChunk * (a.nb21 / 2) + d))

def Args.qRow (a : Args 𝕜) (head j d : Nat) : 𝕜 :=
  a.Q (a.nb02 * head / 4 + (j * (a.nb01 / 4) + d))

/-- The logit of key `k` for query `j`. -/
def Args.logit (c : Config) (a : Args 𝕜) (head j k : Nat) : WithBot 𝕜 :=
  (a.mask (j * a.ne11 + k)).map fun m =>
    (∑ d ∈ Finset.range c.headDim, a.qRow head j d * a.scale * a.kRow head k d) +
      a.slopef head * m

/-- Feature `d` of the attention of query `j`: the softmax average of all keys' values. -/
def Args.attention (c : Config) (e : Exponential 𝕜) (a : Args 𝕜) (head j d : Nat) : 𝕜 :=
  e.softmaxAverage (a.logit c head j) (fun k => a.vRow head k d) a.ne11

/-- What the launch relies on: whole chunks of keys, `V` laid out like `K`, rows of whole vectors,
and a slope that leaves `-inf` what it is. -/
structure Args.Valid (a : Args 𝕜) : Prop where
  keys : tokensPerChunk ∣ a.ne11
  kRows : 16 ∣ a.nb11
  qRows : 8 ∣ a.nb01
  rows : a.nb21 = a.nb11
  heads : a.nb22 = a.nb12
  slope : ∀ head < a.ne02, 0 < a.slopef head

end

end MzCache.Attention
