import MzCache.Lib.RegionWalk
import MzCache.Lib.Rounding
import MzCache.Lib.Table

/-!
# KV-cache state

The data model of `mzcache_kv_state`: chunk states, the two descending swapout
cursors, the counters they are shadowed by, the compression arenas, the KV store
files and the arena swap files. A chunk is addressed by `(layer, chunk)`, and its
K and V halves always share one state.

Memory, arenas and files are byte media. Every fallible system call consumes
one outcome of an environment `Io`, in program order, and the state counts the
calls made so far in `tick`, so that one function stands for every sequence of
outcomes. The environment also sees which call asks, so that a condition can speak of
the calls of one kind.
-/

namespace MzCache

open MzCache.Lib

/-- `TOKENS_PER_CHUNK`. -/
def tokensPerChunk : Nat := 256

/-- `MAX_CHUNKS_PER_TENSOR`. -/
def maxChunksPerTensor : Nat := 256

/-- `sizeof(__fp16)`. -/
def sizeofFp16 : Nat := 2

inductive KVstate where
  | raw
  | compressed
  | stored
deriving DecidableEq, Repr

/-- The compression backend chosen at compile time. -/
inductive Backend where
  | flexgen
  | flexgen8bit
  | cachegen
deriving DecidableEq, Repr

/-- The compression kernels of the build. `encode` gives the bytes written for a
half of a chunk, `side` what is kept next to it (mins and maxs, or the stream
lengths), `encodeSize` the size a variable-rate encoder returns. `decode` sees
only the encoded bytes and the side data. -/
structure Kernel where
  encode : Nat → Bool → Bytes → Bytes
  encodeSize : Nat → Bool → Bytes → Nat
  side : Nat → Bool → Bytes → Bytes
  decode : Nat → Nat → Bool → Bytes → Bytes → Bytes

/-- What stays fixed after construction. `f32` and `f64` round `float` and
`double` expressions; `uninit` is what freshly allocated memory holds. -/
structure Config where
  numLayers : Nat
  kvHiddenDim : Nat
  backend : Backend
  perLayerBalance : Nat
  decompLoadRatio : ℚ
  weightLayerBytes : Nat
  f32 : Rounding
  f64 : Rounding
  kernel : Kernel
  uninit : Bytes
  numLayers_pos : 0 < numLayers
  ratio_nonneg : 0 ≤ decompLoadRatio
  ratio_le_one : decompLoadRatio ≤ 1
  ratio_float : f32.fl decompLoadRatio = decompLoadRatio
  limit_ge : maxChunksPerTensor ≤ f32.limit
  one_double : 1 ≤ f64.limit

/-! Proof fields of the example configurations: a ratio of one, arithmetic exact to 256. -/

theorem ratio_one_nonneg : (0 : ℚ) ≤ 1 := zero_le_one
theorem ratio_one_le : (1 : ℚ) ≤ 1 := le_rfl
theorem exact_fl_one : (Rounding.exact 256).fl 1 = 1 := rfl
theorem exact_limit_ge : maxChunksPerTensor ≤ (Rounding.exact 256).limit := by decide
theorem exact_one_le : 1 ≤ (Rounding.exact 256).limit := by decide

/-- Bytes of one half (K or V) of a chunk. -/
def Config.rawChunkBytes (cfg : Config) : Nat :=
  tokensPerChunk * cfg.kvHiddenDim * sizeofFp16

/-- Bytes of a whole chunk, K and V. -/
def Config.chunkBytes (cfg : Config) : Nat :=
  tokensPerChunk * cfg.kvHiddenDim * sizeofFp16 * 2

/-- Outcome of one system call: an error, a short count, or the full count. -/
inductive IoResult where
  | error
  | short (n : Nat)
  | full
deriving DecidableEq, Repr

/-- The fallible calls: open and `pwrite` of a KV store file, its open and `pread`, open and
write of an arena swap file, its open and read, and the look at a weight dump. -/
inductive IoCall where
  | storeOpen
  | storeWrite
  | chunkOpen
  | chunkRead
  | swapOpen
  | swapWrite
  | reloadOpen
  | reloadRead
  | weightDump
deriving DecidableEq, Repr

/-- The outcome of the `n`-th fallible call. -/
abbrev Io := IoCall → Nat → IoResult

/-- The environment in which every call succeeds in full. -/
def Io.ok : Io := fun _ _ => .full

/-- `open` and `access` fail only on an error. -/
def IoResult.opened : IoResult → Bool
  | .error => false
  | _ => true

/-- How many of `count` bytes a transfer moved. -/
def IoResult.moved (r : IoResult) (count : Nat) : Nat :=
  match r with
  | .error => 0
  | .short n => min n (count - 1)
  | .full => count

/-- `full_pwrite` and `full_pread` return the full count. -/
def IoResult.complete : IoResult → Bool
  | .full => true
  | _ => false

/-- Conversion of a `size_t` to `int`. -/
def toInt32 (n : Nat) : Int := Int.bmod n (2 ^ 32)

/-- `compressed_chunk`. The offset is an `int`, although the pools are addressed by
`size_t`. -/
structure CompressedChunk where
  stackId : Nat
  offset : Int
  compSize : Nat
  side : Bytes

instance : Inhabited CompressedChunk := ⟨⟨0, 0, 0, fun _ => 0⟩⟩

structure StoredChunk where
  fileOffset : Nat
  storedSize : Nat
deriving Inhabited

/-- The SVM memory of one chunk. `contiguous` says that V follows K in one
allocation. -/
structure ChunkMem where
  k : Bytes
  v : Bytes
  contiguous : Bool

structure Arena where
  pool : Bytes
  top : Nat
  cap : Nat

/-- `Arena::Arena`: the pool's contents are unspecified. -/
def Arena.new (cfg : Config) (size : Nat) : Arena := ⟨cfg.uninit, 0, size⟩

/-- How a layer's KV file is open. -/
inductive FdMode where
  | read
  | write
deriving DecidableEq, Repr

/-- `mzcache_kv_state`, with the SVM chunk tables and the files it owns. The
cursors carry `cur_layer_idx_to_*` as `row` and `cur_chunk_idx_to_*` as `col`. -/
structure KvState where
  numChunksPerTensor : Nat
  arenaBytes : Nat
  chunkBound : Nat → Nat
  curToCompress : Cursor
  curToStore : Cursor
  maxCompChunks : Int
  maxStoreChunks : Int
  nCurCompChunks : Int
  nCurStoreChunks : Int
  nCurCompSavedBytes : Int
  nCurArenaOffloadBytes : Int
  states : Nat → Nat → KVstate
  svm : Nat → Nat → Option ChunkMem
  kComp : Nat → Nat → CompressedChunk
  vComp : Nat → Nat → CompressedChunk
  kStored : Nat → Nat → StoredChunk
  vStored : Nat → Nat → StoredChunk
  arenas : Nat → List Arena
  nextLayerToOffload : Int
  offloadUsedBytes : Nat → List Nat
  compLeft : Nat → Int
  pendingChunksTotal : Nat
  layerFds : Nat → Option FdMode
  kvFile : Nat → Bytes
  swapFile : Nat → Bytes
  tick : Nat

/-- Cells of the compress regions: the chunks below `chunk_bound` of their layer. -/
def KvState.compCells (cfg : Config) (s : KvState) : List Cell :=
  cells (fun _ => 0) s.chunkBound cfg.numLayers

/-- Cells of the store regions: the chunks at or above `chunk_bound`. -/
def KvState.storeCells (cfg : Config) (s : KvState) : List Cell :=
  cells s.chunkBound (fun _ => s.numChunksPerTensor) cfg.numLayers

/-- The chunks the compress cursor stands for. -/
def KvState.compBeyond (cfg : Config) (s : KvState) : List Cell :=
  beyond (fun _ => 0) s.chunkBound cfg.numLayers s.curToCompress

/-- The chunks the store cursor stands for. -/
def KvState.storeBeyond (cfg : Config) (s : KvState) : List Cell :=
  beyond s.chunkBound (fun _ => s.numChunksPerTensor) cfg.numLayers s.curToStore

/-- `round_up_4k`. -/
def roundUp4k (n : Nat) : Nat := (n + 4095) / 4096 * 4096

/-- Worst-case compressed bytes of a chunk, as the constructor sizes the pools. -/
def Config.compBound (cfg : Config) : Nat :=
  match cfg.backend with
  | .flexgen8bit => cfg.chunkBytes * 17 / 32
  | .flexgen => cfg.chunkBytes * 9 / 32
  | .cachegen => cfg.chunkBytes

/-- Size the compressor records for one half of a chunk. -/
def Config.compSize (cfg : Config) (layer : Nat) (isKey : Bool) (h : Bytes) : Nat :=
  match cfg.backend with
  | .flexgen => tokensPerChunk * cfg.kvHiddenDim * sizeofFp16 / 4
  | .flexgen8bit => tokensPerChunk * cfg.kvHiddenDim * sizeofFp16 / 2
  | .cachegen => cfg.kernel.encodeSize layer isKey h

/-- Bytes kept next to the two compressed halves of a chunk. -/
def Config.sideBytes (cfg : Config) : Nat :=
  match cfg.backend with
  | .flexgen | .flexgen8bit => 2 * tokensPerChunk * cfg.kvHiddenDim * 2 / 32
  | .cachegen => 2 * (tokensPerChunk / 16 * cfg.kvHiddenDim * 1 + tokensPerChunk / 16 * 2)

end MzCache
