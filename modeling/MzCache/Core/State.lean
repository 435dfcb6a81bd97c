import MzCache.Kv.Offload

/-!
# The swap engine

`mzcache_core` with the weight bookkeeping of `mzcache_weight`: construction, chunk
growth, and the swapout ladder. `swapout_impl` is a small-step machine whose steps
are the iterations of its three loops, so that "returns after finitely many loop
iterations" is a statement about the machine.
-/

namespace MzCache

open MzCache.Lib

/-- `mzcache_core` and the parts of `mzcache_weight` and of the KV cache it works
with. `nChunksAlloc` is the cache's count of materialized chunks. -/
structure Core where
  kv : KvState
  curLayerIdxToUnload : Int
  nCurUnloadLayers : Int
  weightLoaded : Nat → Bool
  numChunksPerTensor : Nat
  fullBytes : Int
  nChunksAlloc : Nat

/-- `full_bytes` for `n` chunks per tensor. -/
def fullBytesOf (cfg : Config) (n : Nat) : Int :=
  cfg.weightLayerBytes * cfg.numLayers + cfg.chunkBytes * n * cfg.numLayers

/-- `arena_bytes`, fixed by the chunk count the constructor sees. -/
def arenaBytesOf (cfg : Config) (n : Nat) : Nat := roundUp4k (n * cfg.compBound)

/-- The members of `mzcache_kv_state` before the plan is derived. -/
def KvState.fresh (cfg : Config) (n : Nat) (mem : Nat → Nat → Option ChunkMem) : KvState where
  numChunksPerTensor := n
  arenaBytes := arenaBytesOf cfg n
  chunkBound := fun _ => 0
  curToCompress := ⟨0, 0⟩
  curToStore := ⟨0, 0⟩
  maxCompChunks := 0
  maxStoreChunks := 0
  nCurCompChunks := 0
  nCurStoreChunks := 0
  nCurCompSavedBytes := 0
  nCurArenaOffloadBytes := 0
  states := fun _ _ => .raw
  svm := mem
  kComp := fun _ _ => default
  vComp := fun _ _ => default
  kStored := fun _ _ => default
  vStored := fun _ _ => default
  arenas := fun _ => []
  nextLayerToOffload := (cfg.numLayers : Int) - 1
  offloadUsedBytes := fun _ => []
  compLeft := fun _ => 0
  pendingChunksTotal := 0
  layerFds := fun _ => none
  kvFile := fun _ _ => 0
  swapFile := fun _ _ => 0
  tick := 0

/-- `mzcache_kv_state::mzcache_kv_state` over the chunk memory `mem`. -/
def KvState.init (cfg : Config) (n : Nat) (mem : Nat → Nat → Option ChunkMem) : KvState :=
  deriveSwapoutPlan cfg (.fresh cfg n mem)

/-- `mzcache_core::mzcache_core` for `n` chunks per tensor, with `alloc` chunks
materialized in the cache. -/
def Core.init (cfg : Config) (n alloc : Nat) (mem : Nat → Nat → Option ChunkMem) : Core :=
  { kv := .init cfg n mem
    curLayerIdxToUnload := (cfg.numLayers : Int) - 1
    nCurUnloadLayers := 0
    weightLoaded := fun _ => true
    numChunksPerTensor := n
    fullBytes := fullBytesOf cfg n
    nChunksAlloc := alloc }

/-! ## Growth -/

/-- No chunk compressed or stored, and no arena bytes offloaded. -/
def KvState.cleanLadder (s : KvState) : Bool :=
  s.nCurCompChunks = 0 ∧ s.nCurStoreChunks = 0 ∧ s.nCurArenaOffloadBytes = 0

/-- Registration of one new chunk. The flag is cleared by the first chunk that is
not resident, and nothing is registered after it. -/
def registerStep (acc : KvState × Bool) (c : Cell) : KvState × Bool :=
  if acc.2 ∧ (acc.1.svm c.1 c.2).isSome then
    ({ acc.1 with states := Table.set acc.1.states c.1 c.2 .raw }, true)
  else (acc.1, false)

/-- Registration of the chunks `old ≤ j < n`, layer by layer. The flag tells whether
all of them were resident. -/
def registerChunks (cfg : Config) (old n : Nat) (s : KvState) : KvState × Bool :=
  (cells (fun _ => old) (fun _ => n) cfg.numLayers).foldl registerStep (s, true)

/-- `register_grown_chunks`. -/
def registerGrownChunks (cfg : Config) (nChunksTotal : Nat) (s : KvState) : KvState :=
  if nChunksTotal ≤ s.numChunksPerTensor then s
  else if nChunksTotal > maxChunksPerTensor then s
  else if s.cleanLadder then
    let r := registerChunks cfg s.numChunksPerTensor nChunksTotal s
    if r.2 then deriveSwapoutPlan cfg { r.1 with numChunksPerTensor := nChunksTotal }
    else r.1
  else { s with pendingChunksTotal := max s.pendingChunksTotal nChunksTotal }

/-- `apply_pending_growth`. -/
def applyPendingGrowth (cfg : Config) (s : KvState) : KvState :=
  if s.pendingChunksTotal > s.numChunksPerTensor then
    registerGrownChunks cfg s.pendingChunksTotal { s with pendingChunksTotal := 0 }
  else { s with pendingChunksTotal := 0 }

/-- The core follows the count of `kv_state`. -/
def Core.followKv (cfg : Config) (c : Core) : Core :=
  if c.kv.numChunksPerTensor ≠ c.numChunksPerTensor then
    { c with
      numChunksPerTensor := c.kv.numChunksPerTensor
      fullBytes := fullBytesOf cfg c.kv.numChunksPerTensor }
  else c

/-- `on_kv_chunks_grown`. -/
def onKvChunksGrown (cfg : Config) (nChunksTotal : Nat) (c : Core) : Core :=
  ({ c with kv := registerGrownChunks cfg nChunksTotal c.kv } : Core).followKv cfg

/-- `grow_layer_chunk` for every layer and every chunk `alloc ≤ j < need`: zeroed
memory, unless the chunk exists. -/
def growLayerChunks (cfg : Config) (alloc need : Nat) (svm : Nat → Nat → Option ChunkMem) :
    Nat → Nat → Option ChunkMem :=
  fun l j =>
    if l < cfg.numLayers ∧ alloc ≤ j ∧ j < need ∧ (svm l j).isNone then
      some ⟨fun _ => 0, fun _ => 0, true⟩
    else svm l j

/-- `mz_grow_chunks`, the only caller of `on_kv_chunks_grown`. -/
def mzGrowChunks (cfg : Config) (need : Nat) (c : Core) : Core :=
  if need ≤ c.nChunksAlloc then c
  else if need > maxChunksPerTensor then c
  else
    onKvChunksGrown cfg need { c with
      nChunksAlloc := need
      kv := { c.kv with svm := growLayerChunks cfg c.nChunksAlloc need c.kv.svm } }

/-! ## Weight layers -/

/-- `mzcache_unload_layers`: refuses a layer whose dump is not readable. -/
def mzcacheUnloadLayers (io : Io) : Nat → Core → Core × Bool
  | 0, c => (c, true)
  | layerNum + 1, c =>
      let c' := { c with kv := { c.kv with tick := c.kv.tick + 1 } }
      if (io .weightDump c.kv.tick).opened then
        let c'' := { c' with kv := { c'.kv with tick := c'.kv.tick + 1 } }
        if (io .weightDump c'.kv.tick).opened then
          mzcacheUnloadLayers io layerNum
            { c'' with
              weightLoaded := Function.update c.weightLoaded c.curLayerIdxToUnload.toNat false
              curLayerIdxToUnload := c.curLayerIdxToUnload - 1
              nCurUnloadLayers := c.nCurUnloadLayers + 1 }
        else (c'', false)
      else (c', false)

end MzCache
