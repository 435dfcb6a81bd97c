import MzCache.Core.Swapout

/-!
# Swapin

`initialize_layer_sync` computes, from the cursors alone, how many chunks each
layer has to restore; `swapin_generate` enqueues that many chunks, reloads the
weights and, when everything is back, `finish_swapin_cycle` settles the counters.

The decode thread runs beside the main thread. Of what it does, only chunk growth
touches the state here: the first ubatch grows the cache before the graph is
allocated, so before anything is enqueued, and later ubatches grow it while the
restore is running. Both lists of growth requests are parameters of the cycle.
-/

namespace MzCache

open MzCache.Lib

/-- `compress_init` of layer `i`. -/
def compressInit (s : KvState) (i : Nat) : Int :=
  if (i : Int) < s.curToCompress.row then 0
  else if (i : Int) = s.curToCompress.row then s.chunkBound i - (s.curToCompress.col + 1)
  else s.chunkBound i

/-- `store_init` of layer `i`. -/
def storeInit (s : KvState) (i : Nat) : Int :=
  if (i : Int) < s.curToStore.row then 0
  else if (i : Int) = s.curToStore.row then s.numChunksPerTensor - (s.curToStore.col + 1)
  else (s.numChunksPerTensor : Int) - s.chunkBound i

/-- The weight task of layer `i`. -/
def weightInit (c : Core) (i : Nat) : Int := if (i : Int) > c.curLayerIdxToUnload then 1 else 0

/-- `total_init`: what the layer's `LayerSync` starts with. -/
def totalInit (c : Core) (i : Nat) : Int :=
  compressInit c.kv i + storeInit c.kv i + weightInit c i

/-- `decomp_num_chunks`, `load_num_chunks` and the counters of `layer_sync`. -/
structure LayerSyncs where
  decompNumChunks : Int
  loadNumChunks : Int
  remaining : List Int

/-- `initialize_layer_sync`. -/
def initializeLayerSync (cfg : Config) (c : Core) : Core × LayerSyncs :=
  ({ c with
      kv := { c.kv with
        compLeft := fun i => if i < cfg.numLayers then compressInit c.kv i else c.kv.compLeft i } },
    { decompNumChunks := layerSum cfg (compressInit c.kv)
      loadNumChunks := layerSum cfg (storeInit c.kv)
      remaining := (List.range cfg.numLayers).map (totalInit c) })

/-- `mzcache_reload_w_layers` with the tasks it enqueues. -/
def mzcacheReloadWLayers (cfg : Config) (c : Core) : Core :=
  { c with
    weightLoaded := fun l =>
      if c.curLayerIdxToUnload < l ∧ l < cfg.numLayers then true else c.weightLoaded l
    curLayerIdxToUnload := (cfg.numLayers : Int) - 1 }

/-- `finish_swapin_cycle`, once all layers are restored and the pool is idle. -/
def finishSwapinCycle (cfg : Config) (decompChunks loadChunks : Nat) (c : Core) : Core :=
  { c with
    kv := cleanAfterRead loadChunks (cleanAfterDecompress decompChunks c.kv)
    curLayerIdxToUnload := (cfg.numLayers : Int) - 1
    nCurUnloadLayers := 0 }

/-- The growth requests of the decode thread, one after the other. -/
def growAll (cfg : Config) (needs : List Nat) (c : Core) : Core :=
  needs.foldl (fun c need => mzGrowChunks cfg need c) c

/-- A swapin cycle: the core it leaves, what `initialize_layer_sync` computed and
what was enqueued. -/
structure Swapin where
  core : Core
  sync : LayerSyncs
  tasks : Enqueued

/-- `swapin_generate` up to the enqueue: the layer counters are set up, the arenas
reloaded, and the first ubatch of the decode has grown the cache. -/
def swapinPrepare (cfg : Config) (io : Io) (early : List Nat) (c : Core) : Core :=
  let c := (initializeLayerSync cfg c).1
  growAll cfg early { c with kv := mzcacheReloadAllArenas cfg io c.kv }

/-- The enqueued tasks, with the weight layers. -/
def swapinRestore (cfg : Config) (io : Io) (e : Enqueued) (c : Core) : Core :=
  mzcacheReloadWLayers cfg
    { c with kv := runDecomps cfg e.decomp (runReads cfg io e.read e.state) }

/-- `swapin_generate`. `early` and `late` are the growth requests before and after
the enqueue; `none` when a store file cannot be opened. -/
def swapinGenerate (cfg : Config) (io : Io) (early late : List Nat) (c : Core) :
    Option Swapin :=
  let sync := (initializeLayerSync cfg c).2
  let decomp := sync.decompNumChunks.toNat
  let load := sync.loadNumChunks.toNat
  let c := swapinPrepare cfg io early c
  (mzcacheEnqueueDecompLoadChunks cfg io decomp load c.kv).map fun e =>
    ⟨finishSwapinCycle cfg decomp load (growAll cfg late (swapinRestore cfg io e c)), sync, e⟩

end MzCache
