import MzCache.Kv.Evict

/-!
# Restoring chunks

The pool workers (`kv_alloc_worker`, `kv_read_worker`, `kv_decomp_worker`), the
walks that enqueue them, and the bookkeeping done when they have finished. A walk
moves a cursor back up through its regions, one chunk for each requested one, and
leaves by its "too many chunks" branch when it passes the last layer.

The workers of one restore run here one after the other, in the order in which
they were enqueued; `MzCache.Sync` runs them concurrently.
-/

namespace MzCache

open MzCache.Lib

/-! ## Workers -/

/-- `kv_alloc_worker`: K and V in one fresh allocation. -/
def kvAllocWorker (cfg : Config) (layer chunk : Nat) (s : KvState) : KvState :=
  { s with svm := Table.set s.svm layer chunk (some ⟨cfg.uninit, cfg.uninit, true⟩) }

/-- `kv_read_worker`. A count other than the requested one is only reported; the
state becomes `Raw` in any case. -/
def kvReadWorker (cfg : Config) (io : Io) (layer chunk : Nat) (s : KvState) : KvState :=
  let mem := s.rawMem cfg layer chunk
  let offK := (s.kStored layer chunk).fileOffset
  let offV := (s.vStored layer chunk).fileOffset
  let raw := cfg.rawChunkBytes
  -- a descriptor that is closed, or open for writing, transfers nothing
  let pread := fun (t count : Nat) =>
    if s.layerFds layer = some .read then (io .chunkRead t).moved count else 0
  let file := s.kvFile layer
  let s := { s with states := Table.set s.states layer chunk .raw }
  if mem.contiguous ∧ offV = offK + raw then
    let n := pread s.tick (raw * 2)
    { s with
      svm := Table.set s.svm layer chunk
        (some { mem with
          k := blit mem.k 0 (fun i => file (offK + i)) (min n raw)
          v := blit mem.v 0 (fun i => file (offK + raw + i)) (n - raw) })
      tick := s.tick + 1 }
  else
    { s with
      svm := Table.set s.svm layer chunk
        (some { mem with
          k := blit mem.k 0 (fun i => file (offK + i)) (pread s.tick raw)
          v := blit mem.v 0 (fun i => file (offV + i)) (pread (s.tick + 1) raw) })
      tick := s.tick + 2 }

/-- `free_layer_arenas`. -/
def freeLayerArenas (layer : Nat) (s : KvState) : KvState :=
  { s with arenas := Function.update s.arenas layer [] }

/-- The bytes from `pool + o` on. What lies before the pool is not specified. -/
def Arena.bytesAt (cfg : Config) (a : Arena) (o : Int) : Bytes :=
  fun i => if 0 ≤ o + i then a.pool (o + i).toNat else cfg.uninit i

/-- `kv_decomp_worker` up to the release of the layer's arenas. -/
def decompressInto (cfg : Config) (layer chunk : Nat) (s : KvState) : KvState :=
  let kcc := s.kComp layer chunk
  let vcc := s.vComp layer chunk
  let cur := ((s.arenas layer)[kcc.stackId]?).getD default
  let mem := s.rawMem cfg layer chunk
  { s with
    svm := Table.set s.svm layer chunk
      (some { mem with
        k := cfg.kernel.decode layer chunk true (cur.bytesAt cfg kcc.offset) kcc.side
        v := cfg.kernel.decode layer chunk false (cur.bytesAt cfg vcc.offset) vcc.side })
    states := Table.set s.states layer chunk .raw
    compLeft := Function.update s.compLeft layer (s.compLeft layer - 1) }

/-- `kv_decomp_worker`. The task it hands to the FREE group when the layer's last
chunk is done runs at once. -/
def kvDecompWorker (cfg : Config) (layer chunk : Nat) (s : KvState) : KvState :=
  if s.compLeft layer = 1 then freeLayerArenas layer (decompressInto cfg layer chunk s)
  else decompressInto cfg layer chunk s

/-- The ALLOC and READ tasks of a list of chunks. -/
def runReads (cfg : Config) (io : Io) : List Cell → KvState → KvState
  | [], s => s
  | c :: rest, s =>
      runReads cfg io rest (kvReadWorker cfg io c.1 c.2 (kvAllocWorker cfg c.1 c.2 s))

/-- The ALLOC and DECOMP tasks of a list of chunks. -/
def runDecomps (cfg : Config) : List Cell → KvState → KvState
  | [], s => s
  | c :: rest, s =>
      runDecomps cfg rest (kvDecompWorker cfg c.1 c.2 (kvAllocWorker cfg c.1 c.2 s))

/-! ## Walks -/

/-- Chunks a walk enqueued, the state it left, and whether it took its
"too many chunks" branch. -/
structure Walk where
  state : KvState
  cells : List Cell
  overrun : Bool

/-- The decompress walk: `cur_chunk_idx_to_compress++`, with the step to the next
layer at `chunk_bound`. -/
def decompWalk (cfg : Config) : Nat → KvState → Walk
  | 0, s => ⟨s, [], false⟩
  | numChunks + 1, s =>
      let cur := s.curToCompress
      let next := stepUp (fun _ => 0) s.chunkBound cur
      let s' := { s with curToCompress := next }
      if cur.col + 1 ≥ s.chunkBound cur.row.toNat ∧ cur.row + 1 ≥ cfg.numLayers then
        ⟨s', [], true⟩
      else
        let w := decompWalk cfg numChunks s'
        { w with cells := (next.row.toNat, next.col.toNat) :: w.cells }

/-- Open the layer's file for reading unless it is open; `none` when `open`
fails, which the source turns into an exception. -/
def openToRead (io : Io) (layer : Nat) (s : KvState) : Option KvState :=
  if (s.layerFds layer).isSome then some s
  else if (io .chunkOpen s.tick).opened then
    some { s with layerFds := Function.update s.layerFds layer (some .read), tick := s.tick + 1 }
  else none

/-- The file of the cursor's own layer is opened before the walk, also when a
descriptor is already recorded for it. -/
def openFirstToRead (io : Io) (s : KvState) : Option KvState :=
  if s.curToStore.col < (s.numChunksPerTensor : Int) - 1 then
    if (io .chunkOpen s.tick).opened then
      some { s with
        layerFds := Function.update s.layerFds s.curToStore.row.toNat (some .read)
        tick := s.tick + 1 }
    else none
  else some s

/-- The load walk, after `openFirstToRead`. -/
def loadWalk (cfg : Config) (io : Io) : Nat → KvState → Option Walk
  | 0, s => some ⟨s, [], false⟩
  | numChunks + 1, s =>
      let cur := s.curToStore
      if cur.col + 1 = s.numChunksPerTensor then
        if cur.row + 1 ≥ cfg.numLayers then
          some ⟨{ s with curToStore := ⟨cur.row + 1, cur.col + 1⟩ }, [], true⟩
        else
          let layer := (cur.row + 1).toNat
          let next : Cursor := ⟨cur.row + 1, s.chunkBound layer⟩
          (openToRead io layer { s with curToStore := next }).bind fun s' =>
            (loadWalk cfg io numChunks s').map fun w =>
              { w with cells := (layer, s.chunkBound layer) :: w.cells }
      else
        let next : Cursor := ⟨cur.row, cur.col + 1⟩
        (loadWalk cfg io numChunks { s with curToStore := next }).map fun w =>
          { w with cells := (next.row.toNat, next.col.toNat) :: w.cells }

/-- What `mzcache_enqueue_decomp_load_chunks` put into the READ and DECOMP
queues, the state it left, and its two "too many chunks" branches. -/
structure Enqueued where
  state : KvState
  read : List Cell
  decomp : List Cell
  readOverrun : Bool
  decompOverrun : Bool

/-- `mzcache_enqueue_decomp_load_chunks`; `none` when a file cannot be opened. -/
def mzcacheEnqueueDecompLoadChunks (cfg : Config) (io : Io)
    (decompNumChunks loadNumChunks : Nat) (s : KvState) : Option Enqueued :=
  (openFirstToRead io s).bind fun s1 =>
    (loadWalk cfg io loadNumChunks s1).map fun l =>
      let d := decompWalk cfg decompNumChunks l.state
      ⟨d.state, l.cells, d.cells, l.overrun, d.overrun⟩

/-! ## Bookkeeping after a restore -/

/-- `update_last_used` of `clean_after_decompress`. -/
def updateLastUsed (last : Int × Nat) (cc : CompressedChunk) : Int × Nat :=
  -- the sum is taken in `size_t`
  let chunkEnd := ((cc.offset + cc.compSize) % 2 ^ 64).toNat
  if (cc.stackId : Int) > last.1 ∨ ((cc.stackId : Int) = last.1 ∧ chunkEnd > last.2) then
    (cc.stackId, chunkEnd)
  else last

/-- Last arena in use and the end of its last chunk; arena `-1` when the layer
holds no compressed chunk. -/
def lastUsed (s : KvState) (layer : Nat) : Int × Nat :=
  (List.range s.numChunksPerTensor).foldl
    (fun last c =>
      if s.states layer c = .compressed then
        updateLastUsed (updateLastUsed last (s.kComp layer c)) (s.vComp layer c)
      else last)
    (-1, 0)

/-- One layer's arenas after `clean_after_decompress`. -/
def cleanArenas (s : KvState) (layer : Nat) : List Arena :=
  let last := lastUsed s layer
  let as := s.arenas layer
  if last.1 < 0 then []
  else
    let maxValidStack := min last.1.toNat (as.length - 1)
    (as.take (maxValidStack + 1)).modify maxValidStack fun a => { a with top := last.2 }

/-- `clean_after_decompress`. The savings are scaled by the surviving fraction. -/
def cleanAfterDecompress (decompChunks : Nat) (s : KvState) : KvState :=
  if decompChunks = 0 then s
  else
    let s := { s with arenas := fun l => cleanArenas s l }
    let s :=
      if (decompChunks : Int) > s.nCurCompChunks then { s with nCurCompChunks := 0 }
      else
        { s with
          nCurCompSavedBytes :=
            (s.nCurCompSavedBytes * (s.nCurCompChunks - decompChunks)).tdiv s.nCurCompChunks
          nCurCompChunks := s.nCurCompChunks - decompChunks }
    if s.nCurCompChunks = 0 then { s with nCurCompSavedBytes := 0 } else s

/-- `clean_after_read`. -/
def cleanAfterRead (readChunks : Nat) (s : KvState) : KvState :=
  { s with
    layerFds := fun _ => none
    nCurStoreChunks :=
      if (readChunks : Int) > s.nCurStoreChunks then 0 else s.nCurStoreChunks - readChunks }

/-- `mzcache_decompress_chunks`. The early return leaves the queued tasks running
and skips the bookkeeping. -/
def mzcacheDecompressChunks (cfg : Config) (numChunks : Nat) (s : KvState) : KvState :=
  let w := decompWalk cfg numChunks s
  if w.overrun then runDecomps cfg w.cells w.state
  else cleanAfterDecompress numChunks (runDecomps cfg w.cells w.state)

/-- `mzcache_load_chunks`; `none` when a file cannot be opened. -/
def mzcacheLoadChunks (cfg : Config) (io : Io) (numChunks : Nat) (s : KvState) :
    Option KvState :=
  (openFirstToRead io s).bind fun s1 =>
    (loadWalk cfg io numChunks s1).map fun w =>
      cleanAfterRead numChunks (runReads cfg io w.cells w.state)

end MzCache
