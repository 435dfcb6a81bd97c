import MzCache.Kv.Plan

/-!
# Evicting chunks

`mzcache_compress_chunks` and `mzcache_store_chunks`. Both walk a cursor down
through their regions: at the head of each iteration a loop skips the layers
whose region is exhausted, then one chunk is evicted and the cursor steps down.

Compression appends to the layer's last arena, allocating a new one when a raw
chunk would not fit. Storing writes the two halves at absolute offsets of the
layer's file and then releases the chunk's memory; the outcome of the two
`pwrite` calls is only reported, never acted on.
-/

namespace MzCache

open MzCache.Lib

instance : Inhabited Arena := ⟨⟨fun _ => 0, 0, 0⟩⟩

/-- The memory behind `raw_chunks[C].c`. -/
def KvState.rawMem (cfg : Config) (s : KvState) (layer chunk : Nat) : ChunkMem :=
  (s.svm layer chunk).getD ⟨cfg.uninit, cfg.uninit, false⟩

/-! ## Compression -/

/-- The head-of-loop guard of `mzcache_compress_chunks`. -/
def KvState.skipToCompress (s : KvState) : KvState :=
  { s with
    curToCompress := skipDown (fun _ => 0)
      (fun row col => if 0 ≤ row then (s.chunkBound row.toNat : Int) - 1 else col)
      (s.curToCompress.row + 1).toNat s.curToCompress }

/-- The layer's arenas with one at the end that a raw chunk fits into. The test
compares with the raw size while the pool is sized by the compressed one, so the
arena added here need not pass it either. -/
def arenasToFill (cfg : Config) (arenaBytes : Nat) (as : List Arena) : List Arena :=
  let as := if as.isEmpty then [Arena.new cfg arenaBytes] else as
  let cur := as.getLast!
  if cur.top + cfg.chunkBytes > cur.cap then as ++ [Arena.new cfg arenaBytes] else as

/-- Compressed bytes of a chunk, mins and maxs (or stream lengths) included. -/
def compressedBytes (cfg : Config) (layer : Nat) (mem : ChunkMem) : Nat :=
  cfg.compSize layer true mem.k + cfg.compSize layer false mem.v + cfg.sideBytes

/-- The arena after both halves were appended. -/
def Arena.append (cfg : Config) (layer : Nat) (mem : ChunkMem) (cur : Arena) : Arena :=
  let keyCompSize := cfg.compSize layer true mem.k
  let valueCompSize := cfg.compSize layer false mem.v
  { cur with
    pool := blit (blit cur.pool cur.top (cfg.kernel.encode layer true mem.k) keyCompSize)
      (cur.top + keyCompSize) (cfg.kernel.encode layer false mem.v) valueCompSize
    top := cur.top + (keyCompSize + valueCompSize) }

/-- Body of the compress loop for chunk `(layer, chunk)`. -/
def compressAt (cfg : Config) (layer chunk : Nat) (s : KvState) : KvState :=
  let mem := s.rawMem cfg layer chunk
  let as := arenasToFill cfg s.arenaBytes (s.arenas layer)
  let cur := as.getLast!
  let keyCompSize := cfg.compSize layer true mem.k
  let valueCompSize := cfg.compSize layer false mem.v
  { s with
    arenas := Function.update s.arenas layer (as.dropLast ++ [cur.append cfg layer mem])
    kComp := Table.set s.kComp layer chunk
      ⟨as.length - 1, toInt32 cur.top, keyCompSize, cfg.kernel.side layer true mem.k⟩
    vComp := Table.set s.vComp layer chunk
      ⟨as.length - 1, toInt32 (cur.top + keyCompSize), valueCompSize,
        cfg.kernel.side layer false mem.v⟩
    states := Table.set s.states layer chunk .compressed
    svm := Table.set s.svm layer chunk none
    curToCompress := { s.curToCompress with col := s.curToCompress.col - 1 }
    nCurCompChunks := s.nCurCompChunks + 1
    nCurCompSavedBytes := s.nCurCompSavedBytes +
      ((cfg.chunkBytes : Int) - compressedBytes cfg layer mem) }

/-- `mzcache_compress_chunks`: the new state and the total compressed size. -/
def mzcacheCompressChunks (cfg : Config) : Nat → KvState → KvState × Int
  | 0, s => (s, 0)
  | numChunks + 1, s =>
      let s := s.skipToCompress
      if s.curToCompress.row < 0 then (s, 0)
      else
        let layer := s.curToCompress.row.toNat
        let chunk := s.curToCompress.col.toNat
        let rest := mzcacheCompressChunks cfg numChunks (compressAt cfg layer chunk s)
        (rest.1, compressedBytes cfg layer (s.rawMem cfg layer chunk) + rest.2)

/-! ## Storing -/

/-- The head-of-loop guard of `mzcache_store_chunks`, cursor part. -/
def skipStore (s : KvState) : Cursor :=
  skipDown s.chunkBound (fun _ _ => (s.numChunksPerTensor : Int) - 1)
    (s.curToStore.row + 1).toNat s.curToStore

/-- The head-of-loop guard of `mzcache_store_chunks`: the files of the layers
left behind are closed. -/
def KvState.skipToStore (s : KvState) : KvState :=
  let cur := skipStore s
  { s with
    curToStore := cur
    layerFds := fun l =>
      if cur.row < l ∧ (l : Int) ≤ s.curToStore.row then none else s.layerFds l }

/-- Open the layer's file for writing unless it is open; `false` on failure. -/
def openToStore (io : Io) (layer : Nat) (s : KvState) : KvState × Bool :=
  if (s.layerFds layer).isSome then (s, true)
  else if (io .storeOpen s.tick).opened then
    ({ s with layerFds := Function.update s.layerFds layer (some .write), tick := s.tick + 1 },
      true)
  else ({ s with tick := s.tick + 1 }, false)

/-- Body of the store loop for chunk `(layer, chunk)`, with its file open. -/
def storeAt (cfg : Config) (io : Io) (layer chunk : Nat) (s : KvState) : KvState :=
  let mem := s.rawMem cfg layer chunk
  let offsetKey := (chunk - s.chunkBound layer) * (cfg.rawChunkBytes * 2)
  let offsetValue := offsetKey + cfg.rawChunkBytes
  let file := blit (s.kvFile layer) offsetKey mem.k ((io .storeWrite s.tick).moved cfg.rawChunkBytes)
  let file := blit file offsetValue mem.v ((io .storeWrite (s.tick + 1)).moved cfg.rawChunkBytes)
  { s with
    kvFile := Function.update s.kvFile layer file
    kStored := Table.set s.kStored layer chunk ⟨offsetKey, cfg.rawChunkBytes⟩
    vStored := Table.set s.vStored layer chunk ⟨offsetValue, cfg.rawChunkBytes⟩
    states := Table.set s.states layer chunk .stored
    svm := Table.set s.svm layer chunk none
    curToStore := { s.curToStore with col := s.curToStore.col - 1 }
    nCurStoreChunks := s.nCurStoreChunks + 1
    tick := s.tick + 2 }

/-- `mzcache_store_chunks`. -/
def mzcacheStoreChunks (cfg : Config) (io : Io) : Nat → KvState → KvState
  | 0, s => s
  | numChunks + 1, s =>
      let s := s.skipToStore
      if s.curToStore.row < 0 then s
      else
        let layer := s.curToStore.row.toNat
        let chunk := s.curToStore.col.toNat
        let opened := openToStore io layer s
        if opened.2 then
          mzcacheStoreChunks cfg io numChunks (storeAt cfg io layer chunk opened.1)
        else opened.1

/-- `mzcache_close_stored_files`. -/
def mzcacheCloseStoredFiles (s : KvState) : KvState := { s with layerFds := fun _ => none }

end MzCache
