import MzCache.Kv.Restore

/-!
# Offloading compression arenas

`mzcache_offload_arenas` writes one layer's arenas to its swap file and frees
them, from the last layer down; `mzcache_reload_arenas` brings one layer back and
`mzcache_reload_all_arenas` every offloaded layer. The tops are remembered in
`offload_used_bytes_`, so that a reload can rebuild the pools.
-/

namespace MzCache

open MzCache.Lib

/-- The pool after the padding behind `used` was cleared for `O_DIRECT`. -/
def Arena.pad (a : Arena) : Arena :=
  if a.top = 0 then a
  else { a with pool := blit a.pool a.top (fun _ => 0) (roundUp4k a.top - a.top) }

/-- Result of writing a layer's arenas: the swap file, the offset reached, the
tops recorded, the calls made, and whether every write was complete. -/
structure SwapWrite where
  file : Bytes
  off : Nat
  used : List Nat
  tick : Nat
  ok : Bool

/-- The write loop of `mzcache_offload_arenas`. It stops at the first write that
is not complete. -/
def writeArenas (io : Io) : List Arena → SwapWrite → SwapWrite
  | [], w => w
  | a :: rest, w =>
      if a.top = 0 then writeArenas io rest { w with used := w.used ++ [a.top] }
      else
        let padded := roundUp4k a.top
        let file := blit w.file w.off a.pad.pool ((io .swapWrite w.tick).moved padded)
        if (io .swapWrite w.tick).complete then
          writeArenas io rest ⟨file, w.off + padded, w.used ++ [a.top], w.tick + 1, true⟩
        else { w with file := file, tick := w.tick + 1, ok := false }

/-- `mzcache_offload_arenas`: the new state and the bytes offloaded. -/
def mzcacheOffloadArenas (io : Io) (s : KvState) : KvState × Int :=
  if s.nextLayerToOffload < 0 then (s, 0)
  else
    let layer := s.nextLayerToOffload.toNat
    if (io .swapOpen s.tick).opened then
      -- O_TRUNC empties the file, and the snapshot of an earlier cycle is dropped
      let w := writeArenas io (s.arenas layer) ⟨fun _ => 0, 0, [], s.tick + 1, true⟩
      let s := { s with
        swapFile := Function.update s.swapFile layer w.file
        offloadUsedBytes := Function.update s.offloadUsedBytes layer w.used
        tick := w.tick }
      if w.ok then
        ({ s with
          arenas := Function.update s.arenas layer []
          nextLayerToOffload := s.nextLayerToOffload - 1
          nCurArenaOffloadBytes := s.nCurArenaOffloadBytes + w.off }, w.off)
      else
        ({ s with arenas := Function.update s.arenas layer ((s.arenas layer).map Arena.pad) }, 0)
    else ({ s with tick := s.tick + 1 }, 0)

/-- Result of reading a layer's arenas back. -/
structure SwapRead where
  arenas : List Arena
  off : Nat
  tick : Nat
  ok : Bool

/-- The read loop of the two reload functions. A snapshot entry larger than a
pool, or a read that is not complete, drops what was read so far. -/
def readArenas (cfg : Config) (io : Io) (arenaBytes : Nat) (file : Bytes) :
    List Nat → SwapRead → SwapRead
  | [], r => r
  | used :: rest, r =>
      if used > arenaBytes then { r with arenas := [], ok := false }
      else if used = 0 then
        readArenas cfg io arenaBytes file rest
          { r with arenas := r.arenas ++ [Arena.new cfg arenaBytes] }
      else
        let padded := roundUp4k used
        if (io .reloadRead r.tick).complete then
          let a : Arena := ⟨blit cfg.uninit 0 (fun i => file (r.off + i)) padded, used, arenaBytes⟩
          readArenas cfg io arenaBytes file rest
            ⟨r.arenas ++ [a], r.off + padded, r.tick + 1, r.ok⟩
        else { r with arenas := [], tick := r.tick + 1, ok := false }

/-- Bytes a snapshot accounts for. -/
def paddedBytes (used : List Nat) : Int := (used.map fun u => (roundUp4k u : Int)).sum

/-- One iteration of `mzcache_reload_all_arenas`. The swap file is removed also
after a failed read. -/
def reloadLayer (cfg : Config) (io : Io) (s : KvState) (layer : Nat) : KvState :=
  if (s.offloadUsedBytes layer).isEmpty then s
  else if (io .reloadOpen s.tick).opened then
    let r := readArenas cfg io s.arenaBytes (s.swapFile layer) (s.offloadUsedBytes layer)
      ⟨[], 0, s.tick + 1, true⟩
    { s with
      arenas := Function.update s.arenas layer r.arenas
      swapFile := Function.update s.swapFile layer fun _ => 0
      tick := r.tick }
  else
    { s with arenas := Function.update s.arenas layer [], tick := s.tick + 1 }

/-- First layer that a reload looks at. -/
def KvState.firstOffloaded (s : KvState) : Nat := (s.nextLayerToOffload + 1).toNat

/-- `mzcache_reload_all_arenas`. -/
def mzcacheReloadAllArenas (cfg : Config) (io : Io) (s : KvState) : KvState :=
  let start := s.firstOffloaded
  if start ≥ cfg.numLayers then s
  else
    let s := (List.range' start (cfg.numLayers - start)).foldl (reloadLayer cfg io) s
    { s with nextLayerToOffload := (cfg.numLayers : Int) - 1, nCurArenaOffloadBytes := 0 }

/-- `mzcache_reload_arenas`. -/
def mzcacheReloadArenas (cfg : Config) (io : Io) (s : KvState) : KvState :=
  let layer := s.firstOffloaded
  if layer ≥ cfg.numLayers then s
  else if (s.offloadUsedBytes layer).isEmpty then s
  else if (io .reloadOpen s.tick).opened then
    let r := readArenas cfg io s.arenaBytes (s.swapFile layer) (s.offloadUsedBytes layer)
      ⟨[], 0, s.tick + 1, true⟩
    let s := { s with arenas := Function.update s.arenas layer r.arenas, tick := r.tick }
    if r.ok then
      let bytes := max 0 (s.nCurArenaOffloadBytes - paddedBytes (s.offloadUsedBytes layer))
      let next : Int := s.nextLayerToOffload + 1
      { s with
        swapFile := Function.update s.swapFile layer fun _ => 0
        nCurArenaOffloadBytes := bytes
        nextLayerToOffload := if next ≥ cfg.numLayers then (cfg.numLayers : Int) - 1 else next }
    else s
  else
    { s with arenas := Function.update s.arenas layer [], tick := s.tick + 1 }

end MzCache
