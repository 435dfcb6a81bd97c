import MzCache.Core.State

/-!
# Swapout

`swapout_impl` as a machine. Phase 1 compresses and stores chunks until only the
balance chunks are left, phase 2 unloads weight layers and compresses
`per_layer_balance` chunks with each, phase 3 offloads arenas. Every loop ends
early when the resident ratio has reached the target. One machine step is one
loop iteration, or the passage from one phase to the next.
-/

namespace MzCache

open MzCache.Lib

/-- `current_freed`. -/
def Core.currentFreed (cfg : Config) (c : Core) : Int :=
  c.kv.nCurCompSavedBytes + c.kv.nCurArenaOffloadBytes +
    c.kv.nCurStoreChunks * cfg.chunkBytes + c.nCurUnloadLayers * cfg.weightLayerBytes

/-- `1.0f - (double)current_freed() / (double)full_bytes`, as a `float`. -/
def Core.curRatio (cfg : Config) (c : Core) : ℚ :=
  cfg.f32.fl (cfg.f64.fl (1 - cfg.f64.fl (c.currentFreed cfg / c.fullBytes)))

/-- `total_chunks`. -/
def Core.totalChunks (cfg : Config) (c : Core) : Int := c.numChunksPerTensor * cfg.numLayers

/-- `bound_chunks`. -/
def Core.boundChunks (cfg : Config) (c : Core) : Int :=
  c.totalChunks cfg - cfg.perLayerBalance * cfg.numLayers

/-- The `allocate_chunks` lambda of `swapout_impl`: how many of `requested` chunks
to compress and how many to store. -/
def allocateChunks (cfg : Config) (c : Core) (requested : Int) : Int × Int :=
  let maxComp := c.kv.maxCompChunks - cfg.perLayerBalance * cfg.numLayers
  let maxStore := c.kv.maxStoreChunks
  let wantComp := truncInt (cfg.f32.fl (requested * cfg.decompLoadRatio))
  let wantStore := requested - wantComp
  let compRoom := max 0 (maxComp - c.kv.nCurCompChunks)
  let storeRoom := max 0 (maxStore - c.kv.nCurStoreChunks)
  let addComp := min wantComp compRoom
  let addStore := min wantStore storeRoom
  let shortage := requested - (addComp + addStore)
  if shortage > 0 then
    let currentCompRoom := max 0 (maxComp - (c.kv.nCurCompChunks + addComp))
    let currentStoreRoom := max 0 (maxStore - (c.kv.nCurStoreChunks + addStore))
    let toStore :=
      if addComp < wantComp ∧ currentStoreRoom > 0 then
        min shortage (min (wantComp - addComp) currentStoreRoom)
      else 0
    let addStore := addStore + toStore
    let shortage := shortage - toStore
    let toComp :=
      if shortage > 0 ∧ addStore < wantStore ∧ currentCompRoom > 0 then
        min shortage (min (wantStore - addStore) currentCompRoom)
      else 0
    (addComp + toComp, addStore)
  else (addComp, addStore)

/-- Where `swapout_impl` stands: in one of its loops, or past its return. -/
inductive SwapoutPc where
  | phase1
  | phase2 (i : Nat)
  | phase3
  | returned (ratio : ℚ)
deriving DecidableEq, Repr

/-- The machine: the core, and the locals that live across iterations. -/
structure Swapout where
  core : Core
  processedChunks : Int
  initialCompChunks : Int
  initialStoreChunks : Int
  initialUnloadLayers : Int
  pc : SwapoutPc

/-- Entry of `swapout_impl`: growth parked while a ladder was in flight is folded
in, then the target is checked once. -/
def swapoutStart (cfg : Config) (target : ℚ) (c : Core) : Swapout :=
  let c := ({ c with kv := applyPendingGrowth cfg c.kv } : Core).followKv cfg
  { core := c
    processedChunks := c.kv.nCurCompChunks + c.kv.nCurStoreChunks
    initialCompChunks := c.kv.nCurCompChunks
    initialStoreChunks := c.kv.nCurStoreChunks
    initialUnloadLayers := c.nCurUnloadLayers
    pc := if c.curRatio cfg ≤ target then .returned (c.curRatio cfg) else .phase1 }

/-- Leaving phase 1: the stored files are closed and phase 2 starts. -/
def enterPhase2 (cfg : Config) (m : Swapout) : Swapout :=
  { m with
    core := { m.core with kv := mzcacheCloseStoredFiles m.core.kv }
    pc := .phase2 ((cfg.numLayers : Int) - m.initialUnloadLayers).toNat }

/-- The evictions of one phase 1 iteration. -/
def phase1Evict (cfg : Config) (io : Io) (c : Core) (addComp addStore : Int) : Core :=
  let kv := if addComp > 0 then (mzcacheCompressChunks cfg addComp.toNat c.kv).1 else c.kv
  let kv := if addStore > 0 then mzcacheStoreChunks cfg io addStore.toNat kv else kv
  { c with kv := kv }

/-- One iteration of phase 1. -/
def phase1Step (cfg : Config) (io : Io) (target : ℚ) (m : Swapout) : Swapout :=
  if m.processedChunks < m.core.boundChunks cfg then
    let remaining := m.core.totalChunks cfg - m.processedChunks
    let toProcess := min 20 remaining
    let add := allocateChunks cfg m.core toProcess
    let c := phase1Evict cfg io m.core add.1 add.2
    let m' := { m with
      core := c
      processedChunks := c.kv.nCurCompChunks + c.kv.nCurStoreChunks }
    if c.curRatio cfg ≤ target then
      { m' with
        core := { c with kv := mzcacheCloseStoredFiles c.kv }
        pc := .returned (c.curRatio cfg) }
    else if add.1 + add.2 = 0 then enterPhase2 cfg m'
    else m'
  else enterPhase2 cfg m

/-- Leaving phase 2: arenas are offloaded only once everything else is out. -/
def enterPhase3 (cfg : Config) (m : Swapout) : Swapout :=
  let c := m.core
  if c.totalChunks cfg - (c.kv.nCurCompChunks + c.kv.nCurStoreChunks) = 0 ∧
      c.nCurUnloadLayers = cfg.numLayers then
    { m with pc := .phase3 }
  else { m with pc := .returned (c.curRatio cfg) }

/-- The balance chunks that one phase 2 iteration compresses. -/
def phase2Compress (cfg : Config) (m : Swapout) : Core :=
  let remaining := m.core.totalChunks cfg - m.processedChunks
  let toProcess := min (cfg.perLayerBalance : Int) remaining
  { m.core with
    kv := if toProcess > 0 then (mzcacheCompressChunks cfg toProcess.toNat m.core.kv).1
      else m.core.kv }

/-- One iteration of phase 2, with `i` iterations left after it. -/
def phase2Step (cfg : Config) (io : Io) (target : ℚ) (i : Nat) (m : Swapout) : Swapout :=
  let u := mzcacheUnloadLayers io 1 (phase2Compress cfg m)
  if u.2 then
    let c := u.1
    let m' := { m with
      core := c
      processedChunks := c.kv.nCurCompChunks + c.kv.nCurStoreChunks }
    if c.curRatio cfg ≤ target then { m' with pc := .returned (c.curRatio cfg) }
    else if c.nCurUnloadLayers = cfg.numLayers ∧
        c.kv.nCurCompChunks + c.kv.nCurStoreChunks = c.totalChunks cfg then
      enterPhase3 cfg m'
    else { m' with pc := .phase2 i }
  else enterPhase3 cfg { m with core := u.1 }

/-- One iteration of phase 3. -/
def phase3Step (cfg : Config) (io : Io) (target : ℚ) (m : Swapout) : Swapout :=
  if 0 ≤ m.core.kv.nextLayerToOffload then
    let c := { m.core with kv := (mzcacheOffloadArenas io m.core.kv).1 }
    let m' := { m with core := c }
    if c.curRatio cfg ≤ target then { m' with pc := .returned (c.curRatio cfg) } else m'
  else { m with pc := .returned (m.core.curRatio cfg) }

/-- One step of `swapout_impl`. -/
def Swapout.step (cfg : Config) (io : Io) (target : ℚ) (m : Swapout) : Swapout :=
  match m.pc with
  | .phase1 => phase1Step cfg io target m
  | .phase2 0 => enterPhase3 cfg m
  | .phase2 (i + 1) => phase2Step cfg io target i m
  | .phase3 => phase3Step cfg io target m
  | .returned _ => m

/-- The machine after `k` steps. -/
def Swapout.run (cfg : Config) (io : Io) (target : ℚ) (k : Nat) (m : Swapout) : Swapout :=
  (Swapout.step cfg io target)^[k] m

/-- `swapout(target)` from `c` returns `ratio` and leaves `c'`. -/
def SwapoutReturns (cfg : Config) (io : Io) (target : ℚ) (c : Core) (ratio : ℚ) (c' : Core) :
    Prop :=
  ∃ k, let m := (swapoutStart cfg target c).run cfg io target k
    m.pc = .returned ratio ∧ m.core = c'

theorem Swapout.run_succ (cfg : Config) (io : Io) (target : ℚ) (k : Nat) (m : Swapout) :
    m.run cfg io target (k + 1) = (m.run cfg io target k).step cfg io target :=
  Function.iterate_succ_apply' _ _ _

end MzCache
