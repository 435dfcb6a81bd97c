import MzCache.Core.Accounting
import MzCache.Core.SwapoutProgress

/-!
# The planner

`mzcache_profile_chunks_layers` predicts what `swapout_impl` will evict for a target
without evicting anything. It walks the same two phases over three counters, with
its own `allocate_chunks` and with nominal factors for the compressed sizes.

The planner reads the target at the head of an iteration and the executor at its
end, so the two are compared between iterations: `Planned` relates the executor's
core to the planner's counters, and every iteration keeps it.
-/

namespace MzCache

open MzCache.Lib

/-- `COMP_FREED_NUM`. -/
def Config.compFreedNum (cfg : Config) : Int :=
  match cfg.backend with
  | .flexgen8bit => 15
  | .flexgen | .cachegen => 23

/-- `COMP_FREED_DEN`. -/
def compFreedDen : Int := 32

/-- `get_freed_bytes`. The division is that of `int64_t`, towards zero. -/
def getFreedBytes (cfg : Config) (nCurCompChunks nCurStoreChunks nCurUnloadLayers : Int) : Int :=
  (nCurCompChunks * cfg.chunkBytes * cfg.compFreedNum).tdiv compFreedDen +
    nCurStoreChunks * cfg.chunkBytes + cfg.weightLayerBytes * nCurUnloadLayers

/-- The working variables of `mzcache_profile_chunks_layers`. -/
structure Plan where
  compChunks : Int
  storeChunks : Int
  unloadLayers : Int
  processedChunks : Int
deriving DecidableEq, Repr

/-- The working variables at the start. -/
def Plan.start (c : Core) : Plan where
  compChunks := c.kv.nCurCompChunks
  storeChunks := c.kv.nCurStoreChunks
  unloadLayers := c.nCurUnloadLayers
  processedChunks := c.kv.nCurCompChunks + c.kv.nCurStoreChunks

/-- `cur_ratio` of the `check_target` lambda. -/
def Plan.ratio (cfg : Config) (c : Core) (p : Plan) : ℚ :=
  cfg.f32.fl (cfg.f64.fl (1 - cfg.f64.fl
    (getFreedBytes cfg p.compChunks p.storeChunks p.unloadLayers / c.fullBytes)))

/-- The `allocate_chunks` lambda of the planner. -/
def planAllocate (cfg : Config) (c : Core) (p : Plan) (requested : Int) : Int × Int :=
  let maxComp := c.kv.maxCompChunks - cfg.perLayerBalance * cfg.numLayers
  let maxStore := c.kv.maxStoreChunks
  let wantComp := truncInt (cfg.f32.fl (requested * cfg.decompLoadRatio))
  let wantStore := requested - wantComp
  let compRoom := max 0 (maxComp - p.compChunks)
  let storeRoom := max 0 (maxStore - p.storeChunks)
  let addComp := min wantComp compRoom
  let addStore := min wantStore storeRoom
  let shortage := requested - (addComp + addStore)
  if shortage > 0 then
    if addComp < wantComp ∧ storeRoom > addStore then
      (addComp, addStore + min shortage (storeRoom - addStore))
    else if addStore < wantStore ∧ compRoom > addComp then
      (addComp + min shortage (compRoom - addComp), addStore)
    else (addComp, addStore)
  else (addComp, addStore)

/-- `add_comp` and `add_store` chunks more. -/
def Plan.add (p : Plan) (addComp addStore : Int) : Plan :=
  { p with
    compChunks := p.compChunks + addComp
    storeChunks := p.storeChunks + addStore
    processedChunks := p.processedChunks + (addComp + addStore) }

/-- Phase 1 of the planner; the flag says that the target was reached. An iteration that
does not leave the loop adds a chunk, so the distance to `bound_chunks` is fuel enough. -/
def planPhase1 (cfg : Config) (target : ℚ) (c : Core) : Nat → Plan → Bool × Plan
  | 0, p => (false, p)
  | fuel + 1, p =>
      if p.processedChunks < c.boundChunks cfg then
        if p.ratio cfg c ≤ target then (true, p)
        else
          let remaining := c.totalChunks cfg - p.processedChunks
          let toProcess := min 20 remaining
          let add := planAllocate cfg c p toProcess
          if add.1 + add.2 = 0 then (false, p)
          else planPhase1 cfg target c fuel (p.add add.1 add.2)
      else (false, p)

/-- The chunks and the layer that one iteration of phase 2 adds. -/
def Plan.unload (cfg : Config) (c : Core) (p : Plan) : Plan :=
  let remaining := c.totalChunks cfg - p.processedChunks
  let toProcess := min (cfg.perLayerBalance : Int) remaining
  { p with
    compChunks := p.compChunks + toProcess
    unloadLayers := p.unloadLayers + 1
    processedChunks := p.processedChunks + toProcess }

/-- Phase 2 of the planner, with `i` iterations left. -/
def planPhase2 (cfg : Config) (target : ℚ) (c : Core) : Nat → Plan → Plan
  | 0, p => p
  | i + 1, p =>
      if p.ratio cfg c ≤ target then p else planPhase2 cfg target c i (p.unload cfg c)

/-- Both phases, phase 2 unless phase 1 reached the target. -/
def planPhases (cfg : Config) (target : ℚ) (c : Core) (fuel : Nat) (p : Plan) : Plan :=
  let r := planPhase1 cfg target c fuel p
  if r.1 then r.2 else planPhase2 cfg target c cfg.numLayers r.2

/-- `mzcache_profile_chunks_layers`: the ratio, and the chunks to compress, the chunks to
store and the layers to unload. -/
def mzcacheProfileChunksLayers (cfg : Config) (target : ℚ) (c : Core) : ℚ × Int × Int × Int :=
  let start := Plan.start c
  let p := planPhases cfg target c (c.boundChunks cfg - start.processedChunks).toNat start
  (p.ratio cfg c, p.compChunks, p.storeChunks, p.unloadLayers)

/-! ## Nominal and measured sizes -/

section

variable {cfg : Config} {io : Io} {c x : Core} {p : Plan}

/-- At a fixed rate the nominal factor is what a chunk saves. -/
theorem savedPerChunk_nominal (hf : cfg.FixedRate) (n : Int) :
    (n * cfg.chunkBytes * cfg.compFreedNum).tdiv compFreedDen = cfg.savedPerChunk * n := by
  have hchunk : (cfg.chunkBytes : Int) = 32 * (32 * cfg.kvHiddenDim) := by
    unfold Config.chunkBytes tokensPerChunk sizeofFp16
    push_cast
    ring
  have hdiv : (n * cfg.chunkBytes * cfg.compFreedNum).tdiv compFreedDen =
      n * (32 * cfg.kvHiddenDim) * cfg.compFreedNum := by
    rw [hchunk, show n * (32 * (32 * (cfg.kvHiddenDim : Int))) * cfg.compFreedNum =
      compFreedDen * (n * (32 * cfg.kvHiddenDim) * cfg.compFreedNum) by
        unfold compFreedDen
        ring]
    exact Int.mul_tdiv_cancel_left _ (by decide)
  have hsaved : cfg.savedPerChunk = 32 * cfg.kvHiddenDim * cfg.compFreedNum := by
    unfold Config.savedPerChunk Config.fixedBytes compressedBytes Config.compSize
      Config.sideBytes Config.compFreedNum Config.chunkBytes tokensPerChunk sizeofFp16
    rcases hf with h | h
    · rw [h]
      dsimp only
      omega
    · rw [h]
      dsimp only
      omega
  rw [hdiv, hsaved]
  ring

/-- The two distributions of a shortage are the same: at most one of the two shares falls
short while the other still has room. -/
theorem planAllocate_eq {n : Nat} (hn : n ≤ cfg.f32.limit)
    (hcomp : x.kv.nCurCompChunks = p.compChunks) (hstore : x.kv.nCurStoreChunks = p.storeChunks)
    (hmc : x.kv.maxCompChunks = c.kv.maxCompChunks)
    (hms : x.kv.maxStoreChunks = c.kv.maxStoreChunks) :
    planAllocate cfg c p n = allocateChunks cfg x n := by
  obtain ⟨h0, h1⟩ := wantComp_bounds cfg hn
  unfold planAllocate allocateChunks
  dsimp only
  rw [hcomp, hstore, hmc, hms]
  set w := truncInt (cfg.f32.fl (((n : Int) : ℚ) * cfg.decompLoadRatio))
  set a := c.kv.maxCompChunks - cfg.perLayerBalance * cfg.numLayers
  set b := c.kv.maxStoreChunks
  set nc := p.compChunks
  set ns := p.storeChunks
  split
  · split <;> split <;> split <;> (simp only [Prod.mk.injEq]; omega)
  · rfl

/-! ## Lock step -/

/-- The executor's core `x` stands where the planner does, both having started from `c`. -/
structure Planned (cfg : Config) (c x : Core) (p : Plan) : Prop where
  ok : CoreOk cfg x
  acct : Acct cfg x.kv
  noOffload : x.kv.nCurArenaOffloadBytes = 0
  full : x.fullBytes = c.fullBytes
  chunks : x.numChunksPerTensor = c.numChunksPerTensor
  maxComp : x.kv.maxCompChunks = c.kv.maxCompChunks
  maxStore : x.kv.maxStoreChunks = c.kv.maxStoreChunks
  comp : x.kv.nCurCompChunks = p.compChunks
  store : x.kv.nCurStoreChunks = p.storeChunks
  unloaded : x.nCurUnloadLayers = p.unloadLayers
  processed : p.processedChunks = p.compChunks + p.storeChunks

/-- Measured and nominal bytes give one ratio. -/
theorem Planned.ratio (hf : cfg.FixedRate) (h : Planned cfg c x p) :
    x.curRatio cfg = p.ratio cfg c := by
  have hfreed : x.currentFreed cfg =
      getFreedBytes cfg p.compChunks p.storeChunks p.unloadLayers := by
    unfold Core.currentFreed getFreedBytes
    rw [savedPerChunk_nominal hf, h.acct.saved, h.noOffload, h.comp, h.store, h.unloaded]
    ring
  unfold Core.curRatio Plan.ratio
  rw [hfreed, h.full]

theorem Planned.totalChunks (h : Planned cfg c x p) : x.totalChunks cfg = c.totalChunks cfg := by
  unfold Core.totalChunks
  rw [h.chunks]

theorem Planned.boundChunks (h : Planned cfg c x p) : x.boundChunks cfg = c.boundChunks cfg := by
  unfold Core.boundChunks
  rw [h.totalChunks]

theorem compressChunks_noOffload {s : KvState} (h : Ladder cfg s) (n : Nat)
    (hn : (n : Int) ≤ s.maxCompChunks - s.nCurCompChunks) :
    (mzcacheCompressChunks cfg n s).1.nCurArenaOffloadBytes = s.nCurArenaOffloadBytes :=
  (Ladder.compressChunks_rule
    (P := fun t => t.nCurArenaOffloadBytes = s.nCurArenaOffloadBytes)
    (fun _ _ ht _ => ht) (fun _ _ _ ht _ _ _ => ht) n s h rfl hn).1

theorem storeChunks_noOffload {s : KvState} (h : Ladder cfg s) (io : Io) (n : Nat)
    (hn : (n : Int) ≤ s.maxStoreChunks - s.nCurStoreChunks) :
    (mzcacheStoreChunks cfg io n s).nCurArenaOffloadBytes = s.nCurArenaOffloadBytes :=
  (Ladder.storeChunks_rule
    (P := fun t => t.nCurArenaOffloadBytes = s.nCurArenaOffloadBytes) io
    (fun _ _ _ _ ht _ => ht) (fun _ _ _ ht _ _ _ => ht) n s h rfl hn).1

theorem Acct.evictRun {c' : Core} (hf : cfg.FixedRate) (hok : CoreOk cfg c) (h : Acct cfg c.kv)
    (hr : EvictRun cfg io c c') : Acct cfg c'.kv :=
  (run_preserves (P := fun d => CoreOk cfg d ∧ Acct cfg d.kv)
    (fun _ _ hd hs => ⟨hd.1.step hs.ladder, hd.2.step hf hd.1 hs.ladder⟩) ⟨hok, h⟩ hr).2

/-- The evictions of one iteration of phase 1, when every store file opens. -/
theorem Planned.evict (hf : cfg.FixedRate) (h : Planned cfg c x p)
    (hio : ∀ t, (io .storeOpen t).opened) {a b : Int} (ha0 : 0 ≤ a)
    (ha : a ≤ x.kv.maxCompChunks - x.kv.nCurCompChunks) (hb0 : 0 ≤ b)
    (hb : b ≤ x.kv.maxStoreChunks - x.kv.nCurStoreChunks) :
    Planned cfg c (phase1Evict cfg io x a b) (p.add a b) := by
  have hev := h.ok.phase1Evict io ha0 ha hb0 hb
  have hoff : (phase1Evict cfg io x a b).kv.nCurArenaOffloadBytes = 0 := by
    have hc := h.ok.evictComp io ha0 ha
    have hlad := (h.ok.evictRun hc.run).ladder
    have hmax := hc.maxStore
    have hcur := hc.nStore hio
    unfold phase1Evict
    set kv := if a > 0 then (mzcacheCompressChunks cfg a.toNat x.kv).1 else x.kv with hkv
    have hoff : kv.nCurArenaOffloadBytes = 0 := by
      rw [hkv]
      split
      · rw [compressChunks_noOffload h.ok.ladder _ (by omega)]
        exact h.noOffload
      · exact h.noOffload
    dsimp only at hlad hmax hcur ⊢
    split
    · rw [storeChunks_noOffload hlad io _ (by omega)]
      exact hoff
    · exact hoff
  exact
    { ok := h.ok.evictRun hev.run
      acct := h.acct.evictRun hf h.ok hev.run
      noOffload := hoff
      full := h.full
      chunks := hev.chunks.trans h.chunks
      maxComp := hev.maxComp.trans h.maxComp
      maxStore := hev.maxStore.trans h.maxStore
      comp := by rw [hev.nComp, h.comp]; rfl
      store := by rw [hev.nStore hio, h.store]; rfl
      unloaded := hev.unloaded.trans h.unloaded
      processed := by
        have := h.processed
        simp only [Plan.add]
        omega }

/-- Unloading a layer whose dump is readable succeeds and leaves the KV cache alone. -/
theorem unloadLayers_one (hio : ∀ t, (io .weightDump t).opened) (x : Core) :
    mzcacheUnloadLayers io 1 x = ({ x with
      kv := { x.kv with tick := x.kv.tick + 1 + 1 }
      weightLoaded := Function.update x.weightLoaded x.curLayerIdxToUnload.toNat false
      curLayerIdxToUnload := x.curLayerIdxToUnload - 1
      nCurUnloadLayers := x.nCurUnloadLayers + 1 }, true) := by
  simp [mzcacheUnloadLayers, hio]

/-- One iteration of phase 2, when every dump is readable. -/
theorem Planned.unload (hf : cfg.FixedRate) {m : Swapout} {i : Nat} (h : Planned cfg c m.core p)
    (hm : SwapoutOk cfg m) (hpc : m.pc = .phase2 (i + 1))
    (hio : ∀ t, (io .weightDump t).opened) :
    Planned cfg c (mzcacheUnloadLayers io 1 (phase2Compress cfg m)).1 (p.unload cfg c) := by
  have hpcOk := hm.pc
  rw [hpc] at hpcOk
  obtain ⟨hproc, hi, hfull⟩ := hpcOk
  have htotal := h.ok.totalChunks
  have hnc := h.ok.ladder.nComp_le
  have hcm := h.totalChunks
  have hpp : m.processedChunks = p.processedChunks := by
    rw [hproc, h.comp, h.store, h.processed]
  set k := min (cfg.perLayerBalance : Int) (m.core.totalChunks cfg - m.processedChunks) with hk
  have hev : Evicted cfg io m.core (phase2Compress cfg m) k 0 :=
    h.ok.evictComp io (by omega) (by omega)
  have hok := h.ok.evictRun hev.run
  have hacct := h.acct.evictRun hf h.ok hev.run
  have hoff : (phase2Compress cfg m).kv.nCurArenaOffloadBytes = 0 := by
    unfold phase2Compress
    dsimp only
    rw [← hk]
    split
    · rw [compressChunks_noOffload h.ok.ladder _ (by omega)]
      exact h.noOffload
    · exact h.noOffload
  have hone : ((1 : Nat) : Int) ≤ (phase2Compress cfg m).curLayerIdxToUnload + 1 := by
    have h1 := hok.unloaded
    have h2 := hev.unloaded
    push_cast at hi ⊢
    omega
  have hok' := (CoreOk.unloadLayers io 1 hok hone).1
  rw [unloadLayers_one hio] at hok' ⊢
  exact
    { ok := hok'
      acct := hacct.keep rfl rfl
      noOffload := hoff
      full := h.full
      chunks := h.chunks
      maxComp := hev.maxComp.trans h.maxComp
      maxStore := hev.maxStore.trans h.maxStore
      comp := by
        show (phase2Compress cfg m).kv.nCurCompChunks = _
        rw [hev.nComp, h.comp, hk, hcm, hpp]
        rfl
      store := by
        show (phase2Compress cfg m).kv.nCurStoreChunks = _
        have h1 := hev.nStore_ge
        have h2 := hev.nStore_le
        have h3 := h.store
        simp only [Plan.unload]
        omega
      unloaded := by
        show (phase2Compress cfg m).nCurUnloadLayers + 1 = _
        rw [hev.unloaded, h.unloaded]
        rfl
      processed := by
        have := h.processed
        simp only [Plan.unload]
        omega }

/-! ## Both phases -/

/-- Still in phase 1 or phase 2. -/
def Swapout.Evicting (m : Swapout) : Prop := m.pc = .phase1 ∨ ∃ i, m.pc = .phase2 i

/-- When the machine leaves phase 2, it stands where the planner ended. -/
def EndsAt (cfg : Config) (io : Io) (target : ℚ) (c : Core) (m : Swapout) (p : Plan) : Prop :=
  ∃ k, (∀ j < k, (m.run cfg io target j).Evicting) ∧ ¬ (m.run cfg io target k).Evicting ∧
    Planned cfg c (m.run cfg io target k).core p

theorem EndsAt.here {target : ℚ} {m : Swapout} (hpc : ¬ m.Evicting)
    (h : Planned cfg c m.core p) : EndsAt cfg io target c m p :=
  ⟨0, fun j hj => absurd hj (Nat.not_lt_zero j), hpc, h⟩

theorem EndsAt.after {target : ℚ} {m : Swapout} (hpc : m.Evicting)
    (h : EndsAt cfg io target c (m.step cfg io target) p) : EndsAt cfg io target c m p := by
  obtain ⟨k, hin, hout, hp⟩ := h
  have hshift : ∀ j, m.run cfg io target (j + 1) =
      (m.step cfg io target).run cfg io target j := by
    intro j
    rw [Nat.add_comm, Swapout.run_add, Swapout.run_one]
  refine ⟨k + 1, ?_, ?_, ?_⟩
  · intro j hj
    cases j with
    | zero => exact hpc
    | succ j =>
        rw [hshift]
        exact hin j (by omega)
  · rw [hshift]
    exact hout
  · rw [hshift]
    exact hp

theorem Swapout.not_evicting_returned {m : Swapout} {ratio : ℚ} (h : m.pc = .returned ratio) :
    ¬ m.Evicting := by
  unfold Swapout.Evicting
  simp [h]

theorem enterPhase3_not_evicting (m : Swapout) : ¬ (enterPhase3 cfg m).Evicting := by
  unfold enterPhase3 Swapout.Evicting
  dsimp only
  split
  · simp
  · simp

/-- A plan that reached the target is final. -/
theorem planPhase2_reached {target : ℚ} (h : p.ratio cfg c ≤ target) (i : Nat) :
    planPhase2 cfg target c i p = p := by
  cases i with
  | zero => rfl
  | succ i => exact if_pos h

theorem planPhases_reached {target : ℚ} (h : p.ratio cfg c ≤ target) (fuel : Nat) :
    planPhases cfg target c fuel p = p := by
  have hphase1 : (planPhase1 cfg target c fuel p).2 = p := by
    cases fuel with
    | zero => rfl
    | succ fuel =>
        unfold planPhase1
        rw [if_pos h]
        split
        · rfl
        · rfl
  unfold planPhases
  dsimp only
  rw [hphase1, planPhase2_reached h, ite_self]

/-- An iteration of the planner's phase 1. -/
theorem planPhases_succ {target : ℚ} (fuel : Nat) (habove : ¬ p.ratio cfg c ≤ target)
    (hmore : p.processedChunks < c.boundChunks cfg) {add : Int × Int}
    (hadd : planAllocate cfg c p (min 20 (c.totalChunks cfg - p.processedChunks)) = add) :
    planPhases cfg target c (fuel + 1) p =
      if add.1 + add.2 = 0 then planPhase2 cfg target c cfg.numLayers p
      else planPhases cfg target c fuel (p.add add.1 add.2) := by
  unfold planPhases
  rw [planPhase1, if_pos hmore, if_neg habove]
  dsimp only
  rw [hadd]
  split
  · rfl
  · rfl

/-- Past the bound phase 1 is over. -/
theorem planPhases_past {target : ℚ} (fuel : Nat)
    (hpast : ¬ p.processedChunks < c.boundChunks cfg) :
    planPhases cfg target c fuel p = planPhase2 cfg target c cfg.numLayers p := by
  unfold planPhases
  cases fuel with
  | zero => rfl
  | succ fuel => rw [planPhase1, if_neg hpast]; rfl

/-- Phase 2 in lock step. Induction on the iterations left; the executor's own exit, once
everything is out, comes with its last iteration. -/
theorem Planned.phase2 (hf : cfg.FixedRate) (hio : ∀ t, (io .weightDump t).opened)
    (target : ℚ) (i : Nat) :
    ∀ (m : Swapout) (p : Plan), SwapoutOk cfg m → m.pc = .phase2 i → Planned cfg c m.core p →
      ¬ p.ratio cfg c ≤ target → EndsAt cfg io target c m (planPhase2 cfg target c i p) := by
  induction i with
  | zero =>
      intro m p _ hpc h _
      have hstep : m.step cfg io target = enterPhase3 cfg m := by
        unfold Swapout.step
        rw [hpc]
      refine EndsAt.after (Or.inr ⟨0, hpc⟩) ?_
      rw [hstep]
      exact EndsAt.here (enterPhase3_not_evicting m) (by rw [enterPhase3_core]; exact h)
  | succ i ih =>
      intro m p hm hpc h habove
      have hnext := h.unload hf hm hpc hio
      have hratio := hnext.ratio hf
      have hok := (hm.step io target).1
      have hsteps : m.step cfg io target = phase2Step cfg io target i m := by
        unfold Swapout.step
        rw [hpc]
      have hlast : (mzcacheUnloadLayers io 1 (phase2Compress cfg m)).1.nCurUnloadLayers =
          cfg.numLayers → i = 0 := by
        intro hall
        have hpcOk := hm.pc
        rw [hpc] at hpcOk
        have h1 := hpcOk.2.1
        have h2 := h.unloaded
        have h3 := hnext.unloaded
        simp only [Plan.unload] at h3
        push_cast at h1
        omega
      have hdone : (mzcacheUnloadLayers io 1 (phase2Compress cfg m)).2 = true := by
        rw [unloadLayers_one hio]
      unfold planPhase2
      rw [if_neg habove]
      refine EndsAt.after (Or.inr ⟨i + 1, hpc⟩) ?_
      rw [hsteps] at hok ⊢
      unfold phase2Step at hok ⊢
      dsimp only at hok ⊢
      rw [if_pos hdone] at hok ⊢
      by_cases hreach : (p.unload cfg c).ratio cfg c ≤ target
      · rw [if_pos (by rw [hratio]; exact hreach), planPhase2_reached hreach]
        exact EndsAt.here (Swapout.not_evicting_returned rfl) hnext
      · rw [if_neg (by rw [hratio]; exact hreach)] at hok ⊢
        split
        · rename_i hall
          rw [hlast hall.1]
          exact EndsAt.here (enterPhase3_not_evicting _)
            (by rw [enterPhase3_core]; exact hnext)
        · rename_i hmore
          rw [if_neg hmore] at hok
          exact ih _ _ hok rfl hnext hreach

theorem Planned.processed_eq {m : Swapout} (h : Planned cfg c m.core p) (hm : SwapoutOk cfg m)
    (hpc : m.pc = .phase1) : m.processedChunks = p.processedChunks := by
  have hok := hm.pc
  rw [hpc] at hok
  rw [hok.1, h.comp, h.store, h.processed]

theorem phase1_step {m : Swapout} {target : ℚ} (hpc : m.pc = .phase1) :
    m.step cfg io target = phase1Step cfg io target m := by
  unfold Swapout.step
  rw [hpc]

/-- Planner and executor divide the next chunks alike. -/
theorem Planned.toAdd {m : Swapout} (h : Planned cfg c m.core p)
    (hproc : m.processedChunks = p.processedChunks)
    (hmore : p.processedChunks < c.boundChunks cfg) :
    planAllocate cfg c p (min 20 (c.totalChunks cfg - p.processedChunks)) = m.toAdd cfg := by
  have hbal : (0 : Int) ≤ cfg.perLayerBalance * cfg.numLayers := by positivity
  unfold Core.boundChunks at hmore
  set n := (min 20 (c.totalChunks cfg - p.processedChunks)).toNat with hn
  have hcast : min 20 (c.totalChunks cfg - p.processedChunks) = (n : Int) := by omega
  have hlim : n ≤ cfg.f32.limit := by
    have := cfg.limit_ge
    unfold maxChunksPerTensor at this
    omega
  unfold Swapout.toAdd
  rw [h.totalChunks, hproc, hcast]
  exact planAllocate_eq hlim h.comp h.store h.maxComp h.maxStore

/-- Phase 1 in lock step. Induction on the chunks left to the bound. -/
theorem Planned.phase1 (hf : cfg.FixedRate) (hstore : ∀ t, (io .storeOpen t).opened)
    (hdump : ∀ t, (io .weightDump t).opened) (target : ℚ) (fuel : Nat) :
    ∀ (m : Swapout) (p : Plan), SwapoutOk cfg m → m.pc = .phase1 → m.initialUnloadLayers = 0 →
      Planned cfg c m.core p → ¬ p.ratio cfg c ≤ target →
      c.boundChunks cfg - p.processedChunks ≤ fuel →
      EndsAt cfg io target c m (planPhases cfg target c fuel p) := by
  -- leaving phase 1 with the target still ahead, at once or past the bound
  have hleave : ∀ (m : Swapout) (p : Plan), SwapoutOk cfg (enterPhase2 cfg m) →
      m.initialUnloadLayers = 0 → Planned cfg c m.core p → ¬ p.ratio cfg c ≤ target →
      EndsAt cfg io target c (enterPhase2 cfg m) (planPhase2 cfg target c cfg.numLayers p) := by
    intro m p hok hzero h habove
    have hpc : (enterPhase2 cfg m).pc = .phase2 cfg.numLayers := by
      simp [enterPhase2, hzero]
    have hcore : Planned cfg c (enterPhase2 cfg m).core p :=
      { h with
        ok := hok.core
        acct := h.acct.keep rfl rfl }
    exact Planned.phase2 hf hdump target _ _ _ hok hpc hcore habove
  have hpast : ∀ (fuel : Nat) (m : Swapout) (p : Plan), SwapoutOk cfg m → m.pc = .phase1 →
      m.initialUnloadLayers = 0 → Planned cfg c m.core p → ¬ p.ratio cfg c ≤ target →
      ¬ p.processedChunks < c.boundChunks cfg →
      EndsAt cfg io target c m (planPhases cfg target c fuel p) := by
    intro fuel m p hm hpc hzero h habove hge
    have hok := (hm.step io target).1
    have hge' : ¬ m.processedChunks < m.core.boundChunks cfg := by
      rw [h.boundChunks, h.processed_eq hm hpc]
      exact hge
    rw [planPhases_past fuel hge]
    refine EndsAt.after (Or.inl hpc) ?_
    rw [phase1_step hpc, phase1Step, if_neg hge'] at hok ⊢
    exact hleave m p hok hzero h habove
  induction fuel with
  | zero =>
      intro m p hm hpc hzero h habove hfuel
      exact hpast 0 m p hm hpc hzero h habove (by push_cast at hfuel; omega)
  | succ fuel ih =>
      intro m p hm hpc hzero h habove hfuel
      by_cases hmore : p.processedChunks < c.boundChunks cfg
      · have hproc := h.processed_eq hm hpc
        have hmore' : m.processedChunks < m.core.boundChunks cfg := by
          rw [h.boundChunks, hproc]
          exact hmore
        obtain ⟨ha0, ha, hb0, hb⟩ := hm.toAdd_spec hmore'
        rw [planPhases_succ fuel habove hmore (h.toAdd hproc hmore)]
        have hok := (hm.step io target).1
        refine EndsAt.after (Or.inl hpc) ?_
        rw [phase1_step hpc, phase1Step, if_pos hmore'] at hok ⊢
        dsimp only at hok ⊢
        rw [show allocateChunks cfg m.core
          (min 20 (m.core.totalChunks cfg - m.processedChunks)) = m.toAdd cfg from rfl] at hok ⊢
        set a := (m.toAdd cfg).1
        set b := (m.toAdd cfg).2
        have hnext := h.evict hf hstore ha0 ha hb0 hb
        have hratio := hnext.ratio hf
        by_cases hnone : a + b = 0
        · -- no room: nothing was evicted, and the target is as far as before
          have hsame : p.add a b = p := by
            rw [show a = 0 by omega, show b = 0 by omega]
            simp [Plan.add]
          rw [hsame] at hnext hratio
          rw [if_neg (by rw [hratio]; exact habove)] at hok ⊢
          rw [if_pos hnone] at hok
          simp only [if_pos hnone]
          exact hleave _ p hok hzero hnext habove
        · by_cases hreach : (p.add a b).ratio cfg c ≤ target
          · rw [if_pos (by rw [hratio]; exact hreach)] at hok ⊢
            rw [if_neg hnone, planPhases_reached hreach]
            exact EndsAt.here (Swapout.not_evicting_returned rfl)
              { hnext with
                ok := hok.core
                acct := hnext.acct.keep rfl rfl }
          · rw [if_neg (by rw [hratio]; exact hreach)] at hok ⊢
            rw [if_neg hnone] at hok
            simp only [if_neg hnone]
            refine ih _ _ hok hpc hzero hnext hreach ?_
            simp only [Plan.add]
            push_cast at hfuel
            omega
      · exact hpast _ m p hm hpc hzero h habove hmore

end

end MzCache
