import MzCache.Core.LadderSteps
import MzCache.Lib.TSys

/-!
# Swapout as a sequence of ladder steps

`swapout_impl` never asks for more than there is: phase 1 keeps the balance chunks
back, and phase 2, which takes them, is reached only when every store region is
exhausted. `PhaseOk` is what makes this true across calls; `SwapoutOk` carries it
through one call, for any outcome of the system calls.
-/

namespace MzCache

open MzCache.Lib

/-- The balance chunks are still raw, or the store regions are exhausted. -/
def PhaseOk (cfg : Config) (s : KvState) : Prop :=
  s.nCurCompChunks ≤ s.maxCompChunks - cfg.perLayerBalance * cfg.numLayers ∨
    s.nCurStoreChunks = s.maxStoreChunks

section

variable {cfg : Config} {s s' : KvState}

theorem Ladder.total (h : Ladder cfg s) :
    s.maxCompChunks + s.maxStoreChunks = s.numChunksPerTensor * cfg.numLayers := by
  rw [h.maxComp, h.maxStore, h.bound]
  exact chunkBounds_total cfg _

/-- With nothing evicted swapout may start. -/
theorem Ladder.phaseOk_of_clean (h : Ladder cfg s) (hnc : s.nCurCompChunks = 0)
    (hns : s.nCurStoreChunks = 0) : PhaseOk cfg s := by
  have hbal := maxComp_ge_balance cfg h.chunks_le
  rw [← h.bound, ← h.maxComp] at hbal
  have htotal := h.total
  have hle := h.nStore_le
  unfold PhaseOk
  unfold nWeightBalanceChunks at hbal
  rcases min_choice (cfg.perLayerBalance * cfg.numLayers)
    (s.numChunksPerTensor * cfg.numLayers) with hmin | hmin
  · rw [hmin] at hbal
    push_cast at hbal
    exact Or.inl (by omega)
  · rw [hmin] at hbal
    push_cast at hbal
    exact Or.inr (by omega)

theorem PhaseOk.of_counts (h : PhaseOk cfg s) (hc : s'.nCurCompChunks = s.nCurCompChunks)
    (hs : s'.nCurStoreChunks = s.nCurStoreChunks) (hmc : s'.maxCompChunks = s.maxCompChunks)
    (hms : s'.maxStoreChunks = s.maxStoreChunks) : PhaseOk cfg s' := by
  unfold PhaseOk
  rw [hc, hs, hmc, hms]
  exact h

theorem PhaseOk.of_view (h : PhaseOk cfg s) (hv : s'.view = s.view) : PhaseOk cfg s' :=
  h.of_counts (congrArg LadderView.nCurCompChunks hv) (congrArg LadderView.nCurStoreChunks hv)
    (congrArg LadderView.maxCompChunks hv) (congrArg LadderView.maxStoreChunks hv)

/-- Growth keeps the condition: it changes the plan only when nothing is evicted. -/
theorem PhaseOk.regrown (h : Ladder cfg s) (hp : PhaseOk cfg s) (hg : Regrown cfg s s') :
    PhaseOk cfg s' := by
  have hc : s'.nCurCompChunks = s.nCurCompChunks := by
    rw [hg.ladder.nComp, h.nComp, hg.comp]
  have hs : s'.nCurStoreChunks = s.nCurStoreChunks := by
    rw [hg.ladder.nStore, h.nStore, hg.store]
  rcases hg.plan with hn | ⟨hcb, hsb⟩
  · have hbound : s'.chunkBound = s.chunkBound := by rw [hg.ladder.bound, h.bound, hn]
    refine hp.of_counts hc hs ?_ ?_
    · rw [hg.ladder.maxComp, h.maxComp, hbound]
    · rw [hg.ladder.maxStore, h.maxStore, hbound, hn]
  · refine hg.ladder.phaseOk_of_clean ?_ ?_
    · rw [hc, h.nComp, hcb]
      rfl
    · rw [hs, h.nStore, hsb]
      rfl

end

/-! ## `allocate_chunks` -/

/-- Room for compressing that phase 1 may use. -/
def compRoom (cfg : Config) (c : Core) : Int :=
  max 0 (c.kv.maxCompChunks - cfg.perLayerBalance * cfg.numLayers - c.kv.nCurCompChunks)

/-- Room for storing. -/
def storeRoom (c : Core) : Int := max 0 (c.kv.maxStoreChunks - c.kv.nCurStoreChunks)

section

variable {cfg : Config} {c : Core}

theorem wantComp_bounds (cfg : Config) {n : Nat} (hn : n ≤ cfg.f32.limit) :
    0 ≤ truncInt (cfg.f32.fl (((n : Int) : ℚ) * cfg.decompLoadRatio)) ∧
      truncInt (cfg.f32.fl (((n : Int) : ℚ) * cfg.decompLoadRatio)) ≤ n := by
  rw [Int.cast_natCast]
  obtain ⟨h0, h1⟩ := cfg.f32.mul_bounds hn cfg.ratio_nonneg cfg.ratio_le_one
  have := truncInt_bounds (a := 0) (b := n) (by simpa using h0) h1
  exact_mod_cast this

/-- `allocate_chunks` uses as much room as is asked for, and never more than there is. -/
theorem allocateChunks_spec (cfg : Config) {n : Nat} (hn : n ≤ cfg.f32.limit) :
    0 ≤ (allocateChunks cfg c n).1 ∧ (allocateChunks cfg c n).1 ≤ compRoom cfg c ∧
      0 ≤ (allocateChunks cfg c n).2 ∧ (allocateChunks cfg c n).2 ≤ storeRoom c ∧
      (allocateChunks cfg c n).1 + (allocateChunks cfg c n).2 =
        min (n : Int) (compRoom cfg c + storeRoom c) := by
  obtain ⟨h0, h1⟩ := wantComp_bounds cfg hn
  unfold allocateChunks compRoom storeRoom
  dsimp only
  set w := truncInt (cfg.f32.fl (((n : Int) : ℚ) * cfg.decompLoadRatio))
  set a := c.kv.maxCompChunks - cfg.perLayerBalance * cfg.numLayers
  set b := c.kv.maxStoreChunks
  split
  · split <;> split <;> (dsimp only; omega)
  · dsimp only
    omega

end

/-! ## One iteration -/

/-- A finite run of ladder steps. -/
abbrev LadderRun (cfg : Config) (io : Io) : Core → Core → Prop :=
  Relation.ReflTransGen (LadderStep cfg io)

/-- Nothing is left to compress or to store. -/
def KvState.AllOut (s : KvState) : Prop :=
  s.nCurCompChunks = s.maxCompChunks ∧ s.nCurStoreChunks = s.maxStoreChunks

/-- The ladder steps `swapout_impl` is made of. It offloads arenas only once everything else
is out. -/
inductive EvictStep (cfg : Config) (io : Io) (c : Core) : Core → Prop
  | compress (n : Nat) (h : (n : Int) ≤ c.kv.maxCompChunks - c.kv.nCurCompChunks) :
      EvictStep cfg io c { c with kv := (mzcacheCompressChunks cfg n c.kv).1 }
  | store (n : Nat) (h : (n : Int) ≤ c.kv.maxStoreChunks - c.kv.nCurStoreChunks) :
      EvictStep cfg io c { c with kv := mzcacheStoreChunks cfg io n c.kv }
  | closeStoredFiles : EvictStep cfg io c { c with kv := mzcacheCloseStoredFiles c.kv }
  | unload (n : Nat) (h : (n : Int) ≤ c.curLayerIdxToUnload + 1) :
      EvictStep cfg io c (mzcacheUnloadLayers io n c).1
  | offload (h : c.kv.AllOut) :
      EvictStep cfg io c { c with kv := (mzcacheOffloadArenas io c.kv).1 }
  | foldGrowth : EvictStep cfg io c
      (({ c with kv := applyPendingGrowth cfg c.kv } : Core).followKv cfg)

/-- A finite run of them. -/
abbrev EvictRun (cfg : Config) (io : Io) : Core → Core → Prop :=
  Relation.ReflTransGen (EvictStep cfg io)

section

variable {cfg : Config} {io : Io} {c : Core}

theorem EvictStep.ladder {c' : Core} (h : EvictStep cfg io c c') : LadderStep cfg io c c' := by
  cases h with
  | compress n h => exact .compress n h
  | store n h => exact .store n h
  | closeStoredFiles => exact .closeStoredFiles
  | unload n h => exact .unload n h
  | offload _ => exact .offload
  | foldGrowth => exact .foldGrowth

theorem CoreOk.evictRun {c' : Core} (h : CoreOk cfg c) (hr : EvictRun cfg io c c') :
    CoreOk cfg c' :=
  run_preserves (P := CoreOk cfg) (fun _ _ hc hs => hc.step hs.ladder) h hr

theorem CoreOk.run {c' : Core} (h : CoreOk cfg c) (hr : LadderRun cfg io c c') : CoreOk cfg c' :=
  run_preserves (P := CoreOk cfg) (fun _ _ hc hs => hc.step hs) h hr

/-- `total_chunks` is what the two regions hold. -/
theorem CoreOk.totalChunks (h : CoreOk cfg c) :
    c.totalChunks cfg = c.kv.maxCompChunks + c.kv.maxStoreChunks := by
  unfold Core.totalChunks
  rw [h.ladder.total, h.follow]

/-- What the evictions of one phase 1 iteration do to the counters. -/
structure Evicted (cfg : Config) (io : Io) (c c' : Core) (a b : Int) : Prop where
  run : EvictRun cfg io c c'
  nComp : c'.kv.nCurCompChunks = c.kv.nCurCompChunks + a
  nStore_ge : c.kv.nCurStoreChunks ≤ c'.kv.nCurStoreChunks
  nStore_le : c'.kv.nCurStoreChunks ≤ c.kv.nCurStoreChunks + b
  nStore : (∀ t, (io .storeOpen t).opened) → c'.kv.nCurStoreChunks = c.kv.nCurStoreChunks + b
  maxComp : c'.kv.maxCompChunks = c.kv.maxCompChunks
  maxStore : c'.kv.maxStoreChunks = c.kv.maxStoreChunks
  chunks : c'.numChunksPerTensor = c.numChunksPerTensor
  unloaded : c'.nCurUnloadLayers = c.nCurUnloadLayers

/-- Compressing `a` chunks, where `a ≤ 0` compresses none. -/
theorem CoreOk.evictComp (h : CoreOk cfg c) (io : Io) {a : Int} (h0 : 0 ≤ a)
    (ha : a ≤ c.kv.maxCompChunks - c.kv.nCurCompChunks) :
    Evicted cfg io c { c with kv :=
      if a > 0 then (mzcacheCompressChunks cfg a.toNat c.kv).1 else c.kv } a 0 := by
  split
  · have hle : (a.toNat : Int) ≤ c.kv.maxCompChunks - c.kv.nCurCompChunks := by omega
    obtain ⟨new, hlen, hm⟩ := h.ladder.compressChunks a.toNat hle
    have hc := hm.ladder.nComp
    have hs := hm.ladder.nStore
    have hc0 := h.ladder.nComp
    have hs0 := h.ladder.nStore
    rw [hm.comp, List.length_append, hlen] at hc
    rw [hm.store] at hs
    push_cast at hc
    exact
      { run := .single (.compress a.toNat hle)
        nComp := by simp only; omega
        nStore_ge := by simp only; omega
        nStore_le := by simp only; omega
        nStore := fun _ => by simp only; omega
        maxComp := hm.maxComp h.ladder
        maxStore := hm.maxStore h.ladder
        chunks := rfl
        unloaded := rfl }
  · have hz : a = 0 := by omega
    subst hz
    exact ⟨.refl, by simp, le_rfl, by simp, fun _ => by simp, rfl, rfl, rfl, rfl⟩

/-- Storing `b` chunks, where `b ≤ 0` stores none. -/
theorem CoreOk.evictStore (h : CoreOk cfg c) (io : Io) {b : Int} (h0 : 0 ≤ b)
    (hb : b ≤ c.kv.maxStoreChunks - c.kv.nCurStoreChunks) :
    Evicted cfg io c { c with kv :=
      if b > 0 then mzcacheStoreChunks cfg io b.toNat c.kv else c.kv } 0 b := by
  split
  · have hle : (b.toNat : Int) ≤ c.kv.maxStoreChunks - c.kv.nCurStoreChunks := by omega
    obtain ⟨new, hlen, hall, hm⟩ := h.ladder.storeChunks io b.toNat hle
    have hc := hm.ladder.nComp
    have hs := hm.ladder.nStore
    have hc0 := h.ladder.nComp
    have hs0 := h.ladder.nStore
    rw [hm.comp] at hc
    rw [hm.store, List.length_append] at hs
    push_cast at hs
    exact
      { run := .single (.store b.toNat hle)
        nComp := by simp only; omega
        nStore_ge := by simp only; omega
        nStore_le := by simp only; omega
        nStore := fun hio => by have := hall hio; simp only; omega
        maxComp := hm.maxComp h.ladder
        maxStore := hm.maxStore h.ladder
        chunks := rfl
        unloaded := rfl }
  · have hz : b = 0 := by omega
    subst hz
    exact ⟨.refl, by simp, le_rfl, by simp, fun _ => by simp, rfl, rfl, rfl, rfl⟩

theorem CoreOk.phase1Evict (h : CoreOk cfg c) (io : Io) {a b : Int} (ha0 : 0 ≤ a)
    (ha : a ≤ c.kv.maxCompChunks - c.kv.nCurCompChunks) (hb0 : 0 ≤ b)
    (hb : b ≤ c.kv.maxStoreChunks - c.kv.nCurStoreChunks) :
    Evicted cfg io c (phase1Evict cfg io c a b) a b := by
  have h1 := h.evictComp io ha0 ha
  have hok := h.evictRun h1.run
  have hsame : ({ c with kv :=
      if a > 0 then (mzcacheCompressChunks cfg a.toNat c.kv).1 else c.kv } : Core).kv.nCurStoreChunks
      = c.kv.nCurStoreChunks := le_antisymm (by have := h1.nStore_le; omega) h1.nStore_ge
  have h2 := hok.evictStore io hb0 (by rw [h1.maxStore, hsame]; exact hb)
  exact
    { run := h1.run.trans h2.run
      nComp := by have := h2.nComp; rw [h1.nComp, add_zero] at this; exact this
      nStore_ge := le_trans h1.nStore_ge h2.nStore_ge
      nStore_le := by have := h2.nStore_le; rw [hsame] at this; exact this
      nStore := fun hio => by have := h2.nStore hio; rw [hsame] at this; exact this
      maxComp := h2.maxComp.trans h1.maxComp
      maxStore := h2.maxStore.trans h1.maxStore
      chunks := rfl
      unloaded := rfl }

/-- What holds of the machine at every loop head. -/
def SwapoutPc.Ok (cfg : Config) (m : Swapout) : SwapoutPc → Prop
  | .phase1 =>
      m.processedChunks = m.core.kv.nCurCompChunks + m.core.kv.nCurStoreChunks ∧
      m.initialUnloadLayers = m.core.nCurUnloadLayers ∧ PhaseOk cfg m.core.kv
  | .phase2 i =>
      m.processedChunks = m.core.kv.nCurCompChunks + m.core.kv.nCurStoreChunks ∧
      (i : Int) = cfg.numLayers - m.core.nCurUnloadLayers ∧
      m.core.kv.nCurStoreChunks = m.core.kv.maxStoreChunks
  | .phase3 => m.core.kv.AllOut
  | .returned _ => PhaseOk cfg m.core.kv

/-- The machine's invariant. -/
structure SwapoutOk (cfg : Config) (m : Swapout) : Prop where
  core : CoreOk cfg m.core
  pc : m.pc.Ok cfg m

theorem CoreOk.unloaded_le (h : CoreOk cfg c) : c.nCurUnloadLayers ≤ cfg.numLayers := by
  have h1 := h.unloaded
  have h2 := h.unloadLow
  omega

/-- Phase 2 starts with the store regions exhausted. -/
theorem SwapoutOk.enterPhase2 (io : Io) {m : Swapout} (h : CoreOk cfg m.core)
    (hproc : m.processedChunks = m.core.kv.nCurCompChunks + m.core.kv.nCurStoreChunks)
    (hun : m.initialUnloadLayers = m.core.nCurUnloadLayers)
    (hfull : m.core.kv.nCurStoreChunks = m.core.kv.maxStoreChunks) :
    SwapoutOk cfg (enterPhase2 cfg m) ∧
      EvictRun cfg io m.core (enterPhase2 cfg m).core := by
  have hle := h.unloaded_le
  have hstep : EvictStep cfg io m.core (MzCache.enterPhase2 cfg m).core := .closeStoredFiles
  refine ⟨⟨h.step hstep.ladder, hproc, ?_, hfull⟩, .single hstep⟩
  simp only [MzCache.enterPhase2]
  omega

theorem SwapoutOk.enterPhase3 {m : Swapout} (h : CoreOk cfg m.core)
    (hfull : m.core.kv.nCurStoreChunks = m.core.kv.maxStoreChunks) :
    SwapoutOk cfg (enterPhase3 cfg m) ∧ (enterPhase3 cfg m).core = m.core := by
  unfold MzCache.enterPhase3
  dsimp only
  split
  · rename_i hcond
    have htotal := h.totalChunks
    have hcomp : m.core.kv.nCurCompChunks = m.core.kv.maxCompChunks := by omega
    exact ⟨⟨h, hcomp, hfull⟩, rfl⟩
  · exact ⟨⟨h, Or.inr hfull⟩, rfl⟩

theorem SwapoutOk.phase1Step {m : Swapout} (target : ℚ) (h : SwapoutOk cfg m)
    (hpc : m.pc = .phase1) :
    SwapoutOk cfg (phase1Step cfg io target m) ∧
      EvictRun cfg io m.core (phase1Step cfg io target m).core := by
  have hok := h.pc
  rw [hpc] at hok
  obtain ⟨hproc, hun, hphase⟩ := hok
  have hcore := h.core
  have htotal := hcore.totalChunks
  have hnc := hcore.ladder.nComp_le
  have hns := hcore.ladder.nStore_le
  unfold MzCache.phase1Step
  split
  · rename_i hlt
    unfold Core.boundChunks at hlt
    dsimp only
    set n := (min 20 (m.core.totalChunks cfg - m.processedChunks)).toNat with hn
    have hbal : (0 : Int) ≤ cfg.perLayerBalance * cfg.numLayers := by positivity
    have hcast : min 20 (m.core.totalChunks cfg - m.processedChunks) = (n : Int) := by omega
    have hlim : n ≤ cfg.f32.limit := by
      have := cfg.limit_ge
      unfold maxChunksPerTensor at this
      omega
    rw [hcast]
    obtain ⟨ha0, ha, hb0, hb, hsum⟩ := allocateChunks_spec cfg (c := m.core) hlim
    set a := (allocateChunks cfg m.core n).1
    set b := (allocateChunks cfg m.core n).2
    unfold compRoom at ha hsum
    unfold storeRoom at hb hsum
    have hev := hcore.phase1Evict io (a := a) (b := b) ha0 (by omega) hb0 (by omega)
    set c' := MzCache.phase1Evict cfg io m.core a b
    have hcore' := hcore.evictRun hev.run
    have hphase' : PhaseOk cfg c'.kv := by
      have h1 := hev.nComp
      have h2 := hev.nStore_ge
      have h3 := hcore'.ladder.nStore_le
      have h4 := hev.maxComp
      have h5 := hev.maxStore
      unfold PhaseOk at hphase ⊢
      rcases hphase with hph | hph
      · exact Or.inl (by omega)
      · exact Or.inr (by omega)
    split
    · have hstep : EvictStep cfg io c' { c' with kv := mzcacheCloseStoredFiles c'.kv } :=
        .closeStoredFiles
      exact ⟨⟨hcore'.step hstep.ladder, hphase'⟩, hev.run.tail hstep⟩
    · split
      · -- nothing to add means no room, so the store regions are exhausted
        rename_i hzero
        have hfull : c'.kv.nCurStoreChunks = c'.kv.maxStoreChunks := by
          have h1 := hev.nStore_ge
          have h2 := hcore'.ladder.nStore_le
          have h3 := hev.maxStore
          omega
        obtain ⟨h1, h2⟩ := SwapoutOk.enterPhase2 io
          (m := { m with
            core := c'
            processedChunks := c'.kv.nCurCompChunks + c'.kv.nCurStoreChunks })
          hcore' rfl (hun.trans hev.unloaded.symm) hfull
        exact ⟨h1, hev.run.trans h2⟩
      · refine ⟨⟨hcore', ?_⟩, hev.run⟩
        simp only [hpc]
        exact ⟨rfl, hun.trans hev.unloaded.symm, hphase'⟩
  · rename_i hge
    refine SwapoutOk.enterPhase2 io hcore hproc hun ?_
    unfold Core.boundChunks at hge
    unfold PhaseOk at hphase
    omega

/-- When phase 1 has run to its end, all but the balance chunks are out. -/
theorem SwapoutOk.phase1_end {m : Swapout} (target : ℚ) (h : SwapoutOk cfg m)
    (hpc : m.pc = .phase1) {i : Nat} (hend : (MzCache.phase1Step cfg io target m).pc = .phase2 i) :
    (MzCache.phase1Step cfg io target m).core.boundChunks cfg ≤
      (MzCache.phase1Step cfg io target m).processedChunks := by
  have hok := h.pc
  rw [hpc] at hok
  obtain ⟨hproc, hun, hphase⟩ := hok
  have hcore := h.core
  have htotal := hcore.totalChunks
  have hns := hcore.ladder.nStore_le
  have hnc := hcore.ladder.nComp_le
  have hbal : (0 : Int) ≤ cfg.perLayerBalance * cfg.numLayers := by positivity
  unfold MzCache.phase1Step at hend ⊢
  split
  · rename_i hlt
    rw [if_pos hlt] at hend
    dsimp only at hend ⊢
    unfold Core.boundChunks at hlt
    set n := (min 20 (m.core.totalChunks cfg - m.processedChunks)).toNat with hn
    have hcast : min 20 (m.core.totalChunks cfg - m.processedChunks) = (n : Int) := by omega
    have hlim : n ≤ cfg.f32.limit := by
      have := cfg.limit_ge
      unfold maxChunksPerTensor at this
      omega
    rw [hcast] at hend ⊢
    obtain ⟨ha0, ha, hb0, hb, hsum⟩ := allocateChunks_spec cfg (c := m.core) hlim
    set a := (allocateChunks cfg m.core n).1
    set b := (allocateChunks cfg m.core n).2
    unfold compRoom at ha hsum
    unfold storeRoom at hb hsum
    have hev := hcore.phase1Evict io (a := a) (b := b) ha0 (by omega) hb0 (by omega)
    have hcount := hev.nComp
    have hstore := hev.nStore_ge
    have hchunks := hev.chunks
    split at hend
    · cases hend
    · split at hend
      · -- no room: everything but the balance chunks is out
        rename_i hreach hzero
        rw [if_neg hreach, if_pos hzero]
        have htot : (MzCache.phase1Evict cfg io m.core a b).totalChunks cfg =
            m.core.totalChunks cfg := by
          unfold Core.totalChunks
          rw [hchunks]
        show (MzCache.phase1Evict cfg io m.core a b).totalChunks cfg - _ ≤
          (MzCache.phase1Evict cfg io m.core a b).kv.nCurCompChunks +
            (MzCache.phase1Evict cfg io m.core a b).kv.nCurStoreChunks
        omega
      · rw [hpc] at hend
        cases hend
  · rename_i hge
    exact not_lt.mp hge

theorem SwapoutOk.phase2Step {m : Swapout} (target : ℚ) {i : Nat} (h : SwapoutOk cfg m)
    (hpc : m.pc = .phase2 (i + 1)) :
    SwapoutOk cfg (phase2Step cfg io target i m) ∧
      EvictRun cfg io m.core (phase2Step cfg io target i m).core := by
  have hok := h.pc
  rw [hpc] at hok
  obtain ⟨hproc, hi, hfull⟩ := hok
  have hcore := h.core
  have htotal := hcore.totalChunks
  have hnc := hcore.ladder.nComp_le
  unfold MzCache.phase2Step
  dsimp only
  -- what remains is in the compress regions
  set k := min (cfg.perLayerBalance : Int) (m.core.totalChunks cfg - m.processedChunks) with hk
  have hev : Evicted cfg io m.core (phase2Compress cfg m) k 0 :=
    hcore.evictComp io (by omega) (by omega)
  set c1 : Core := phase2Compress cfg m
  have hcore1 : CoreOk cfg c1 := hcore.evictRun hev.run
  have hfull1 : c1.kv.nCurStoreChunks = c1.kv.maxStoreChunks := by
    have h1 := hev.nStore_ge
    have h2 := hev.nStore_le
    have h3 := hev.maxStore
    omega
  have hunl := hcore1.unloaded
  have hun1 := hev.unloaded
  have hone : ((1 : Nat) : Int) ≤ c1.curLayerIdxToUnload + 1 := by
    push_cast at hi ⊢
    omega
  obtain ⟨hcore2, hview, hcount⟩ := CoreOk.unloadLayers io 1 hcore1 hone
  have hstep : EvictStep cfg io c1 (mzcacheUnloadLayers io 1 c1).1 := .unload 1 hone
  have hrun := hev.run.tail hstep
  set u := mzcacheUnloadLayers io 1 c1
  have hfull2 : u.1.kv.nCurStoreChunks = u.1.kv.maxStoreChunks :=
    (congrArg LadderView.nCurStoreChunks hview).trans
      (hfull1.trans (congrArg LadderView.maxStoreChunks hview).symm)
  split
  · rename_i hok
    split
    · exact ⟨⟨hcore2, Or.inr hfull2⟩, hrun⟩
    · split
      · obtain ⟨h1, h2⟩ := SwapoutOk.enterPhase3
          (m := { m with
            core := u.1
            processedChunks := u.1.kv.nCurCompChunks + u.1.kv.nCurStoreChunks })
          hcore2 hfull2
        refine ⟨h1, ?_⟩
        rw [h2]
        exact hrun
      · refine ⟨⟨hcore2, rfl, ?_, hfull2⟩, hrun⟩
        have := hcount hok
        simp only
        push_cast at hi this
        omega
  · obtain ⟨h1, h2⟩ := SwapoutOk.enterPhase3 (m := { m with core := u.1 }) hcore2 hfull2
    refine ⟨h1, ?_⟩
    rw [h2]
    exact hrun

theorem SwapoutOk.phase3Step {m : Swapout} (target : ℚ) (h : SwapoutOk cfg m)
    (hpc : m.pc = .phase3) :
    SwapoutOk cfg (phase3Step cfg io target m) ∧
      EvictRun cfg io m.core (phase3Step cfg io target m).core := by
  have hout := h.pc
  rw [hpc] at hout
  have hview := mzcacheOffloadArenas_view (s := m.core.kv) io
  have hstep : EvictStep cfg io m.core
      { m.core with kv := (mzcacheOffloadArenas io m.core.kv).1 } := .offload hout
  have hcore' := h.core.step hstep.ladder
  have hout' : (mzcacheOffloadArenas io m.core.kv).1.AllOut := by
    refine ⟨?_, ?_⟩
    · exact (congrArg LadderView.nCurCompChunks hview).trans
        (Eq.trans hout.1 (congrArg LadderView.maxCompChunks hview).symm)
    · exact (congrArg LadderView.nCurStoreChunks hview).trans
        (Eq.trans hout.2 (congrArg LadderView.maxStoreChunks hview).symm)
  unfold MzCache.phase3Step
  split
  · dsimp only
    split
    · exact ⟨⟨hcore', Or.inr hout'.2⟩, .single hstep⟩
    · refine ⟨⟨hcore', ?_⟩, .single hstep⟩
      simp only [hpc]
      exact hout'
  · exact ⟨⟨h.core, Or.inr hout.2⟩, .refl⟩

/-- One step of `swapout_impl` is a run of such steps. -/
theorem SwapoutOk.step (io : Io) {m : Swapout} (target : ℚ) (h : SwapoutOk cfg m) :
    SwapoutOk cfg (m.step cfg io target) ∧
      EvictRun cfg io m.core (m.step cfg io target).core := by
  unfold Swapout.step
  split
  · exact h.phase1Step target ‹_›
  · rename_i hpc
    have hok := h.pc
    rw [hpc] at hok
    obtain ⟨h1, h2⟩ := SwapoutOk.enterPhase3 h.core hok.2.2
    refine ⟨h1, ?_⟩
    rw [h2]
  · exact h.phase2Step target ‹_›
  · exact h.phase3Step target ‹_›
  · exact ⟨h, .refl⟩

theorem SwapoutOk.run (io : Io) {m : Swapout} (target : ℚ) (h : SwapoutOk cfg m) :
    ∀ k, SwapoutOk cfg (m.run cfg io target k) ∧
      EvictRun cfg io m.core (m.run cfg io target k).core := by
  intro k
  induction k with
  | zero => exact ⟨h, .refl⟩
  | succ k ih =>
      rw [Swapout.run_succ]
      obtain ⟨h1, h2⟩ := ih
      obtain ⟨h3, h4⟩ := h1.step io target
      exact ⟨h3, h2.trans h4⟩

/-- Entering `swapout_impl` establishes the machine's invariant. -/
theorem SwapoutOk.start (io : Io) (target : ℚ) (h : CoreOk cfg c) (hp : PhaseOk cfg c.kv) :
    SwapoutOk cfg (swapoutStart cfg target c) ∧
      EvictRun cfg io c (swapoutStart cfg target c).core := by
  have hg := h.ladder.foldGrowth
  have hp' := hp.regrown h.ladder hg.kv
  have hok := hg.ok h
  unfold swapoutStart
  dsimp only
  refine ⟨⟨hok, ?_⟩, .single .foldGrowth⟩
  dsimp only
  split
  · exact hp'
  · exact ⟨rfl, rfl, hp'⟩

/-- `swapout` is a run of such steps, and leaves the engine ready for another. -/
theorem CoreOk.swapout {c' : Core} {target ratio : ℚ} (h : CoreOk cfg c) (hp : PhaseOk cfg c.kv)
    (hs : SwapoutReturns cfg io target c ratio c') :
    CoreOk cfg c' ∧ PhaseOk cfg c'.kv ∧ EvictRun cfg io c c' := by
  obtain ⟨k, hpc, rfl⟩ := hs
  obtain ⟨h1, h2⟩ := SwapoutOk.start io target h hp
  obtain ⟨h3, h4⟩ := h1.run io target k
  have hok := h3.pc
  rw [hpc] at hok
  exact ⟨h3.core, hok, h2.trans h4⟩

end

end MzCache
