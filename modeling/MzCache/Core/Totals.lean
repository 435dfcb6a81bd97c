import MzCache.Core.Accounting
import MzCache.Core.SwapoutProgress

/-!
# What holds once layers are unloaded

`full_bytes` follows the chunk count, and a weight layer is unloaded only after phase 1:
with a layer out, all but the balance chunks are out, and some chunk is. Both survive
every call into the engine, a swapout by its own machine.
-/

namespace MzCache

open MzCache.Lib

/-- The core's totals: `full_bytes`, and how much is evicted once layers are unloaded. -/
structure Totals (cfg : Config) (c : Core) : Prop where
  full : c.fullBytes = fullBytesOf cfg c.numChunksPerTensor
  nonneg : 0 ≤ c.nCurUnloadLayers
  unloaded : 0 < c.nCurUnloadLayers →
    c.boundChunks cfg ≤ c.kv.nCurCompChunks + c.kv.nCurStoreChunks ∧
      0 < c.kv.nCurCompChunks + c.kv.nCurStoreChunks

/-- They hold at every loop head, and past phase 1 all but the balance chunks are out. -/
structure Swapout.Totals (cfg : Config) (m : Swapout) : Prop where
  core : MzCache.Totals cfg m.core
  past : ∀ i, m.pc = .phase2 i → m.core.boundChunks cfg ≤ m.processedChunks

section

variable {cfg : Config} {io : Io} {c c' : Core}

/-- Evicting more chunks keeps the totals. -/
theorem Totals.more (h : Totals cfg c) (hfull : c'.fullBytes = c.fullBytes)
    (hchunks : c'.numChunksPerTensor = c.numChunksPerTensor)
    (hun : c'.nCurUnloadLayers = c.nCurUnloadLayers)
    (hle : c.kv.nCurCompChunks + c.kv.nCurStoreChunks ≤
      c'.kv.nCurCompChunks + c'.kv.nCurStoreChunks) : Totals cfg c' := by
  refine ⟨by rw [hfull, hchunks]; exact h.full, by rw [hun]; exact h.nonneg, ?_⟩
  intro hpos
  rw [hun] at hpos
  obtain ⟨h1, h2⟩ := h.unloaded hpos
  unfold Core.boundChunks Core.totalChunks at h1 ⊢
  rw [hchunks]
  exact ⟨le_trans h1 hle, lt_of_lt_of_le h2 hle⟩

/-- Unloading leaves `full_bytes` alone and counts no layer back. -/
theorem unloadLayers_totals (io : Io) (n : Nat) :
    ∀ c : Core, (mzcacheUnloadLayers io n c).1.fullBytes = c.fullBytes ∧
      c.nCurUnloadLayers ≤ (mzcacheUnloadLayers io n c).1.nCurUnloadLayers := by
  induction n with
  | zero => intro c; exact ⟨rfl, le_rfl⟩
  | succ n ih =>
      intro c
      unfold mzcacheUnloadLayers
      dsimp only
      split
      · split
        · obtain ⟨h1, h2⟩ := ih _
          refine ⟨h1, le_trans ?_ h2⟩
          dsimp only
          omega
        · exact ⟨rfl, le_rfl⟩
      · exact ⟨rfl, le_rfl⟩

/-! ## Growth -/

theorem fullBytes_followKv (h : c.fullBytes = fullBytesOf cfg c.numChunksPerTensor) :
    (c.followKv cfg).fullBytes = fullBytesOf cfg (c.followKv cfg).numChunksPerTensor := by
  unfold Core.followKv
  split
  · rfl
  · exact h

theorem fullBytes_mzGrowChunks (h : c.fullBytes = fullBytesOf cfg c.numChunksPerTensor)
    (need : Nat) : (mzGrowChunks cfg need c).fullBytes =
      fullBytesOf cfg (mzGrowChunks cfg need c).numChunksPerTensor := by
  unfold mzGrowChunks
  split
  · exact h
  · split
    · exact h
    · exact fullBytes_followKv h

theorem fullBytes_growAll (needs : List Nat) :
    ∀ {c : Core}, c.fullBytes = fullBytesOf cfg c.numChunksPerTensor →
      (growAll cfg needs c).fullBytes =
        fullBytesOf cfg (growAll cfg needs c).numChunksPerTensor := by
  induction needs with
  | nil => intro c h; exact h
  | cons n needs ih => intro c h; exact ih (fullBytes_mzGrowChunks h n)

/-- Growth changes the plan only when nothing is evicted, and then no layer is out. -/
theorem Totals.grown (h : Totals cfg c) (hok : CoreOk cfg c) (hg : CoreGrown cfg c c')
    (hfull : c'.fullBytes = fullBytesOf cfg c'.numChunksPerTensor) : Totals cfg c' := by
  refine ⟨hfull, by rw [hg.unloaded]; exact h.nonneg, ?_⟩
  intro hpos
  rw [hg.unloaded] at hpos
  obtain ⟨h1, h2⟩ := h.unloaded hpos
  have hc : c'.kv.nCurCompChunks = c.kv.nCurCompChunks := by
    rw [hg.kv.ladder.nComp, hok.ladder.nComp, hg.kv.comp]
  have hs : c'.kv.nCurStoreChunks = c.kv.nCurStoreChunks := by
    rw [hg.kv.ladder.nStore, hok.ladder.nStore, hg.kv.store]
  rw [hc, hs]
  rcases hg.kv.plan with hn | ⟨hcb, hsb⟩
  · refine ⟨?_, h2⟩
    unfold Core.boundChunks Core.totalChunks at h1 ⊢
    rw [hg.follow, hn, ← hok.follow]
    exact h1
  · rw [hok.ladder.nComp, hok.ladder.nStore, hcb, hsb] at h2
    exact absurd h2 (by simp)

/-! ## Swapout -/

theorem SwapoutOk.totals_phase1 {m : Swapout} (target : ℚ) (h : SwapoutOk cfg m)
    (ht : m.Totals cfg) (hpc : m.pc = .phase1) : (MzCache.phase1Step cfg io target m).Totals cfg := by
  refine ⟨?_, fun i hi => h.phase1_end target hpc hi⟩
  unfold MzCache.phase1Step
  split
  · rename_i hmore
    obtain ⟨ha0, ha, hb0, hb⟩ := h.toAdd_spec hmore
    have hev := h.core.phase1Evict io ha0 ha hb0 hb
    have hcore : Totals cfg (MzCache.phase1Evict cfg io m.core (m.toAdd cfg).1 (m.toAdd cfg).2) := by
      refine ht.core.more rfl hev.chunks hev.unloaded ?_
      have h1 := hev.nComp
      have h2 := hev.nStore_ge
      omega
    dsimp only
    rw [show allocateChunks cfg m.core
      (min 20 (m.core.totalChunks cfg - m.processedChunks)) = m.toAdd cfg from rfl]
    split
    · exact ⟨hcore.full, hcore.nonneg, hcore.unloaded⟩
    · split
      · exact ⟨hcore.full, hcore.nonneg, hcore.unloaded⟩
      · exact hcore
  · exact ⟨ht.core.full, ht.core.nonneg, ht.core.unloaded⟩

theorem SwapoutOk.totals_phase2 {m : Swapout} (target : ℚ) {i : Nat} (h : SwapoutOk cfg m)
    (ht : m.Totals cfg) (hpc : m.pc = .phase2 (i + 1)) :
    (MzCache.phase2Step cfg io target i m).Totals cfg := by
  have hok := h.pc
  rw [hpc] at hok
  obtain ⟨hproc, hi, hfull⟩ := hok
  have hpast := ht.past _ hpc
  have htotal := h.core.totalChunks
  have hnc := h.core.ladder.nComp_le
  have hpos : 0 < m.core.totalChunks cfg := by
    have h1 := h.core.ladder.chunks_pos
    have h2 := cfg.numLayers_pos
    unfold Core.totalChunks
    rw [h.core.follow]
    positivity
  set k := min (cfg.perLayerBalance : Int) (m.core.totalChunks cfg - m.processedChunks) with hk
  have hev : Evicted cfg io m.core (phase2Compress cfg m) k 0 :=
    h.core.evictComp io (by omega) (by omega)
  -- the first layer goes with the first balance chunks, if nothing else is out
  have hout : 0 < (phase2Compress cfg m).kv.nCurCompChunks +
      (phase2Compress cfg m).kv.nCurStoreChunks := by
    have h1 := hev.nComp
    have h2 := hev.nStore_ge
    by_cases hz : 0 < m.processedChunks
    · omega
    · have hbal : 0 < (cfg.perLayerBalance : Int) := by
        by_contra hnone
        have hzero : (cfg.perLayerBalance : Int) = 0 := by omega
        unfold Core.boundChunks at hpast
        rw [hzero, zero_mul] at hpast
        omega
      have hnn := h.core.ladder.nComp_nonneg
      have hns := h.core.ladder.nStore_nonneg
      omega
  have hbound : m.core.boundChunks cfg ≤ (phase2Compress cfg m).kv.nCurCompChunks +
      (phase2Compress cfg m).kv.nCurStoreChunks := by
    have h1 := hev.nComp
    have h2 := hev.nStore_ge
    omega
  set u := mzcacheUnloadLayers io 1 (phase2Compress cfg m) with hu
  obtain ⟨tick, hkv⟩ := unloadLayers_kv io 1 (phase2Compress cfg m)
  rw [← hu] at hkv
  have hchunks : u.1.numChunksPerTensor = m.core.numChunksPerTensor :=
    unloadLayers_chunks 1 _
  have hb' : u.1.boundChunks cfg ≤ u.1.kv.nCurCompChunks + u.1.kv.nCurStoreChunks := by
    rw [hkv]
    unfold Core.boundChunks Core.totalChunks at hbound ⊢
    rw [hchunks]
    exact hbound
  have hcore : Totals cfg u.1 := by
    obtain ⟨hbytes, hcount⟩ := unloadLayers_totals io 1 (phase2Compress cfg m)
    refine ⟨?_, le_trans ht.core.nonneg hcount, fun _ => ⟨hb', ?_⟩⟩
    · rw [hchunks, hbytes]
      exact ht.core.full
    · rw [hkv]
      exact hout
  unfold MzCache.phase2Step
  dsimp only
  rw [← hu]
  have hphase3 : ∀ m' : Swapout, Totals cfg m'.core →
      (MzCache.enterPhase3 cfg m').Totals cfg := by
    intro m' h'
    refine ⟨by rw [enterPhase3_core]; exact h', ?_⟩
    intro j hj
    unfold MzCache.enterPhase3 at hj
    dsimp only at hj
    split at hj
    · cases hj
    · cases hj
  split
  · split
    · exact ⟨hcore, fun j hj => by cases hj⟩
    · split
      · exact hphase3 _ hcore
      · exact ⟨hcore, fun _ _ => hb'⟩
  · exact hphase3 _ hcore

theorem SwapoutOk.totals_phase3 {m : Swapout} (target : ℚ) (ht : m.Totals cfg)
    (hpc : m.pc = .phase3) : (MzCache.phase3Step cfg io target m).Totals cfg := by
  have hview := mzcacheOffloadArenas_view (s := m.core.kv) io
  have hcore : Totals cfg { m.core with kv := (mzcacheOffloadArenas io m.core.kv).1 } := by
    refine ht.core.more rfl rfl rfl (le_of_eq ?_)
    have h1 := congrArg LadderView.nCurCompChunks hview
    have h2 := congrArg LadderView.nCurStoreChunks hview
    exact congrArg₂ _ h1.symm h2.symm
  unfold MzCache.phase3Step
  split
  · dsimp only
    split
    · exact ⟨hcore, fun j hj => by cases hj⟩
    · refine ⟨hcore, fun j hj => ?_⟩
      simp only [hpc] at hj
      cases hj
  · exact ⟨ht.core, fun j hj => by cases hj⟩

/-- One step of `swapout_impl` keeps the totals. -/
theorem SwapoutOk.totals_step (io : Io) {m : Swapout} (target : ℚ) (h : SwapoutOk cfg m)
    (ht : m.Totals cfg) : (m.step cfg io target).Totals cfg := by
  unfold Swapout.step
  split
  · exact h.totals_phase1 target ht ‹_›
  · refine ⟨by rw [enterPhase3_core]; exact ht.core, ?_⟩
    intro j hj
    unfold MzCache.enterPhase3 at hj
    dsimp only at hj
    split at hj
    · cases hj
    · cases hj
  · exact h.totals_phase2 target ht ‹_›
  · exact SwapoutOk.totals_phase3 target ht ‹_›
  · exact ht

theorem SwapoutOk.totals_run (io : Io) {m : Swapout} (target : ℚ) (h : SwapoutOk cfg m)
    (ht : m.Totals cfg) (k : Nat) : (m.run cfg io target k).Totals cfg := by
  induction k with
  | zero => exact ht
  | succ k ih =>
      rw [Swapout.run_succ]
      exact (h.run io target k).1.totals_step io target ih

theorem Totals.swapoutStart (h : Totals cfg c) (hok : CoreOk cfg c) (target : ℚ) :
    (swapoutStart cfg target c).Totals cfg := by
  refine ⟨h.grown hok hok.ladder.foldGrowth (fullBytes_followKv h.full), ?_⟩
  intro i hi
  unfold MzCache.swapoutStart at hi
  dsimp only at hi
  split at hi
  · cases hi
  · cases hi

/-! ## The engine -/

theorem Totals.swapinGenerate (h : Totals cfg c) {early late : List Nat} {r : Swapin}
    (hs : swapinGenerate cfg io early late c = some r) : Totals cfg r.core := by
  unfold MzCache.swapinGenerate at hs
  dsimp only at hs
  rw [Option.map_eq_some_iff] at hs
  obtain ⟨e, -, rfl⟩ := hs
  refine ⟨?_, le_rfl, fun hpos => absurd hpos (lt_irrefl 0)⟩
  have hprep : (swapinPrepare cfg io early c).fullBytes =
      fullBytesOf cfg (swapinPrepare cfg io early c).numChunksPerTensor := by
    unfold swapinPrepare
    exact fullBytes_growAll early h.full
  exact fullBytes_growAll (c := swapinRestore cfg io e (swapinPrepare cfg io early c)) late hprep

/-- The totals hold in every state the engine reaches. -/
theorem engine_totals : (engine cfg io).Invariant fun c =>
    (CoreOk cfg c ∧ PhaseOk cfg c.kv) ∧ Totals cfg c := by
  refine TSys.invariant_of_step ?_ ?_
  · rintro c ⟨n, alloc, mem, hpos, hle, rfl⟩
    have hok := CoreOk.init n alloc mem hpos hle
    exact ⟨⟨hok, hok.ladder.phaseOk_of_clean rfl rfl⟩, rfl, le_rfl,
      fun h => absurd h (lt_irrefl 0)⟩
  · intro c c' ⟨hok, ht⟩ hs
    refine ⟨engineStep_ok hok hs, ?_⟩
    cases hs with
    | swapout target ratio c' hs =>
        obtain ⟨k, -, rfl⟩ := hs
        have hm := (SwapoutOk.start io target hok.1 hok.2).1
        exact (hm.totals_run io target (ht.swapoutStart hok.1 target) k).core
    | swapin early late r hs => exact ht.swapinGenerate hs
    | grow need =>
        exact ht.grown hok.1 (hok.1.ladder.mzGrowChunks hok.1.follow need)
          (fullBytes_mzGrowChunks ht.full need)
    | grown n =>
        exact ht.grown hok.1 (hok.1.ladder.onKvChunksGrown n) (fullBytes_followKv ht.full)
    | write l j mem h => exact ⟨ht.full, ht.nonneg, ht.unloaded⟩

end

end MzCache
