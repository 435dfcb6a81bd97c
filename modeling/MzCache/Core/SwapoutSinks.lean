import MzCache.Core.SwapoutResume
import MzCache.Core.Engine
import MzCache.Core.LayoutSteps

/-!
# What a swapout never takes back

Every step of a swapout leaves evicted what is evicted, whatever the outcome of its calls.
When nothing is left to evict, every chunk, every weight layer and every arena is out.
-/

namespace MzCache

open MzCache.Lib

/-- What is evicted in `c` is evicted in `c'`. -/
structure Sunk (cfg : Config) (c c' : Core) : Prop where
  comp : ∀ e ∈ c.kv.compBeyond cfg, e ∈ c'.kv.compBeyond cfg
  store : ∀ e ∈ c.kv.storeBeyond cfg, e ∈ c'.kv.storeBeyond cfg
  weights : ∀ l, c.weightLoaded l = false → c'.weightLoaded l = false
  arenas : c'.kv.nextLayerToOffload ≤ c.kv.nextLayerToOffload

/-- Arenas stand in memory or are offloaded, and are offloaded only once all chunks are out. -/
structure ShelfOk (cfg : Config) (c : Core) : Prop where
  low : -1 ≤ c.kv.nextLayerToOffload
  high : c.kv.nextLayerToOffload < cfg.numLayers
  gone : ∀ l < cfg.numLayers, c.kv.nextLayerToOffload < l → c.kv.arenas l = []
  out : c.kv.nextLayerToOffload + 1 < cfg.numLayers → c.kv.AllOut

/-- No chunk, weight layer or arena that was out of memory in `c` is back in `c'`. -/
structure NothingBack (cfg : Config) (c c' : Core) : Prop where
  chunks : ∀ l < cfg.numLayers, ∀ j < c.kv.numChunksPerTensor, c.kv.states l j ≠ .raw →
    c'.kv.states l j = c.kv.states l j
  weights : ∀ l, c.weightLoaded l = false → c'.weightLoaded l = false
  next : c'.kv.nextLayerToOffload ≤ c.kv.nextLayerToOffload
  arenas : ∀ l < cfg.numLayers, c.kv.nextLayerToOffload < l →
    c.kv.arenas l = [] ∧ c'.kv.arenas l = []

/-- Every chunk is compressed or stored, every weight layer unloaded, every arena
offloaded. -/
structure Core.AllEvicted (cfg : Config) (c : Core) : Prop where
  chunks : ∀ l < cfg.numLayers, ∀ j < c.kv.numChunksPerTensor,
    c.kv.states l j = .compressed ∨ c.kv.states l j = .stored
  weights : ∀ l < cfg.numLayers, c.weightLoaded l = false
  next : c.kv.nextLayerToOffload = -1
  arenas : ∀ l < cfg.numLayers, c.kv.arenas l = []

section

variable {cfg : Config} {io : Io} {c c' c'' : Core}

theorem Sunk.refl (cfg : Config) (c : Core) : Sunk cfg c c :=
  ⟨fun _ h => h, fun _ h => h, fun _ h => h, le_rfl⟩

theorem Sunk.trans (h : Sunk cfg c c') (h' : Sunk cfg c' c'') : Sunk cfg c c'' :=
  ⟨fun e he => h'.comp e (h.comp e he), fun e he => h'.store e (h.store e he),
    fun l hl => h'.weights l (h.weights l hl), le_trans h'.arenas h.arenas⟩

/-- For a chunk of the plan this is about its state. -/
theorem Sunk.chunk (h : Sunk cfg c c') (hok : CoreOk cfg c) (hok' : CoreOk cfg c') {l j : Nat}
    (hl : l < cfg.numLayers) (hj : j < c.kv.numChunksPerTensor) (hne : c.kv.states l j ≠ .raw) :
    c'.kv.states l j = c.kv.states l j := by
  cases hst : c.kv.states l j with
  | raw => exact absurd hst hne
  | compressed =>
      have hmem := (hok.ladder.compressed_iff (l, j)).mpr ⟨hl, hj, hst⟩
      exact ((hok'.ladder.compressed_iff (l, j)).mp (h.comp _ hmem)).2.2
  | stored =>
      have hmem := (hok.ladder.stored_iff (l, j)).mpr ⟨hl, hj, hst⟩
      exact ((hok'.ladder.stored_iff (l, j)).mp (h.store _ hmem)).2.2

theorem compressChunks_next (n : Nat) : ∀ s : KvState,
    (mzcacheCompressChunks cfg n s).1.nextLayerToOffload = s.nextLayerToOffload := by
  induction n with
  | zero => intro s; rfl
  | succ n ih =>
      intro s
      rw [mzcacheCompressChunks]
      dsimp only
      split
      · rfl
      · exact ih _

theorem storeChunks_arenas (n : Nat) (s : KvState) :
    (mzcacheStoreChunks cfg io n s).nextLayerToOffload = s.nextLayerToOffload ∧
      (mzcacheStoreChunks cfg io n s).arenas = s.arenas := by
  have hq := (quiet_storeChunks cfg io n s).layout
  exact ⟨congrArg LayoutView.nextLayerToOffload hq, congrArg LayoutView.arenas hq⟩

/-- Growth, as far as arenas and weights go. -/
theorem foldGrowth_arenas (cfg : Config) (c : Core) :
    let c' := ({ c with kv := applyPendingGrowth cfg c.kv } : Core).followKv cfg
    c'.kv.nextLayerToOffload = c.kv.nextLayerToOffload ∧ c'.kv.arenas = c.kv.arenas ∧
      c'.weightLoaded = c.weightLoaded := by
  intro c'
  have hkv : c'.kv = applyPendingGrowth cfg c.kv := followKv_kv
  have hq := (quiet_applyPendingGrowth cfg c.kv).layout
  rw [hkv]
  refine ⟨congrArg LayoutView.nextLayerToOffload hq, congrArg LayoutView.arenas hq, ?_⟩
  show (Core.followKv cfg _).weightLoaded = _
  unfold Core.followKv
  split <;> rfl

theorem unloadLayers_weights (n : Nat) : ∀ c : Core, ∀ l, c.weightLoaded l = false →
    (mzcacheUnloadLayers io n c).1.weightLoaded l = false := by
  induction n with
  | zero => intro c l hl; exact hl
  | succ n ih =>
      intro c l hl
      rw [mzcacheUnloadLayers]
      dsimp only
      split
      · split
        · apply ih
          dsimp only
          by_cases hlc : l = c.curLayerIdxToUnload.toNat
          · rw [hlc, Function.update_self]
          · rw [Function.update_of_ne hlc]
            exact hl
        · exact hl
      · exact hl

/-- No step takes back what is evicted. -/
theorem EvictStep.sunk (hok : CoreOk cfg c) (h : EvictStep cfg io c c') : Sunk cfg c c' := by
  cases h with
  | compress n hn =>
      obtain ⟨new, -, hm⟩ := hok.ladder.compressChunks n hn
      refine ⟨fun e he => ?_, fun e he => ?_, fun _ hl => hl, le_of_eq (compressChunks_next n _)⟩
      · show e ∈ (mzcacheCompressChunks cfg n c.kv).1.compBeyond cfg
        rw [hm.comp]
        exact List.mem_append_right _ he
      · show e ∈ (mzcacheCompressChunks cfg n c.kv).1.storeBeyond cfg
        rw [hm.store]
        exact he
  | store n hn =>
      obtain ⟨new, -, -, hm⟩ := hok.ladder.storeChunks io n hn
      refine ⟨fun e he => ?_, fun e he => ?_, fun _ hl => hl, le_of_eq (storeChunks_arenas n _).1⟩
      · show e ∈ (mzcacheStoreChunks cfg io n c.kv).compBeyond cfg
        rw [hm.comp]
        exact he
      · show e ∈ (mzcacheStoreChunks cfg io n c.kv).storeBeyond cfg
        rw [hm.store]
        exact List.mem_append_right _ he
  | closeStoredFiles => exact ⟨fun _ h => h, fun _ h => h, fun _ h => h, le_rfl⟩
  | unload n hn =>
      obtain ⟨tick, hkv⟩ := unloadLayers_kv io n c
      refine ⟨?_, ?_, unloadLayers_weights n c, ?_⟩ <;> rw [hkv]
      · exact fun _ h => h
      · exact fun _ h => h
  | offload hout =>
      have hview := mzcacheOffloadArenas_view (s := c.kv) io
      refine ⟨fun e he => ?_, fun e he => ?_, fun _ hl => hl, ?_⟩
      · show e ∈ (mzcacheOffloadArenas io c.kv).1.compBeyond cfg
        rw [KvState.compBeyond_of_view hview]
        exact he
      · show e ∈ (mzcacheOffloadArenas io c.kv).1.storeBeyond cfg
        rw [KvState.storeBeyond_of_view hview]
        exact he
      · show (mzcacheOffloadArenas io c.kv).1.nextLayerToOffload ≤ _
        unfold mzcacheOffloadArenas
        split
        · exact le_rfl
        · dsimp only
          split
          · split
            · dsimp only
              omega
            · exact le_rfl
          · exact le_rfl
  | foldGrowth =>
      have hg := hok.ladder.foldGrowth
      obtain ⟨hnext, -, hw⟩ := foldGrowth_arenas cfg c
      refine ⟨fun e he => ?_, fun e he => ?_, fun l hl => ?_, le_of_eq hnext⟩
      · rw [hg.kv.comp]
        exact he
      · rw [hg.kv.store]
        exact he
      · rw [hw]
        exact hl

theorem EvictRun.sunk (hok : CoreOk cfg c) (h : EvictRun cfg io c c') : Sunk cfg c c' := by
  induction h with
  | refl => exact Sunk.refl cfg c
  | tail hr hs ih => exact ih.trans (hs.sunk (hok.evictRun hr))

/-! ## Arenas -/

/-- With chunks in the plan, all of them being out is not a clean ladder. -/
theorem CoreOk.not_clean_of_out (hok : CoreOk cfg c) (hout : c.kv.AllOut) :
    c.kv.cleanLadder = false := by
  have htotal := hok.totalChunks
  have hpos : 0 < c.totalChunks cfg := by
    have h1 := hok.ladder.chunks_pos
    have h2 := cfg.numLayers_pos
    unfold Core.totalChunks
    rw [hok.follow]
    positivity
  obtain ⟨hc, hs⟩ := hout
  rw [Bool.eq_false_iff]
  intro hclean
  simp only [KvState.cleanLadder, Bool.decide_and, Bool.and_eq_true, decide_eq_true_eq] at hclean
  omega

/-- Growth does not touch an engine whose chunks are all out. -/
theorem registerGrownChunks_out (hok : CoreOk cfg c) (hout : c.kv.AllOut) (n : Nat) :
    ∃ p, registerGrownChunks cfg n c.kv = { c.kv with pendingChunksTotal := p } := by
  unfold registerGrownChunks
  split
  · exact ⟨_, rfl⟩
  · split
    · exact ⟨_, rfl⟩
    · rw [hok.not_clean_of_out hout]
      exact ⟨_, rfl⟩

/-- The shelf depends on the arenas, the next layer and whether the chunks are out. -/
theorem ShelfOk.of_same (h : ShelfOk cfg c)
    (hnext : c'.kv.nextLayerToOffload = c.kv.nextLayerToOffload)
    (harenas : c'.kv.arenas = c.kv.arenas) (hout : c.kv.AllOut → c'.kv.AllOut) :
    ShelfOk cfg c' := by
  refine ⟨hnext ▸ h.low, hnext ▸ h.high, ?_, ?_⟩
  · rw [hnext, harenas]
    exact h.gone
  · rw [hnext]
    exact fun hlt => hout (h.out hlt)

/-- With every arena in memory there is nothing to show. -/
theorem ShelfOk.of_resident (h : c.kv.nextLayerToOffload = (cfg.numLayers : Int) - 1) :
    ShelfOk cfg c := by
  have hpos := cfg.numLayers_pos
  exact ⟨by omega, by omega, fun l hl hlt => by omega, fun hlt => by omega⟩

/-- Offloading stays where it is, or releases the arenas of the layer it stands at. -/
theorem mzcacheOffloadArenas_shelf (s : KvState) :
    ((mzcacheOffloadArenas io s).1.nextLayerToOffload = s.nextLayerToOffload ∧
      ∀ l : Nat, s.nextLayerToOffload < l →
        (mzcacheOffloadArenas io s).1.arenas l = s.arenas l) ∨
    (0 ≤ s.nextLayerToOffload ∧
      (mzcacheOffloadArenas io s).1.nextLayerToOffload = s.nextLayerToOffload - 1 ∧
      (mzcacheOffloadArenas io s).1.arenas =
        Function.update s.arenas s.nextLayerToOffload.toNat []) := by
  unfold mzcacheOffloadArenas
  split
  · exact Or.inl ⟨rfl, fun _ _ => rfl⟩
  · rename_i hneg
    dsimp only
    split
    · split
      · exact Or.inr ⟨by omega, rfl, rfl⟩
      · refine Or.inl ⟨rfl, fun l hl => ?_⟩
        exact Function.update_of_ne (by omega) _ _
    · exact Or.inl ⟨rfl, fun _ _ => rfl⟩

theorem ShelfOk.offload (h : ShelfOk cfg c) (hout : c.kv.AllOut) :
    ShelfOk cfg { c with kv := (mzcacheOffloadArenas io c.kv).1 } := by
  have hview := mzcacheOffloadArenas_view (s := c.kv) io
  have hout' : (mzcacheOffloadArenas io c.kv).1.AllOut := by
    refine ⟨?_, ?_⟩
    · exact (congrArg LadderView.nCurCompChunks hview).trans
        (hout.1.trans (congrArg LadderView.maxCompChunks hview).symm)
    · exact (congrArg LadderView.nCurStoreChunks hview).trans
        (hout.2.trans (congrArg LadderView.maxStoreChunks hview).symm)
  have hlow := h.low
  have hhigh := h.high
  obtain ⟨hnext, harenas⟩ | ⟨hpos, hnext, harenas⟩ := @mzcacheOffloadArenas_shelf io c.kv
  · refine ⟨hnext ▸ hlow, hnext ▸ hhigh, fun l hl hlt => ?_, fun _ => hout'⟩
    have hlt' : c.kv.nextLayerToOffload < l := hnext ▸ hlt
    exact (harenas l hlt').trans (h.gone l hl hlt')
  · refine ⟨?_, ?_, fun l hl hlt => ?_, fun _ => hout'⟩
    · show -1 ≤ (mzcacheOffloadArenas io c.kv).1.nextLayerToOffload
      omega
    · show (mzcacheOffloadArenas io c.kv).1.nextLayerToOffload < cfg.numLayers
      omega
    · -- the layer just written is released
      show (mzcacheOffloadArenas io c.kv).1.arenas l = []
      have hlt' : c.kv.nextLayerToOffload - 1 < l := hnext ▸ hlt
      rw [harenas]
      by_cases hlayer : l = c.kv.nextLayerToOffload.toNat
      · rw [hlayer, Function.update_self]
      · rw [Function.update_of_ne hlayer]
        exact h.gone l hl (by omega)

theorem EvictStep.shelf (hok : CoreOk cfg c) (h : ShelfOk cfg c) (hs : EvictStep cfg io c c') :
    ShelfOk cfg c' := by
  -- unless every arena is in memory, no chunk is left to compress or to store
  by_cases hlt : c.kv.nextLayerToOffload + 1 < cfg.numLayers
  · have hout := h.out hlt
    cases hs with
    | compress n hn =>
        have hz : n = 0 := by
          have := hout.1
          omega
        rw [hz]
        exact h
    | store n hn =>
        have hz : n = 0 := by
          have := hout.2
          omega
        rw [hz]
        exact h
    | closeStoredFiles => exact h.of_same rfl rfl fun ho => ho
    | unload n hn =>
        obtain ⟨tick, hkv⟩ := unloadLayers_kv io n c
        exact h.of_same (by rw [hkv]) (by rw [hkv]) fun ho => by rw [hkv]; exact ho
    | offload ho => exact h.offload ho
    | foldGrowth =>
        obtain ⟨hnext, harenas, -⟩ := foldGrowth_arenas cfg c
        refine h.of_same hnext harenas fun ho => ?_
        rw [followKv_kv]
        unfold applyPendingGrowth
        split
        · have hok0 : CoreOk cfg { c with kv := { c.kv with pendingChunksTotal := 0 } } :=
            hok.withKv (hok.ladder.of_view rfl) rfl
          obtain ⟨p, hp⟩ := registerGrownChunks_out hok0 ho c.kv.pendingChunksTotal
          rw [hp]
          exact ho
        · exact ho
  · have hlow := h.low
    have hhigh := h.high
    have hres : c.kv.nextLayerToOffload = (cfg.numLayers : Int) - 1 := by omega
    cases hs with
    | compress n hn => exact .of_resident ((compressChunks_next n c.kv).trans hres)
    | store n hn => exact .of_resident ((storeChunks_arenas n c.kv).1.trans hres)
    | closeStoredFiles => exact .of_resident hres
    | unload n hn =>
        obtain ⟨tick, hkv⟩ := unloadLayers_kv io n c
        exact .of_resident (by rw [hkv]; exact hres)
    | offload ho => exact h.offload ho
    | foldGrowth => exact .of_resident ((foldGrowth_arenas cfg c).1.trans hres)

theorem EvictRun.shelf (hok : CoreOk cfg c) (h : ShelfOk cfg c) (hr : EvictRun cfg io c c') :
    ShelfOk cfg c' := by
  induction hr with
  | refl => exact h
  | tail hr hs ih => exact hs.shelf (hok.evictRun hr) ih

/-- A swapin cycle leaves every arena in memory. -/
theorem swapinGenerate_next (hok : CoreOk cfg c)
    (hhigh : c.kv.nextLayerToOffload < cfg.numLayers) {early late : List Nat} {r : Swapin}
    (hs : swapinGenerate cfg io early late c = some r) :
    r.core.kv.nextLayerToOffload = (cfg.numLayers : Int) - 1 := by
  obtain ⟨-, -, hq, hcore⟩ := hok.swapinParts hs
  obtain ⟨-, -, -, -, comp, store, fds, tick, hstate, -⟩ := hq
  have hreload : (mzcacheReloadAllArenas cfg io (initializeLayerSync cfg c).1.kv).nextLayerToOffload
      = (cfg.numLayers : Int) - 1 := by
    unfold mzcacheReloadAllArenas
    dsimp only
    split
    · rename_i hstart
      have hfirst : (c.kv.nextLayerToOffload + 1).toNat ≥ cfg.numLayers := hstart
      have hpos := cfg.numLayers_pos
      show c.kv.nextLayerToOffload = _
      omega
    · rfl
  have hprep : (swapinPrepare cfg io early c).kv.nextLayerToOffload = (cfg.numLayers : Int) - 1 :=
    (congrArg LayoutView.nextLayerToOffload (quiet_growAll cfg early _).layout).trans hreload
  have hreads := quiet_runReads cfg io r.tasks.read r.tasks.state
  obtain ⟨hdecomps, -⟩ := runDecomps_layout cfg r.tasks.decomp
    (runReads cfg io r.tasks.read r.tasks.state)
  have hlate := quiet_growAll cfg late (swapinRestore cfg io r.tasks (swapinPrepare cfg io early c))
  have hrestore : (swapinRestore cfg io r.tasks (swapinPrepare cfg io early c)).kv.nextLayerToOffload
      = (cfg.numLayers : Int) - 1 := by
    show (runDecomps cfg r.tasks.decomp
      (runReads cfg io r.tasks.read r.tasks.state)).nextLayerToOffload = _
    rw [show (runDecomps cfg r.tasks.decomp
        (runReads cfg io r.tasks.read r.tasks.state)).nextLayerToOffload =
      (runReads cfg io r.tasks.read r.tasks.state).nextLayerToOffload from
        congrArg LayoutView.nextLayerToOffload hdecomps,
      show (runReads cfg io r.tasks.read r.tasks.state).nextLayerToOffload =
        r.tasks.state.nextLayerToOffload from congrArg LayoutView.nextLayerToOffload hreads.layout,
      hstate]
    exact hprep
  have hend : (growAll cfg late (swapinRestore cfg io r.tasks
      (swapinPrepare cfg io early c))).kv.nextLayerToOffload = (cfg.numLayers : Int) - 1 :=
    (congrArg LayoutView.nextLayerToOffload hlate.layout).trans hrestore
  rw [hcore, ← hend]
  unfold finishSwapinCycle cleanAfterRead cleanAfterDecompress
  dsimp only
  split
  · rfl
  · split <;> split <;> rfl

/-- The shelf is in order in every state the engine reaches, whatever its calls returned. -/
theorem engine_shelf : (engine cfg io).Invariant fun c =>
    (CoreOk cfg c ∧ PhaseOk cfg c.kv) ∧ ShelfOk cfg c := by
  refine TSys.invariant_of_step ?_ ?_
  · rintro c ⟨n, alloc, mem, hpos, hle, rfl⟩
    have hok := CoreOk.init n alloc mem hpos hle
    exact ⟨⟨hok, hok.ladder.phaseOk_of_clean rfl rfl⟩, .of_resident rfl⟩
  · intro c c' ⟨hok, hshelf⟩ hs
    refine ⟨engineStep_ok hok hs, ?_⟩
    have hgrow : ∀ (n : Nat) (d : Core), CoreOk cfg d → ShelfOk cfg d →
        ShelfOk cfg (onKvChunksGrown cfg n d) := by
      intro n d hd hsd
      have hq := (quiet_onKvChunksGrown cfg n d).layout
      refine hsd.of_same (congrArg LayoutView.nextLayerToOffload hq)
        (congrArg LayoutView.arenas hq) fun ho => ?_
      unfold onKvChunksGrown
      rw [followKv_kv]
      obtain ⟨p, hp⟩ := registerGrownChunks_out hd ho n
      dsimp only
      rw [hp]
      exact ho
    cases hs with
    | swapout target ratio c' hs =>
        obtain ⟨-, -, hrun⟩ := hok.1.swapout hok.2 hs
        exact hrun.shelf hok.1 hshelf
    | swapin early late r hs => exact .of_resident (swapinGenerate_next hok.1 hshelf.high hs)
    | grow need =>
        unfold mzGrowChunks
        split
        · exact hshelf
        · split
          · exact hshelf
          · refine hgrow need _ ⟨hok.1.ladder.of_view rfl, hok.1.follow, hok.1.unloadLow,
              hok.1.unloaded, hok.1.weights⟩ ?_
            exact hshelf.of_same rfl rfl fun ho => ho
    | grown n => exact hgrow n c hok.1 hshelf
    | write l j mem h => exact hshelf.of_same rfl rfl fun ho => ho

/-- Nothing comes back while a swapout goes on. -/
theorem EvictRun.nothingBack (hok : CoreOk cfg c) (hshelf : ShelfOk cfg c)
    (hr : EvictRun cfg io c c') : NothingBack cfg c c' := by
  have hsunk := hr.sunk hok
  have hok' := hok.evictRun hr
  refine ⟨fun l hl j hj hne => hsunk.chunk hok hok' hl hj hne, hsunk.weights, hsunk.arenas, ?_⟩
  intro l hl hlt
  refine ⟨hshelf.gone l hl hlt, ?_⟩
  exact (hr.shelf hok hshelf).gone l hl (lt_of_le_of_lt hsunk.arenas hlt)

/-- In an emptied engine every chunk, every weight layer and every arena is out. -/
theorem Core.Emptied.all (h : c.Emptied cfg) (hok : CoreOk cfg c) (hshelf : ShelfOk cfg c) :
    c.AllEvicted cfg := by
  have hlow := hshelf.low
  have hneg := h.arenas
  have hnext : c.kv.nextLayerToOffload = -1 := by omega
  refine ⟨?_, ?_, hnext, ?_⟩
  · intro l hl j hj
    by_cases hbound : j < c.kv.chunkBound l
    · have hmem : (l, j) ∈ c.kv.compBeyond cfg := by
        rw [hok.ladder.compBeyond_of_full h.chunks.1]
        exact mem_cells.mpr ⟨hl, Nat.zero_le _, hbound⟩
      exact Or.inl ((hok.ladder.compressed_iff (l, j)).mp hmem).2.2
    · have hmem : (l, j) ∈ c.kv.storeBeyond cfg := by
        rw [hok.ladder.storeBeyond_of_full h.chunks.2]
        exact mem_cells.mpr ⟨hl, not_lt.mp hbound, hj⟩
      exact Or.inr ((hok.ladder.stored_iff (l, j)).mp hmem).2.2
  · intro l hl
    have hun := hok.unloaded
    rw [h.weights] at hun
    have hiff := hok.weights l hl
    rw [Bool.eq_false_iff]
    intro hloaded
    have := hiff.mp hloaded
    omega
  · intro l hl
    exact hshelf.gone l hl (by omega)

end

end MzCache
