import MzCache.Core.Accounting
import MzCache.Kv.LayoutOffload

/-!
# The layout through every operation

Compressions, decompressions, growth, offloads, reloads and whole swapin cycles, in any
order. While a layer's arenas stand in a swap file its chunks can be neither compressed
nor decompressed, so `ArenaStep` asks for resident arenas there; a swapin reloads them
itself.
-/

namespace MzCache

open MzCache.Lib

/-- The compressed chunks are in order and no decompression is under way. -/
structure Arranged (cfg : Config) (s : KvState) : Prop where
  layout : Layout cfg s
  idle : s.Idle cfg

/-- `LadderStep`, with the arenas in memory wherever one chunk is compressed or restored. -/
inductive ArenaStep (cfg : Config) (io : Io) (c : Core) : Core → Prop
  | compress (n : Nat) (h : (n : Int) ≤ c.kv.maxCompChunks - c.kv.nCurCompChunks)
      (hres : c.kv.Resident cfg) :
      ArenaStep cfg io c { c with kv := (mzcacheCompressChunks cfg n c.kv).1 }
  | decompress (m : Nat) (h : (m : Int) ≤ c.kv.nCurCompChunks) (hres : c.kv.Resident cfg) :
      ArenaStep cfg io c { c with kv := mzcacheDecompressChunks cfg m c.kv }
  | offload : ArenaStep cfg io c { c with kv := (mzcacheOffloadArenas io c.kv).1 }
  | reloadAll : ArenaStep cfg io c { c with kv := mzcacheReloadAllArenas cfg io c.kv }
  | swapin (early late : List Nat) (r : Swapin)
      (hs : swapinGenerate cfg io early late c = some r) : ArenaStep cfg io c r.core
  | store (n : Nat) (h : (n : Int) ≤ c.kv.maxStoreChunks - c.kv.nCurStoreChunks) :
      ArenaStep cfg io c { c with kv := mzcacheStoreChunks cfg io n c.kv }
  | closeStoredFiles : ArenaStep cfg io c { c with kv := mzcacheCloseStoredFiles c.kv }
  | load (m : Nat) (kv : KvState) (h : (m : Int) ≤ c.kv.nCurStoreChunks)
      (hs : mzcacheLoadChunks cfg io m c.kv = some kv) : ArenaStep cfg io c { c with kv := kv }
  | unload (n : Nat) (h : (n : Int) ≤ c.curLayerIdxToUnload + 1) :
      ArenaStep cfg io c (mzcacheUnloadLayers io n c).1
  | grow (need : Nat) : ArenaStep cfg io c (mzGrowChunks cfg need c)
  | grown (n : Nat) : ArenaStep cfg io c (onKvChunksGrown cfg n c)
  | foldGrowth : ArenaStep cfg io c
      (({ c with kv := applyPendingGrowth cfg c.kv } : Core).followKv cfg)
  | write (l j : Nat) (mem : ChunkMem) (h : (c.kv.svm l j).isSome) :
      ArenaStep cfg io c { c with kv := { c.kv with svm := Table.set c.kv.svm l j (some mem) } }

/-- Any number of such operations. -/
abbrev ArenaRun (cfg : Config) (io : Io) : Core → Core → Prop :=
  Relation.ReflTransGen (ArenaStep cfg io)

/-- What arenas and their bookkeeping a step may leave alone. -/
structure Quiet (s t : KvState) : Prop where
  layout : t.layout = s.layout
  left : t.compLeft = s.compLeft

section

variable {cfg : Config} {io : Io} {s t : KvState} {c c' : Core}

theorem Quiet.refl (s : KvState) : Quiet s s := ⟨rfl, rfl⟩

theorem Quiet.trans {u : KvState} (h1 : Quiet s t) (h2 : Quiet t u) : Quiet s u :=
  ⟨h2.layout.trans h1.layout, h2.left.trans h1.left⟩

theorem Arranged.quiet (h : Arranged cfg s) (hq : Quiet s t)
    (hb : t.compBeyond cfg = s.compBeyond cfg) : Arranged cfg t :=
  ⟨h.layout.of_layout hq.layout hb, fun l hl => by rw [hq.left]; exact h.idle l hl⟩

/-! ## Steps that leave the arenas alone -/

theorem quiet_storeChunks (cfg : Config) (io : Io) (n : Nat) :
    ∀ s : KvState, Quiet s (mzcacheStoreChunks cfg io n s) := by
  induction n with
  | zero => intro s; exact Quiet.refl s
  | succ n ih =>
      intro s
      have hskip : Quiet s s.skipToStore := ⟨rfl, rfl⟩
      rw [mzcacheStoreChunks]
      dsimp only
      split
      · exact hskip
      · obtain ⟨fds, tick, hopen⟩ :=
          openToStore_eq io s.skipToStore.curToStore.row.toNat s.skipToStore
        have hq : Quiet s (openToStore io s.skipToStore.curToStore.row.toNat s.skipToStore).1 := by
          rw [hopen]
          exact ⟨rfl, rfl⟩
        split
        · refine Quiet.trans ?_ (ih _)
          exact hq.trans ⟨rfl, rfl⟩
        · exact hq

theorem quiet_runReads (cfg : Config) (io : Io) (l : List Cell) :
    ∀ s : KvState, Quiet s (runReads cfg io l s) := by
  induction l with
  | nil => intro s; exact Quiet.refl s
  | cons e l ih =>
      intro s
      rw [runReads]
      refine Quiet.trans ?_ (ih _)
      unfold kvReadWorker kvAllocWorker
      dsimp only
      split <;> exact ⟨rfl, rfl⟩

theorem quiet_registerGrownChunks (cfg : Config) (n : Nat) (s : KvState) :
    Quiet s (registerGrownChunks cfg n s) := by
  obtain ⟨states, hst⟩ := (registerChunks_registered cfg s.numChunksPerTensor n s).only
  unfold registerGrownChunks
  split
  · exact Quiet.refl s
  · split
    · exact Quiet.refl s
    · split
      · dsimp only
        rw [hst]
        split <;> exact ⟨rfl, rfl⟩
      · exact ⟨rfl, rfl⟩

theorem quiet_onKvChunksGrown (cfg : Config) (n : Nat) (c : Core) :
    Quiet c.kv (onKvChunksGrown cfg n c).kv := by
  unfold onKvChunksGrown
  rw [followKv_kv]
  exact quiet_registerGrownChunks cfg n c.kv

theorem quiet_mzGrowChunks (cfg : Config) (need : Nat) (c : Core) :
    Quiet c.kv (mzGrowChunks cfg need c).kv := by
  unfold mzGrowChunks
  split
  · exact Quiet.refl _
  · split
    · exact Quiet.refl _
    · refine Quiet.trans ?_ (quiet_onKvChunksGrown cfg need _)
      exact ⟨rfl, rfl⟩

theorem quiet_growAll (cfg : Config) (needs : List Nat) :
    ∀ c : Core, Quiet c.kv (growAll cfg needs c).kv := by
  induction needs with
  | nil => intro c; exact Quiet.refl _
  | cons n needs ih => intro c; exact (quiet_mzGrowChunks cfg n c).trans (ih _)

theorem quiet_applyPendingGrowth (cfg : Config) (s : KvState) :
    Quiet s (applyPendingGrowth cfg s) := by
  unfold applyPendingGrowth
  split
  · refine Quiet.trans ?_ (quiet_registerGrownChunks cfg s.pendingChunksTotal _)
    exact ⟨rfl, rfl⟩
  · exact ⟨rfl, rfl⟩

theorem mzcacheOffloadArenas_left (io : Io) (s : KvState) :
    (mzcacheOffloadArenas io s).1.compLeft = s.compLeft := by
  unfold mzcacheOffloadArenas
  split
  · rfl
  · dsimp only
    split
    · split <;> rfl
    · rfl

theorem quiet_loadChunks {m : Nat} (hl : Ladder cfg s) (hm : (m : Int) ≤ s.nCurStoreChunks)
    (hs : mzcacheLoadChunks cfg io m s = some t) : Quiet s t := by
  have hlen : m ≤ (s.storeBeyond cfg).length := by have := hl.nStore; omega
  unfold mzcacheLoadChunks at hs
  rw [Option.bind_eq_some_iff] at hs
  obtain ⟨t', hopen, hs⟩ := hs
  obtain ⟨fds, tick, rfl⟩ := openFirstToRead_eq io s hopen
  rw [Option.map_eq_some_iff] at hs
  obtain ⟨w, hw, rfl⟩ := hs
  obtain ⟨store, fds', tick', rfl, _⟩ :=
    loadWalk_spec io hl.shape m s.curToStore fds tick w hl.storeWf hl.storeRow hlen hw
  have h1 : Quiet s (s.withStore store fds' tick') := ⟨rfl, rfl⟩
  exact (h1.trans (quiet_runReads cfg io _ _)).trans ⟨rfl, rfl⟩

/-! ## Swapin -/

/-- The DECOMP tasks may release arenas and count their layers down. -/
theorem runDecomps_layout (cfg : Config) (l : List Cell) :
    ∀ s : KvState, (runDecomps cfg l s).layout =
        { s.layout with arenas := (runDecomps cfg l s).arenas } ∧
      ∀ k, (runDecomps cfg l s).compLeft k =
        s.compLeft k - (l.countP (fun e => decide (e.1 = k)) : Int) := by
  induction l with
  | nil => intro s; exact ⟨rfl, fun k => by simp [runDecomps]⟩
  | cons e l ih =>
      intro s
      rw [runDecomps]
      have hone : (kvDecompWorker cfg e.1 e.2 (kvAllocWorker cfg e.1 e.2 s)).layout =
          { s.layout with
            arenas := (kvDecompWorker cfg e.1 e.2 (kvAllocWorker cfg e.1 e.2 s)).arenas } ∧
          (kvDecompWorker cfg e.1 e.2 (kvAllocWorker cfg e.1 e.2 s)).compLeft =
            Function.update s.compLeft e.1 (s.compLeft e.1 - 1) := by
        unfold kvDecompWorker
        split <;> exact ⟨rfl, rfl⟩
      obtain ⟨hlay, hleft⟩ := ih (kvDecompWorker cfg e.1 e.2 (kvAllocWorker cfg e.1 e.2 s))
      refine ⟨by rw [hlay, hone.1], ?_⟩
      intro k
      rw [hleft k, hone.2, List.countP_cons]
      by_cases hk : k = e.1
      · subst hk
        rw [Function.update_self, if_pos (by simp)]
        push_cast
        ring
      · rw [Function.update_of_ne hk, if_neg (by simpa using Ne.symm hk)]
        simp

/-- A swapin cycle, its reloads succeeding, leaves nothing compressed and no count open. -/
theorem Layout.swapinGenerate (hio : io.Reloads) (hok : CoreOk cfg c) (h : Layout cfg c.kv)
    {early late : List Nat} {r : Swapin}
    (hs : swapinGenerate cfg io early late c = some r) :
    Arranged cfg r.core.kv ∧ r.core.kv.Resident cfg := by
  have hfin := hok.swapinGenerate hs
  obtain ⟨⟨hok3, hcomp3, -, -, -⟩, -, hq, hcore⟩ := hok.swapinParts hs
  -- up to the enqueue: the counts are set, the arenas are in memory
  set kv1 := (initializeLayerSync cfg c).1.kv with hkv1
  have h1 : Layout cfg kv1 := h.of_layout rfl rfl
  obtain ⟨h2, hres2, hleft2⟩ := h1.reloadAllArenas hio
  have hq3 : Quiet (mzcacheReloadAllArenas cfg io kv1) (swapinPrepare cfg io early c).kv :=
    quiet_growAll cfg early { (initializeLayerSync cfg c).1 with
      kv := mzcacheReloadAllArenas cfg io kv1 }
  have hview2 : (mzcacheReloadAllArenas cfg io kv1).compBeyond cfg = c.kv.compBeyond cfg :=
    KvState.compBeyond_of_view (mzcacheReloadAllArenas_view io)
  set kv3 := (swapinPrepare cfg io early c).kv with hkv3
  have h3 : Layout cfg kv3 := h2.of_layout hq3.layout (hcomp3.trans hview2.symm)
  have hres3 : kv3.Resident cfg := by
    unfold KvState.Resident at hres2 ⊢
    rw [show kv3.nextLayerToOffload = _ from congrArg LayoutView.nextLayerToOffload hq3.layout]
    exact hres2
  -- the tasks, with growth beside them
  obtain ⟨_, hdecomp, _, _, comp, store, fds, tick, hstate, -⟩ := hq
  have hq4 : Quiet kv3 (runReads cfg io r.tasks.read r.tasks.state) := by
    refine Quiet.trans ?_ (quiet_runReads cfg io r.tasks.read r.tasks.state)
    rw [hstate]
    exact ⟨rfl, rfl⟩
  obtain ⟨hlay5, hleft5⟩ := runDecomps_layout cfg r.tasks.decomp
    (runReads cfg io r.tasks.read r.tasks.state)
  have hq6 := quiet_growAll cfg late (swapinRestore cfg io r.tasks (swapinPrepare cfg io early c))
  set kv6 := (growAll cfg late (swapinRestore cfg io r.tasks (swapinPrepare cfg io early c))).kv
    with hkv6
  have hlay6 : kv6.layout = { kv3.layout with arenas := kv6.arenas } := by
    have harenas : kv6.arenas = (runDecomps cfg r.tasks.decomp
        (runReads cfg io r.tasks.read r.tasks.state)).arenas :=
      congrArg LayoutView.arenas hq6.layout
    have : kv6.layout = (runDecomps cfg r.tasks.decomp
        (runReads cfg io r.tasks.read r.tasks.state)).layout := hq6.layout
    rw [this, hlay5, hq4.layout, harenas]
  have hkvF : r.core.kv = cleanAfterRead (kv3.storeBeyond cfg).length
      (cleanAfterDecompress (kv3.compBeyond cfg).length kv6) := by
    rw [hcore]
    rfl
  have hnext : r.core.kv.nextLayerToOffload = kv3.nextLayerToOffload := by
    rw [hkvF]
    have h6 : kv6.nextLayerToOffload = kv3.nextLayerToOffload :=
      congrArg LayoutView.nextLayerToOffload hlay6
    rw [← h6]
    unfold cleanAfterRead cleanAfterDecompress
    split
    · rfl
    · dsimp only
      split <;> split <;> rfl
  refine ⟨⟨?_, ?_⟩, by unfold KvState.Resident; rw [hnext]; exact hres3⟩
  · by_cases hz : (kv3.compBeyond cfg).length = 0
    · -- nothing was compressed, so nothing was released
      have hnil : r.tasks.decomp = [] := by
        rw [hdecomp, List.length_eq_zero_iff.mp hz]
        rfl
      have harenas : kv6.arenas = kv3.arenas := by
        have : kv6.arenas = (runReads cfg io r.tasks.read r.tasks.state).arenas := by
          have := congrArg LayoutView.arenas hq6.layout
          rw [show (swapinRestore cfg io r.tasks (swapinPrepare cfg io early c)).kv = runDecomps cfg
            r.tasks.decomp (runReads cfg io r.tasks.read r.tasks.state) from rfl, hnil] at this
          exact this
        exact this.trans (congrArg LayoutView.arenas hq4.layout)
      refine h3.of_sublist ?_ (by rw [hfin.noComp]; exact List.nil_sublist _)
      rw [hkvF, hz]
      show kv6.layout = kv3.layout
      rw [hlay6, harenas]
      rfl
    · have hthin : Thinned cfg kv3 kv6 [] := by
        refine ⟨hlay6, fun e he => absurd he (by simp), List.nil_sublist _, ?_⟩
        intro e he
        have hiff := hfin.ok.ladder.compressed_iff e
        rw [hfin.noComp, hkvF] at hiff
        have hstates : (cleanAfterRead (kv3.storeBeyond cfg).length
            (cleanAfterDecompress (kv3.compBeyond cfg).length kv6)).states = kv6.states ∧
            (cleanAfterRead (kv3.storeBeyond cfg).length
            (cleanAfterDecompress (kv3.compBeyond cfg).length kv6)).numChunksPerTensor =
              kv6.numChunksPerTensor := by
          unfold cleanAfterRead cleanAfterDecompress
          rw [if_neg hz]
          dsimp only
          split <;> split <;> exact ⟨rfl, rfl⟩
        rw [hstates.1, hstates.2] at hiff
        simpa only [he, true_and] using hiff
      refine h3.clean hres3 hthin ?_ hfin.noComp
      rw [hkvF]
      unfold cleanAfterRead cleanAfterDecompress
      rw [if_neg hz]
      dsimp only
      split <;> split <;> rfl
  · intro l hl
    have hclean : r.core.kv.compLeft = kv6.compLeft := by
      rw [hkvF]
      unfold cleanAfterRead cleanAfterDecompress
      split
      · rfl
      · dsimp only
        split <;> split <;> rfl
    have h6 : kv6.compLeft = (runDecomps cfg r.tasks.decomp
        (runReads cfg io r.tasks.read r.tasks.state)).compLeft := hq6.left
    have hinit : kv1.compLeft l = compressInit c.kv l := if_pos hl
    have hcount := count_beyond_row (n := cfg.numLayers) (fun _ => Nat.zero_le _)
      hok.ladder.compWf.onRow l
    rw [if_pos hl, ← compressInit_eq] at hcount
    rw [hclean, h6, hleft5 l, hq4.left, hq3.left, hleft2, hinit, hdecomp, List.take_length, hcomp3,
      ← hcount]
    show _ - ((c.kv.compBeyond cfg).countP _ : Int) ≤ 0
    unfold KvState.compBeyond
    omega

/-- Every step keeps the layout. -/
theorem Arranged.step (hf : cfg.Fits) (hio : io.Reloads) (hok : CoreOk cfg c)
    (h : Arranged cfg c.kv) (hs : ArenaStep cfg io c c') :
    CoreOk cfg c' ∧ Arranged cfg c'.kv := by
  have hnc := hok.ladder.nComp
  have hns := hok.ladder.nStore
  cases hs with
  | compress n hn hres =>
      obtain ⟨_, _, hm⟩ := hok.ladder.compressChunks n hn
      refine ⟨hok.moved hm, h.layout.compressChunks hf hok.ladder hres n hn, ?_⟩
      have hrule := @Ladder.compressChunks_rule cfg (fun t => t.Idle cfg)
        (fun _ _ ht _ => ht) (fun _ _ _ ht _ _ _ => ht)
      exact (hrule n c.kv hok.ladder h.idle hn).1
  | decompress m hm hres =>
      obtain ⟨h1, h2⟩ := h.layout.decompressChunks hok.ladder hres h.idle hm
      exact ⟨hok.moved (hok.ladder.decompressChunks (m := m) (by omega)), h1, h2⟩
  | offload =>
      refine ⟨hok.moved (hok.ladder.stay (mzcacheOffloadArenas_view io)),
        h.layout.offloadArenas, ?_⟩
      intro l hl
      show (mzcacheOffloadArenas io c.kv).1.compLeft l ≤ 0
      rw [mzcacheOffloadArenas_left]
      exact h.idle l hl
  | reloadAll =>
      obtain ⟨h1, _, hleft⟩ := h.layout.reloadAllArenas hio
      exact ⟨hok.step .reloadAll, h1, fun l hl => by rw [hleft]; exact h.idle l hl⟩
  | swapin early late r hs => 
      exact ⟨hok.step (.swapin early late r hs), (h.layout.swapinGenerate hio hok hs).1⟩
  | store n hn =>
      obtain ⟨_, _, _, hm⟩ := hok.ladder.storeChunks io n hn
      exact ⟨hok.moved hm, h.quiet (quiet_storeChunks cfg io n c.kv) hm.comp⟩
  | closeStoredFiles => exact ⟨hok.moved (hok.ladder.stay rfl), h.quiet ⟨rfl, rfl⟩ rfl⟩
  | load m kv hm hs =>
      have hmoved := hok.ladder.loadChunks io (m := m) (by omega) hs
      exact ⟨hok.moved hmoved, h.quiet (quiet_loadChunks hok.ladder hm hs) hmoved.comp⟩
  | unload n hn =>
      obtain ⟨tick, ht⟩ := unloadLayers_kv io n c
      refine ⟨(CoreOk.unloadLayers io n hok hn).1, ?_⟩
      rw [ht]
      exact h.quiet ⟨rfl, rfl⟩ rfl
  | grow need =>
      have hg := hok.ladder.mzGrowChunks hok.follow need
      exact ⟨hg.ok hok, h.quiet (quiet_mzGrowChunks cfg need c) hg.kv.comp⟩
  | grown n =>
      have hg := hok.ladder.onKvChunksGrown n
      exact ⟨hg.ok hok, h.quiet (quiet_onKvChunksGrown cfg n c) hg.kv.comp⟩
  | foldGrowth =>
      have hg := hok.ladder.foldGrowth
      refine ⟨hg.ok hok, h.quiet ?_ hg.kv.comp⟩
      rw [followKv_kv]
      exact quiet_applyPendingGrowth cfg c.kv
  | write l j mem _ => exact ⟨hok.moved (hok.ladder.stay rfl), h.quiet ⟨rfl, rfl⟩ rfl⟩

end

end MzCache
