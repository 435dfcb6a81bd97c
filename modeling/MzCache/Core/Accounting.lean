import MzCache.Core.Engine

/-!
# Byte accounting

The byte totals behind the resident ratio. With a fixed-rate backend a compressed
chunk always saves the same amount, so `n_cur_comp_saved_bytes` is that amount times
the chunk count, and scaling it by the surviving fraction loses nothing.
`n_cur_arena_offload_bytes` is what the snapshots of the offloaded layers add up to.
-/

namespace MzCache

open MzCache.Lib

/-- A backend that compresses at a fixed rate. -/
def Config.FixedRate (cfg : Config) : Prop :=
  cfg.backend = .flexgen ∨ cfg.backend = .flexgen8bit

/-- Compressed bytes of any chunk of zeros, hence of any chunk at a fixed rate. -/
def Config.fixedBytes (cfg : Config) : Nat :=
  compressedBytes cfg 0 ⟨fun _ => 0, fun _ => 0, false⟩

/-- What compressing one chunk saves at a fixed rate. -/
def Config.savedPerChunk (cfg : Config) : Int := (cfg.chunkBytes : Int) - cfg.fixedBytes

/-- What the chunk's own records say it saves. -/
def savedBytes (cfg : Config) (s : KvState) (e : Cell) : Int :=
  (cfg.chunkBytes : Int) -
    ((s.kComp e.1 e.2).compSize + (s.vComp e.1 e.2).compSize + cfg.sideBytes)

/-- Padded bytes of the snapshots of the layers past `next_layer_to_offload`. -/
def offloadedBytes (cfg : Config) (s : KvState) : Int :=
  layerSum cfg fun l =>
    if s.nextLayerToOffload < l then paddedBytes (s.offloadUsedBytes l) else 0

/-- The byte totals are in order. -/
structure Acct (cfg : Config) (s : KvState) : Prop where
  saved : s.nCurCompSavedBytes = cfg.savedPerChunk * s.nCurCompChunks
  sizes : ∀ i j, s.states i j = .compressed → savedBytes cfg s (i, j) = cfg.savedPerChunk
  nextLow : -1 ≤ s.nextLayerToOffload
  nextHigh : s.nextLayerToOffload < cfg.numLayers
  offload : s.nCurArenaOffloadBytes = offloadedBytes cfg s

/-- What `Acct` reads of a state, besides the chunk states. -/
structure AcctView where
  nCurCompSavedBytes : Int
  nCurCompChunks : Int
  kComp : Nat → Nat → CompressedChunk
  vComp : Nat → Nat → CompressedChunk
  nextLayerToOffload : Int
  offloadUsedBytes : Nat → List Nat
  nCurArenaOffloadBytes : Int

def KvState.acct (s : KvState) : AcctView :=
  ⟨s.nCurCompSavedBytes, s.nCurCompChunks, s.kComp, s.vComp, s.nextLayerToOffload,
    s.offloadUsedBytes, s.nCurArenaOffloadBytes⟩

section

variable {cfg : Config} {io : Io} {s s' : KvState}

theorem compressedBytes_fixed (hf : cfg.FixedRate) (layer : Nat) (mem : ChunkMem) :
    compressedBytes cfg layer mem = cfg.fixedBytes := by
  unfold Config.fixedBytes compressedBytes Config.compSize
  rcases hf with h | h <;> rw [h]

/-- An operation that compresses nothing and leaves the totals alone. -/
theorem Acct.mono (h : Acct cfg s) (ha : s'.acct = s.acct)
    (hst : ∀ i j, s'.states i j = .compressed → s.states i j = .compressed) : Acct cfg s' := by
  simp only [KvState.acct, AcctView.mk.injEq] at ha
  obtain ⟨h1, h2, h3, h4, h5, h6, h7⟩ := ha
  refine ⟨by rw [h1, h2]; exact h.saved, ?_, h5 ▸ h.nextLow, h5 ▸ h.nextHigh, ?_⟩
  · intro i j hc
    unfold savedBytes
    rw [h3, h4]
    exact h.sizes i j (hst i j hc)
  · unfold offloadedBytes
    rw [h5, h6, h7]
    exact h.offload

theorem Acct.keep (h : Acct cfg s) (ha : s'.acct = s.acct) (hst : s'.states = s.states) :
    Acct cfg s' :=
  h.mono ha fun i j hc => by rwa [hst] at hc

theorem set_eq_compressed {t : Nat → Nat → KVstate} {v : KVstate} (hv : v ≠ .compressed)
    {l c i j : Nat} (h : Table.set t l c v i j = .compressed) : t i j = .compressed := by
  rw [Table.set_apply] at h
  split at h
  · exact absurd h hv
  · exact h

/-! ## Evicting -/

theorem Acct.compressAt (hf : cfg.FixedRate) (h : Acct cfg s) (e : Cell) :
    Acct cfg (compressAt cfg e.1 e.2 s) := by
  have hbytes := compressedBytes_fixed hf e.1 (s.rawMem cfg e.1 e.2)
  refine ⟨?_, ?_, h.nextLow, h.nextHigh, h.offload⟩
  · simp only [MzCache.compressAt, h.saved, hbytes]
    unfold Config.savedPerChunk
    ring
  · intro i j hc
    simp only [MzCache.compressAt] at hc
    unfold savedBytes
    simp only [MzCache.compressAt, Table.set_apply] at hc ⊢
    by_cases hij : i = e.1 ∧ j = e.2
    · rw [if_pos hij, if_pos hij]
      unfold Config.savedPerChunk
      rw [← hbytes]
      unfold compressedBytes
      push_cast
      ring
    · rw [if_neg hij] at hc ⊢
      rw [if_neg hij]
      exact h.sizes i j hc

theorem Acct.compressChunks (hf : cfg.FixedRate) (hl : Ladder cfg s) (h : Acct cfg s) (n : Nat)
    (hn : (n : Int) ≤ s.maxCompChunks - s.nCurCompChunks) :
    Acct cfg (mzcacheCompressChunks cfg n s).1 :=
  (Ladder.compressChunks_rule (P := Acct cfg) (fun _ _ ht _ => ht.keep rfl rfl)
    (fun _ e _ ht _ _ _ => ht.compressAt hf e) n s hl h hn).1

theorem Acct.storeChunks (hl : Ladder cfg s) (h : Acct cfg s) (n : Nat)
    (hn : (n : Int) ≤ s.maxStoreChunks - s.nCurStoreChunks) :
    Acct cfg (mzcacheStoreChunks cfg io n s) := by
  refine (Ladder.storeChunks_rule (P := Acct cfg) io (fun _ _ _ _ ht _ => ht.keep rfl rfl)
    ?_ n s hl h hn).1
  intro t e _ ht _ _ _
  exact ht.mono rfl fun i j hc => set_eq_compressed (by simp) hc

/-! ## Restoring -/

theorem runReads_acct (cfg : Config) (io : Io) (l : List Cell) :
    ∀ s : KvState, (runReads cfg io l s).acct = s.acct := by
  induction l with
  | nil => intro s; rfl
  | cons e l ih =>
      intro s
      rw [runReads, ih]
      unfold kvReadWorker kvAllocWorker
      dsimp only
      split <;> rfl

theorem runDecomps_acct (cfg : Config) (l : List Cell) :
    ∀ s : KvState, (runDecomps cfg l s).acct = s.acct := by
  induction l with
  | nil => intro s; rfl
  | cons e l ih =>
      intro s
      rw [runDecomps, ih]
      unfold kvDecompWorker
      split <;> rfl

theorem clearStates_compressed {l : List Cell} {t : Nat → Nat → KVstate} {i j : Nat}
    (h : clearStates l t i j = .compressed) : t i j = .compressed := by
  unfold clearStates at h
  split at h
  · cases h
  · exact h

theorem Acct.runReads (h : Acct cfg s) (io : Io) (l : List Cell) :
    Acct cfg (runReads cfg io l s) := by
  refine h.mono (runReads_acct cfg io l s) ?_
  intro i j hc
  rw [show (MzCache.runReads cfg io l s).states = clearStates l s.states from
    congrArg LadderView.states (runReads_view cfg io l s)] at hc
  exact clearStates_compressed hc

theorem Acct.runDecomps (h : Acct cfg s) (l : List Cell) : Acct cfg (runDecomps cfg l s) := by
  refine h.mono (runDecomps_acct cfg l s) ?_
  intro i j hc
  rw [show (MzCache.runDecomps cfg l s).states = clearStates l s.states from
    congrArg LadderView.states (runDecomps_view cfg l s)] at hc
  exact clearStates_compressed hc

/-- Scaling by the surviving fraction is exact. -/
theorem Acct.cleanAfterDecompress (h : Acct cfg s) {m : Nat}
    (hm : (m : Int) ≤ s.nCurCompChunks) : Acct cfg (cleanAfterDecompress m s) := by
  by_cases hz : m = 0
  · subst hz
    exact h
  · rw [cleanAfterDecompress_eq hz hm]
    refine ⟨?_, h.sizes, h.nextLow, h.nextHigh, h.offload⟩
    dsimp only
    split
    · rename_i hall
      rw [hall, mul_zero]
    · have hne : s.nCurCompChunks ≠ 0 := by omega
      calc (s.nCurCompSavedBytes * (s.nCurCompChunks - m)).tdiv s.nCurCompChunks
          = (s.nCurCompChunks * (cfg.savedPerChunk * (s.nCurCompChunks - m))).tdiv
              s.nCurCompChunks := by rw [h.saved]; ring_nf
        _ = cfg.savedPerChunk * (s.nCurCompChunks - m) := Int.mul_tdiv_cancel_left _ hne

theorem Acct.cleanAfterRead (h : Acct cfg s) (m : Nat) : Acct cfg (cleanAfterRead m s) :=
  h.keep rfl rfl

theorem Acct.decompressChunks (hl : Ladder cfg s) (h : Acct cfg s) {m : Nat}
    (hm : (m : Int) ≤ s.nCurCompChunks) : Acct cfg (mzcacheDecompressChunks cfg m s) := by
  have hlen : m ≤ (s.compBeyond cfg).length := by have := hl.nComp; omega
  obtain ⟨comp, hcomp, _, _⟩ :=
    decompWalk_spec (s := s) hl.shape m s.curToCompress hl.compWf hlen
  have hwalk : decompWalk cfg m s =
      ⟨{ s with curToCompress := comp }, (s.compBeyond cfg).take m, false⟩ := hcomp
  have h1 : Acct cfg { s with curToCompress := comp } := h.keep rfl rfl
  have h2 := h1.runDecomps ((s.compBeyond cfg).take m)
  unfold mzcacheDecompressChunks
  rw [hwalk]
  dsimp only
  rw [if_neg (by simp)]
  refine h2.cleanAfterDecompress ?_
  rw [show (MzCache.runDecomps cfg ((s.compBeyond cfg).take m)
    { s with curToCompress := comp }).nCurCompChunks = s.nCurCompChunks from
    congrArg AcctView.nCurCompChunks (runDecomps_acct cfg _ _)]
  exact hm

theorem Acct.loadChunks (hl : Ladder cfg s) (h : Acct cfg s) {m : Nat}
    (hm : (m : Int) ≤ s.nCurStoreChunks) (hs : mzcacheLoadChunks cfg io m s = some s') :
    Acct cfg s' := by
  have hlen : m ≤ (s.storeBeyond cfg).length := by have := hl.nStore; omega
  unfold mzcacheLoadChunks at hs
  rw [Option.bind_eq_some_iff] at hs
  obtain ⟨t, hopen, hs⟩ := hs
  obtain ⟨fds, tick, rfl⟩ := openFirstToRead_eq io s hopen
  rw [Option.map_eq_some_iff] at hs
  obtain ⟨w, hw, rfl⟩ := hs
  obtain ⟨store, fds', tick', rfl, _⟩ :=
    loadWalk_spec io hl.shape m s.curToStore fds tick w hl.storeWf hl.storeRow hlen hw
  have h1 : Acct cfg (s.withStore store fds' tick') := h.keep rfl rfl
  exact (h1.runReads io _).cleanAfterRead m

/-! ## Arenas -/

theorem paddedBytes_append (l : List Nat) (u : Nat) :
    paddedBytes (l ++ [u]) = paddedBytes l + roundUp4k u := by
  simp [paddedBytes]

/-- The write loop advances its offset by what it records. -/
theorem writeArenas_off (io : Io) (as : List Arena) :
    ∀ w : SwapWrite, (w.off : Int) = paddedBytes w.used →
      ((writeArenas io as w).off : Int) = paddedBytes (writeArenas io as w).used := by
  induction as with
  | nil => intro w hw; exact hw
  | cons a as ih =>
      intro w hw
      rw [writeArenas]
      split
      · rename_i hz
        apply ih
        simp only
        rw [paddedBytes_append, hz, ← hw]
        simp [roundUp4k]
      · dsimp only
        split
        · apply ih
          simp only
          rw [paddedBytes_append, ← hw]
          push_cast
          ring
        · exact hw

/-- One layer more past the cursor adds that layer's snapshot. -/
theorem layerSum_past {f g : Nat → Int} {next : Int} (h0 : 0 ≤ next) (hL : next < cfg.numLayers)
    (hfg : ∀ l : Nat, (l : Int) ≠ next → f l = g l) :
    layerSum cfg (fun l => if next - 1 < (l : Int) then f l else 0) =
      layerSum cfg (fun l => if next < (l : Int) then g l else 0) + f next.toNat := by
  have hsplit : (fun l : Nat => if next - 1 < (l : Int) then f l else 0) = fun l : Nat =>
      (if next < (l : Int) then g l else 0) + (if l = next.toNat then f next.toNat else 0) := by
    funext l
    by_cases hl : (l : Int) = next
    · have hln : l = next.toNat := by omega
      subst hln
      rw [if_pos (by omega), if_neg (by omega), if_pos rfl, zero_add]
    · rw [if_neg (show ¬ l = next.toNat by omega), add_zero]
      by_cases hlt : next < (l : Int)
      · rw [if_pos (by omega), if_pos hlt, hfg l hl]
      · rw [if_neg (by omega), if_neg hlt]
  rw [hsplit, layerSum_add]
  congr 1
  unfold layerSum
  rw [List.sum_map_ite_eq]
  have hmem : List.count next.toNat (List.range cfg.numLayers) = 1 :=
    List.count_eq_one_of_mem List.nodup_range (List.mem_range.mpr (by omega))
  rw [hmem]
  simp

/-- The offloaded bytes are those of the snapshots past the cursor. -/
structure Tallied (cfg : Config) (s : KvState) : Prop where
  nextLow : -1 ≤ s.nextLayerToOffload
  nextHigh : s.nextLayerToOffload < cfg.numLayers
  bytes : s.nCurArenaOffloadBytes = offloadedBytes cfg s

theorem Tallied.offloadArenas (h : Tallied cfg s) : Tallied cfg (mzcacheOffloadArenas io s).1 := by
  have hlow := h.nextLow
  have hhigh := h.nextHigh
  unfold mzcacheOffloadArenas
  split
  · exact h
  · rename_i hneg
    dsimp only
    split
    · have hoff := writeArenas_off io (s.arenas s.nextLayerToOffload.toNat)
        ⟨fun _ => 0, 0, [], s.tick + 1, true⟩ rfl
      set w := writeArenas io (s.arenas s.nextLayerToOffload.toNat)
        ⟨fun _ => 0, 0, [], s.tick + 1, true⟩
      split
      · refine ⟨by simp only; omega, by simp only; omega, ?_⟩
        simp only
        rw [h.bytes, hoff]
        unfold offloadedBytes
        simp only
        rw [layerSum_past (g := fun l => paddedBytes (s.offloadUsedBytes l)) (not_lt.mp hneg)
          hhigh, Function.update_self]
        intro l hl
        rw [Function.update_of_ne (by omega)]
      · -- a failed write leaves the layer where it was
        refine ⟨hlow, hhigh, ?_⟩
        simp only
        rw [h.bytes]
        unfold offloadedBytes layerSum
        simp only
        congr 1
        apply List.map_congr_left
        intro l _
        split
        · rw [Function.update_of_ne (by omega)]
        · rfl
    · exact ⟨hlow, hhigh, h.bytes⟩

theorem Acct.offloadArenas (h : Acct cfg s) : Acct cfg (mzcacheOffloadArenas io s).1 := by
  have htally : Tallied cfg s := ⟨h.nextLow, h.nextHigh, h.offload⟩
  obtain ⟨hlow, hhigh, hbytes⟩ := @Tallied.offloadArenas cfg io s htally
  refine ⟨?_, ?_, hlow, hhigh, hbytes⟩
  · unfold mzcacheOffloadArenas
    dsimp only
    split_ifs <;> exact h.saved
  · unfold mzcacheOffloadArenas
    dsimp only
    split_ifs <;> exact h.sizes

theorem reloadLayer_keeps (h : Acct cfg s) (l : Nat) : Acct cfg (reloadLayer cfg io s l) := by
  unfold reloadLayer
  split
  · exact h
  · split
    · exact h.keep rfl rfl
    · exact h.keep rfl rfl

theorem Acct.reloadAllArenas (h : Acct cfg s) : Acct cfg (mzcacheReloadAllArenas cfg io s) := by
  have hfold : ∀ (ls : List Nat) (t : KvState), Acct cfg t →
      Acct cfg (ls.foldl (reloadLayer cfg io) t) := by
    intro ls
    induction ls with
    | nil => intro t ht; exact ht
    | cons l ls ih => intro t ht; exact ih _ (reloadLayer_keeps ht l)
  have hL := cfg.numLayers_pos
  unfold mzcacheReloadAllArenas
  dsimp only
  split
  · exact h
  · have hf := hfold (List.range' s.firstOffloaded (cfg.numLayers - s.firstOffloaded)) s h
    refine ⟨hf.saved, hf.sizes, by simp only; omega, by simp only; omega, ?_⟩
    unfold offloadedBytes layerSum
    simp only
    symm
    apply List.sum_eq_zero
    intro x hx
    obtain ⟨l, hl, rfl⟩ := List.mem_map.mp hx
    rw [List.mem_range] at hl
    rw [if_neg (by omega)]

/-! ## Growth -/

theorem registerGrownChunks_acct (cfg : Config) (n : Nat) :
    (registerGrownChunks cfg n s).acct = s.acct ∧
      ∀ i j, (registerGrownChunks cfg n s).states i j = s.states i j ∨
        (registerGrownChunks cfg n s).states i j = .raw := by
  have hreg := registerChunks_registered cfg s.numChunksPerTensor n s
  have hacct : (registerChunks cfg s.numChunksPerTensor n s).1.acct = s.acct := by
    obtain ⟨states, hst⟩ := hreg.only
    rw [hst]
    rfl
  unfold MzCache.registerGrownChunks
  split
  · exact ⟨rfl, fun _ _ => Or.inl rfl⟩
  · split
    · exact ⟨rfl, fun _ _ => Or.inl rfl⟩
    · split
      · dsimp only
        split
        · exact ⟨hacct, hreg.mono⟩
        · exact ⟨hacct, hreg.mono⟩
      · exact ⟨rfl, fun _ _ => Or.inl rfl⟩

theorem Acct.registerGrownChunks (h : Acct cfg s) (n : Nat) :
    Acct cfg (registerGrownChunks cfg n s) := by
  obtain ⟨hacct, hst⟩ := registerGrownChunks_acct (s := s) cfg n
  refine h.mono hacct ?_
  intro i j hc
  rcases hst i j with heq | hraw
  · rwa [heq] at hc
  · rw [hraw] at hc
    cases hc

theorem Acct.applyPendingGrowth (h : Acct cfg s) : Acct cfg (applyPendingGrowth cfg s) := by
  unfold MzCache.applyPendingGrowth
  have h0 : Acct cfg { s with pendingChunksTotal := 0 } := h.keep rfl rfl
  split
  · exact h0.registerGrownChunks _
  · exact h0

theorem followKv_kv {c : Core} : (c.followKv cfg).kv = c.kv := by
  unfold Core.followKv
  split <;> rfl

theorem Acct.onKvChunksGrown {c : Core} (h : Acct cfg c.kv) (n : Nat) :
    Acct cfg (onKvChunksGrown cfg n c).kv := by
  unfold MzCache.onKvChunksGrown
  rw [followKv_kv]
  exact h.registerGrownChunks n

theorem Acct.mzGrowChunks {c : Core} (h : Acct cfg c.kv) (need : Nat) :
    Acct cfg (mzGrowChunks cfg need c).kv ∧
      (mzGrowChunks cfg need c).kv.nCurCompChunks = c.kv.nCurCompChunks := by
  unfold MzCache.mzGrowChunks
  split
  · exact ⟨h, rfl⟩
  · split
    · exact ⟨h, rfl⟩
    · set c1 : Core := { c with
        nChunksAlloc := need
        kv := { c.kv with svm := growLayerChunks cfg c.nChunksAlloc need c.kv.svm } }
      have h1 : Acct cfg c1.kv := h.keep rfl rfl
      refine ⟨h1.onKvChunksGrown need, ?_⟩
      unfold MzCache.onKvChunksGrown
      rw [followKv_kv]
      exact congrArg AcctView.nCurCompChunks (registerGrownChunks_acct (s := c1.kv) cfg need).1

theorem Acct.growAll (needs : List Nat) :
    ∀ {c : Core}, Acct cfg c.kv → Acct cfg (growAll cfg needs c).kv ∧
      (growAll cfg needs c).kv.nCurCompChunks = c.kv.nCurCompChunks := by
  induction needs with
  | nil => intro c h; exact ⟨h, rfl⟩
  | cons n needs ih =>
      intro c h
      obtain ⟨h1, hn1⟩ := h.mzGrowChunks n
      obtain ⟨h2, hn2⟩ := ih h1
      exact ⟨h2, hn2.trans hn1⟩

/-! ## Whole operations -/

theorem unloadLayers_kv (io : Io) (n : Nat) :
    ∀ c : Core, ∃ tick, (mzcacheUnloadLayers io n c).1.kv = { c.kv with tick := tick } := by
  induction n with
  | zero => intro c; exact ⟨c.kv.tick, rfl⟩
  | succ n ih =>
      intro c
      unfold mzcacheUnloadLayers
      dsimp only
      split
      · split
        · obtain ⟨tick, ht⟩ := ih { c with
            kv := { c.kv with tick := c.kv.tick + 1 + 1 }
            weightLoaded := Function.update c.weightLoaded c.curLayerIdxToUnload.toNat false
            curLayerIdxToUnload := c.curLayerIdxToUnload - 1
            nCurUnloadLayers := c.nCurUnloadLayers + 1 }
          exact ⟨tick, ht⟩
        · exact ⟨_, rfl⟩
      · exact ⟨_, rfl⟩

theorem Acct.swapinGenerate {c : Core} (hok : CoreOk cfg c) (h : Acct cfg c.kv)
    {early late : List Nat} {r : Swapin}
    (hs : swapinGenerate cfg io early late c = some r) : Acct cfg r.core.kv := by
  obtain ⟨⟨hok3, -, -, -, -⟩, -, hq, hcore⟩ := hok.swapinParts hs
  have h2 : Acct cfg (mzcacheReloadAllArenas cfg io (initializeLayerSync cfg c).1.kv) :=
    Acct.reloadAllArenas (h.keep rfl rfl)
  obtain ⟨h3, _⟩ := Acct.growAll early (c := { (initializeLayerSync cfg c).1 with
    kv := mzcacheReloadAllArenas cfg io (initializeLayerSync cfg c).1.kv }) h2
  obtain ⟨_, _, _, _, comp, store, fds, tick, hstate, -⟩ := hq
  have h4 : Acct cfg r.tasks.state := by
    rw [hstate]
    exact Acct.keep h3 rfl rfl
  have h5 := (h4.runReads io r.tasks.read).runDecomps r.tasks.decomp
  obtain ⟨h6, hn6⟩ := Acct.growAll late
    (c := swapinRestore cfg io r.tasks (swapinPrepare cfg io early c)) h5
  have hn : (swapinRestore cfg io r.tasks (swapinPrepare cfg io early c)).kv.nCurCompChunks =
      (swapinPrepare cfg io early c).kv.nCurCompChunks := by
    have hd := congrArg AcctView.nCurCompChunks (runDecomps_acct cfg r.tasks.decomp
      (MzCache.runReads cfg io r.tasks.read r.tasks.state))
    have hr := congrArg AcctView.nCurCompChunks
      (runReads_acct cfg io r.tasks.read r.tasks.state)
    have hst : r.tasks.state.nCurCompChunks =
        (swapinPrepare cfg io early c).kv.nCurCompChunks := by
      rw [hstate]
      rfl
    exact (hd.trans hr).trans hst
  rw [hcore]
  refine Acct.cleanAfterRead (Acct.cleanAfterDecompress h6 ?_) _
  rw [hn6, hn, hok3.ladder.nComp]

/-- Every operation keeps the accounts. -/
theorem Acct.step {c c' : Core} (hf : cfg.FixedRate) (hok : CoreOk cfg c) (h : Acct cfg c.kv)
    (hs : LadderStep cfg io c c') : Acct cfg c'.kv := by
  cases hs with
  | compress n hn => exact h.compressChunks hf hok.ladder n hn
  | store n hn => exact h.storeChunks hok.ladder n hn
  | closeStoredFiles => exact h.keep rfl rfl
  | decompress m hm _ => exact h.decompressChunks hok.ladder hm
  | load m kv hm hs => exact h.loadChunks hok.ladder hm hs
  | unload n _ =>
      obtain ⟨tick, ht⟩ := unloadLayers_kv io n c
      rw [ht]
      exact h.keep rfl rfl
  | offload => exact h.offloadArenas
  | reloadAll => exact h.reloadAllArenas
  | swapin early late r hs => exact h.swapinGenerate hok hs
  | grow need => exact (h.mzGrowChunks need).1
  | grown n => exact h.onKvChunksGrown n
  | foldGrowth =>
      rw [followKv_kv]
      exact h.applyPendingGrowth
  | write l j mem _ => exact h.keep rfl rfl

end

end MzCache
