import MzCache.Core.LayoutSteps
import MzCache.Kv.Held

/-!
# Chunk contents through the engine

`Kept` says that every chunk is held, in a state the engine can be in between two calls.
A swapout keeps it while every `pwrite` is complete; a swapin brings back what was stored
while every `pread` is. The contents of a chunk are a ghost: they change when the decode
thread writes, when a chunk is new, and when a compressed chunk is decoded.
-/

namespace MzCache

open MzCache.Lib

/-- Every chunk is held, and the state is one between two steps of a swapout. -/
structure Kept (cfg : Config) (c : Core) (g : Contents) : Prop where
  ok : CoreOk cfg c
  layout : Layout cfg c.kv
  out : c.kv.Resident cfg ∨ c.kv.AllOut
  alloc : c.kv.numChunksPerTensor ≤ c.nChunksAlloc
  absent : ∀ l < cfg.numLayers, ∀ j, c.nChunksAlloc ≤ j → c.kv.svm l j = none
  held : HeldAll cfg c.kv g

section

variable {cfg : Config} {io : Io} {s t : KvState} {c c' : Core} {g : Contents}

/-! ## Growth -/

/-- What registering new chunks does to the memory and the plan. -/
structure Enrolled (cfg : Config) (s t : KvState) : Prop where
  svm : t.svm = s.svm
  files : t.kvFile = s.kvFile ∧ t.kStored = s.kStored ∧ t.vStored = s.vStored
  layout : Quiet s t
  chunks : s.numChunksPerTensor ≤ t.numChunksPerTensor
  fresh : ∀ l < cfg.numLayers, ∀ j, s.numChunksPerTensor ≤ j → j < t.numChunksPerTensor →
    (s.svm l j).isSome
  fds : t.layerFds = s.layerFds

theorem registerGrownChunks_enrolled (cfg : Config) (n : Nat) (s : KvState) :
    Enrolled cfg s (registerGrownChunks cfg n s) := by
  obtain ⟨⟨states, hst⟩, _, _, _, hres⟩ := registerChunks_registered cfg s.numChunksPerTensor n s
  have hquiet := quiet_registerGrownChunks cfg n s
  unfold registerGrownChunks at hquiet ⊢
  split
  · exact ⟨rfl, ⟨rfl, rfl, rfl⟩, Quiet.refl s, le_rfl, fun _ _ _ h h' => by omega, rfl⟩
  · rename_i hgt
    rw [if_neg hgt] at hquiet
    split
    · exact ⟨rfl, ⟨rfl, rfl, rfl⟩, Quiet.refl s, le_rfl, fun _ _ _ h h' => by omega, rfl⟩
    · rename_i hmax
      rw [if_neg hmax] at hquiet
      split
      · rename_i hclean
        rw [if_pos hclean] at hquiet
        dsimp only at hquiet ⊢
        split
        · rename_i hok
          rw [if_pos hok] at hquiet
          have hnew := hres hok
          rw [hst] at hquiet ⊢
          refine ⟨rfl, ⟨rfl, rfl, rfl⟩, hquiet, ?_, ?_, rfl⟩
          · show s.numChunksPerTensor ≤ n
            omega
          · intro l hl j hj hjn
            exact hnew (l, j) (mem_cells.mpr ⟨hl, hj, hjn⟩)
        · rename_i hok
          rw [if_neg hok] at hquiet
          rw [hst] at hquiet ⊢
          refine ⟨rfl, ⟨rfl, rfl, rfl⟩, hquiet, le_rfl, ?_, rfl⟩
          intro l _ j h h'
          have h'' : j < s.numChunksPerTensor := h'
          omega
      · refine ⟨rfl, ⟨rfl, rfl, rfl⟩, ⟨rfl, rfl⟩, le_rfl, ?_, rfl⟩
        intro l _ j h h'
        have h'' : j < s.numChunksPerTensor := h'
        omega

/-- Registering chunks keeps what is held: a new chunk is raw, and was in memory. -/
theorem HeldAll.registerGrownChunks (hl : Ladder cfg s) (h : HeldAll cfg s g) (n : Nat) :
    HeldAll cfg (registerGrownChunks cfg n s) g := by
  obtain ⟨⟨states, hst⟩, _, hkeep, hnew, hres⟩ :=
    registerChunks_registered cfg s.numChunksPerTensor n s
  unfold MzCache.registerGrownChunks
  split
  · exact h
  · split
    · exact h
    · split
      · rename_i hclean
        simp only [KvState.cleanLadder, Bool.decide_and, Bool.and_eq_true,
          decide_eq_true_eq] at hclean
        obtain ⟨_, _, hraw⟩ := hl.raw_of_clean hclean.1 hclean.2.1
        dsimp only
        split
        · rename_i hok
          have hall := hnew hok
          have hmem := hres hok
          rw [hst] at hall hkeep ⊢
          intro l hlL j
          have hj := h l hlL j
          unfold Held at hj
          by_cases hjn : j < n
          · have hrawj : states l j = .raw := by
              by_cases hc : j < s.numChunksPerTensor
              · exact (hkeep l j hc).trans (hraw l j hlL hc)
              · exact hall (l, j) (mem_cells.mpr ⟨hlL, not_lt.mp hc, hjn⟩)
            refine held_of_raw hjn hrawj ?_
            by_cases hc : j < s.numChunksPerTensor
            · rw [if_pos hc, hraw l j hlL hc] at hj
              exact hj
            · rw [if_neg hc] at hj
              obtain ⟨mem, hm⟩ := Option.isSome_iff_exists.mp
                (hmem (l, j) (mem_cells.mpr ⟨hlL, not_lt.mp hc, hjn⟩))
              exact ⟨mem, hm, hj mem hm⟩
          · unfold Held
            show if j < n then _ else _
            rw [if_neg hjn]
            rw [if_neg (by omega)] at hj
            exact hj
        · rw [hst] at hkeep ⊢
          exact h.of_states rfl fun l j hj => hkeep l j hj
      · exact h.of_held rfl

theorem Enrolled.resident (he : Enrolled cfg s t) (h : s.Resident cfg) : t.Resident cfg := by
  unfold KvState.Resident at h ⊢
  rw [show t.nextLayerToOffload = s.nextLayerToOffload from
    congrArg LayoutView.nextLayerToOffload he.layout.layout]
  exact h

/-- With everything out the plan cannot change, so everything stays out. -/
theorem Regrown.allOut (hl : Ladder cfg s) (hg : Regrown cfg s t) (h : s.AllOut) : t.AllOut := by
  have hpos := hl.chunks_pos
  have hL := cfg.numLayers_pos
  have htotal := hl.total
  have hne : t.numChunksPerTensor = s.numChunksPerTensor := by
    rcases hg.plan with heq | ⟨hc, hs⟩
    · exact heq
    · have h1 := hl.nComp
      have h2 := hl.nStore
      rw [hc] at h1
      rw [hs] at h2
      have hmul : (0 : Int) < s.numChunksPerTensor * cfg.numLayers := by positivity
      obtain ⟨h3, h4⟩ := h
      simp only [List.length_nil, Nat.cast_zero] at h1 h2
      omega
  have hbound : t.chunkBound = s.chunkBound := by rw [hg.ladder.bound, hl.bound, hne]
  refine ⟨?_, ?_⟩
  · rw [hg.ladder.nComp, hg.comp, ← hl.nComp, h.1, hg.ladder.maxComp, hl.maxComp, hbound]
  · rw [hg.ladder.nStore, hg.store, ← hl.nStore, h.2, hg.ladder.maxStore, hl.maxStore, hbound, hne]

theorem followKv_alloc (cfg : Config) (c : Core) :
    (c.followKv cfg).nChunksAlloc = c.nChunksAlloc := by
  unfold Core.followKv
  split <;> rfl

/-- Chunks may be registered at any time. -/
theorem Kept.enroll (h : Kept cfg c g) {kv : KvState} (hg : Regrown cfg c.kv kv)
    (he : Enrolled cfg c.kv kv) (hheld : HeldAll cfg kv g) :
    Kept cfg (({ c with kv := kv } : Core).followKv cfg) g := by
  have hok := hg.followKv.ok h.ok
  have hkv : (({ c with kv := kv } : Core).followKv cfg).kv = kv := followKv_kv
  have halloc : (({ c with kv := kv } : Core).followKv cfg).nChunksAlloc = c.nChunksAlloc :=
    followKv_alloc cfg _
  refine ⟨hok, by rw [hkv]; exact h.layout.of_layout he.layout.layout hg.comp, ?_, ?_, ?_, ?_⟩
  · rw [hkv]
    exact h.out.imp he.resident (hg.allOut h.ok.ladder)
  · rw [hkv, halloc]
    by_contra hlt
    -- a chunk past the materialized ones would have been registered
    have hL := cfg.numLayers_pos
    have hsome := he.fresh 0 hL c.nChunksAlloc h.alloc (by omega)
    rw [h.absent 0 hL _ le_rfl] at hsome
    cases hsome
  · rw [hkv, halloc, he.svm]
    exact h.absent
  · rw [hkv]
    exact hheld

theorem applyPendingGrowth_enrolled (cfg : Config) (s : KvState) :
    Enrolled cfg s (applyPendingGrowth cfg s) := by
  unfold applyPendingGrowth
  split
  · obtain ⟨h1, h2, h3, h4, h5, h6⟩ := registerGrownChunks_enrolled cfg s.pendingChunksTotal
      { s with pendingChunksTotal := 0 }
    exact ⟨h1, h2, ⟨h3.layout, h3.left⟩, h4, h5, h6⟩
  · refine ⟨rfl, ⟨rfl, rfl, rfl⟩, ⟨rfl, rfl⟩, le_rfl, ?_, rfl⟩
    intro l _ j h h'
    have h'' : j < s.numChunksPerTensor := h'
    omega

theorem HeldAll.applyPendingGrowth (hl : Ladder cfg s) (h : HeldAll cfg s g) :
    HeldAll cfg (applyPendingGrowth cfg s) g := by
  unfold MzCache.applyPendingGrowth
  have hl0 : Ladder cfg { s with pendingChunksTotal := 0 } := hl.of_view rfl
  have h0 : HeldAll cfg { s with pendingChunksTotal := 0 } g := h.of_held rfl
  split
  · exact h0.registerGrownChunks hl0 _
  · exact h0

/-! ## Evicting -/

/-- Chunks past the materialized ones have no memory. -/
def Absent (cfg : Config) (alloc : Nat) (s : KvState) : Prop :=
  ∀ l < cfg.numLayers, ∀ j, alloc ≤ j → s.svm l j = none

theorem Absent.release {alloc : Nat} (h : Absent cfg alloc s) {e : Cell}
    (hsvm : t.svm = Table.set s.svm e.1 e.2 none) : Absent cfg alloc t := by
  intro l hl j hj
  rw [hsvm, Table.set_apply]
  split
  · rfl
  · exact h l hl j hj

theorem Kept.compress (hf : cfg.Fits) (h : Kept cfg c g) {n : Nat}
    (hn : (n : Int) ≤ c.kv.maxCompChunks - c.kv.nCurCompChunks) :
    Kept cfg { c with kv := (mzcacheCompressChunks cfg n c.kv).1 } g := by
  obtain ⟨hok, hlay, hout, halloc, habs, hheld⟩ := h
  by_cases hz : n = 0
  · subst hz
    exact ⟨hok, hlay, hout, halloc, habs, hheld⟩
  · have hres : c.kv.Resident cfg := by
      rcases hout with hres | hall
      · exact hres
      · have := hall.1
        omega
    have hrule := @Ladder.compressChunks_rule cfg
      (fun t => t.Resident cfg ∧ Absent cfg c.nChunksAlloc t)
      (fun t cur ht _ => ht) (fun t e _ ht _ _ _ => ⟨ht.1, ht.2.release rfl⟩)
    obtain ⟨⟨hres', habs'⟩, _, _, hm⟩ := hrule n c.kv hok.ladder ⟨hres, habs⟩ hn
    refine ⟨hok.moved hm, hlay.compressChunks hf hok.ladder hres n hn, Or.inl hres', ?_, habs',
      hheld.compressChunks hf hok.ladder hlay hres n hn⟩
    show (mzcacheCompressChunks cfg n c.kv).1.numChunksPerTensor ≤ _
    rw [hm.chunks]
    exact halloc

theorem Kept.store (hio : io.Transfers) (h : Kept cfg c g) {n : Nat}
    (hn : (n : Int) ≤ c.kv.maxStoreChunks - c.kv.nCurStoreChunks) :
    Kept cfg { c with kv := mzcacheStoreChunks cfg io n c.kv } g := by
  obtain ⟨hok, hlay, hout, halloc, habs, hheld⟩ := h
  by_cases hz : n = 0
  · subst hz
    exact ⟨hok, hlay, hout, halloc, habs, hheld⟩
  · have hres : c.kv.Resident cfg := by
      rcases hout with hres | hall
      · exact hres
      · have := hall.2
        omega
    have hrule := @Ladder.storeChunks_rule cfg
      (fun t => t.Resident cfg ∧ Absent cfg c.nChunksAlloc t) io
      (fun t _ _ _ ht _ => ht) (fun t e _ ht _ _ _ => ⟨ht.1, ht.2.release rfl⟩)
    obtain ⟨⟨hres', habs'⟩, _, _, _, hm⟩ := hrule n c.kv hok.ladder ⟨hres, habs⟩ hn
    refine ⟨hok.moved hm, hlay.of_layout (quiet_storeChunks cfg io n c.kv).layout hm.comp,
      Or.inl hres', ?_,
      habs', hheld.storeChunks hio hok.ladder hlay n hn⟩
    show (mzcacheStoreChunks cfg io n c.kv).numChunksPerTensor ≤ _
    rw [hm.chunks]
    exact halloc

theorem unloadLayers_alloc (io : Io) (n : Nat) :
    ∀ c : Core, (mzcacheUnloadLayers io n c).1.nChunksAlloc = c.nChunksAlloc := by
  induction n with
  | zero => intro c; rfl
  | succ n ih =>
      intro c
      unfold mzcacheUnloadLayers
      dsimp only
      split
      · split
        · rw [ih]
        · rfl
      · rfl

/-- A change of the state that no chunk sees. -/
theorem Kept.unseen (h : Kept cfg c g) (hok : CoreOk cfg c') (halloc : c'.nChunksAlloc = c.nChunksAlloc)
    (hheld : c'.kv.held = c.kv.held) (hview : c'.kv.view = c.kv.view) : Kept cfg c' g := by
  have hq : c'.kv.layout = c.kv.layout := congrArg HeldView.layout hheld
  have hsvm : c'.kv.svm = c.kv.svm := congrArg HeldView.svm hheld
  refine ⟨hok, h.layout.of_layout hq (KvState.compBeyond_of_view hview), ?_, ?_, ?_,
    h.held.of_held hheld⟩
  · unfold KvState.Resident KvState.AllOut
    rw [show c'.kv.nextLayerToOffload = c.kv.nextLayerToOffload from
        congrArg LayoutView.nextLayerToOffload hq,
      show c'.kv.nCurCompChunks = _ from congrArg LadderView.nCurCompChunks hview,
      show c'.kv.nCurStoreChunks = _ from congrArg LadderView.nCurStoreChunks hview,
      show c'.kv.maxCompChunks = _ from congrArg LadderView.maxCompChunks hview,
      show c'.kv.maxStoreChunks = _ from congrArg LadderView.maxStoreChunks hview]
    exact h.out
  · rw [halloc, show c'.kv.numChunksPerTensor = _ from congrArg HeldView.numChunksPerTensor hheld]
    exact h.alloc
  · rw [halloc, hsvm]
    exact h.absent

/-- Every step of a swapout keeps all chunks held. -/
theorem Kept.evictStep (hf : cfg.Fits) (hio : io.Transfers) (h : Kept cfg c g)
    (hs : EvictStep cfg io c c') : Kept cfg c' g := by
  have hstep := h.ok.step hs.ladder
  cases hs with
  | compress n hn => exact h.compress hf hn
  | store n hn => exact h.store hio hn
  | closeStoredFiles => exact h.unseen hstep rfl rfl rfl
  | unload n hn =>
      obtain ⟨tick, ht⟩ := unloadLayers_kv io n c
      exact h.unseen hstep (unloadLayers_alloc io n c) (by rw [ht]; rfl) (by rw [ht]; rfl)
  | offload hall =>
      have hview := mzcacheOffloadArenas_view (s := c.kv) io
      obtain ⟨hsc, _, _⟩ := mzcacheOffloadArenas_same io c.kv
      refine ⟨hstep, h.layout.offloadArenas, Or.inr ⟨?_, ?_⟩, ?_, ?_,
        h.held.offloadArenas h.ok.ladder h.layout⟩
      · exact (congrArg LadderView.nCurCompChunks hview).trans
          (hall.1.trans (congrArg LadderView.maxCompChunks hview).symm)
      · exact (congrArg LadderView.nCurStoreChunks hview).trans
          (hall.2.trans (congrArg LadderView.maxStoreChunks hview).symm)
      · show (mzcacheOffloadArenas io c.kv).1.numChunksPerTensor ≤ _
        rw [(hsc 0 0).chunks]
        exact h.alloc
      · intro l hl j hj
        exact (hsc l j).svm.trans (h.absent l hl j hj)
  | foldGrowth =>
      exact h.enroll h.ok.ladder.applyPendingGrowth (applyPendingGrowth_enrolled cfg c.kv)
        (h.held.applyPendingGrowth h.ok.ladder)

end

end MzCache
