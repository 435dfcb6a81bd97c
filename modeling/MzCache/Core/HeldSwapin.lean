import MzCache.Core.HeldSteps

/-!
# Chunk contents through growth and swapin

Growth adds zeroed chunks and leaves the others where they are. A swapin opens the file of
every layer it reads, so each `READ` task finds a descriptor it can read from, and brings
the stored bytes back; the `DECOMP` tasks fill the compressed chunks.
-/

namespace MzCache

open MzCache.Lib

section

variable {cfg : Config} {io : Io} {s t : KvState} {c c' : Core} {g : Contents}

/-! ## Growth -/

/-- Memory, files and descriptors after growth: what was there stays. -/
structure Grew (c c' : Core) : Prop where
  alloc : c.nChunksAlloc ≤ c'.nChunksAlloc
  svm : ∀ l j, j < c.nChunksAlloc → c'.kv.svm l j = c.kv.svm l j
  some : ∀ l j mem, c.kv.svm l j = some mem → c'.kv.svm l j = some mem
  files : c'.kv.kvFile = c.kv.kvFile ∧ c'.kv.kStored = c.kv.kStored ∧
    c'.kv.vStored = c.kv.vStored
  fds : c'.kv.layerFds = c.kv.layerFds

theorem Grew.refl (c : Core) : Grew c c :=
  ⟨le_rfl, fun _ _ _ => rfl, fun _ _ _ h => h, ⟨rfl, rfl, rfl⟩, rfl⟩

theorem Grew.trans {c'' : Core} (h1 : Grew c c') (h2 : Grew c' c'') : Grew c c'' := by
  refine ⟨h1.alloc.trans h2.alloc, ?_, fun l j mem h => h2.some l j mem (h1.some l j mem h), ?_,
    h2.fds.trans h1.fds⟩
  · intro l j hj
    exact (h2.svm l j (lt_of_lt_of_le hj h1.alloc)).trans (h1.svm l j hj)
  · obtain ⟨ha, hb, hc⟩ := h1.files
    obtain ⟨ha', hb', hc'⟩ := h2.files
    exact ⟨ha'.trans ha, hb'.trans hb, hc'.trans hc⟩

/-- The core just before `on_kv_chunks_grown` sees the new chunks. -/
def grownMemory (cfg : Config) (need : Nat) (c : Core) : Core :=
  { c with
    nChunksAlloc := need
    kv := { c.kv with svm := growLayerChunks cfg c.nChunksAlloc need c.kv.svm } }

theorem growLayerChunks_some {alloc need : Nat} {svm : Nat → Nat → Option ChunkMem} {l j : Nat}
    {mem : ChunkMem} (h : svm l j = some mem) :
    growLayerChunks cfg alloc need svm l j = some mem := by
  unfold growLayerChunks
  rw [if_neg (by rw [h]; simp), h]

theorem growLayerChunks_below {alloc need : Nat} {svm : Nat → Nat → Option ChunkMem} {l j : Nat}
    (h : j < alloc) : growLayerChunks cfg alloc need svm l j = svm l j := by
  unfold growLayerChunks
  rw [if_neg (by omega)]

theorem mzGrowChunks_eq (cfg : Config) (need : Nat) (c : Core) :
    mzGrowChunks cfg need c = c ∨ (c.nChunksAlloc < need ∧
      mzGrowChunks cfg need c = onKvChunksGrown cfg need (grownMemory cfg need c)) := by
  unfold mzGrowChunks
  split
  · exact Or.inl rfl
  · rename_i hlt
    split
    · exact Or.inl rfl
    · exact Or.inr ⟨not_le.mp hlt, rfl⟩

theorem grew_onKvChunksGrown (cfg : Config) (n : Nat) (c : Core) :
    Grew c (onKvChunksGrown cfg n c) := by
  have he := registerGrownChunks_enrolled cfg n c.kv
  have hkv : (onKvChunksGrown cfg n c).kv = registerGrownChunks cfg n c.kv := followKv_kv
  refine ⟨(followKv_alloc cfg { c with kv := registerGrownChunks cfg n c.kv }).ge, ?_, ?_, ?_, ?_⟩
  · intro l j _
    rw [hkv, he.svm]
  · intro l j mem h
    rw [hkv, he.svm, h]
  · rw [hkv]
    exact he.files
  · rw [hkv]
    exact he.fds

theorem grew_mzGrowChunks (cfg : Config) (need : Nat) (c : Core) :
    Grew c (mzGrowChunks cfg need c) := by
  rcases mzGrowChunks_eq cfg need c with heq | ⟨hlt, heq⟩
  · rw [heq]
    exact Grew.refl c
  · rw [heq]
    have h1 : Grew c (grownMemory cfg need c) :=
      ⟨hlt.le, fun _ _ hj => growLayerChunks_below hj, fun _ _ _ h => growLayerChunks_some h,
        ⟨rfl, rfl, rfl⟩, rfl⟩
    exact h1.trans (grew_onKvChunksGrown cfg need _)

theorem grew_growAll (cfg : Config) (needs : List Nat) :
    ∀ c : Core, Grew c (growAll cfg needs c) := by
  induction needs with
  | nil => intro c; exact Grew.refl c
  | cons n needs ih => intro c; exact (grew_mzGrowChunks cfg n c).trans (ih _)

theorem Kept.grown (h : Kept cfg c g) (n : Nat) : Kept cfg (onKvChunksGrown cfg n c) g :=
  h.enroll (h.ok.ladder.registerGrownChunks n) (registerGrownChunks_enrolled cfg n c.kv)
    (h.held.registerGrownChunks h.ok.ladder n)

/-- New memory holds what it holds; everything else keeps its contents. -/
theorem Kept.grownMemory (h : Kept cfg c g) {need : Nat} (hlt : c.nChunksAlloc < need)
    {g' : Contents} (hold : ∀ l j, j < c.nChunksAlloc → g' l j = g l j)
    (hnew : ∀ l < cfg.numLayers, ∀ j mem, c.nChunksAlloc ≤ j →
      (grownMemory cfg need c).kv.svm l j = some mem → mem.Same cfg (g' l j)) :
    Kept cfg (grownMemory cfg need c) g' := by
  have hview : (MzCache.grownMemory cfg need c).kv.view = c.kv.view := rfl
  have hN := h.alloc
  refine ⟨?_, h.layout.of_layout rfl rfl, h.out, le_trans hN hlt.le, ?_, ?_⟩
  · have := h.ok
    exact ⟨this.ladder.of_view hview, this.follow, this.unloadLow, this.unloaded, this.weights⟩
  · intro l hl j hj
    have hj' : need ≤ j := hj
    show growLayerChunks cfg c.nChunksAlloc need c.kv.svm l j = none
    unfold growLayerChunks
    rw [if_neg (by omega)]
    exact h.absent l hl j (by omega)
  · intro l hl j
    by_cases hj : j < c.nChunksAlloc
    · rw [hold l j hj]
      have hsc : SameChunk c.kv (MzCache.grownMemory cfg need c).kv l j :=
        ⟨rfl, rfl, rfl, growLayerChunks_below hj, rfl, rfl, rfl, rfl⟩
      exact (h.held l hl j).frame h.ok.ladder h.layout hl hsc (PoolsLe.refl _)
        fun hin _ _ => hin.frame hsc rfl
    · have hout : ¬ j < (MzCache.grownMemory cfg need c).kv.numChunksPerTensor := by
        show ¬ j < c.kv.numChunksPerTensor
        omega
      unfold Held
      rw [if_neg hout]
      intro mem hmem
      exact hnew l hl j mem (not_lt.mp hj) hmem

/-- Whatever growth adds, the contents of the chunks there were stay. -/
theorem Kept.mzGrowChunks (h : Kept cfg c g) (need : Nat) :
    ∃ g', Kept cfg (mzGrowChunks cfg need c) g' ∧ ∀ l j, j < c.nChunksAlloc → g' l j = g l j := by
  rcases mzGrowChunks_eq cfg need c with heq | ⟨hlt, heq⟩
  · rw [heq]
    exact ⟨g, h, fun _ _ _ => rfl⟩
  · refine ⟨fun l j => if j < c.nChunksAlloc then g l j else
      ((MzCache.grownMemory cfg need c).kv.svm l j).getD (g l j), ?_, fun l j hj => if_pos hj⟩
    rw [heq]
    refine (h.grownMemory hlt (fun l j hj => if_pos hj) ?_).grown need
    intro l _ j mem hj hmem
    rw [if_neg (not_lt.mpr hj), hmem]
    exact ChunkMem.Same.refl cfg mem

theorem Kept.growAll (needs : List Nat) :
    ∀ {c : Core} {g : Contents}, Kept cfg c g →
      ∃ g', Kept cfg (growAll cfg needs c) g' ∧ ∀ l j, j < c.nChunksAlloc → g' l j = g l j := by
  induction needs with
  | nil => intro c g h; exact ⟨g, h, fun _ _ _ => rfl⟩
  | cons n needs ih =>
      intro c g h
      obtain ⟨g1, h1, hg1⟩ := h.mzGrowChunks n
      obtain ⟨g2, h2, hg2⟩ := ih h1
      refine ⟨g2, h2, fun l j hj => ?_⟩
      rw [hg2 l j (lt_of_lt_of_le hj (grew_mzGrowChunks cfg n c).alloc), hg1 l j hj]

/-! ## Descriptors -/

/-- No file is open for writing. -/
def NoWriters (fds : Nat → Option FdMode) : Prop := ∀ l, fds l ≠ some .write

theorem NoWriters.opened {fds : Nat → Option FdMode} (h : NoWriters fds) (layer : Nat) :
    NoWriters (Function.update fds layer (some .read)) ∧
      ∀ l, fds l = some .read → Function.update fds layer (some .read) l = some .read := by
  refine ⟨fun l => ?_, fun l hl => ?_⟩
  · by_cases hlr : l = layer
    · rw [hlr, Function.update_self]
      simp
    · rw [Function.update_of_ne hlr]
      exact h l
  · by_cases hlr : l = layer
    · rw [hlr, Function.update_self]
    · rw [Function.update_of_ne hlr]
      exact hl

theorem openToRead_read {layer : Nat} (hfds : NoWriters s.layerFds)
    (h : openToRead io layer s = some t) :
    t.layerFds layer = some .read ∧ NoWriters t.layerFds ∧
      ∀ l, s.layerFds l = some .read → t.layerFds l = some .read := by
  unfold openToRead at h
  split at h
  · rename_i hsome
    cases h
    refine ⟨?_, hfds, fun _ h => h⟩
    obtain ⟨mode, hmode⟩ := Option.isSome_iff_exists.mp hsome
    cases mode with
    | read => exact hmode
    | write => exact absurd hmode (hfds layer)
  · split at h
    · cases h
      exact ⟨Function.update_self _ _ _, hfds.opened layer⟩
    · cases h

/-- The load walk has a readable descriptor for every chunk it enqueues. -/
theorem loadWalk_readable (cfg : Config) (io : Io) (m : Nat) :
    ∀ (s : KvState) (w : Walk), loadWalk cfg io m s = some w → NoWriters s.layerFds →
      (s.curToStore.col + 1 ≠ s.numChunksPerTensor →
        s.layerFds s.curToStore.row.toNat = some .read) →
      (∀ e ∈ w.cells, w.state.layerFds e.1 = some .read) ∧
        ∀ l, s.layerFds l = some .read → w.state.layerFds l = some .read := by
  induction m with
  | zero =>
      intro s w hw _ _
      cases hw
      exact ⟨fun e he => absurd he (by simp), fun _ h => h⟩
  | succ m ih =>
      intro s w hw hfds hrow
      rw [loadWalk] at hw
      dsimp only at hw
      split at hw
      · split at hw
        · cases hw
          exact ⟨fun e he => absurd he (by simp), fun _ h => h⟩
        · -- the next layer's file is opened before its chunks are enqueued
          rw [Option.bind_eq_some_iff] at hw
          obtain ⟨u, hopen, hw⟩ := hw
          rw [Option.map_eq_some_iff] at hw
          obtain ⟨w', hw', rfl⟩ := hw
          obtain ⟨hread, hfds', hmono⟩ := @openToRead_read io { s with
            curToStore := ⟨s.curToStore.row + 1,
              s.chunkBound (s.curToStore.row + 1).toNat⟩ } u _ hfds hopen
          obtain ⟨fds, tick, rfl⟩ := openToRead_eq io _ _ hopen
          obtain ⟨hcells, hmono'⟩ := ih _ w' hw' hfds' (fun _ => hread)
          refine ⟨?_, fun l h => hmono' l (hmono l h)⟩
          intro e he
          rcases List.mem_cons.mp he with rfl | he
          · exact hmono' _ hread
          · exact hcells e he
      · rename_i hcol
        rw [Option.map_eq_some_iff] at hw
        obtain ⟨w', hw', rfl⟩ := hw
        have hread := hrow hcol
        obtain ⟨hcells, hmono⟩ := ih _ w' hw' hfds (fun _ => hread)
        refine ⟨?_, hmono⟩
        intro e he
        rcases List.mem_cons.mp he with rfl | he
        · exact hmono _ hread
        · exact hcells e he

/-- With every file closed, each enqueued READ task finds a readable descriptor. -/
theorem enqueue_readable {d k : Nat} {e : Enqueued} (hl : Ladder cfg s)
    (hclosed : ∀ l, s.layerFds l = none)
    (he : mzcacheEnqueueDecompLoadChunks cfg io d k s = some e) :
    ∀ x ∈ e.read, e.state.layerFds x.1 = some .read := by
  unfold mzcacheEnqueueDecompLoadChunks at he
  rw [Option.bind_eq_some_iff] at he
  obtain ⟨u, hopen, he⟩ := he
  rw [Option.map_eq_some_iff] at he
  obtain ⟨w, hw, rfl⟩ := he
  have hnone : NoWriters s.layerFds := fun l => by rw [hclosed l]; simp
  have hfirst : NoWriters u.layerFds ∧ (u.curToStore.col + 1 ≠ u.numChunksPerTensor →
      u.layerFds u.curToStore.row.toNat = some .read) := by
    unfold openFirstToRead at hopen
    split at hopen
    · split at hopen
      · cases hopen
        exact ⟨(hnone.opened _).1, fun _ => Function.update_self _ _ _⟩
      · cases hopen
    · rename_i hcol
      cases hopen
      refine ⟨hnone, ?_⟩
      -- a cursor at the end of its row enqueues nothing from that row
      intro hne
      obtain ⟨_, hhigh⟩ := hl.storeWf.onRow s.curToStore.row.toNat hl.storeWf.toNat_row
      have hlt : s.curToStore.col < s.numChunksPerTensor := hhigh
      omega
  have hdec : ∀ (n : Nat) (v : KvState), (decompWalk cfg n v).state.layerFds = v.layerFds := by
    intro n
    induction n with
    | zero => intro v; rfl
    | succ n ih =>
        intro v
        rw [decompWalk]
        dsimp only
        split
        · rfl
        · exact ih _
  intro x hx
  show (decompWalk cfg d w.state).state.layerFds x.1 = some .read
  rw [hdec]
  exact (loadWalk_readable cfg io k u w hw hfirst.1 hfirst.2).1 x hx

/-! ## Tasks -/

/-- One READ task with a readable file: both halves come back. -/
theorem kvReadWorker_reads (hio : io.Transfers) {e : Cell} (hfd : s.layerFds e.1 = some .read)
    (hoff : (s.vStored e.1 e.2).fileOffset = (s.kStored e.1 e.2).fileOffset + cfg.rawChunkBytes) :
    ∃ mem, kvReadWorker cfg io e.1 e.2 (kvAllocWorker cfg e.1 e.2 s) =
        { s with
          states := Table.set s.states e.1 e.2 .raw
          svm := Table.set s.svm e.1 e.2 (some mem)
          tick := s.tick + 1 } ∧
      Holds (s.kvFile e.1) (s.kStored e.1 e.2).fileOffset mem.k cfg.rawChunkBytes ∧
      Holds (s.kvFile e.1) (s.vStored e.1 e.2).fileOffset mem.v cfg.rawChunkBytes := by
  have hset : ∀ (v w : Option ChunkMem), Table.set (Table.set s.svm e.1 e.2 v) e.1 e.2 w =
      Table.set s.svm e.1 e.2 w := by
    intro v w
    funext a b
    simp only [Table.set_apply]
    split <;> rfl
  have hmem : (kvAllocWorker cfg e.1 e.2 s).rawMem cfg e.1 e.2 =
      ⟨cfg.uninit, cfg.uninit, true⟩ := by
    unfold KvState.rawMem kvAllocWorker
    simp only [Table.set_same]
    rfl
  have hmoved := IoResult.moved_of_complete (hio.reads s.tick) (cfg.rawChunkBytes * 2)
  unfold kvReadWorker
  dsimp only
  rw [hmem]
  rw [if_pos (show ((⟨cfg.uninit, cfg.uninit, true⟩ : ChunkMem).contiguous = true ∧
    ((kvAllocWorker cfg e.1 e.2 s).vStored e.1 e.2).fileOffset =
      ((kvAllocWorker cfg e.1 e.2 s).kStored e.1 e.2).fileOffset + cfg.rawChunkBytes) from
    ⟨rfl, hoff⟩)]
  have hread : (kvAllocWorker cfg e.1 e.2 s).layerFds e.1 = some .read := hfd
  rw [if_pos hread]
  rw [show (io .chunkRead (kvAllocWorker cfg e.1 e.2 s).tick).moved (cfg.rawChunkBytes * 2) =
    cfg.rawChunkBytes * 2 from hmoved]
  refine ⟨⟨blit cfg.uninit 0 (fun i => s.kvFile e.1 ((s.kStored e.1 e.2).fileOffset + i))
      (min (cfg.rawChunkBytes * 2) cfg.rawChunkBytes),
    blit cfg.uninit 0
      (fun i => s.kvFile e.1 ((s.kStored e.1 e.2).fileOffset + cfg.rawChunkBytes + i))
      (cfg.rawChunkBytes * 2 - cfg.rawChunkBytes), true⟩, ?_, ?_, ?_⟩
  · unfold kvAllocWorker
    dsimp only
    rw [hset]
  · intro i hi
    have := blit_holds cfg.uninit 0 (fun i => s.kvFile e.1 ((s.kStored e.1 e.2).fileOffset + i))
      (min (cfg.rawChunkBytes * 2) cfg.rawChunkBytes) i (by omega)
    rw [Nat.zero_add] at this
    exact this.symm
  · intro i hi
    have := blit_holds cfg.uninit 0
      (fun i => s.kvFile e.1 ((s.kStored e.1 e.2).fileOffset + cfg.rawChunkBytes + i))
      (cfg.rawChunkBytes * 2 - cfg.rawChunkBytes) i (by omega)
    rw [Nat.zero_add] at this
    rw [hoff]
    exact this.symm

/-- What the READ tasks leave behind. -/
structure ReadBack (cfg : Config) (s t : KvState) (l : List Cell) : Prop where
  other : ∀ i j, (i, j) ∉ l → t.svm i j = s.svm i j
  back : ∀ e ∈ l, ∃ mem, t.svm e.1 e.2 = some mem ∧
    Holds (s.kvFile e.1) (s.kStored e.1 e.2).fileOffset mem.k cfg.rawChunkBytes ∧
    Holds (s.kvFile e.1) (s.vStored e.1 e.2).fileOffset mem.v cfg.rawChunkBytes

theorem runReads_readBack (hio : io.Transfers) (l : List Cell) :
    ∀ s : KvState, l.Nodup → (∀ e ∈ l, s.layerFds e.1 = some .read) →
      (∀ e ∈ l, (s.vStored e.1 e.2).fileOffset =
        (s.kStored e.1 e.2).fileOffset + cfg.rawChunkBytes) →
      ReadBack cfg s (runReads cfg io l s) l := by
  induction l with
  | nil => intro s _ _ _; exact ⟨fun _ _ _ => rfl, fun e he => absurd he (by simp)⟩
  | cons e l ih =>
      intro s hnd hfds hoff
      obtain ⟨hnot, hnd'⟩ := List.nodup_cons.mp hnd
      obtain ⟨mem, heq, hk, hv⟩ := @kvReadWorker_reads cfg _ _ hio _
        (hfds e List.mem_cons_self) (hoff e List.mem_cons_self)
      rw [runReads, heq]
      have h := ih { s with
        states := Table.set s.states e.1 e.2 .raw
        svm := Table.set s.svm e.1 e.2 (some mem)
        tick := s.tick + 1 } hnd' (fun x hx => hfds x (List.mem_cons_of_mem _ hx))
        (fun x hx => hoff x (List.mem_cons_of_mem _ hx))
      refine ⟨?_, ?_⟩
      · intro i j hij
        rw [h.other i j fun hmem => hij (List.mem_cons_of_mem _ hmem)]
        refine Table.set_ne _ _ ?_
        rintro ⟨rfl, rfl⟩
        exact hij List.mem_cons_self
      · intro x hx
        rcases List.mem_cons.mp hx with rfl | hx
        · refine ⟨mem, ?_, hk, hv⟩
          rw [h.other x.1 x.2 hnot]
          exact Table.set_same _ _ _ _
        · exact h.back x hx

/-- The DECOMP tasks fill their chunks and no others. -/
theorem runDecomps_svm (cfg : Config) (l : List Cell) :
    ∀ s : KvState, (∀ i j, (i, j) ∉ l → (runDecomps cfg l s).svm i j = s.svm i j) ∧
      ∀ e ∈ l, ((runDecomps cfg l s).svm e.1 e.2).isSome := by
  induction l with
  | nil => intro s; exact ⟨fun _ _ _ => rfl, fun e he => absurd he (by simp)⟩
  | cons e l ih =>
      intro s
      rw [runDecomps]
      set u := kvDecompWorker cfg e.1 e.2 (kvAllocWorker cfg e.1 e.2 s) with hu
      have hd : u.svm = (decompressInto cfg e.1 e.2 (kvAllocWorker cfg e.1 e.2 s)).svm := by
        rw [hu]
        unfold kvDecompWorker
        split <;> rfl
      have hne : ∀ i j, ¬ (i = e.1 ∧ j = e.2) → u.svm i j = s.svm i j := by
        intro i j hij
        rw [hd]
        exact (Table.set_ne _ _ hij).trans (Table.set_ne _ _ hij)
      have hself : (u.svm e.1 e.2).isSome := by
        rw [hd]
        unfold decompressInto
        simp only [Table.set_same, Option.isSome_some]
      obtain ⟨hother, hsome⟩ := ih u
      refine ⟨?_, ?_⟩
      · intro i j hij
        rw [hother i j fun hin => hij (List.mem_cons_of_mem _ hin)]
        refine hne i j ?_
        rintro ⟨rfl, rfl⟩
        exact hij List.mem_cons_self
      · intro x hx
        by_cases hxl : x ∈ l
        · exact hsome x hxl
        · rcases List.mem_cons.mp hx with rfl | hx
          · rw [hother x.1 x.2 hxl]
            exact hself
          · exact absurd hx hxl

/-! ## A whole cycle -/

/-- Reloading arenas touches no chunk, no file and no descriptor. -/
theorem reloadLayer_same (cfg : Config) (io : Io) (s : KvState) (l : Nat) :
    (∀ i j, SameChunk s (reloadLayer cfg io s l) i j) ∧
      (reloadLayer cfg io s l).kvFile = s.kvFile ∧
      (reloadLayer cfg io s l).layerFds = s.layerFds := by
  unfold reloadLayer
  split
  · exact ⟨fun _ _ => ⟨rfl, rfl, rfl, rfl, rfl, rfl, rfl, rfl⟩, rfl, rfl⟩
  · split <;> exact ⟨fun _ _ => ⟨rfl, rfl, rfl, rfl, rfl, rfl, rfl, rfl⟩, rfl, rfl⟩

theorem SameChunk.trans {u : KvState} {l j : Nat} (h1 : SameChunk s t l j)
    (h2 : SameChunk t u l j) : SameChunk s u l j :=
  ⟨h2.chunks.trans h1.chunks, h2.bound.trans h1.bound, h2.state.trans h1.state,
    h2.svm.trans h1.svm, h2.kComp.trans h1.kComp, h2.vComp.trans h1.vComp,
    h2.kStored.trans h1.kStored, h2.vStored.trans h1.vStored⟩

theorem foldl_reloadLayer_same (cfg : Config) (io : Io) (ls : List Nat) :
    ∀ s : KvState, (∀ i j, SameChunk s (ls.foldl (reloadLayer cfg io) s) i j) ∧
      (ls.foldl (reloadLayer cfg io) s).kvFile = s.kvFile ∧
      (ls.foldl (reloadLayer cfg io) s).layerFds = s.layerFds := by
  induction ls with
  | nil => intro s; exact ⟨fun _ _ => ⟨rfl, rfl, rfl, rfl, rfl, rfl, rfl, rfl⟩, rfl, rfl⟩
  | cons l ls ih =>
      intro s
      obtain ⟨h1, h2, h3⟩ := reloadLayer_same cfg io s l
      obtain ⟨h4, h5, h6⟩ := ih (reloadLayer cfg io s l)
      exact ⟨fun i j => (h1 i j).trans (h4 i j), h5.trans h2, h6.trans h3⟩

theorem mzcacheReloadAllArenas_same (cfg : Config) (io : Io) (s : KvState) :
    (∀ i j, SameChunk s (mzcacheReloadAllArenas cfg io s) i j) ∧
      (mzcacheReloadAllArenas cfg io s).kvFile = s.kvFile ∧
      (mzcacheReloadAllArenas cfg io s).layerFds = s.layerFds := by
  unfold mzcacheReloadAllArenas
  dsimp only
  split
  · exact ⟨fun _ _ => ⟨rfl, rfl, rfl, rfl, rfl, rfl, rfl, rfl⟩, rfl, rfl⟩
  · obtain ⟨h1, h2, h3⟩ := foldl_reloadLayer_same cfg io
      (List.range' s.firstOffloaded (cfg.numLayers - s.firstOffloaded)) s
    refine ⟨fun i j => (h1 i j).trans ?_, h2, h3⟩
    exact ⟨rfl, rfl, rfl, rfl, rfl, rfl, rfl, rfl⟩

/-- The state before the decode thread's growth, with every arena back in memory. -/
def swapinReload (cfg : Config) (io : Io) (c : Core) : Core :=
  { (initializeLayerSync cfg c).1 with
    kv := mzcacheReloadAllArenas cfg io (initializeLayerSync cfg c).1.kv }

theorem swapinReload_same (cfg : Config) (io : Io) (c : Core) :
    (∀ i j, SameChunk c.kv (swapinReload cfg io c).kv i j) ∧
      (swapinReload cfg io c).kv.kvFile = c.kv.kvFile ∧
      (swapinReload cfg io c).kv.layerFds = c.kv.layerFds := by
  obtain ⟨h1, h2, h3⟩ := mzcacheReloadAllArenas_same cfg io (initializeLayerSync cfg c).1.kv
  refine ⟨fun i j => SameChunk.trans ?_ (h1 i j), h2, h3⟩
  exact ⟨rfl, rfl, rfl, rfl, rfl, rfl, rfl, rfl⟩

theorem Kept.swapinReload (hio : io.Reloads) (h : Kept cfg c g) :
    Kept cfg (swapinReload cfg io c) g := by
  obtain ⟨hsc, hfile, _⟩ := swapinReload_same cfg io c
  have hview : (MzCache.swapinReload cfg io c).kv.view = c.kv.view :=
    mzcacheReloadAllArenas_view io
  have hlay1 : Layout cfg (initializeLayerSync cfg c).1.kv := h.layout.of_layout rfl rfl
  obtain ⟨hmoved, hres, _⟩ := hlay1.shelved.reloaded hio
  have hlay := (hlay1.reloadAllArenas hio).1
  refine ⟨?_, hlay, Or.inl hres, ?_, ?_, ?_⟩
  · exact h.ok.withKv (h.ok.ladder.of_view hview) (congrArg LadderView.numChunksPerTensor hview)
  · show (MzCache.swapinReload cfg io c).kv.numChunksPerTensor ≤ c.nChunksAlloc
    rw [(hsc 0 0).chunks]
    exact h.alloc
  · intro l hl j hj
    exact (hsc l j).svm.trans (h.absent l hl j hj)
  · refine h.held.of_same h.ok.ladder h.layout hsc ?_ hfile
    intro l hl
    exact poolsLe_of_same (hmoved.same l hl)

/-- Every planned chunk is in memory, and no chunk past the materialized ones is. -/
structure InMemory (cfg : Config) (c : Core) : Prop where
  alloc : c.kv.numChunksPerTensor ≤ c.nChunksAlloc
  absent : Absent cfg c.nChunksAlloc c.kv
  present : ∀ l < cfg.numLayers, ∀ j < c.kv.numChunksPerTensor, (c.kv.svm l j).isSome

theorem InMemory.grown (h : InMemory cfg c) (n : Nat) :
    InMemory cfg (onKvChunksGrown cfg n c) := by
  have he := registerGrownChunks_enrolled cfg n c.kv
  have hkv : (onKvChunksGrown cfg n c).kv = MzCache.registerGrownChunks cfg n c.kv := followKv_kv
  have halloc : (onKvChunksGrown cfg n c).nChunksAlloc = c.nChunksAlloc := followKv_alloc cfg _
  refine ⟨?_, ?_, ?_⟩
  · rw [hkv, halloc]
    by_contra hlt
    have hL := cfg.numLayers_pos
    have hsome := he.fresh 0 hL c.nChunksAlloc h.alloc (by omega)
    rw [h.absent 0 hL _ le_rfl] at hsome
    cases hsome
  · intro l hl j hj
    rw [halloc] at hj
    rw [hkv, he.svm]
    exact h.absent l hl j hj
  · intro l hl j hj
    rw [hkv] at hj ⊢
    rw [he.svm]
    by_cases hold : j < c.kv.numChunksPerTensor
    · exact h.present l hl j hold
    · exact he.fresh l hl j (not_lt.mp hold) hj

theorem InMemory.mzGrowChunks (h : InMemory cfg c) (need : Nat) :
    InMemory cfg (mzGrowChunks cfg need c) := by
  rcases mzGrowChunks_eq cfg need c with heq | ⟨hlt, heq⟩
  · rw [heq]
    exact h
  · rw [heq]
    have hmem : InMemory cfg (grownMemory cfg need c) := by
      refine ⟨h.alloc.trans hlt.le, ?_, ?_⟩
      · intro l hl j hj
        have hj' : need ≤ j := hj
        show growLayerChunks cfg c.nChunksAlloc need c.kv.svm l j = none
        unfold growLayerChunks
        rw [if_neg (by omega)]
        exact h.absent l hl j (by omega)
      · intro l hl j hj
        obtain ⟨mem, hmem⟩ := Option.isSome_iff_exists.mp (h.present l hl j hj)
        exact Option.isSome_iff_exists.mpr ⟨mem, growLayerChunks_some hmem⟩
    exact hmem.grown need

theorem InMemory.growAll (needs : List Nat) :
    ∀ {c : Core}, InMemory cfg c → InMemory cfg (growAll cfg needs c) := by
  induction needs with
  | nil => intro c h; exact h
  | cons n needs ih => intro c h; exact ih (h.mzGrowChunks n)

end

end MzCache
