import MzCache.Core.Totals

/-!
# Swapout where every call succeeds

When no system call fails, `swapout_impl` does not depend on how many calls were made
before, nor on which store files are still open: two machines that differ in nothing else
go through the same iterations. A run for a lower target goes through those of a run for a
higher one first.
-/

namespace MzCache

open MzCache.Lib

/-- Every system call succeeds in full. -/
def Io.Succeeds (io : Io) : Prop := ∀ call t, io call t = .full

theorem Io.Succeeds.moved {io : Io} (hio : io.Succeeds) (call : IoCall) (t n : Nat) :
    (io call t).moved n = n := by
  rw [hio]
  rfl

theorem Io.Succeeds.opened {io : Io} (hio : io.Succeeds) (call : IoCall) (t : Nat) :
    (io call t).opened = true := by
  rw [hio]
  rfl

theorem Io.Succeeds.complete {io : Io} (hio : io.Succeeds) (call : IoCall) (t : Nat) :
    (io call t).complete = true := by
  rw [hio]
  rfl

/-- The same state up to the open store files and the number of calls made. -/
def KvState.Alike (a b : KvState) : Prop :=
  ∃ fds tick, b = { a with layerFds := fds, tick := tick }

theorem KvState.Alike.refl (a : KvState) : a.Alike a := ⟨a.layerFds, a.tick, rfl⟩

theorem KvState.Alike.symm {a b : KvState} (h : a.Alike b) : b.Alike a := by
  obtain ⟨fds, tick, rfl⟩ := h
  exact ⟨a.layerFds, a.tick, rfl⟩

theorem KvState.Alike.trans {a b c : KvState} (h : a.Alike b) (h' : b.Alike c) : a.Alike c := by
  obtain ⟨fds, tick, rfl⟩ := h
  obtain ⟨fds', tick', rfl⟩ := h'
  exact ⟨fds', tick', rfl⟩

/-- The same core up to the open store files and the number of calls made. -/
def Core.Alike (a b : Core) : Prop :=
  ∃ fds tick, b = { a with kv := { a.kv with layerFds := fds, tick := tick } }

theorem Core.Alike.refl (a : Core) : a.Alike a := ⟨a.kv.layerFds, a.kv.tick, rfl⟩

theorem Core.Alike.symm {a b : Core} (h : a.Alike b) : b.Alike a := by
  obtain ⟨fds, tick, rfl⟩ := h
  exact ⟨a.kv.layerFds, a.kv.tick, rfl⟩

theorem Core.Alike.trans {a b c : Core} (h : a.Alike b) (h' : b.Alike c) : a.Alike c := by
  obtain ⟨fds, tick, rfl⟩ := h
  obtain ⟨fds', tick', rfl⟩ := h'
  exact ⟨fds', tick', rfl⟩

theorem Core.Alike.kv {a b : Core} (h : a.Alike b) : a.kv.Alike b.kv := by
  obtain ⟨fds, tick, rfl⟩ := h
  exact ⟨fds, tick, rfl⟩

/-- Alike states give alike cores. -/
theorem Core.Alike.withKv {a b : Core} (h : a.Alike b) {s t : KvState} (hkv : s.Alike t) :
    ({ a with kv := s } : Core).Alike { b with kv := t } := by
  obtain ⟨fds, tick, rfl⟩ := h
  obtain ⟨fds', tick', rfl⟩ := hkv
  exact ⟨fds', tick', rfl⟩

section

variable {cfg : Config} {io : Io}

/-! ## The operations -/

theorem KvState.Alike.compressChunks (n : Nat) : ∀ {a b : KvState}, a.Alike b →
    (mzcacheCompressChunks cfg n a).1.Alike (mzcacheCompressChunks cfg n b).1 := by
  induction n with
  | zero => intro a b h; exact h
  | succ n ih =>
      intro a b h
      obtain ⟨fds, tick, rfl⟩ := h
      rw [mzcacheCompressChunks, mzcacheCompressChunks]
      dsimp only
      -- neither the guard nor the body looks at files or calls
      split
      · rename_i hrow
        rw [if_pos (show ({ a with layerFds := fds, tick := tick } :
          KvState).skipToCompress.curToCompress.row < 0 from hrow)]
        exact ⟨fds, tick, rfl⟩
      · rename_i hrow
        rw [if_neg (show ¬ ({ a with layerFds := fds, tick := tick } :
          KvState).skipToCompress.curToCompress.row < 0 from hrow)]
        exact ih ⟨fds, tick, rfl⟩

theorem KvState.Alike.skipToStore {a b : KvState} (h : a.Alike b) :
    a.skipToStore.Alike b.skipToStore := by
  obtain ⟨fds, tick, rfl⟩ := h
  exact ⟨_, tick, rfl⟩

theorem openToStore_succeeds (hio : io.Succeeds) (layer : Nat) (s : KvState) :
    (openToStore io layer s).2 = true ∧ s.Alike (openToStore io layer s).1 := by
  refine ⟨openToStore_opened io layer s (fun t => hio.opened .storeOpen t), ?_⟩
  obtain ⟨fds, tick, heq⟩ := openToStore_eq io layer s
  exact ⟨fds, tick, heq⟩

theorem KvState.Alike.storeAt (hio : io.Succeeds) (layer chunk : Nat) {a b : KvState}
    (h : a.Alike b) : (storeAt cfg io layer chunk a).Alike (storeAt cfg io layer chunk b) := by
  obtain ⟨fds, tick, rfl⟩ := h
  refine ⟨fds, tick + 2, ?_⟩
  unfold MzCache.storeAt
  dsimp only
  rw [hio.moved, hio.moved, hio.moved, hio.moved]
  rfl

theorem KvState.Alike.storeChunks (hio : io.Succeeds) (n : Nat) : ∀ {a b : KvState},
    a.Alike b → (mzcacheStoreChunks cfg io n a).Alike (mzcacheStoreChunks cfg io n b) := by
  induction n with
  | zero => intro a b h; exact h
  | succ n ih =>
      intro a b h
      have hskip := h.skipToStore
      have hcur : b.skipToStore.curToStore = a.skipToStore.curToStore := by
        obtain ⟨fds, tick, heq⟩ := hskip
        rw [heq]
      rw [mzcacheStoreChunks, mzcacheStoreChunks]
      dsimp only
      rw [hcur]
      split
      · exact hskip
      · obtain ⟨ha, haa⟩ := openToStore_succeeds hio a.skipToStore.curToStore.row.toNat a.skipToStore
        obtain ⟨hb, hbb⟩ := openToStore_succeeds hio a.skipToStore.curToStore.row.toNat b.skipToStore
        rw [if_pos ha, if_pos hb]
        apply ih
        apply KvState.Alike.storeAt hio
        exact haa.symm.trans (hskip.trans hbb)

theorem KvState.Alike.closeStoredFiles {a b : KvState} (h : a.Alike b) :
    (mzcacheCloseStoredFiles a).Alike (mzcacheCloseStoredFiles b) := by
  obtain ⟨fds, tick, rfl⟩ := h
  exact ⟨fun _ => none, tick, rfl⟩

theorem closeStoredFiles_alike (a : KvState) : a.Alike (mzcacheCloseStoredFiles a) :=
  ⟨fun _ => none, a.tick, rfl⟩

/-- What is written does not depend on the number of calls made before. -/
theorem writeArenas_tick (hio : io.Succeeds) (as : List Arena) : ∀ (w : SwapWrite) (tick : Nat),
    ∃ tick', writeArenas io as { w with tick := tick } =
      { writeArenas io as w with tick := tick' } := by
  induction as with
  | nil => intro w tick; exact ⟨tick, rfl⟩
  | cons a as ih =>
      intro w tick
      rw [writeArenas, writeArenas]
      dsimp only
      split
      · exact ih { w with used := w.used ++ [a.top] } tick
      · rw [hio.moved, hio.moved, hio.complete, hio.complete, if_pos rfl, if_pos rfl]
        exact ih ⟨_, _, _, w.tick + 1, true⟩ (tick + 1)

theorem KvState.Alike.offloadArenas (hio : io.Succeeds) {a b : KvState} (h : a.Alike b) :
    (mzcacheOffloadArenas io a).1.Alike (mzcacheOffloadArenas io b).1 := by
  obtain ⟨fds, tick, rfl⟩ := h
  unfold mzcacheOffloadArenas
  dsimp only
  split
  · exact ⟨fds, tick, rfl⟩
  · rw [hio.opened, hio.opened, if_pos rfl, if_pos rfl]
    obtain ⟨tick', hw⟩ := writeArenas_tick hio (a.arenas a.nextLayerToOffload.toNat)
      ⟨fun _ => 0, 0, [], a.tick + 1, true⟩ (tick + 1)
    dsimp only at hw
    rw [hw]
    dsimp only
    split
    · exact ⟨fds, tick', rfl⟩
    · exact ⟨fds, tick', rfl⟩

theorem Core.Alike.unloadLayers (hio : io.Succeeds) (n : Nat) : ∀ {a b : Core}, a.Alike b →
    (mzcacheUnloadLayers io n a).1.Alike (mzcacheUnloadLayers io n b).1 ∧
      (mzcacheUnloadLayers io n a).2 = true ∧ (mzcacheUnloadLayers io n b).2 = true := by
  induction n with
  | zero => intro a b h; exact ⟨h, rfl, rfl⟩
  | succ n ih =>
      intro a b h
      obtain ⟨fds, tick, rfl⟩ := h
      rw [mzcacheUnloadLayers, mzcacheUnloadLayers]
      dsimp only
      rw [if_pos (hio.opened _ _), if_pos (hio.opened _ _), if_pos (hio.opened _ _),
        if_pos (hio.opened _ _)]
      exact ih ⟨fds, tick + 1 + 1, rfl⟩

/-! ## One step -/

theorem Core.Alike.curRatio {a b : Core} (h : a.Alike b) : b.curRatio cfg = a.curRatio cfg := by
  obtain ⟨fds, tick, rfl⟩ := h
  rfl

/-- The counters that the loops look at. -/
structure SameCounts (cfg : Config) (a b : Core) : Prop where
  total : b.totalChunks cfg = a.totalChunks cfg
  comp : b.kv.nCurCompChunks = a.kv.nCurCompChunks
  store : b.kv.nCurStoreChunks = a.kv.nCurStoreChunks
  unloaded : b.nCurUnloadLayers = a.nCurUnloadLayers
  next : b.kv.nextLayerToOffload = a.kv.nextLayerToOffload
  allocate : ∀ n, allocateChunks cfg b n = allocateChunks cfg a n

theorem Core.Alike.counts {a b : Core} (h : a.Alike b) : SameCounts cfg a b := by
  obtain ⟨fds, tick, rfl⟩ := h
  exact ⟨rfl, rfl, rfl, rfl, rfl, fun _ => rfl⟩

/-- Machines at the same place with alike cores. -/
structure Swapout.Alike (m m' : Swapout) : Prop where
  core : m.core.Alike m'.core
  pc : m'.pc = m.pc

theorem Swapout.Alike.enterPhase2 {m m' : Swapout} (h : m.core.Alike m'.core)
    (hun : m'.initialUnloadLayers = m.initialUnloadLayers) :
    (enterPhase2 cfg m).Alike (enterPhase2 cfg m') := by
  refine ⟨h.withKv h.kv.closeStoredFiles, ?_⟩
  show SwapoutPc.phase2 _ = SwapoutPc.phase2 _
  rw [hun]

theorem Swapout.Alike.enterPhase3 {m m' : Swapout} (h : m.core.Alike m'.core) :
    (enterPhase3 cfg m).Alike (enterPhase3 cfg m') := by
  have hc : SameCounts cfg _ _ := h.counts
  unfold MzCache.enterPhase3
  dsimp only
  rw [hc.total, hc.comp, hc.store, hc.unloaded]
  split
  · exact ⟨h, rfl⟩
  · exact ⟨h, by rw [h.curRatio]⟩

theorem Core.Alike.phase1Evict (hio : io.Succeeds) {a b : Core} (h : a.Alike b) (x y : Int) :
    (phase1Evict cfg io a x y).Alike (phase1Evict cfg io b x y) := by
  have hcomp : (if x > 0 then (mzcacheCompressChunks cfg x.toNat a.kv).1 else a.kv).Alike
      (if x > 0 then (mzcacheCompressChunks cfg x.toNat b.kv).1 else b.kv) := by
    split
    · exact h.kv.compressChunks x.toNat
    · exact h.kv
  apply h.withKv
  split
  · exact hcomp.storeChunks hio y.toNat
  · exact hcomp

theorem Swapout.Alike.phase1Step (hio : io.Succeeds) {m m' : Swapout} (target : ℚ)
    (h : m.Alike m') (hproc : m'.processedChunks = m.processedChunks)
    (hun : m'.initialUnloadLayers = m.initialUnloadLayers) :
    (phase1Step cfg io target m).Alike (phase1Step cfg io target m') := by
  have hc : SameCounts cfg _ _ := h.core.counts
  unfold MzCache.phase1Step Core.boundChunks
  rw [hc.total, hproc]
  split
  · dsimp only
    rw [hc.allocate]
    set add := allocateChunks cfg m.core (min 20 (m.core.totalChunks cfg - m.processedChunks))
    have hev : (MzCache.phase1Evict cfg io m.core add.1 add.2).Alike
      (MzCache.phase1Evict cfg io m'.core add.1 add.2) := h.core.phase1Evict hio add.1 add.2
    rw [hev.curRatio]
    split
    · exact ⟨hev.withKv hev.kv.closeStoredFiles, rfl⟩
    · split
      · exact Swapout.Alike.enterPhase2 hev hun
      · exact ⟨hev, h.pc⟩
  · exact Swapout.Alike.enterPhase2 h.core hun

theorem Swapout.Alike.phase2Step (hio : io.Succeeds) {m m' : Swapout} (target : ℚ) (i : Nat)
    (h : m.Alike m') (hproc : m'.processedChunks = m.processedChunks) :
    (phase2Step cfg io target i m).Alike (phase2Step cfg io target i m') := by
  have hc : SameCounts cfg _ _ := h.core.counts
  have hcomp : (phase2Compress cfg m).Alike (phase2Compress cfg m') := by
    unfold phase2Compress
    dsimp only
    rw [hc.total, hproc]
    apply h.core.withKv
    split
    · exact h.core.kv.compressChunks _
    · exact h.core.kv
  obtain ⟨hun, h1, h2⟩ := hcomp.unloadLayers hio 1
  have hc' : SameCounts cfg _ _ := hun.counts
  unfold MzCache.phase2Step
  dsimp only
  rw [if_pos h1, if_pos h2, hun.curRatio]
  split
  · exact ⟨hun, rfl⟩
  · rw [hc'.unloaded, hc'.comp, hc'.store, hc'.total]
    split
    · exact Swapout.Alike.enterPhase3 hun
    · exact ⟨hun, rfl⟩

theorem Swapout.Alike.phase3Step (hio : io.Succeeds) {m m' : Swapout} (target : ℚ)
    (h : m.Alike m') : (phase3Step cfg io target m).Alike (phase3Step cfg io target m') := by
  have hc : SameCounts cfg _ _ := h.core.counts
  have hoff : ({ m.core with kv := (mzcacheOffloadArenas io m.core.kv).1 } : Core).Alike
      { m'.core with kv := (mzcacheOffloadArenas io m'.core.kv).1 } :=
    h.core.withKv (h.core.kv.offloadArenas hio)
  unfold MzCache.phase3Step
  rw [hc.next]
  split
  · dsimp only
    rw [hoff.curRatio]
    split
    · exact ⟨hoff, rfl⟩
    · exact ⟨hoff, h.pc⟩
  · exact ⟨h.core, by rw [h.core.curRatio]⟩

/-- Alike machines take alike steps. At a loop head the locals follow from the core. -/
theorem Swapout.Alike.step (hio : io.Succeeds) {m m' : Swapout} (target : ℚ) (h : m.Alike m')
    (hm : SwapoutOk cfg m) (hm' : SwapoutOk cfg m') :
    (m.step cfg io target).Alike (m'.step cfg io target) := by
  have hc : SameCounts cfg _ _ := h.core.counts
  have hpc := h.pc
  have hok := hm.pc
  have hok' := hm'.pc
  rw [hpc] at hok'
  unfold Swapout.step
  rw [hpc]
  cases hcase : m.pc with
  | phase1 =>
      rw [hcase] at hok hok'
      obtain ⟨hproc, hun, -⟩ := hok
      obtain ⟨hproc', hun', -⟩ := hok'
      refine Swapout.Alike.phase1Step hio target h ?_ ?_
      · rw [hproc, hproc', hc.comp, hc.store]
      · rw [hun, hun', hc.unloaded]
  | phase2 i =>
      rw [hcase] at hok hok'
      obtain ⟨hproc, -⟩ := hok
      obtain ⟨hproc', -⟩ := hok'
      cases i with
      | zero => exact Swapout.Alike.enterPhase3 h.core
      | succ i =>
          refine Swapout.Alike.phase2Step hio target i h ?_
          rw [hproc, hproc', hc.comp, hc.store]
  | phase3 => exact Swapout.Alike.phase3Step hio target h
  | returned ratio => exact h

theorem Swapout.Alike.run (hio : io.Succeeds) {m m' : Swapout} (target : ℚ) (h : m.Alike m')
    (hm : SwapoutOk cfg m) (hm' : SwapoutOk cfg m') (k : Nat) :
    (m.run cfg io target k).Alike (m'.run cfg io target k) := by
  induction k with
  | zero => exact h
  | succ k ih =>
      rw [Swapout.run_succ, Swapout.run_succ]
      exact ih.step hio target (hm.run io target k).1 (hm'.run io target k).1

end

end MzCache
