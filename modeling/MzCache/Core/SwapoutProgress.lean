import MzCache.Core.Engine

/-!
# Progress of swapout

An iteration of phase 1 evicts something, leaves the phase, or finds nothing to
compress and fails to open a store file; in the last case it changes nothing but the
call counter and is repeated. An iteration of phase 3 offloads a layer, returns, or
fails and is repeated as well. A loop head is `Stalled` when the repeated call fails
for ever, and swapout returns exactly when it never stands at a stalled head.
-/

namespace MzCache

open MzCache.Lib

/-! ## Stalled loop heads -/

/-- The file of the next chunk to store is closed. -/
def KvState.storeClosed (s : KvState) : Prop :=
  s.skipToStore.layerFds s.skipToStore.curToStore.row.toNat = none

/-- The writes of one offload attempt, for arenas with these tops: whether all were
complete, and the calls made. -/
def writeAttempt (io : Io) : List Nat → Nat → Bool × Nat
  | [], t => (true, t)
  | top :: rest, t =>
      if top = 0 then writeAttempt io rest t
      else if (io .swapWrite t).complete then writeAttempt io rest (t + 1)
      else (false, t + 1)

/-- One offload attempt: the open, then the writes. -/
def offloadAttempt (io : Io) (tops : List Nat) (t : Nat) : Bool × Nat :=
  if (io .swapOpen t).opened then writeAttempt io tops (t + 1) else (false, t + 1)

/-- When the `j`-th attempt in a row starts. -/
def attemptTick (io : Io) (tops : List Nat) (t j : Nat) : Nat :=
  (fun t => (offloadAttempt io tops t).2)^[j] t

/-- The tops of the arenas that phase 3 offloads next. -/
def KvState.topsToOffload (s : KvState) : List Nat :=
  (s.arenas s.nextLayerToOffload.toNat).map Arena.top

/-- What phase 1 is about to add. -/
def Swapout.toAdd (cfg : Config) (m : Swapout) : Int × Int :=
  allocateChunks cfg m.core (min 20 (m.core.totalChunks cfg - m.processedChunks))

/-- Phase 1 has nothing to compress, a file to open, and no open will succeed. -/
structure StalledStore (cfg : Config) (io : Io) (target : ℚ) (m : Swapout) : Prop where
  pc : m.pc = .phase1
  more : m.processedChunks < m.core.boundChunks cfg
  noComp : (m.toAdd cfg).1 = 0
  someStore : 0 < (m.toAdd cfg).2
  closed : m.core.kv.storeClosed
  dead : ∀ t, m.core.kv.tick ≤ t → (io .storeOpen t).opened = false
  above : target < m.core.curRatio cfg

/-- Phase 3 has a layer left and no attempt to offload it will succeed. -/
structure StalledOffload (cfg : Config) (io : Io) (target : ℚ) (m : Swapout) : Prop where
  pc : m.pc = .phase3
  more : 0 ≤ m.core.kv.nextLayerToOffload
  dead : ∀ j, (offloadAttempt io m.core.kv.topsToOffload
    (attemptTick io m.core.kv.topsToOffload m.core.kv.tick j)).1 = false
  above : target < m.core.curRatio cfg

/-- A loop head that is repeated for ever. -/
def Stalled (cfg : Config) (io : Io) (target : ℚ) (m : Swapout) : Prop :=
  StalledStore cfg io target m ∨ StalledOffload cfg io target m

/-! ## Storing -/

section

variable {cfg : Config} {io : Io} {s : KvState}

/-- Skipping twice is skipping once. -/
theorem Ladder.skipToStore_idem (h : Ladder cfg s) (hleft : s.nCurStoreChunks < s.maxStoreChunks)
    (t : Nat) : ({ s.skipToStore with tick := t } : KvState).skipToStore =
      { s.skipToStore with tick := t } := by
  obtain ⟨e, he, ⟨fds, hskip⟩, _⟩ := h.skipToStore hleft
  have hreg := mem_cells.mp he
  have hcur : skipStore { s.skipToStore with tick := t } = .at e := by
    rw [hskip]
    unfold skipStore
    simp only [Cursor.at]
    rw [show ((e.1 : Int) + 1).toNat = e.1 + 1 by omega, skipDown, if_neg]
    simp only [Int.toNat_natCast, not_and, not_lt]
    intro _
    exact_mod_cast hreg.2.1
  unfold KvState.skipToStore at hcur ⊢
  rw [hcur]
  have hrow : skipStore s = .at e := congrArg KvState.curToStore hskip
  simp only [hrow]
  congr 1
  funext l
  rw [if_neg (by simp only [not_and, not_le]; intro hl; exact hl)]

/-- The next chunk's file is closed and opening it fails. -/
def StoreBlocked (io : Io) (s : KvState) : Prop := s.storeClosed ∧ (io .storeOpen s.tick).opened = false

theorem openToStore_blocked (io : Io) (s : KvState) {l : Nat}
    (hrow : s.skipToStore.curToStore.row.toNat = l) :
    (StoreBlocked io s → openToStore io l s.skipToStore =
        ({ s.skipToStore with tick := s.tick + 1 }, false)) ∧
      (¬ StoreBlocked io s → (openToStore io l s.skipToStore).2 = true) := by
  have htick : s.skipToStore.tick = s.tick := rfl
  unfold StoreBlocked KvState.storeClosed openToStore
  rw [hrow, htick]
  constructor
  · rintro ⟨hfd, hio⟩
    rw [if_neg (by rw [hfd]; simp), if_neg (by rw [hio]; simp)]
  · intro hnot
    split
    · rfl
    · rename_i hfd
      split
      · rfl
      · rename_i hio
        exact absurd ⟨Option.not_isSome_iff_eq_none.mp hfd, Bool.eq_false_iff.mpr hio⟩ hnot

/-- The store loop stores a chunk, or stops at once because the file cannot be opened. -/
theorem Ladder.storeChunks_progress (h : Ladder cfg s) (io : Io) {n : Nat} (hpos : 0 < n)
    (hn : (n : Int) ≤ s.maxStoreChunks - s.nCurStoreChunks) :
    (StoreBlocked io s →
        mzcacheStoreChunks cfg io n s = { s.skipToStore with tick := s.tick + 1 }) ∧
      (¬ StoreBlocked io s →
        s.nCurStoreChunks < (mzcacheStoreChunks cfg io n s).nCurStoreChunks) := by
  obtain ⟨k, rfl⟩ : ∃ k, n = k + 1 := ⟨n - 1, by omega⟩
  obtain ⟨e, he, t, ht, hcur, hmoved, heq⟩ := h.store_succ io (by omega)
  have hrow : s.skipToStore.curToStore.row.toNat = e.1 := by
    have hsame := congrArg LadderView.curToStore (openToStore_view io e.1 (s := s.skipToStore))
    rw [← ht] at hsame
    rw [← show t.curToStore = s.skipToStore.curToStore from hsame, hcur]
    rfl
  obtain ⟨hfail, hopen⟩ := openToStore_blocked io s hrow
  rw [heq k]
  refine ⟨?_, ?_⟩
  · intro hb
    rw [ht, hfail hb]
    rfl
  · intro hb
    rw [if_pos (hopen hb)]
    have hcells : e ∈ t.storeCells cfg := by
      unfold KvState.storeCells
      rw [hmoved.bound h, hmoved.chunks]
      exact he
    have hpush := hmoved.ladder.push_store hcells hcur (storeAt_view cfg io e hcur)
    have h1 : t.nCurStoreChunks = s.nCurStoreChunks := by
      rw [hmoved.ladder.nStore, hmoved.store, h.nStore]
    have h2 : (storeAt cfg io e.1 e.2 t).nCurStoreChunks = t.nCurStoreChunks + 1 := rfl
    have h3 : (storeAt cfg io e.1 e.2 t).maxStoreChunks = t.maxStoreChunks := rfl
    obtain ⟨new, _, _, hm⟩ := hpush.ladder.storeChunks io k
      (by rw [h2, h3, h1, hmoved.maxStore h]; push_cast at hn; omega)
    have h4 := hm.ladder.nStore
    have h5 := hpush.ladder.nStore
    rw [hm.store, List.length_append] at h4
    push_cast at h4
    omega

/-! ## Phase 1 -/

/-- The machine after an iteration of phase 1 that could not open its file. -/
def Swapout.retryStore (m : Swapout) : Swapout :=
  { m with core := { m.core with
    kv := { m.core.kv.skipToStore with tick := m.core.kv.tick + 1 } } }

/-- Nothing to compress, something to store, and the file cannot be opened now. -/
structure BlockedStore (cfg : Config) (io : Io) (target : ℚ) (m : Swapout) : Prop where
  more : m.processedChunks < m.core.boundChunks cfg
  noComp : (m.toAdd cfg).1 = 0
  someStore : 0 < (m.toAdd cfg).2
  blocked : StoreBlocked io m.core.kv
  above : target < m.core.curRatio cfg

/-- What phase 1 may add on a ladder. -/
theorem SwapoutOk.toAdd_spec {m : Swapout} (h : SwapoutOk cfg m)
    (hmore : m.processedChunks < m.core.boundChunks cfg) :
    0 ≤ (m.toAdd cfg).1 ∧
      (m.toAdd cfg).1 ≤ m.core.kv.maxCompChunks - m.core.kv.nCurCompChunks ∧
      0 ≤ (m.toAdd cfg).2 ∧
      (m.toAdd cfg).2 ≤ m.core.kv.maxStoreChunks - m.core.kv.nCurStoreChunks := by
  have htotal := h.core.totalChunks
  have hnc := h.core.ladder.nComp_le
  have hns := h.core.ladder.nStore_le
  have hbal : (0 : Int) ≤ cfg.perLayerBalance * cfg.numLayers := by positivity
  unfold Core.boundChunks at hmore
  set n := (min 20 (m.core.totalChunks cfg - m.processedChunks)).toNat with hn
  have hcast : min 20 (m.core.totalChunks cfg - m.processedChunks) = (n : Int) := by omega
  have hlim : n ≤ cfg.f32.limit := by
    have := cfg.limit_ge
    unfold maxChunksPerTensor at this
    omega
  obtain ⟨ha0, ha, hb0, hb, _⟩ := allocateChunks_spec cfg (c := m.core) hlim
  unfold compRoom at ha
  unfold storeRoom at hb
  unfold Swapout.toAdd
  rw [hcast]
  refine ⟨ha0, by omega, hb0, by omega⟩

theorem retryStore_toAdd (m : Swapout) : m.retryStore.toAdd cfg = m.toAdd cfg := by
  have h1 : m.retryStore.core.kv.maxCompChunks = m.core.kv.maxCompChunks := rfl
  have h2 : m.retryStore.core.kv.nCurCompChunks = m.core.kv.nCurCompChunks := rfl
  have h3 : m.retryStore.core.kv.maxStoreChunks = m.core.kv.maxStoreChunks := rfl
  have h4 : m.retryStore.core.kv.nCurStoreChunks = m.core.kv.nCurStoreChunks := rfl
  have h5 : m.retryStore.core.totalChunks cfg - m.retryStore.processedChunks =
    m.core.totalChunks cfg - m.processedChunks := rfl
  unfold Swapout.toAdd allocateChunks
  rw [h1, h2, h3, h4, h5]

theorem retryStore_curRatio (m : Swapout) :
    m.retryStore.core.curRatio cfg = m.core.curRatio cfg := by
  have h1 : m.retryStore.core.currentFreed cfg = m.core.currentFreed cfg := rfl
  have h2 : m.retryStore.core.fullBytes = m.core.fullBytes := rfl
  unfold Core.curRatio
  rw [h1, h2]

/-- A blocked iteration changes nothing but the call counter. -/
theorem SwapoutOk.phase1_retry {m : Swapout} {target : ℚ} (h : SwapoutOk cfg m)
    (hpc : m.pc = .phase1) (hb : BlockedStore cfg io target m) :
    m.step cfg io target = m.retryStore := by
  obtain ⟨_, _, hb0, hble⟩ := h.toAdd_spec hb.more
  have hok := h.pc
  rw [hpc] at hok
  have hstore := (h.core.ladder.storeChunks_progress io (n := (m.toAdd cfg).2.toNat)
    (by have := hb.someStore; omega) (by omega)).1 hb.blocked
  have hevict : phase1Evict cfg io m.core (m.toAdd cfg).1 (m.toAdd cfg).2 =
      m.retryStore.core := by
    unfold phase1Evict
    rw [hb.noComp]
    simp only [gt_iff_lt, lt_self_iff_false, if_false, if_pos hb.someStore]
    rw [hstore]
    rfl
  unfold Swapout.step
  rw [hpc]
  dsimp only
  unfold MzCache.phase1Step
  rw [if_pos hb.more]
  dsimp only
  rw [show allocateChunks cfg m.core
    (min 20 (m.core.totalChunks cfg - m.processedChunks)) = m.toAdd cfg from rfl, hevict,
    if_neg (show ¬ m.retryStore.core.curRatio cfg ≤ target by
      rw [retryStore_curRatio]; exact not_le.mpr hb.above),
    if_neg (by have := hb.noComp; have := hb.someStore; omega)]
  unfold Swapout.retryStore
  simp only [hok.1]
  rfl

/-- An iteration of phase 1 leaves the phase, evicts a chunk, or is blocked. -/
theorem SwapoutOk.phase1_progress {m : Swapout} (io : Io) (target : ℚ) (h : SwapoutOk cfg m)
    (hpc : m.pc = .phase1) :
    (m.step cfg io target).pc ≠ .phase1 ∨
      m.processedChunks < (m.step cfg io target).processedChunks ∨
      BlockedStore cfg io target m := by
  have hok := h.pc
  rw [hpc] at hok
  obtain ⟨hproc, _, _⟩ := hok
  have hstep : m.step cfg io target = MzCache.phase1Step cfg io target m := by
    unfold Swapout.step
    rw [hpc]
  rw [hstep]
  unfold MzCache.phase1Step
  by_cases hmore : m.processedChunks < m.core.boundChunks cfg
  · rw [if_pos hmore]
    dsimp only
    rw [show allocateChunks cfg m.core
      (min 20 (m.core.totalChunks cfg - m.processedChunks)) = m.toAdd cfg from rfl]
    obtain ⟨ha0, ha, hb0, hb⟩ := h.toAdd_spec hmore
    have hev := h.core.phase1Evict io ha0 ha hb0 hb
    have hge := hev.nStore_ge
    have hnc := hev.nComp
    split
    · exact Or.inl (by simp)
    · rename_i habove
      split
      · exact Or.inl (by simp [MzCache.enterPhase2])
      · rename_i hsome
        refine Or.inr ?_
        by_cases hcomp : 0 < (m.toAdd cfg).1
        · exact Or.inl (by simp only; omega)
        · have ha : (m.toAdd cfg).1 = 0 := by omega
          by_cases hblock : StoreBlocked io m.core.kv
          · refine Or.inr ⟨hmore, ha, by omega, hblock, ?_⟩
            -- the eviction was the failed open alone, which frees nothing
            have hstore := (h.core.ladder.storeChunks_progress io
              (n := (m.toAdd cfg).2.toNat) (by omega) (by omega)).1 hblock
            unfold MzCache.phase1Evict at habove
            rw [ha] at habove
            simp only [gt_iff_lt, lt_self_iff_false, if_false,
              if_pos (show 0 < (m.toAdd cfg).2 by omega)] at habove
            rw [hstore] at habove
            rw [← retryStore_curRatio]
            exact not_le.mp habove
          · have hstore := (h.core.ladder.storeChunks_progress io
              (n := (m.toAdd cfg).2.toNat) (by omega) (by omega)).2 hblock
            refine Or.inl ?_
            have hsame : (MzCache.phase1Evict cfg io m.core (m.toAdd cfg).1
                (m.toAdd cfg).2).kv.nCurStoreChunks =
                (mzcacheStoreChunks cfg io (m.toAdd cfg).2.toNat m.core.kv).nCurStoreChunks := by
              unfold MzCache.phase1Evict
              rw [ha]
              simp only [gt_iff_lt, lt_self_iff_false, if_false,
                if_pos (show 0 < (m.toAdd cfg).2 by omega)]
            simp only
            omega
  · rw [if_neg hmore]
    exact Or.inl (by simp [MzCache.enterPhase2])

/-- A retry keeps everything that decides the next iteration. -/
theorem SwapoutOk.retryStore_blocked {m : Swapout} {target : ℚ} (h : SwapoutOk cfg m)
    (hb : BlockedStore cfg io target m)
    (hio : (io .storeOpen (m.core.kv.tick + 1)).opened = false) :
    BlockedStore cfg io target m.retryStore := by
  obtain ⟨_, _, _, hle⟩ := h.toAdd_spec hb.more
  have hsome := hb.someStore
  refine ⟨hb.more, by rw [retryStore_toAdd]; exact hb.noComp,
    by rw [retryStore_toAdd]; exact hb.someStore, ⟨?_, hio⟩,
    by rw [retryStore_curRatio]; exact hb.above⟩
  have hidem := h.core.ladder.skipToStore_idem (by omega) (m.core.kv.tick + 1)
  unfold KvState.storeClosed Swapout.retryStore
  dsimp only
  rw [hidem]
  exact hb.blocked.1

/-! ## Phase 3 -/

/-- The write loop follows its attempt. -/
theorem writeArenas_attempt (io : Io) (as : List Arena) :
    ∀ w : SwapWrite, w.ok = true →
      (writeArenas io as w).ok = (writeAttempt io (as.map Arena.top) w.tick).1 ∧
        (writeArenas io as w).tick = (writeAttempt io (as.map Arena.top) w.tick).2 := by
  induction as with
  | nil => intro w hw; exact ⟨hw, rfl⟩
  | cons a as ih =>
      intro w hw
      rw [writeArenas, List.map_cons, writeAttempt]
      split
      · exact ih _ hw
      · dsimp only
        split
        · exact ih _ rfl
        · exact ⟨rfl, rfl⟩

/-- An attempt in which every call succeeds. -/
theorem offloadAttempt_ok (tops : List Nat) (t : Nat) : (offloadAttempt .ok tops t).1 = true := by
  have hwrite : ∀ (tops : List Nat) (t : Nat), (writeAttempt .ok tops t).1 = true := by
    intro tops
    induction tops with
    | nil => intro t; rfl
    | cons top tops ih =>
        intro t
        rw [writeAttempt]
        split
        · exact ih t
        · rw [if_pos (by rfl)]
          exact ih (t + 1)
  unfold offloadAttempt
  rw [if_pos (by rfl)]
  exact hwrite tops (t + 1)

theorem pad_top (a : Arena) : a.pad.top = a.top := by
  unfold Arena.pad
  split <;> rfl

/-- What an attempt to offload a layer does: it moves on to the next layer, or it
changes nothing that the next attempt depends on. -/
theorem offloadArenas_attempt (io : Io) (h0 : 0 ≤ s.nextLayerToOffload) :
    ((offloadAttempt io s.topsToOffload s.tick).1 = true →
        (mzcacheOffloadArenas io s).1.nextLayerToOffload = s.nextLayerToOffload - 1) ∧
      ((offloadAttempt io s.topsToOffload s.tick).1 = false →
        (mzcacheOffloadArenas io s).1.nextLayerToOffload = s.nextLayerToOffload ∧
        (mzcacheOffloadArenas io s).1.topsToOffload = s.topsToOffload ∧
        (mzcacheOffloadArenas io s).1.tick = (offloadAttempt io s.topsToOffload s.tick).2 ∧
        (mzcacheOffloadArenas io s).1.nCurArenaOffloadBytes = s.nCurArenaOffloadBytes ∧
        (mzcacheOffloadArenas io s).1.nCurCompSavedBytes = s.nCurCompSavedBytes) := by
  obtain ⟨hok, htick⟩ := writeArenas_attempt io (s.arenas s.nextLayerToOffload.toNat)
    ⟨fun _ => 0, 0, [], s.tick + 1, true⟩ rfl
  unfold mzcacheOffloadArenas offloadAttempt
  rw [if_neg (not_lt.mpr h0)]
  dsimp only
  split
  · unfold KvState.topsToOffload
    rw [← hok, ← htick]
    split
    · rename_i hw
      exact ⟨fun _ => rfl, fun hf => absurd (hw.symm.trans hf) (by simp)⟩
    · rename_i hw
      refine ⟨fun ht => absurd ht hw, fun _ => ⟨rfl, ?_, rfl, rfl, rfl⟩⟩
      dsimp only
      rw [Function.update_self, List.map_map]
      exact List.map_congr_left fun a _ => pad_top a
  · exact ⟨fun hf => absurd hf (by simp), fun _ => ⟨rfl, rfl, rfl, rfl, rfl⟩⟩

/-- The machine after one iteration of phase 3 that did not return. -/
theorem phase3_step {m : Swapout} {target : ℚ} (hpc : m.pc = .phase3)
    (h0 : 0 ≤ m.core.kv.nextLayerToOffload) :
    m.step cfg io target = (let c := { m.core with kv := (mzcacheOffloadArenas io m.core.kv).1 }
      if c.curRatio cfg ≤ target then { m with core := c, pc := .returned (c.curRatio cfg) }
      else { m with core := c }) := by
  unfold Swapout.step
  rw [hpc]
  dsimp only
  unfold MzCache.phase3Step
  rw [if_pos h0]
  dsimp only
  split <;> simp [hpc]

/-- A failed attempt leaves the ratio alone. -/
theorem offload_failed_ratio (cfg : Config) {c : Core} (h0 : 0 ≤ c.kv.nextLayerToOffload)
    (hf : (offloadAttempt io c.kv.topsToOffload c.kv.tick).1 = false) :
    ({ c with kv := (mzcacheOffloadArenas io c.kv).1 } : Core).curRatio cfg = c.curRatio cfg := by
  obtain ⟨_, _, _, hbytes, hsaved⟩ := (offloadArenas_attempt io h0).2 hf
  have hns : (mzcacheOffloadArenas io c.kv).1.nCurStoreChunks = c.kv.nCurStoreChunks :=
    congrArg LadderView.nCurStoreChunks (mzcacheOffloadArenas_view io)
  unfold Core.curRatio Core.currentFreed
  dsimp only
  rw [hbytes, hsaved, hns]

/-! ## A stalled head stays stalled -/

theorem StalledStore.blocked {m : Swapout} {target : ℚ} (h : StalledStore cfg io target m) :
    BlockedStore cfg io target m :=
  ⟨h.more, h.noComp, h.someStore, ⟨h.closed, h.dead _ le_rfl⟩, h.above⟩

theorem SwapoutOk.stalled_step {m : Swapout} {target : ℚ} (h : SwapoutOk cfg m)
    (hs : Stalled cfg io target m) : Stalled cfg io target (m.step cfg io target) := by
  rcases hs with hs | hs
  · rw [h.phase1_retry hs.pc hs.blocked]
    have hb := h.retryStore_blocked hs.blocked (hs.dead _ (Nat.le_succ _))
    exact Or.inl ⟨hs.pc, hb.more, hb.noComp, hb.someStore, hb.blocked.1,
      fun t ht => hs.dead t (le_trans (Nat.le_succ _) ht), hb.above⟩
  · have hf := hs.dead 0
    obtain ⟨hnext, htops, htick, _, _⟩ := (offloadArenas_attempt io hs.more).2 hf
    have hratio := offload_failed_ratio cfg hs.more hf
    rw [phase3_step hs.pc hs.more]
    dsimp only
    rw [if_neg (by rw [hratio]; exact not_le.mpr hs.above)]
    refine Or.inr ⟨hs.pc, by dsimp only; rw [hnext]; exact hs.more, ?_, by
      rw [hratio]; exact hs.above⟩
    intro j
    dsimp only
    rw [htops, htick]
    exact hs.dead (j + 1)

/-- From a stalled head swapout never returns. -/
theorem SwapoutOk.stalled_run {m : Swapout} {target : ℚ} (h : SwapoutOk cfg m)
    (hs : Stalled cfg io target m) :
    ∀ k, Stalled cfg io target (m.run cfg io target k) := by
  intro k
  induction k with
  | zero => exact hs
  | succ k ih =>
      rw [Swapout.run_succ]
      exact (h.run io target k).1.stalled_step ih

theorem Stalled.not_returned {m : Swapout} {target ratio : ℚ} (hs : Stalled cfg io target m) :
    m.pc ≠ .returned ratio := by
  rcases hs with hs | hs <;> rw [hs.pc] <;> simp

/-! ## A head that is not stalled moves on -/

theorem Swapout.run_add (m : Swapout) (target : ℚ) (k j : Nat) :
    m.run cfg io target (k + j) = (m.run cfg io target k).run cfg io target j := by
  unfold Swapout.run
  rw [Nat.add_comm, Function.iterate_add_apply]

theorem Swapout.run_one (m : Swapout) (target : ℚ) :
    m.run cfg io target 1 = m.step cfg io target := rfl

/-- A machine that has returned stays there. -/
theorem Swapout.run_returned {m : Swapout} {target ratio : ℚ} (hpc : m.pc = .returned ratio)
    {k : Nat} : m.run cfg io target k = m := by
  induction k with
  | zero => rfl
  | succ k ih =>
      rw [Swapout.run_succ, ih]
      unfold Swapout.step
      rw [hpc]

theorem unloadLayers_chunks (n : Nat) :
    ∀ c : Core, (mzcacheUnloadLayers io n c).1.numChunksPerTensor = c.numChunksPerTensor := by
  induction n with
  | zero => intro c; rfl
  | succ n ih =>
      intro c
      unfold mzcacheUnloadLayers
      dsimp only
      split
      · split
        · exact ih _
        · rfl
      · rfl

theorem enterPhase3_core (m : Swapout) : (enterPhase3 cfg m).core = m.core := by
  unfold enterPhase3
  dsimp only
  split <;> rfl

/-- Swapout does not grow the cache. -/
theorem Swapout.run_chunks (m : Swapout) (target : ℚ) (k : Nat) :
    (m.run cfg io target k).core.numChunksPerTensor = m.core.numChunksPerTensor := by
  have hstep : ∀ m : Swapout, (m.step cfg io target).core.numChunksPerTensor =
      m.core.numChunksPerTensor := by
    intro m
    unfold Swapout.step
    split
    · unfold phase1Step
      split
      · dsimp only
        split
        · rfl
        · split <;> rfl
      · rfl
    · rw [enterPhase3_core]
    · unfold phase2Step
      dsimp only
      split
      · split
        · exact unloadLayers_chunks 1 _
        · split
          · rw [enterPhase3_core]
            exact unloadLayers_chunks 1 _
          · exact unloadLayers_chunks 1 _
      · rw [enterPhase3_core]
        exact unloadLayers_chunks 1 _
    · unfold phase3Step
      split
      · dsimp only
        split <;> rfl
      · rfl
    · rfl
  induction k with
  | zero => rfl
  | succ k ih => rw [Swapout.run_succ, hstep, ih]

/-- Phase 1 moves on once an open succeeds. -/
theorem SwapoutOk.phase1_opened (target : ℚ) (j : Nat) :
    ∀ m : Swapout, SwapoutOk cfg m → m.pc = .phase1 →
      (io .storeOpen (m.core.kv.tick + j)).opened = true →
      ∃ k, (m.run cfg io target k).pc ≠ .phase1 ∨
        m.processedChunks < (m.run cfg io target k).processedChunks := by
  induction j with
  | zero =>
      intro m h hpc hio
      rcases h.phase1_progress io target hpc with hleave | hmore | hb
      · exact ⟨1, Or.inl hleave⟩
      · exact ⟨1, Or.inr hmore⟩
      · exact absurd (hb.blocked.2.symm.trans hio) (by simp)
  | succ j ih =>
      intro m h hpc hio
      rcases h.phase1_progress io target hpc with hleave | hmore | hb
      · exact ⟨1, Or.inl hleave⟩
      · exact ⟨1, Or.inr hmore⟩
      · -- the open failed: the next one is a tick later
        have hstep := h.phase1_retry hpc hb
        have hnext := (h.step io target).1
        rw [hstep] at hnext
        obtain ⟨k, hk⟩ := ih m.retryStore hnext hpc (by
          rw [show m.retryStore.core.kv.tick = m.core.kv.tick + 1 from rfl, Nat.add_assoc,
            Nat.add_comm 1 j]
          exact hio)
        refine ⟨1 + k, ?_⟩
        rw [Swapout.run_add, Swapout.run_one, hstep]
        exact hk

/-- Phase 1 is left, unless a head stalls. Induction on the chunks left. -/
theorem SwapoutOk.phase1_left (target : ℚ) (d : Nat) :
    ∀ m : Swapout, SwapoutOk cfg m → m.pc = .phase1 →
      (∀ k, ¬ Stalled cfg io target (m.run cfg io target k)) →
      m.core.totalChunks cfg - m.processedChunks ≤ d →
      ∃ k, (m.run cfg io target k).pc ≠ .phase1 := by
  induction d with
  | zero =>
      intro m h hpc hns hd
      refine ⟨1, ?_⟩
      have hbal : (0 : Int) ≤ cfg.perLayerBalance * cfg.numLayers := by positivity
      rw [Swapout.run_one]
      unfold Swapout.step
      rw [hpc]
      dsimp only
      unfold MzCache.phase1Step
      rw [if_neg (by unfold Core.boundChunks; push_cast at hd; omega)]
      simp [MzCache.enterPhase2]
  | succ d ih =>
      intro m h hpc hns hd
      have hmove : ∃ k, (m.run cfg io target k).pc ≠ .phase1 ∨
          m.processedChunks < (m.run cfg io target k).processedChunks := by
        rcases h.phase1_progress io target hpc with hleave | hmore | hb
        · exact ⟨1, Or.inl hleave⟩
        · exact ⟨1, Or.inr hmore⟩
        · have hopen : ∃ t, m.core.kv.tick ≤ t ∧ (io .storeOpen t).opened = true := by
            by_contra hnone
            refine hns 0 (Or.inl ⟨hpc, hb.more, hb.noComp, hb.someStore, hb.blocked.1, ?_,
              hb.above⟩)
            intro t ht
            rw [Bool.eq_false_iff]
            exact fun ho => hnone ⟨t, ht, ho⟩
          obtain ⟨t, ht, ho⟩ := hopen
          refine SwapoutOk.phase1_opened target (t - m.core.kv.tick) m h hpc ?_
          rw [Nat.add_sub_cancel' ht]
          exact ho
      obtain ⟨k, hleave | hmore⟩ := hmove
      · exact ⟨k, hleave⟩
      · by_cases hpc' : (m.run cfg io target k).pc = .phase1
        · obtain ⟨hok', hrun⟩ := h.run io target k
          have htotal : (m.run cfg io target k).core.totalChunks cfg = m.core.totalChunks cfg := by
            unfold Core.totalChunks
            rw [Swapout.run_chunks]
          obtain ⟨j, hj⟩ := ih _ hok' hpc' (fun i => by rw [← Swapout.run_add]; exact hns _)
            (by rw [htotal]; push_cast at hd; omega)
          exact ⟨k + j, by rw [Swapout.run_add]; exact hj⟩
        · exact ⟨k, hpc'⟩

/-- Phase 2 is left after at most one iteration for each layer. -/
theorem phase2_left (cfg : Config) (io : Io) (target : ℚ) (i : Nat) :
    ∀ m : Swapout, m.pc = .phase2 i →
      ∃ k, (m.run cfg io target k).pc = .phase3 ∨
        ∃ ratio, (m.run cfg io target k).pc = .returned ratio := by
  have henter : ∀ m : Swapout, (enterPhase3 cfg m).pc = .phase3 ∨
      ∃ ratio, (enterPhase3 cfg m).pc = .returned ratio := by
    intro m
    unfold enterPhase3
    dsimp only
    split
    · exact Or.inl rfl
    · exact Or.inr ⟨_, rfl⟩
  induction i with
  | zero =>
      intro m hpc
      refine ⟨1, ?_⟩
      rw [Swapout.run_one]
      unfold Swapout.step
      rw [hpc]
      exact henter m
  | succ i ih =>
      intro m hpc
      have hstep : m.step cfg io target = phase2Step cfg io target i m := by
        unfold Swapout.step
        rw [hpc]
      have hpc' : (m.step cfg io target).pc = .phase2 i ∨ (m.step cfg io target).pc = .phase3 ∨
          ∃ ratio, (m.step cfg io target).pc = .returned ratio := by
        rw [hstep]
        unfold phase2Step
        dsimp only
        split
        · split
          · exact Or.inr (Or.inr ⟨_, rfl⟩)
          · split
            · exact Or.inr (henter _)
            · exact Or.inl rfl
        · exact Or.inr (henter _)
      rcases hpc' with hnext | hdone
      · obtain ⟨k, hk⟩ := ih _ hnext
        exact ⟨1 + k, by rw [Swapout.run_add, Swapout.run_one]; exact hk⟩
      · exact ⟨1, hdone⟩

/-- Phase 3 moves on once an attempt succeeds. -/
theorem phase3_attempted (target : ℚ) (j : Nat) :
    ∀ m : Swapout, m.pc = .phase3 → 0 ≤ m.core.kv.nextLayerToOffload →
      (offloadAttempt io m.core.kv.topsToOffload
        (attemptTick io m.core.kv.topsToOffload m.core.kv.tick j)).1 = true →
      ∃ k, (∃ ratio, (m.run cfg io target k).pc = .returned ratio) ∨
        ((m.run cfg io target k).pc = .phase3 ∧
          (m.run cfg io target k).core.kv.nextLayerToOffload =
            m.core.kv.nextLayerToOffload - 1) := by
  induction j with
  | zero =>
      intro m hpc h0 hok
      refine ⟨1, ?_⟩
      rw [Swapout.run_one, phase3_step hpc h0]
      dsimp only
      split
      · exact Or.inl ⟨_, rfl⟩
      · exact Or.inr ⟨hpc, (offloadArenas_attempt io h0).1 hok⟩
  | succ j ih =>
      intro m hpc h0 hok
      by_cases hnow : (offloadAttempt io m.core.kv.topsToOffload m.core.kv.tick).1 = true
      · refine ⟨1, ?_⟩
        rw [Swapout.run_one, phase3_step hpc h0]
        dsimp only
        split
        · exact Or.inl ⟨_, rfl⟩
        · exact Or.inr ⟨hpc, (offloadArenas_attempt io h0).1 hnow⟩
      · -- the attempt failed: the next one starts where it stopped
        obtain ⟨hnext, htops, htick, _, _⟩ :=
          (offloadArenas_attempt io h0).2 (Bool.eq_false_iff.mpr hnow)
        by_cases hret : ({ m.core with kv := (mzcacheOffloadArenas io m.core.kv).1 } : Core).curRatio
            cfg ≤ target
        · refine ⟨1, Or.inl ?_⟩
          rw [Swapout.run_one, phase3_step hpc h0]
          dsimp only
          rw [if_pos hret]
          exact ⟨_, rfl⟩
        · have hstep : m.step cfg io target =
              { m with core := { m.core with kv := (mzcacheOffloadArenas io m.core.kv).1 } } := by
            rw [phase3_step hpc h0]
            dsimp only
            rw [if_neg hret]
          obtain ⟨k, hk⟩ := ih (m.step cfg io target) (by rw [hstep]; exact hpc)
            (by rw [hstep]; dsimp only; rw [hnext]; exact h0)
            (by rw [hstep]; dsimp only; rw [htops, htick]; exact hok)
          refine ⟨1 + k, ?_⟩
          rw [Swapout.run_add, Swapout.run_one]
          have hn : (m.step cfg io target).core.kv.nextLayerToOffload =
              m.core.kv.nextLayerToOffload := by rw [hstep]; exact hnext
          rw [hn] at hk
          exact hk

/-- Phase 3 returns, unless a head stalls. Induction on the layers left. -/
theorem phase3_returns (target : ℚ) (d : Nat) :
    ∀ m : Swapout, m.pc = .phase3 →
      (∀ k, ¬ Stalled cfg io target (m.run cfg io target k)) →
      m.core.kv.nextLayerToOffload < d →
      ∃ k ratio, (m.run cfg io target k).pc = .returned ratio := by
  have hdone : ∀ m : Swapout, m.pc = .phase3 → m.core.kv.nextLayerToOffload < 0 →
      ∃ k ratio, (m.run cfg io target k).pc = .returned ratio := by
    intro m hpc hneg
    refine ⟨1, m.core.curRatio cfg, ?_⟩
    rw [Swapout.run_one]
    unfold Swapout.step
    rw [hpc]
    dsimp only
    unfold phase3Step
    rw [if_neg (not_le.mpr hneg)]
  induction d with
  | zero => intro m hpc _ hd; exact hdone m hpc (by simpa using hd)
  | succ d ih =>
      intro m hpc hns hd
      by_cases h0 : 0 ≤ m.core.kv.nextLayerToOffload
      · have hatt : (∃ j, (offloadAttempt io m.core.kv.topsToOffload
            (attemptTick io m.core.kv.topsToOffload m.core.kv.tick j)).1 = true) ∨
            m.core.curRatio cfg ≤ target := by
          by_contra hnone
          rw [not_or, not_le] at hnone
          refine hns 0 (Or.inr ⟨hpc, h0, ?_, hnone.2⟩)
          intro j
          rw [Bool.eq_false_iff]
          exact fun hj => hnone.1 ⟨j, hj⟩
        have hmove : ∃ k, (∃ ratio, (m.run cfg io target k).pc = .returned ratio) ∨
            ((m.run cfg io target k).pc = .phase3 ∧
              (m.run cfg io target k).core.kv.nextLayerToOffload =
                m.core.kv.nextLayerToOffload - 1) := by
          by_cases hnow : (offloadAttempt io m.core.kv.topsToOffload m.core.kv.tick).1 = true
          · exact phase3_attempted target 0 m hpc h0 hnow
          · rcases hatt with ⟨j, hj⟩ | hlow
            · exact phase3_attempted target j m hpc h0 hj
            · -- a failed attempt leaves the ratio where it is, which is low enough
              refine ⟨1, Or.inl ?_⟩
              rw [Swapout.run_one, phase3_step hpc h0]
              dsimp only
              rw [if_pos (by
                rw [offload_failed_ratio cfg h0 (Bool.eq_false_iff.mpr hnow)]; exact hlow)]
              exact ⟨_, rfl⟩
        obtain ⟨k, hret | ⟨hpc', hnext⟩⟩ := hmove
        · exact ⟨k, hret⟩
        · obtain ⟨i, ratio, hi⟩ := ih _ hpc' (fun i => by rw [← Swapout.run_add]; exact hns _)
            (by rw [hnext]; push_cast at hd; omega)
          exact ⟨k + i, ratio, by rw [Swapout.run_add]; exact hi⟩
      · exact hdone m hpc (not_le.mp h0)

/-- A machine that never stands at a stalled head returns. -/
theorem SwapoutOk.returns {m : Swapout} (target : ℚ) (h : SwapoutOk cfg m)
    (hns : ∀ k, ¬ Stalled cfg io target (m.run cfg io target k)) :
    ∃ k ratio, (m.run cfg io target k).pc = .returned ratio := by
  have hsuffix : ∀ k, (∃ j ratio, ((m.run cfg io target k).run cfg io target j).pc =
      .returned ratio) → ∃ k ratio, (m.run cfg io target k).pc = .returned ratio := by
    rintro k ⟨j, ratio, hj⟩
    exact ⟨k + j, ratio, by rw [Swapout.run_add]; exact hj⟩
  have hns' : ∀ k j, ¬ Stalled cfg io target ((m.run cfg io target k).run cfg io target j) :=
    fun k j => by rw [← Swapout.run_add]; exact hns _
  have h3 : ∀ k, (m.run cfg io target k).pc = .phase3 →
      ∃ k ratio, (m.run cfg io target k).pc = .returned ratio := fun k hpc =>
    hsuffix k (phase3_returns target
      ((m.run cfg io target k).core.kv.nextLayerToOffload + 1).toNat _ hpc (hns' k) (by omega))
  have h2 : ∀ k i, (m.run cfg io target k).pc = .phase2 i →
      ∃ k ratio, (m.run cfg io target k).pc = .returned ratio := by
    intro k i hpc
    obtain ⟨j, hj | ⟨ratio, hj⟩⟩ := phase2_left cfg io target i _ hpc
    · exact h3 (k + j) (by rw [Swapout.run_add]; exact hj)
    · exact hsuffix k ⟨j, ratio, hj⟩
  have hany : ∀ k, (m.run cfg io target k).pc ≠ .phase1 →
      ∃ k ratio, (m.run cfg io target k).pc = .returned ratio := by
    intro k hne
    cases hpc : (m.run cfg io target k).pc with
    | phase1 => exact absurd hpc hne
    | phase2 i => exact h2 k i hpc
    | phase3 => exact h3 k hpc
    | returned ratio => exact ⟨k, ratio, hpc⟩
  by_cases hpc : m.pc = .phase1
  · obtain ⟨k, hk⟩ := SwapoutOk.phase1_left target
      (m.core.totalChunks cfg - m.processedChunks).toNat m h hpc hns (by omega)
    exact hany k hk
  · exact hany 0 hpc

end

end MzCache
