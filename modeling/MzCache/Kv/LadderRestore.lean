import MzCache.Kv.LadderEvict

/-!
# Restoring keeps the ladder

A walk up enqueues a prefix of the chunks its cursor stands for and leaves the
cursor standing for the rest. The workers then make these chunks raw, and the
bookkeeping takes them off the counters; the three together pop the ladder.
-/

namespace MzCache

open MzCache.Lib

section

variable {cfg : Config} {s s' : KvState}

/-! ## Walks -/

/-- A nonempty compress region is preceded by nonempty ones. -/
theorem PlanShape.comp_noGap {n : Nat} {bound : Nat → Nat} (h : PlanShape cfg.numLayers n bound)
    {cur : Cursor} (hnn : 0 ≤ cur.row) : cur.NoGap (fun _ => 0) bound cfg.numLayers := by
  intro c hc hrow
  obtain ⟨hc1, _, hc3⟩ := mem_cells.mp hc
  -- going down from the nonempty row, no row can be empty
  have hdown : ∀ k, k ≤ c.1 → 0 < bound (c.1 - k) := by
    intro k
    induction k with
    | zero => intro _; simpa using lt_of_le_of_lt (Nat.zero_le _) hc3
    | succ k ih =>
        intro hk
        have hpos := ih (by omega)
        by_contra hz
        have hnext := h.emptyComp (c.1 - (k + 1)) (by omega) (by omega)
        rw [show c.1 - (k + 1) + 1 = c.1 - k by omega] at hnext
        omega
  have := hdown (c.1 - (cur.row + 1).toNat) (by omega)
  rwa [show c.1 - (c.1 - (cur.row + 1).toNat) = (cur.row + 1).toNat by omega] at this

/-- A nonempty store region is followed by nonempty ones. -/
theorem PlanShape.store_noGap {n : Nat} {bound : Nat → Nat} (h : PlanShape cfg.numLayers n bound)
    {cur : Cursor} (hnn : 0 ≤ cur.row)
    (hrow : bound cur.row.toNat < n ∨ cur.row + 1 = cfg.numLayers) :
    cur.NoGap bound (fun _ => n) cfg.numLayers := by
  intro c hc hlt
  have hc1 := (mem_cells.mp hc).1
  rcases hrow with hrow | hlast
  · have hnext := h.openStore cur.row.toNat (by omega) hrow
    rwa [show cur.row.toNat + 1 = (cur.row + 1).toNat by omega] at hnext
  · omega

/-- The decompress walk takes the next `m` compressed chunks. -/
theorem decompWalk_spec (hshape : PlanShape cfg.numLayers s.numChunksPerTensor s.chunkBound) :
    ∀ (m : Nat) (cur : Cursor), cur.Wf (fun _ => 0) s.chunkBound cfg.numLayers →
      m ≤ (beyond (fun _ => 0) s.chunkBound cfg.numLayers cur).length →
      ∃ cur', decompWalk cfg m { s with curToCompress := cur } =
          ⟨{ s with curToCompress := cur' },
            (beyond (fun _ => 0) s.chunkBound cfg.numLayers cur).take m, false⟩ ∧
        cur'.Wf (fun _ => 0) s.chunkBound cfg.numLayers ∧
        beyond (fun _ => 0) s.chunkBound cfg.numLayers cur' =
          (beyond (fun _ => 0) s.chunkBound cfg.numLayers cur).drop m := by
  intro m
  induction m with
  | zero =>
      intro cur hwf _
      exact ⟨cur, by simp [decompWalk], hwf, rfl⟩
  | succ m ih =>
      intro cur hwf hm
      have hne : beyond (fun _ => 0) s.chunkBound cfg.numLayers cur ≠ [] := by
        intro hnil
        rw [hnil] at hm
        simp at hm
      obtain ⟨e, he, hstep, hcons⟩ := beyond_stepUp hwf (hshape.comp_noGap hwf.nonneg) hne
      have hlen : m ≤ (beyond (fun _ => 0) s.chunkBound cfg.numLayers (.at e)).length := by
        rw [hcons, List.length_cons] at hm
        omega
      obtain ⟨cur', heq, hwf', hdrop⟩ := ih (.at e) (Cursor.Wf.at he) hlen
      refine ⟨cur', ?_, hwf', ?_⟩
      · -- the "too many chunks" test would put the next chunk past the last layer
        have hnot : ¬ (cur.col + 1 ≥ s.chunkBound cur.row.toNat ∧
            cur.row + 1 ≥ cfg.numLayers) := by
          rintro ⟨hcol, hrow⟩
          have hrow' := congrArg Cursor.row hstep
          unfold stepUp at hrow'
          rw [if_pos hcol] at hrow'
          have hlt := (mem_cells.mp he).1
          simp only [Cursor.at] at hrow'
          omega
        rw [decompWalk]
        dsimp only
        rw [if_neg hnot, hstep, heq, hcons]
        simp [Cursor.at]
      · rw [hdrop, hcons, List.drop_succ_cons]

/-- What the load walk changes besides the cursor. -/
def KvState.withStore (s : KvState) (cur : Cursor) (fds : Nat → Option FdMode) (tick : Nat) :
    KvState :=
  { s with curToStore := cur, layerFds := fds, tick := tick }

theorem openToRead_eq (io : Io) (layer : Nat) (s : KvState) {t : KvState}
    (h : openToRead io layer s = some t) :
    ∃ fds tick, t = s.withStore s.curToStore fds tick := by
  unfold openToRead at h
  split at h
  · cases h
    exact ⟨s.layerFds, s.tick, rfl⟩
  · split at h
    · cases h
      exact ⟨_, _, rfl⟩
    · cases h

theorem openToRead_isSome (io : Io) (hio : ∀ t, (io .chunkOpen t).opened) (layer : Nat) (s : KvState) :
    (openToRead io layer s).isSome := by
  unfold openToRead
  split
  · rfl
  · rw [if_pos (hio _)]
    rfl

theorem openFirstToRead_eq (io : Io) (s : KvState) {t : KvState}
    (h : openFirstToRead io s = some t) :
    ∃ fds tick, t = s.withStore s.curToStore fds tick := by
  unfold openFirstToRead at h
  split at h
  · split at h
    · cases h
      exact ⟨_, _, rfl⟩
    · cases h
  · cases h
    exact ⟨s.layerFds, s.tick, rfl⟩

theorem openFirstToRead_isSome (io : Io) (hio : ∀ t, (io .chunkOpen t).opened) (s : KvState) :
    (openFirstToRead io s).isSome := by
  unfold openFirstToRead
  split
  · rw [if_pos (hio _)]
    rfl
  · rfl

/-- The load walk at the end of a row. -/
theorem loadWalk_nextRow (io : Io) (m : Nat) {layer : Nat}
    (hcol : s.curToStore.col + 1 = s.numChunksPerTensor) (hrow : s.curToStore.row + 1 = layer)
    (hlt : layer < cfg.numLayers) :
    loadWalk cfg io (m + 1) s =
      (openToRead io layer { s with curToStore := .at (layer, s.chunkBound layer) }).bind fun t =>
        (loadWalk cfg io m t).map fun w =>
          { w with cells := (layer, s.chunkBound layer) :: w.cells } := by
  have hlayer : (s.curToStore.row + 1).toNat = layer := by omega
  rw [loadWalk]
  dsimp only
  rw [if_pos hcol, if_neg (by omega), hlayer, hrow]
  rfl

/-- The load walk inside a row. -/
theorem loadWalk_sameRow (io : Io) (m : Nat) {e : Cell}
    (hcol : s.curToStore.col + 1 ≠ s.numChunksPerTensor)
    (hnext : (⟨s.curToStore.row, s.curToStore.col + 1⟩ : Cursor) = .at e) :
    loadWalk cfg io (m + 1) s =
      (loadWalk cfg io m { s with curToStore := .at e }).map fun w =>
        { w with cells := e :: w.cells } := by
  have h1 : s.curToStore.row.toNat = e.1 := by
    rw [show s.curToStore.row = e.1 from congrArg Cursor.row hnext, Int.toNat_natCast]
  have h2 : (s.curToStore.col + 1).toNat = e.2 := by
    rw [show s.curToStore.col + 1 = e.2 from congrArg Cursor.col hnext, Int.toNat_natCast]
  rw [loadWalk]
  dsimp only
  rw [if_neg hcol, hnext, h1, h2]

/-- The load walk takes the next `m` stored chunks, if it can open their files. -/
theorem loadWalk_spec (io : Io)
    (hshape : PlanShape cfg.numLayers s.numChunksPerTensor s.chunkBound) :
    ∀ (m : Nat) (cur : Cursor) (fds : Nat → Option FdMode) (tick : Nat) (w : Walk),
      cur.Wf s.chunkBound (fun _ => s.numChunksPerTensor) cfg.numLayers →
      (s.chunkBound cur.row.toNat < s.numChunksPerTensor ∨ cur.row + 1 = cfg.numLayers) →
      m ≤ (beyond s.chunkBound (fun _ => s.numChunksPerTensor) cfg.numLayers cur).length →
      loadWalk cfg io m (s.withStore cur fds tick) = some w →
      ∃ cur' fds' tick', w = ⟨s.withStore cur' fds' tick',
          (beyond s.chunkBound (fun _ => s.numChunksPerTensor) cfg.numLayers cur).take m, false⟩ ∧
        cur'.Wf s.chunkBound (fun _ => s.numChunksPerTensor) cfg.numLayers ∧
        (s.chunkBound cur'.row.toNat < s.numChunksPerTensor ∨ cur'.row + 1 = cfg.numLayers) ∧
        beyond s.chunkBound (fun _ => s.numChunksPerTensor) cfg.numLayers cur' =
          (beyond s.chunkBound (fun _ => s.numChunksPerTensor) cfg.numLayers cur).drop m := by
  intro m
  induction m with
  | zero =>
      intro cur fds tick w hwf hrow _ hw
      simp only [loadWalk, Option.some.injEq] at hw
      exact ⟨cur, fds, tick, by rw [← hw]; simp, hwf, hrow, rfl⟩
  | succ m ih =>
      intro cur fds tick w hwf hrow hm hw
      have hne : beyond s.chunkBound (fun _ => s.numChunksPerTensor) cfg.numLayers cur ≠ [] := by
        intro hnil
        rw [hnil] at hm
        simp at hm
      obtain ⟨e, he, hstep, hcons⟩ :=
        beyond_stepUp hwf (hshape.store_noGap hwf.nonneg hrow) hne
      have hreg := mem_cells.mp he
      have hlen : m ≤ (beyond s.chunkBound (fun _ => s.numChunksPerTensor) cfg.numLayers
          (.at e)).length := by
        rw [hcons, List.length_cons] at hm
        omega
      have hrow' : s.chunkBound (Cursor.at e).row.toNat < s.numChunksPerTensor ∨
          (Cursor.at e).row + 1 = cfg.numLayers := by
        refine Or.inl ?_
        simp only [Cursor.at, Int.toNat_natCast]
        omega
      obtain ⟨hon1, hon2⟩ := hwf.onRow cur.row.toNat hwf.toNat_row
      rw [hcons, List.take_succ_cons, List.drop_succ_cons]
      unfold stepUp at hstep
      simp only at hon2 hstep
      by_cases hcol : cur.col + 1 = s.numChunksPerTensor
      · -- the row is used up: the next chunk opens the next layer
        rw [if_pos (by omega)] at hstep
        have hnext1 : cur.row + 1 = e.1 := congrArg Cursor.row hstep
        have hnext2 : (s.chunkBound (cur.row + 1).toNat : Int) = e.2 := congrArg Cursor.col hstep
        have hcol2 : s.chunkBound e.1 = e.2 := by
          rw [show (cur.row + 1).toNat = e.1 by omega] at hnext2
          exact_mod_cast hnext2
        rw [loadWalk_nextRow io m (s := s.withStore cur fds tick) hcol hnext1 hreg.1,
          Option.bind_eq_some_iff] at hw
        obtain ⟨t, hopen, hw⟩ := hw
        obtain ⟨fds', tick', rfl⟩ := openToRead_eq io e.1 _ hopen
        rw [Option.map_eq_some_iff] at hw
        obtain ⟨w', hw', rfl⟩ := hw
        have hpos : (e.1, (s.withStore cur fds tick).chunkBound e.1) = e := Prod.ext rfl hcol2
        rw [hpos] at hw' ⊢
        obtain ⟨cur', fds'', tick'', hw'', hrest⟩ :=
          ih (.at e) fds' tick' w' (Cursor.Wf.at he) hrow' hlen hw'
        exact ⟨cur', fds'', tick'', by rw [hw''], hrest⟩
      · rw [if_neg (by omega)] at hstep
        rw [loadWalk_sameRow io m (s := s.withStore cur fds tick) hcol hstep,
          Option.map_eq_some_iff] at hw
        obtain ⟨w', hw', rfl⟩ := hw
        obtain ⟨cur', fds'', tick'', hw'', hrest⟩ :=
          ih (.at e) fds tick w' (Cursor.Wf.at he) hrow' hlen hw'
        exact ⟨cur', fds'', tick'', by rw [hw''], hrest⟩

theorem loadWalk_isSome (io : Io) (hio : ∀ t, (io .chunkOpen t).opened) :
    ∀ (m : Nat) (s : KvState), (loadWalk cfg io m s).isSome := by
  intro m
  induction m with
  | zero => intro s; rfl
  | succ m ih =>
      intro s
      rw [loadWalk]
      dsimp only
      split
      · split
        · rfl
        · obtain ⟨t, ht⟩ := Option.isSome_iff_exists.mp
            (openToRead_isSome io hio (s.curToStore.row + 1).toNat
              { s with curToStore := ⟨s.curToStore.row + 1,
                s.chunkBound (s.curToStore.row + 1).toNat⟩ })
          rw [ht, Option.bind_some, Option.isSome_map]
          exact ih t
      · rw [Option.isSome_map]
        exact ih _

/-! ## Workers and bookkeeping -/

/-- The states after the chunks of `l` were restored. -/
def clearStates (l : List Cell) (t : Nat → Nat → KVstate) : Nat → Nat → KVstate :=
  fun i c => if (i, c) ∈ l then .raw else t i c

@[simp] theorem clearStates_nil (t : Nat → Nat → KVstate) : clearStates [] t = t := by
  funext i c
  simp [clearStates]

theorem clearStates_cons (e : Cell) (l : List Cell) (t : Nat → Nat → KVstate) :
    clearStates l (Table.set t e.1 e.2 .raw) = clearStates (e :: l) t := by
  funext i c
  unfold clearStates
  by_cases hl : (i, c) ∈ l
  · simp [hl]
  · rw [if_neg hl]
    by_cases hic : i = e.1 ∧ c = e.2
    · obtain ⟨rfl, rfl⟩ := hic
      simp
    · rw [Table.set_ne _ _ hic, if_neg]
      rw [List.mem_cons, not_or]
      exact ⟨fun heq => hic ⟨congrArg Prod.fst heq, congrArg Prod.snd heq⟩, hl⟩

theorem kvReadWorker_view (cfg : Config) (io : Io) (e : Cell) :
    (kvReadWorker cfg io e.1 e.2 (kvAllocWorker cfg e.1 e.2 s)).view =
      { s.view with states := Table.set s.states e.1 e.2 .raw } := by
  unfold kvReadWorker kvAllocWorker
  dsimp only
  split <;> rfl

theorem kvDecompWorker_view (cfg : Config) (e : Cell) :
    (kvDecompWorker cfg e.1 e.2 (kvAllocWorker cfg e.1 e.2 s)).view =
      { s.view with states := Table.set s.states e.1 e.2 .raw } := by
  unfold kvDecompWorker
  split <;> rfl

theorem runReads_view (cfg : Config) (io : Io) (l : List Cell) :
    ∀ s : KvState, (runReads cfg io l s).view =
      { s.view with states := clearStates l s.states } := by
  induction l with
  | nil => intro s; simp [runReads, KvState.view]
  | cons e l ih =>
      intro s
      have hone := kvReadWorker_view (s := s) cfg io e
      have hstates := congrArg LadderView.states hone
      rw [runReads, ih, hone, ← clearStates_cons]
      exact congrArg (fun t => { s.view with states := clearStates l t }) hstates

theorem runDecomps_view (cfg : Config) (l : List Cell) :
    ∀ s : KvState, (runDecomps cfg l s).view =
      { s.view with states := clearStates l s.states } := by
  induction l with
  | nil => intro s; simp [runDecomps, KvState.view]
  | cons e l ih =>
      intro s
      have hone := kvDecompWorker_view (s := s) cfg e
      have hstates := congrArg LadderView.states hone
      rw [runDecomps, ih, hone, ← clearStates_cons]
      exact congrArg (fun t => { s.view with states := clearStates l t }) hstates

/-- `clean_after_decompress` for no more chunks than are compressed. -/
theorem cleanAfterDecompress_eq {m : Nat} (hpos : m ≠ 0) (hm : (m : Int) ≤ s.nCurCompChunks) :
    cleanAfterDecompress m s =
      { s with
        arenas := fun l => cleanArenas s l
        nCurCompSavedBytes :=
          if s.nCurCompChunks - m = 0 then 0
          else (s.nCurCompSavedBytes * (s.nCurCompChunks - m)).tdiv s.nCurCompChunks
        nCurCompChunks := s.nCurCompChunks - m } := by
  unfold cleanAfterDecompress
  rw [if_neg hpos]
  dsimp only
  rw [if_neg (show ¬ (m : Int) > s.nCurCompChunks by omega)]
  split <;> rfl

theorem cleanAfterDecompress_view (m : Nat) (hm : (m : Int) ≤ s.nCurCompChunks) :
    (cleanAfterDecompress m s).view =
      { s.view with nCurCompChunks := s.nCurCompChunks - m } := by
  by_cases hz : m = 0
  · subst hz
    simp [cleanAfterDecompress, KvState.view]
  · rw [cleanAfterDecompress_eq hz hm]
    rfl

theorem cleanAfterRead_view (m : Nat) (hm : (m : Int) ≤ s.nCurStoreChunks) :
    (cleanAfterRead m s).view = { s.view with nCurStoreChunks := s.nCurStoreChunks - m } := by
  unfold cleanAfterRead KvState.view
  simp only
  rw [if_neg (by omega)]

theorem stateOf_clear (comp store : List Cell) (hcn : comp.Nodup) (hsn : store.Nodup)
    (hdisj : ∀ c ∈ comp, c ∉ store) (m k : Nat) (c : Cell) :
    (if c ∈ comp.take m then .raw else if c ∈ store.take k then .raw else
      stateOf comp store c) = stateOf (comp.drop m) (store.drop k) c := by
  have hc := List.take_append_drop m comp
  have hs := List.take_append_drop k store
  rw [← hc, List.nodup_append] at hcn
  rw [← hs, List.nodup_append] at hsn
  unfold stateOf
  by_cases h1 : c ∈ comp.take m
  · have h2 : c ∉ comp.drop m := fun h => hcn.2.2 c h1 c h rfl
    have h3 : c ∉ store.drop k := fun h =>
      hdisj c (List.mem_of_mem_take h1) (List.mem_of_mem_drop h)
    simp [h1, h2, h3]
  · have hcomp : c ∈ comp ↔ c ∈ comp.drop m := by
      conv_lhs => rw [← hc, List.mem_append]
      exact or_iff_right h1
    by_cases h2 : c ∈ store.take k
    · have h3 : c ∉ store.drop k := fun h => hsn.2.2 c h2 c h rfl
      have h4 : c ∉ comp.drop m := fun h =>
        hdisj c (List.mem_of_mem_drop h) (List.mem_of_mem_take h2)
      simp [h1, h2, h3, h4]
    · have hstore : c ∈ store ↔ c ∈ store.drop k := by
        conv_lhs => rw [← hs, List.mem_append]
        exact or_iff_right h2
      rw [if_neg h1, if_neg h2]
      simp only [hcomp, hstore]

/-- Restoring a prefix of both lists pops them. -/
theorem Ladder.pop (h : Ladder cfg s) {m k : Nat} {comp store : Cursor}
    (hcomp : comp.Wf (fun _ => 0) s.chunkBound cfg.numLayers)
    (hcb : beyond (fun _ => 0) s.chunkBound cfg.numLayers comp = (s.compBeyond cfg).drop m)
    (hstore : store.Wf s.chunkBound (fun _ => s.numChunksPerTensor) cfg.numLayers)
    (hrow : s.chunkBound store.row.toNat < s.numChunksPerTensor ∨
      store.row + 1 = cfg.numLayers)
    (hsb : beyond s.chunkBound (fun _ => s.numChunksPerTensor) cfg.numLayers store =
      (s.storeBeyond cfg).drop k)
    (hm : m ≤ (s.compBeyond cfg).length) (hk : k ≤ (s.storeBeyond cfg).length)
    (hv : s'.view = { s.view with
      curToCompress := comp
      curToStore := store
      nCurCompChunks := s.nCurCompChunks - m
      nCurStoreChunks := s.nCurStoreChunks - k
      states := clearStates ((s.compBeyond cfg).take m)
        (clearStates ((s.storeBeyond cfg).take k) s.states) }) :
    Moved cfg s s' ((s.compBeyond cfg).drop m) ((s.storeBeyond cfg).drop k) := by
  have hdisj : ∀ c ∈ s.compBeyond cfg, c ∉ s.storeBeyond cfg := fun c hc =>
    not_mem_storeBeyond (mem_beyond.mp hc).1
  simp only [KvState.view, LadderView.mk.injEq] at hv
  obtain ⟨h1, h2, h3, h4, h5, h6, h7, h8, h9⟩ := hv
  have hc : s'.compBeyond cfg = (s.compBeyond cfg).drop m := by
    unfold KvState.compBeyond
    rw [h2, h3]
    exact hcb
  have hs : s'.storeBeyond cfg = (s.storeBeyond cfg).drop k := by
    unfold KvState.storeBeyond
    rw [h1, h2, h4]
    exact hsb
  refine ⟨?_, h1, hc, hs⟩
  exact
    { chunks_pos := h1 ▸ h.chunks_pos
      chunks_le := h1 ▸ h.chunks_le
      bound := by rw [h1, h2]; exact h.bound
      maxComp := by rw [h2, h5]; exact h.maxComp
      maxStore := by rw [h1, h2, h6]; exact h.maxStore
      compWf := by rw [h2, h3]; exact hcomp
      storeWf := by rw [h1, h2, h4]; exact hstore
      storeRow := by rw [h1, h2, h4]; exact hrow
      states := by
        rw [h1, h9, hc, hs]
        intro i c hi hlt
        rw [← stateOf_clear _ _ s.compBeyond_nodup s.storeBeyond_nodup hdisj,
          ← h.states i c hi hlt]
        rfl
      nComp := by rw [h7, hc, h.nComp, List.length_drop]; omega
      nStore := by rw [h8, hs, h.nStore, List.length_drop]; omega }

/-! ## Whole operations -/

/-- What `mzcache_enqueue_decomp_load_chunks` enqueues on a ladder: the next `d`
compressed and the next `k` stored chunks, by no "too many chunks" branch. -/
structure EnqueuedOk (cfg : Config) (s : KvState) (d k : Nat) (e : Enqueued) : Prop where
  read : e.read = (s.storeBeyond cfg).take k
  decomp : e.decomp = (s.compBeyond cfg).take d
  readOverrun : e.readOverrun = false
  decompOverrun : e.decompOverrun = false
  state : ∃ comp store fds tick,
    e.state = { s.withStore store fds tick with curToCompress := comp } ∧
    comp.Wf (fun _ => 0) s.chunkBound cfg.numLayers ∧
    beyond (fun _ => 0) s.chunkBound cfg.numLayers comp = (s.compBeyond cfg).drop d ∧
    store.Wf s.chunkBound (fun _ => s.numChunksPerTensor) cfg.numLayers ∧
    (s.chunkBound store.row.toNat < s.numChunksPerTensor ∨ store.row + 1 = cfg.numLayers) ∧
    beyond s.chunkBound (fun _ => s.numChunksPerTensor) cfg.numLayers store =
      (s.storeBeyond cfg).drop k

theorem Ladder.enqueue (h : Ladder cfg s) (io : Io) {d k : Nat}
    (hd : d ≤ (s.compBeyond cfg).length) (hk : k ≤ (s.storeBeyond cfg).length) {e : Enqueued}
    (he : mzcacheEnqueueDecompLoadChunks cfg io d k s = some e) : EnqueuedOk cfg s d k e := by
  unfold mzcacheEnqueueDecompLoadChunks at he
  rw [Option.bind_eq_some_iff] at he
  obtain ⟨t, hopen, he⟩ := he
  obtain ⟨fds, tick, rfl⟩ := openFirstToRead_eq io s hopen
  rw [Option.map_eq_some_iff] at he
  obtain ⟨w, hw, rfl⟩ := he
  obtain ⟨store, fds', tick', rfl, hswf, hrow, hsb⟩ :=
    loadWalk_spec io h.shape k s.curToStore fds tick w h.storeWf h.storeRow hk hw
  obtain ⟨comp, hcomp, hcwf, hcb⟩ := decompWalk_spec (s := s.withStore store fds' tick')
    h.shape d s.curToCompress h.compWf hd
  have hcomp' : decompWalk cfg d (s.withStore store fds' tick') =
      ⟨{ s.withStore store fds' tick' with curToCompress := comp },
        (s.compBeyond cfg).take d, false⟩ := hcomp
  dsimp only
  rw [hcomp']
  exact ⟨rfl, rfl, rfl, rfl, comp, store, fds', tick', rfl, hcwf, hcb, hswf, hrow, hsb⟩

theorem enqueue_isSome (io : Io) (hio : ∀ t, (io .chunkOpen t).opened) (d k : Nat) (s : KvState) :
    (mzcacheEnqueueDecompLoadChunks cfg io d k s).isSome := by
  unfold mzcacheEnqueueDecompLoadChunks
  obtain ⟨t, ht⟩ := Option.isSome_iff_exists.mp (openFirstToRead_isSome io hio s)
  rw [ht, Option.bind_some, Option.isSome_map]
  exact loadWalk_isSome io hio k t

/-- The enqueued chunks, run and settled, are popped. -/
theorem Ladder.restore (h : Ladder cfg s) (io : Io) {d k : Nat}
    (hd : d ≤ (s.compBeyond cfg).length) (hk : k ≤ (s.storeBeyond cfg).length) {e : Enqueued}
    (he : EnqueuedOk cfg s d k e)
    (hv : s'.view = (runDecomps cfg e.decomp (runReads cfg io e.read e.state)).view) :
    Moved cfg s (cleanAfterRead k (cleanAfterDecompress d s')) ((s.compBeyond cfg).drop d)
      ((s.storeBeyond cfg).drop k) := by
  obtain ⟨hread, hdecomp, _, _, comp, store, fds, tick, hstate, hcwf, hcb, hswf, hrow, hsb⟩ := he
  rw [runDecomps_view, runReads_view, hread, hdecomp, hstate] at hv
  have hnc : s'.nCurCompChunks = s.nCurCompChunks := congrArg LadderView.nCurCompChunks hv
  have hns : s'.nCurStoreChunks = s.nCurStoreChunks := congrArg LadderView.nCurStoreChunks hv
  have hst := congrArg LadderView.states
    (runReads_view cfg io ((s.storeBeyond cfg).take k)
      ({ s.withStore store fds tick with curToCompress := comp }))
  have hc1 := cleanAfterDecompress_view (s := s') d (by rw [hnc, h.nComp]; exact_mod_cast hd)
  have hns' : (cleanAfterDecompress d s').nCurStoreChunks = s.nCurStoreChunks :=
    (congrArg LadderView.nCurStoreChunks hc1).trans hns
  have hc2 := cleanAfterRead_view (s := cleanAfterDecompress d s') k
    (by rw [hns', h.nStore]; exact_mod_cast hk)
  refine h.pop hcwf hcb hswf hrow hsb hd hk ?_
  rw [hc2, hc1, hv, hnc, hns']
  exact congrArg (fun t => { s.view with
    curToCompress := comp
    curToStore := store
    nCurCompChunks := s.nCurCompChunks - d
    nCurStoreChunks := s.nCurStoreChunks - k
    states := clearStates ((s.compBeyond cfg).take d) t }) hst

/-! ## Restores on their own -/

theorem Ladder.decompressChunks (h : Ladder cfg s) {m : Nat}
    (hm : m ≤ (s.compBeyond cfg).length) :
    Moved cfg s (mzcacheDecompressChunks cfg m s) ((s.compBeyond cfg).drop m)
      (s.storeBeyond cfg) := by
  obtain ⟨comp, hcomp, hcwf, hcb⟩ := decompWalk_spec (s := s) h.shape m s.curToCompress h.compWf hm
  have hwalk : decompWalk cfg m s =
      ⟨{ s with curToCompress := comp }, (s.compBeyond cfg).take m, false⟩ := hcomp
  have hrun := runDecomps_view cfg ((s.compBeyond cfg).take m)
    { s with curToCompress := comp }
  unfold mzcacheDecompressChunks
  rw [hwalk]
  dsimp only
  rw [if_neg (by simp)]
  generalize runDecomps cfg _ _ = t at hrun ⊢
  have hn : t.nCurCompChunks = s.nCurCompChunks := congrArg LadderView.nCurCompChunks hrun
  refine h.pop (k := 0) hcwf hcb h.storeWf h.storeRow rfl hm (Nat.zero_le _) ?_
  rw [cleanAfterDecompress_view m (by rw [hn, h.nComp]; exact_mod_cast hm), hrun, hn]
  simp [KvState.view]

theorem Ladder.loadChunks (h : Ladder cfg s) (io : Io) {m : Nat}
    (hm : m ≤ (s.storeBeyond cfg).length) (hs : mzcacheLoadChunks cfg io m s = some s') :
    Moved cfg s s' (s.compBeyond cfg) ((s.storeBeyond cfg).drop m) := by
  unfold mzcacheLoadChunks at hs
  rw [Option.bind_eq_some_iff] at hs
  obtain ⟨t, hopen, hs⟩ := hs
  obtain ⟨fds, tick, rfl⟩ := openFirstToRead_eq io s hopen
  rw [Option.map_eq_some_iff] at hs
  obtain ⟨w, hw, rfl⟩ := hs
  obtain ⟨store, fds', tick', rfl, hswf, hrow, hsb⟩ :=
    loadWalk_spec io h.shape m s.curToStore fds tick w h.storeWf h.storeRow hm hw
  have hrun := runReads_view cfg io ((s.storeBeyond cfg).take m)
    (s.withStore store fds' tick')
  dsimp only
  rw [show beyond s.chunkBound (fun _ => s.numChunksPerTensor) cfg.numLayers s.curToStore =
    s.storeBeyond cfg from rfl]
  generalize runReads cfg io _ _ = t at hrun ⊢
  have hn : t.nCurStoreChunks = s.nCurStoreChunks := congrArg LadderView.nCurStoreChunks hrun
  refine h.pop (m := 0) h.compWf rfl hswf hrow hsb (Nat.zero_le _) hm ?_
  rw [cleanAfterRead_view m (by rw [hn, h.nStore]; exact_mod_cast hm), hrun, hn]
  simp [KvState.view, KvState.withStore]

theorem loadChunks_isSome (io : Io) (hio : ∀ t, (io .chunkOpen t).opened) (m : Nat) (s : KvState) :
    (mzcacheLoadChunks cfg io m s).isSome := by
  unfold mzcacheLoadChunks
  obtain ⟨t, ht⟩ := Option.isSome_iff_exists.mp (openFirstToRead_isSome io hio s)
  rw [ht, Option.bind_some, Option.isSome_map]
  exact loadWalk_isSome io hio m t

/-! ## Operations the ladder does not see -/

theorem mzcacheOffloadArenas_view (io : Io) : (mzcacheOffloadArenas io s).1.view = s.view := by
  unfold mzcacheOffloadArenas
  split
  · rfl
  · dsimp only
    split
    · split <;> rfl
    · rfl

theorem reloadLayer_view (io : Io) (l : Nat) : (reloadLayer cfg io s l).view = s.view := by
  unfold reloadLayer
  split
  · rfl
  · split <;> rfl

theorem mzcacheReloadAllArenas_view (io : Io) :
    (mzcacheReloadAllArenas cfg io s).view = s.view := by
  have hfold : ∀ (ls : List Nat) (t : KvState),
      (ls.foldl (reloadLayer cfg io) t).view = t.view := by
    intro ls
    induction ls with
    | nil => intro t; rfl
    | cons l ls ih =>
        intro t
        rw [List.foldl_cons, ih, reloadLayer_view]
  unfold mzcacheReloadAllArenas
  dsimp only
  split
  · rfl
  · exact hfold _ s

end

end MzCache
