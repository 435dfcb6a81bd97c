import MzCache.Kv.Ladder

/-!
# Evicting keeps the ladder

`mzcache_compress_chunks` and `mzcache_store_chunks` on a ladder. Both are given as
rules: a property that survives the cursor motion and the eviction of one chunk
survives the whole call, and the call moves the ladder by as many chunks as were
asked for. Storing may stop early, when the layer's file cannot be opened.
-/

namespace MzCache

open MzCache.Lib

section

variable {cfg : Config} {s : KvState}

/-! ## Compressing -/

/-- With chunks left, the guard stops on one of them. -/
theorem Ladder.skipToCompress (h : Ladder cfg s) (hleft : s.nCurCompChunks < s.maxCompChunks) :
    ∃ e ∈ s.compCells cfg, s.skipToCompress = { s with curToCompress := .at e } ∧
      Moved cfg s s.skipToCompress (s.compBeyond cfg) (s.storeBeyond cfg) := by
  have hlt : (s.compBeyond cfg).length < (s.compCells cfg).length := by
    have h1 := h.nComp
    have h2 := h.length_compCells
    omega
  obtain ⟨e, he, heq, hpass⟩ := skipDown_spec
    (fun row col => if 0 ≤ row then (s.chunkBound row.toNat : Int) - 1 else col)
    (fun row col hrow => if_pos hrow) (fun i => Nat.zero_le _)
    (s.curToCompress.row + 1).toNat s.curToCompress h.compWf le_rfl
    (Cursor.leaves_of_length_lt hlt)
  have hskip : s.skipToCompress = { s with curToCompress := .at e } := by
    unfold KvState.skipToCompress
    rw [heq]
  refine ⟨e, he, hskip, ?_⟩
  rw [hskip]
  exact h.slide_comp (Cursor.Wf.at he) hpass

theorem compressAt_view (cfg : Config) (e : Cell) (hcur : s.curToCompress = .at e) :
    (compressAt cfg e.1 e.2 s).view = { s.view with
      curToCompress := ⟨e.1, (e.2 : Int) - 1⟩
      nCurCompChunks := s.nCurCompChunks + 1
      states := Table.set s.states e.1 e.2 .compressed } := by
  unfold KvState.view compressAt
  simp only [hcur, Cursor.at]

/-- One iteration of the compress loop. -/
theorem Ladder.compress_succ (h : Ladder cfg s) (hleft : s.nCurCompChunks < s.maxCompChunks) :
    ∃ e ∈ s.compCells cfg, e ∉ s.compBeyond cfg ∧
      s.skipToCompress = { s with curToCompress := .at e } ∧
      Ladder cfg s.skipToCompress ∧
      Moved cfg s (compressAt cfg e.1 e.2 s.skipToCompress) (e :: s.compBeyond cfg)
        (s.storeBeyond cfg) ∧
      ∀ n, (mzcacheCompressChunks cfg (n + 1) s).1 =
        (mzcacheCompressChunks cfg n (compressAt cfg e.1 e.2 s.skipToCompress)).1 := by
  obtain ⟨e, he, hskip, hmoved⟩ := h.skipToCompress hleft
  have hcur : s.skipToCompress.curToCompress = .at e := by rw [hskip]
  have hpush := hmoved.ladder.push_comp (e := e) (by rw [hskip]; exact he) hcur
    (compressAt_view cfg e hcur)
  rw [hmoved.comp, hmoved.store] at hpush
  refine ⟨e, he, ?_, hskip, hmoved.ladder, hmoved.trans hpush, ?_⟩
  · rw [← hmoved.comp]
    intro hmem
    have hb := (mem_beyond.mp hmem).2
    rw [hcur, Cursor.at_before] at hb
    exact CellLt.irrefl e hb
  · intro n
    have hrow : ¬ s.skipToCompress.curToCompress.row < 0 := by
      rw [hcur]
      exact not_lt.mpr (Int.natCast_nonneg _)
    have h1 : s.skipToCompress.curToCompress.row.toNat = e.1 := by rw [hcur]; rfl
    have h2 : s.skipToCompress.curToCompress.col.toNat = e.2 := by rw [hcur]; rfl
    rw [mzcacheCompressChunks]
    dsimp only
    rw [if_neg hrow, h1, h2]

/-- What survives moving the compress cursor and compressing one chunk survives
`mzcache_compress_chunks`, for as many chunks as are left. -/
theorem Ladder.compressChunks_rule {P : KvState → Prop}
    (hslide : ∀ t cur, P t →
      KvState.compBeyond cfg { t with curToCompress := cur } = t.compBeyond cfg →
      P { t with curToCompress := cur })
    (hone : ∀ t (e : Cell), Ladder cfg t → P t → e ∈ t.compCells cfg → e ∉ t.compBeyond cfg →
      t.curToCompress = .at e → P (compressAt cfg e.1 e.2 t)) :
    ∀ (n : Nat) (s : KvState), Ladder cfg s → P s →
      (n : Int) ≤ s.maxCompChunks - s.nCurCompChunks →
      P (mzcacheCompressChunks cfg n s).1 ∧
      ∃ new : List Cell, new.length = n ∧
        Moved cfg s (mzcacheCompressChunks cfg n s).1 (new ++ s.compBeyond cfg)
          (s.storeBeyond cfg) := by
  intro n
  induction n with
  | zero =>
      intro s h hP _
      exact ⟨hP, [], rfl, h.stay rfl⟩
  | succ n ih =>
      intro s h hP hn
      obtain ⟨e, he, hnew, hskip, hlad, hmoved, heq⟩ := h.compress_succ (by omega)
      rw [heq n]
      have hP' : P (compressAt cfg e.1 e.2 s.skipToCompress) := by
        have hcells : s.skipToCompress.compCells cfg = s.compCells cfg := by rw [hskip]; rfl
        have hPs : P s.skipToCompress := by
          obtain ⟨e', _, hskip', hm⟩ := h.skipToCompress (by omega)
          rw [hskip']
          rw [hskip'] at hm
          exact hslide s _ hP hm.comp
        refine hone _ e hlad hPs (hcells ▸ he) ?_ (by rw [hskip])
        intro hmem
        have hb := (mem_beyond.mp hmem).2
        rw [show s.skipToCompress.curToCompress = .at e by rw [hskip], Cursor.at_before] at hb
        exact CellLt.irrefl e hb
      have hcount := hmoved.ladder.nComp
      rw [hmoved.comp, List.length_cons] at hcount
      have hmax := hmoved.maxComp h
      have hold := h.nComp
      obtain ⟨hPn, new, hlen, hm⟩ := ih _ hmoved.ladder hP' (by push_cast at *; omega)
      rw [hmoved.comp, hmoved.store] at hm
      refine ⟨hPn, new ++ [e], by simp [hlen], ?_⟩
      rw [List.append_assoc]
      exact hmoved.trans hm

/-- `mzcache_compress_chunks` pushes the chunks asked for. -/
theorem Ladder.compressChunks (n : Nat) (h : Ladder cfg s)
    (hn : (n : Int) ≤ s.maxCompChunks - s.nCurCompChunks) :
    ∃ new : List Cell, new.length = n ∧
      Moved cfg s (mzcacheCompressChunks cfg n s).1 (new ++ s.compBeyond cfg)
        (s.storeBeyond cfg) :=
  (compressChunks_rule (P := fun _ => True) (fun _ _ _ _ => trivial)
    (fun _ _ _ _ _ _ _ => trivial) n s h trivial hn).2

/-! ## Storing -/

/-- With chunks left, the guard stops on one of them. -/
theorem Ladder.skipToStore (h : Ladder cfg s) (hleft : s.nCurStoreChunks < s.maxStoreChunks) :
    ∃ e ∈ s.storeCells cfg, (∃ fds, s.skipToStore =
        { s with curToStore := .at e, layerFds := fds }) ∧
      Moved cfg s s.skipToStore (s.compBeyond cfg) (s.storeBeyond cfg) := by
  have hlt : (s.storeBeyond cfg).length < (s.storeCells cfg).length := by
    have h1 := h.nStore
    have h2 := h.length_storeCells
    omega
  obtain ⟨e, he, heq, hpass⟩ := skipDown_spec
    (fun _ _ => (s.numChunksPerTensor : Int) - 1)
    (fun row col _ => rfl) h.shape.le
    (s.curToStore.row + 1).toNat s.curToStore h.storeWf le_rfl
    (Cursor.leaves_of_length_lt hlt)
  have hcur : skipStore s = .at e := heq
  have hreg := mem_cells.mp he
  refine ⟨e, he, ⟨_, by unfold KvState.skipToStore; rw [hcur]⟩, ?_⟩
  have hslide := h.slide_store (Cursor.Wf.at he)
    (by simp only [Cursor.at, Int.toNat_natCast]; omega) hpass
  have hview : s.skipToStore.view =
      ({ s with curToStore := .at e } : KvState).view := by
    unfold KvState.skipToStore KvState.view
    rw [hcur]
  have hstay := hslide.ladder.stay hview
  rw [hslide.comp, hslide.store] at hstay
  exact hslide.trans hstay

/-- Opening touches the descriptors and the call counter only. -/
theorem openToStore_eq (io : Io) (layer : Nat) (s : KvState) :
    ∃ fds tick, (openToStore io layer s).1 = { s with layerFds := fds, tick := tick } := by
  unfold openToStore
  split
  · exact ⟨_, _, rfl⟩
  · split <;> exact ⟨_, _, rfl⟩

theorem openToStore_view (io : Io) (layer : Nat) : (openToStore io layer s).1.view = s.view := by
  obtain ⟨_, _, heq⟩ := openToStore_eq io layer s
  rw [heq]
  rfl

theorem openToStore_opened (io : Io) (layer : Nat) (s : KvState) (hio : ∀ t, (io .storeOpen t).opened) :
    (openToStore io layer s).2 = true := by
  unfold openToStore
  split
  · rfl
  · rw [if_pos (hio _)]

theorem storeAt_view (cfg : Config) (io : Io) (e : Cell) (hcur : s.curToStore = .at e) :
    (storeAt cfg io e.1 e.2 s).view = { s.view with
      curToStore := ⟨e.1, (e.2 : Int) - 1⟩
      nCurStoreChunks := s.nCurStoreChunks + 1
      states := Table.set s.states e.1 e.2 .stored } := by
  unfold KvState.view storeAt
  simp only [hcur, Cursor.at]

/-- One iteration of the store loop up to the open: the cursor stands on a chunk. -/
theorem Ladder.store_succ (io : Io) (h : Ladder cfg s)
    (hleft : s.nCurStoreChunks < s.maxStoreChunks) :
    ∃ e ∈ s.storeCells cfg, ∃ t, t = (openToStore io e.1 s.skipToStore).1 ∧
      t.curToStore = .at e ∧
      Moved cfg s t (s.compBeyond cfg) (s.storeBeyond cfg) ∧
      ∀ n, mzcacheStoreChunks cfg io (n + 1) s =
        if (openToStore io e.1 s.skipToStore).2 then
          mzcacheStoreChunks cfg io n (storeAt cfg io e.1 e.2 t)
        else t := by
  obtain ⟨e, he, ⟨fds, hskip⟩, hmoved⟩ := h.skipToStore hleft
  have hcur : s.skipToStore.curToStore = .at e := by rw [hskip]
  have hview := openToStore_view io e.1 (s := s.skipToStore)
  have hstay := hmoved.ladder.stay hview
  rw [hmoved.comp, hmoved.store] at hstay
  refine ⟨e, he, _, rfl, ?_, hmoved.trans hstay, ?_⟩
  · have := congrArg LadderView.curToStore hview
    exact this.trans hcur
  · intro n
    have hrow : ¬ s.skipToStore.curToStore.row < 0 := by
      rw [hcur]
      exact not_lt.mpr (Int.natCast_nonneg _)
    have h1 : s.skipToStore.curToStore.row.toNat = e.1 := by rw [hcur]; rfl
    have h2 : s.skipToStore.curToStore.col.toNat = e.2 := by rw [hcur]; rfl
    rw [mzcacheStoreChunks]
    dsimp only
    rw [if_neg hrow, h1, h2]

/-- What survives moving the store cursor, opening or closing files and storing one
chunk survives `mzcache_store_chunks`. The call stores at most the chunks asked for,
and all of them when every file can be opened. -/
theorem Ladder.storeChunks_rule {P : KvState → Prop} (io : Io)
    (hslide : ∀ t cur fds tick, P t →
      KvState.storeBeyond cfg { t with curToStore := cur } = t.storeBeyond cfg →
      P { t with curToStore := cur, layerFds := fds, tick := tick })
    (hone : ∀ t (e : Cell), Ladder cfg t → P t → e ∈ t.storeCells cfg → e ∉ t.storeBeyond cfg →
      t.curToStore = .at e → P (storeAt cfg io e.1 e.2 t)) :
    ∀ (n : Nat) (s : KvState), Ladder cfg s → P s →
      (n : Int) ≤ s.maxStoreChunks - s.nCurStoreChunks →
      P (mzcacheStoreChunks cfg io n s) ∧
      ∃ new : List Cell, new.length ≤ n ∧ ((∀ t, (io .storeOpen t).opened) → new.length = n) ∧
        Moved cfg s (mzcacheStoreChunks cfg io n s) (s.compBeyond cfg)
          (new ++ s.storeBeyond cfg) := by
  intro n
  induction n with
  | zero =>
      intro s h hP _
      exact ⟨hP, [], le_rfl, fun _ => rfl, h.stay rfl⟩
  | succ n ih =>
      intro s h hP hn
      obtain ⟨e, he, t, ht, hcur, hmoved, heq⟩ := h.store_succ io (by omega)
      have hPt : P t := by
        obtain ⟨fds, tick, hopen⟩ := openToStore_eq io e.1 s.skipToStore
        rw [ht, hopen]
        refine hslide s _ fds tick hP ?_
        obtain ⟨_, _, _, hm⟩ := h.skipToStore (by omega)
        exact hm.store
      rw [heq n]
      split
      · have hcells : e ∈ t.storeCells cfg := by
          unfold KvState.storeCells
          rw [hmoved.bound h, hmoved.chunks]
          exact he
        have hnew : e ∉ t.storeBeyond cfg := by
          intro hmem
          have hb := (mem_beyond.mp hmem).2
          rw [hcur, Cursor.at_before] at hb
          exact CellLt.irrefl e hb
        have hpush := hmoved.ladder.push_store hcells hcur (storeAt_view cfg io e hcur)
        rw [hmoved.comp, hmoved.store] at hpush
        have hstep := hmoved.trans hpush
        have hcount := hpush.ladder.nStore
        rw [hpush.store, List.length_cons] at hcount
        have hmax := hstep.maxStore h
        have hold := h.nStore
        obtain ⟨hPn, new, hle, hlen, hm⟩ := ih _ hpush.ladder
          (hone t e hmoved.ladder hPt hcells hnew hcur) (by push_cast at *; omega)
        rw [hpush.comp, hpush.store] at hm
        refine ⟨hPn, new ++ [e], by simpa using hle, fun hio => by simp [hlen hio], ?_⟩
        rw [List.append_assoc]
        exact hstep.trans hm
      · rename_i hfail
        refine ⟨hPt, [], Nat.zero_le _, ?_, hmoved⟩
        intro hio
        exact absurd (openToStore_opened io e.1 s.skipToStore hio) hfail

/-- `mzcache_store_chunks` pushes at most the chunks asked for. -/
theorem Ladder.storeChunks (io : Io) (n : Nat) (h : Ladder cfg s)
    (hn : (n : Int) ≤ s.maxStoreChunks - s.nCurStoreChunks) :
    ∃ new : List Cell, new.length ≤ n ∧ ((∀ t, (io .storeOpen t).opened) → new.length = n) ∧
      Moved cfg s (mzcacheStoreChunks cfg io n s) (s.compBeyond cfg)
        (new ++ s.storeBeyond cfg) :=
  (storeChunks_rule (P := fun _ => True) io (fun _ _ _ _ _ _ => trivial)
    (fun _ _ _ _ _ _ _ => trivial) n s h trivial hn).2

end

end MzCache
