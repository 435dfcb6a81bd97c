import MzCache.Kv.LadderRestore

/-!
# Restoring in several calls

The variants of a restore that hand the same chunks to the pool in several calls:
`mzcache_enqueue_kv_alloc_only`, `mzcache_wait_for_kv` and
`mzcache_enqueue_kv_decomp_read_only` together, `mzcache_enqueue_load_chunks` and
`mzcache_enqueue_decomp_chunks` together, and `mzcache_load_chunks_profile`. Each walks
the cursors again, some of them on local copies. `compWalk` and `storeWalk` are these
walks on a cursor alone.
-/

namespace MzCache

open MzCache.Lib

/-! ## Walks on local cursors -/

/-- Where a walk on local copies stopped, the chunks it visited, and whether it took its
"too many chunks" branch. -/
structure LocalWalk where
  cur : Cursor
  cells : List Cell
  overrun : Bool

/-- The walk over the compress regions. -/
def compWalk (numLayers : Nat) (bound : Nat → Nat) : Nat → Cursor → LocalWalk
  | 0, cur => ⟨cur, [], false⟩
  | numChunks + 1, cur =>
      let next := stepUp (fun _ => 0) bound cur
      if cur.col + 1 ≥ bound cur.row.toNat ∧ cur.row + 1 ≥ numLayers then ⟨next, [], true⟩
      else
        let w := compWalk numLayers bound numChunks next
        { w with cells := (next.row.toNat, next.col.toNat) :: w.cells }

/-- The walk over the store regions. `enter` is the chunk at which it starts a layer. -/
def storeWalk (numLayers n : Nat) (enter : Nat → Nat) : Nat → Cursor → LocalWalk
  | 0, cur => ⟨cur, [], false⟩
  | numChunks + 1, cur =>
      if cur.col + 1 = n then
        if cur.row + 1 ≥ numLayers then ⟨⟨cur.row + 1, cur.col + 1⟩, [], true⟩
        else
          let layer := (cur.row + 1).toNat
          let w := storeWalk numLayers n enter numChunks ⟨cur.row + 1, enter layer⟩
          { w with cells := (layer, enter layer) :: w.cells }
      else
        let next : Cursor := ⟨cur.row, cur.col + 1⟩
        let w := storeWalk numLayers n enter numChunks next
        { w with cells := (next.row.toNat, next.col.toNat) :: w.cells }

/-- The compress walk from a state's cursor. -/
def KvState.compWalk (cfg : Config) (s : KvState) (numChunks : Nat) : LocalWalk :=
  MzCache.compWalk cfg.numLayers s.chunkBound numChunks s.curToCompress

/-- The store walk from a state's cursor. -/
def KvState.storeWalk (cfg : Config) (s : KvState) (numChunks : Nat) : LocalWalk :=
  MzCache.storeWalk cfg.numLayers s.numChunksPerTensor s.chunkBound numChunks s.curToStore

/-! ## Allocation first -/

/-- What `mzcache_wait_for_kv` waits for; the flag is its result. -/
def mzcacheWaitForKv (cfg : Config) (decompNumChunks loadNumChunks : Nat) (s : KvState) :
    List Cell × Bool :=
  let d := s.compWalk cfg decompNumChunks
  if d.overrun then (d.cells, false)
  else
    let l := s.storeWalk cfg loadNumChunks
    (d.cells ++ l.cells, !l.overrun)

/-- The ALLOC tasks of `mzcache_enqueue_kv_alloc_only`, what it waits for, and its result. -/
structure AllocOnly where
  alloc : List Cell
  waits : List Cell
  ok : Bool

/-- `mzcache_enqueue_kv_alloc_only`. Its second half is the body of `mzcache_wait_for_kv`. -/
def mzcacheEnqueueKvAllocOnly (cfg : Config) (decompNumChunks loadNumChunks : Nat)
    (s : KvState) : AllocOnly :=
  let d := s.compWalk cfg decompNumChunks
  if d.overrun then ⟨d.cells, [], false⟩
  else
    let l := s.storeWalk cfg loadNumChunks
    if l.overrun then ⟨d.cells ++ l.cells, [], false⟩
    else
      let w := mzcacheWaitForKv cfg decompNumChunks loadNumChunks s
      ⟨d.cells ++ l.cells, w.1, w.2⟩

/-- `mzcache_enqueue_kv_decomp_read_only`; `none` when a file cannot be opened. It returns
`false` exactly by its decompress branch. -/
def mzcacheEnqueueKvDecompReadOnly (cfg : Config) (io : Io)
    (decompNumChunks loadNumChunks : Nat) (s : KvState) : Option Enqueued :=
  let d := decompWalk cfg decompNumChunks s
  if d.overrun then some ⟨d.state, [], d.cells, false, true⟩
  else
    (openFirstToRead io d.state).bind fun s1 =>
      (loadWalk cfg io loadNumChunks s1).map fun l =>
        ⟨l.state, l.cells, d.cells, l.overrun, false⟩

/-! ## One kind at a time -/

/-- `mzcache_enqueue_load_chunks`: an ALLOC and a READ task for every chunk; `none` when a
file cannot be opened. -/
def mzcacheEnqueueLoadChunks (cfg : Config) (io : Io) (loadNumChunks : Nat) (s : KvState) :
    Option Walk :=
  (openFirstToRead io s).bind (loadWalk cfg io loadNumChunks)

/-- `mzcache_enqueue_decomp_chunks`: an ALLOC and a DECOMP task for every chunk. -/
def mzcacheEnqueueDecompChunks (cfg : Config) (decompNumChunks : Nat) (s : KvState) : Walk :=
  decompWalk cfg decompNumChunks s

/-! ## Whole restores -/

/-- The tasks of a restore, by pool group. -/
structure RestoreTasks where
  alloc : List Cell
  read : List Cell
  decomp : List Cell

/-- The same multiset of tasks in every group. -/
structure RestoreTasks.Same (t u : RestoreTasks) : Prop where
  alloc : t.alloc.Perm u.alloc
  read : t.read.Perm u.read
  decomp : t.decomp.Perm u.decomp

/-- The tasks of `mzcache_enqueue_decomp_load_chunks`. -/
def Enqueued.tasks (e : Enqueued) : RestoreTasks := ⟨e.read ++ e.decomp, e.read, e.decomp⟩

/-- `mzcache_enqueue_kv_alloc_only` and `mzcache_enqueue_kv_decomp_read_only`, which does not
look at what the ALLOC tasks change. -/
def allocThenRestore (cfg : Config) (io : Io) (decompNumChunks loadNumChunks : Nat)
    (s : KvState) : Option (RestoreTasks × KvState) :=
  let a := mzcacheEnqueueKvAllocOnly cfg decompNumChunks loadNumChunks s
  (mzcacheEnqueueKvDecompReadOnly cfg io decompNumChunks loadNumChunks s).map fun e =>
    (⟨a.alloc, e.read, e.decomp⟩, e.state)

/-- `mzcache_enqueue_load_chunks` and `mzcache_enqueue_decomp_chunks`. -/
def loadThenDecomp (cfg : Config) (io : Io) (decompNumChunks loadNumChunks : Nat)
    (s : KvState) : Option (RestoreTasks × KvState) :=
  (mzcacheEnqueueLoadChunks cfg io loadNumChunks s).map fun l =>
    let d := mzcacheEnqueueDecompChunks cfg decompNumChunks l.state
    (⟨l.cells ++ d.cells, l.cells, d.cells⟩, d.state)

/-! ## Profiled load -/

/-- The first walk of `mzcache_load_chunks_profile`. It takes the bound of the layer it
leaves: `chunk_bound[tmp_layer]` is read before `tmp_layer++`. -/
def KvState.profileWalk (cfg : Config) (s : KvState) (numChunks : Nat) : LocalWalk :=
  MzCache.storeWalk cfg.numLayers s.numChunksPerTensor (fun layer => s.chunkBound (layer - 1))
    numChunks s.curToStore

/-- The ALLOC and READ tasks of `mzcache_load_chunks_profile`, and the state its walks leave
to `clean_after_read`. -/
structure ProfiledLoad where
  alloc : List Cell
  read : List Cell
  state : KvState

/-- `mzcache_load_chunks_profile` up to the end of its second walk; `none` when a file cannot
be opened. The "too many chunks" branch of the first walk returns with nothing read. -/
def mzcacheLoadChunksProfile (cfg : Config) (io : Io) (numChunks : Nat) (s : KvState) :
    Option ProfiledLoad :=
  let a := s.profileWalk cfg numChunks
  if a.overrun then some ⟨a.cells, [], s⟩
  else
    (openFirstToRead io s).bind fun s1 =>
      (loadWalk cfg io numChunks s1).map fun w => ⟨a.cells, w.cells, w.state⟩

section

variable {cfg : Config} {io : Io} {s : KvState}

/-! ## The walks of the restore are these walks -/

theorem decompWalk_eq (m : Nat) : ∀ s : KvState,
    decompWalk cfg m s = ⟨{ s with curToCompress := (s.compWalk cfg m).cur },
      (s.compWalk cfg m).cells, (s.compWalk cfg m).overrun⟩ := by
  unfold KvState.compWalk
  induction m with
  | zero => intro s; rfl
  | succ m ih =>
      intro s
      rw [decompWalk, compWalk]
      dsimp only
      split
      · rfl
      · rw [ih]

/-- The load walk as far as the cursor and the chunks go. -/
theorem loadWalk_eq (m : Nat) : ∀ (s : KvState) {w : Walk}, loadWalk cfg io m s = some w →
    w.cells = (s.storeWalk cfg m).cells ∧ w.overrun = (s.storeWalk cfg m).overrun ∧
      w.state.curToStore = (s.storeWalk cfg m).cur := by
  unfold KvState.storeWalk
  induction m with
  | zero =>
      intro s w hw
      rw [loadWalk, Option.some.injEq] at hw
      subst hw
      exact ⟨rfl, rfl, rfl⟩
  | succ m ih =>
      intro s w hw
      rw [loadWalk] at hw
      rw [storeWalk]
      dsimp only at hw ⊢
      by_cases hcol : s.curToStore.col + 1 = s.numChunksPerTensor
      · rw [if_pos hcol] at hw ⊢
        by_cases hrow : s.curToStore.row + 1 ≥ cfg.numLayers
        · rw [if_pos hrow, Option.some.injEq] at hw
          rw [if_pos hrow, ← hw]
          exact ⟨rfl, rfl, rfl⟩
        · rw [if_neg hrow, Option.bind_eq_some_iff] at hw
          rw [if_neg hrow]
          obtain ⟨t, hopen, hw⟩ := hw
          obtain ⟨fds, tick, rfl⟩ := openToRead_eq io _ _ hopen
          rw [Option.map_eq_some_iff] at hw
          obtain ⟨w', hw', rfl⟩ := hw
          obtain ⟨h1, h2, h3⟩ := ih _ hw'
          exact ⟨congrArg (List.cons _) h1, h2, h3⟩
      · rw [if_neg hcol, Option.map_eq_some_iff] at hw
        rw [if_neg hcol]
        obtain ⟨w', hw', rfl⟩ := hw
        obtain ⟨h1, h2, h3⟩ := ih _ hw'
        exact ⟨congrArg (List.cons _) h1, h2, h3⟩

/-- The load walk keeps what the compress walk reads. -/
theorem loadWalk_keeps (m : Nat) : ∀ (s : KvState) {w : Walk}, loadWalk cfg io m s = some w →
    w.state.curToCompress = s.curToCompress ∧ w.state.chunkBound = s.chunkBound := by
  induction m with
  | zero =>
      intro s w hw
      rw [loadWalk, Option.some.injEq] at hw
      subst hw
      exact ⟨rfl, rfl⟩
  | succ m ih =>
      intro s w hw
      rw [loadWalk] at hw
      dsimp only at hw
      split at hw
      · split at hw
        · rw [Option.some.injEq] at hw
          subst hw
          exact ⟨rfl, rfl⟩
        · rw [Option.bind_eq_some_iff] at hw
          obtain ⟨t, hopen, hw⟩ := hw
          obtain ⟨fds, tick, rfl⟩ := openToRead_eq io _ _ hopen
          rw [Option.map_eq_some_iff] at hw
          obtain ⟨w', hw', rfl⟩ := hw
          obtain ⟨h1, h2⟩ := ih _ hw'
          exact ⟨h1, h2⟩
      · rw [Option.map_eq_some_iff] at hw
        obtain ⟨w', hw', rfl⟩ := hw
        obtain ⟨h1, h2⟩ := ih _ hw'
        exact ⟨h1, h2⟩

/-- Opening a file does not look at the compress cursor. -/
theorem openToRead_comp (layer : Nat) (s : KvState) (cur : Cursor) :
    openToRead io layer { s with curToCompress := cur } =
      (openToRead io layer s).map fun t => { t with curToCompress := cur } := by
  unfold openToRead
  dsimp only
  split
  · rfl
  · split
    · rfl
    · rfl

theorem openFirstToRead_comp (s : KvState) (cur : Cursor) :
    openFirstToRead io { s with curToCompress := cur } =
      (openFirstToRead io s).map fun t => { t with curToCompress := cur } := by
  unfold openFirstToRead
  dsimp only
  split
  · split
    · rfl
    · rfl
  · rfl

/-- Neither does the load walk. -/
theorem loadWalk_comp (cur : Cursor) (m : Nat) : ∀ s : KvState,
    loadWalk cfg io m { s with curToCompress := cur } =
      (loadWalk cfg io m s).map fun w =>
        { w with state := { w.state with curToCompress := cur } } := by
  induction m with
  | zero => intro s; rfl
  | succ m ih =>
      intro s
      rw [loadWalk, loadWalk]
      dsimp only
      split
      · split
        · rfl
        · have hopen := @openToRead_comp io (s.curToStore.row + 1).toNat
            { s with curToStore := ⟨s.curToStore.row + 1,
              s.chunkBound (s.curToStore.row + 1).toNat⟩ } cur
          rw [hopen]
          cases openToRead io (s.curToStore.row + 1).toNat
            { s with curToStore := ⟨s.curToStore.row + 1,
              s.chunkBound (s.curToStore.row + 1).toNat⟩ } with
          | none => rfl
          | some t =>
              show Option.map _ (loadWalk cfg io m { t with curToCompress := cur }) = _
              rw [ih t, Option.map_map]
              show _ = Option.map _ (Option.map _ _)
              rw [Option.map_map]
              rfl
      · have hrest := ih { s with curToStore := ⟨s.curToStore.row, s.curToStore.col + 1⟩ }
        dsimp only at hrest
        rw [hrest, Option.map_map, Option.map_map]
        rfl

/-! ## On a ladder -/

/-- On a ladder the compress walk takes the next chunks and does not overrun. -/
theorem Ladder.compWalk (h : Ladder cfg s) {d : Nat} (hd : d ≤ (s.compBeyond cfg).length) :
    (s.compWalk cfg d).cells = (s.compBeyond cfg).take d ∧
      (s.compWalk cfg d).overrun = false := by
  obtain ⟨cur, heq, -, -⟩ := @decompWalk_spec cfg s h.shape d s.curToCompress h.compWf hd
  have hwalk := @decompWalk_eq cfg d s
  rw [show decompWalk cfg d s = _ from heq, Walk.mk.injEq] at hwalk
  exact ⟨hwalk.2.1.symm, hwalk.2.2.symm⟩

/-- So does the store walk. -/
theorem Ladder.storeWalk (h : Ladder cfg s) {k : Nat} (hk : k ≤ (s.storeBeyond cfg).length) :
    (s.storeWalk cfg k).cells = (s.storeBeyond cfg).take k ∧
      (s.storeWalk cfg k).overrun = false := by
  obtain ⟨w, hw⟩ := Option.isSome_iff_exists.mp
    (@loadWalk_isSome cfg .ok (fun _ => rfl) k s)
  obtain ⟨h1, h2, -⟩ := loadWalk_eq k s hw
  obtain ⟨cur, fds, tick, rfl, -⟩ := loadWalk_spec .ok h.shape k s.curToStore s.layerFds s.tick w
    h.storeWf h.storeRow hk hw
  exact ⟨h1.symm, h2.symm⟩

/-- What `mzcache_enqueue_kv_alloc_only` allocates and both of its waits wait for. -/
theorem Ladder.allocOnly (h : Ladder cfg s) {d k : Nat} (hd : d ≤ (s.compBeyond cfg).length)
    (hk : k ≤ (s.storeBeyond cfg).length) :
    mzcacheWaitForKv cfg d k s =
        ((s.compBeyond cfg).take d ++ (s.storeBeyond cfg).take k, true) ∧
      mzcacheEnqueueKvAllocOnly cfg d k s =
        ⟨(s.compBeyond cfg).take d ++ (s.storeBeyond cfg).take k,
          (s.compBeyond cfg).take d ++ (s.storeBeyond cfg).take k, true⟩ := by
  obtain ⟨hc1, hc2⟩ := h.compWalk hd
  obtain ⟨hs1, hs2⟩ := h.storeWalk hk
  have hwait : mzcacheWaitForKv cfg d k s =
      ((s.compBeyond cfg).take d ++ (s.storeBeyond cfg).take k, true) := by
    unfold mzcacheWaitForKv
    dsimp only
    rw [if_neg (by rw [hc2]; simp), hc1, hs1, hs2]
    rfl
  refine ⟨hwait, ?_⟩
  unfold mzcacheEnqueueKvAllocOnly
  dsimp only
  rw [if_neg (by rw [hc2]; simp), if_neg (by rw [hs2]; simp), hwait, hc1, hs1]

/-- Decompressing first or loading first, the calls leave one state. -/
theorem Ladder.decompReadOnly (h : Ladder cfg s) (io : Io) {d : Nat} (k : Nat)
    (hd : d ≤ (s.compBeyond cfg).length) :
    mzcacheEnqueueKvDecompReadOnly cfg io d k s =
      mzcacheEnqueueDecompLoadChunks cfg io d k s := by
  have hover := (h.compWalk hd).2
  unfold mzcacheEnqueueKvDecompReadOnly mzcacheEnqueueDecompLoadChunks
  rw [decompWalk_eq]
  dsimp only
  rw [if_neg (by rw [hover]; simp), openFirstToRead_comp, Option.bind_map]
  cases hopen : openFirstToRead io s with
  | none => rfl
  | some t =>
      obtain ⟨fds, tick, rfl⟩ := openFirstToRead_eq io s hopen
      show Option.map _ (loadWalk cfg io k { s.withStore s.curToStore fds tick with
        curToCompress := (s.compWalk cfg d).cur }) = Option.map _ (loadWalk cfg io k _)
      rw [loadWalk_comp, Option.map_map]
      cases hw : loadWalk cfg io k (s.withStore s.curToStore fds tick) with
      | none => rfl
      | some w =>
          have hwalk := @decompWalk_eq cfg d w.state
          have hsame : w.state.compWalk cfg d = s.compWalk cfg d := by
            obtain ⟨hcomp, hbound⟩ := loadWalk_keeps k _ hw
            unfold KvState.compWalk
            rw [hcomp, hbound]
            rfl
          show some _ = some _
          dsimp only [Function.comp]
          rw [hwalk, hsame, hover]

end

end MzCache
