import MzCache.Kv.ProfiledLoad
import MzCache.Lib.TSys

/-!
# Any sequence of cursor calls

`mzcache_compress_chunks`, `mzcache_decompress_chunks`, `mzcache_store_chunks` and
`mzcache_load_chunks` called in any order for any number of chunks, with the array indices
they use. A run carries next to the state the chunks that were evicted and not restored
yet, most recently evicted first.

Asking for more chunks than remain takes a cursor off the plan: below the first layer on
the way down, past the last one on the way up. `CompAt` and `StoreAt` say where a cursor can
be, and `ChunkCall.Meets` is what a call may assume of it.
-/

namespace MzCache

open MzCache.Lib

/-! ## Accesses -/

/-- An array access: an array indexed by layer, or a chunk array of a layer. -/
inductive Access where
  | layer (layer : Int)
  | chunk (layer chunk : Int)
deriving DecidableEq, Repr

/-- The indices are those of a layer, and of a chunk. -/
def Access.InRange (numLayers n : Nat) : Access → Prop
  | .layer l => 0 ≤ l ∧ l < numLayers
  | .chunk l c => (0 ≤ l ∧ l < numLayers) ∧ 0 ≤ c ∧ c < n

instance (numLayers n : Nat) : DecidablePred (Access.InRange numLayers n) := fun a => by
  cases a <;> unfold Access.InRange <;> infer_instance

/-- The chunk that an access is to. -/
def Access.cell? : Access → Option Cell
  | .layer _ => none
  | .chunk l c => some (l.toNat, c.toNat)

/-- The chunks visited, in order. -/
def visited (l : List Access) : List Cell := l.filterMap Access.cell?

/-- The reads of `chunk_bound` in the guard of `mzcache_compress_chunks`: that of each layer
gone down to. -/
def compressSkipReads (bound : Nat → Nat) : Nat → Cursor → List Access
  | 0, _ => []
  | fuel + 1, cur =>
      if 0 ≤ cur.row ∧ cur.col < 0 then
        let row := cur.row - 1
        (if 0 ≤ row then [.layer row] else []) ++
          compressSkipReads bound fuel
            ⟨row, if 0 ≤ row then (bound row.toNat : Int) - 1 else cur.col⟩
      else []

/-- The reads of `chunk_bound` in the guard of `mzcache_store_chunks`: one for each test of
a layer. -/
def storeSkipReads (bound : Nat → Nat) (n : Nat) : Nat → Cursor → List Access
  | 0, _ => []
  | fuel + 1, cur =>
      if 0 ≤ cur.row then
        .layer cur.row ::
          if cur.col < bound cur.row.toNat then
            storeSkipReads bound n fuel ⟨cur.row - 1, (n : Int) - 1⟩
          else []
      else []

/-- The accesses of `mzcache_compress_chunks`. -/
def compressAccesses (cfg : Config) : Nat → KvState → List Access
  | 0, _ => []
  | numChunks + 1, s =>
      compressSkipReads s.chunkBound (s.curToCompress.row + 1).toNat s.curToCompress ++
        let s := s.skipToCompress
        let cur := s.curToCompress
        if cur.row < 0 then []
        else
          .chunk cur.row cur.col ::
            compressAccesses cfg numChunks (compressAt cfg cur.row.toNat cur.col.toNat s)

/-- The accesses of `mzcache_store_chunks`; `layer_fds` is read before the file is opened. -/
def storeAccesses (cfg : Config) (io : Io) : Nat → KvState → List Access
  | 0, _ => []
  | numChunks + 1, s =>
      storeSkipReads s.chunkBound s.numChunksPerTensor (s.curToStore.row + 1).toNat
          s.curToStore ++
        let s := s.skipToStore
        let cur := s.curToStore
        if cur.row < 0 then []
        else
          let opened := openToStore io cur.row.toNat s
          .layer cur.row ::
            if opened.2 then
              .chunk cur.row cur.col ::
                storeAccesses cfg io numChunks
                  (storeAt cfg io cur.row.toNat cur.col.toNat opened.1)
            else []

/-- The accesses of `mzcache_decompress_chunks` from a cursor: `chunk_bound` of its layer,
then the next chunk. -/
def decompressAccesses (numLayers : Nat) (bound : Nat → Nat) : Nat → Cursor → List Access
  | 0, _ => []
  | numChunks + 1, cur =>
      .layer cur.row ::
        let next := stepUp (fun _ => 0) bound cur
        if cur.col + 1 ≥ bound cur.row.toNat ∧ cur.row + 1 ≥ numLayers then []
        else .chunk next.row next.col :: decompressAccesses numLayers bound numChunks next

/-- The accesses in the loop of `mzcache_load_chunks`: on entering a layer `chunk_bound` and
`layer_fds`, and the next chunk. -/
def loadLoopAccesses (cfg : Config) (io : Io) : Nat → KvState → List Access
  | 0, _ => []
  | numChunks + 1, s =>
      let cur := s.curToStore
      if cur.col + 1 = s.numChunksPerTensor then
        if cur.row + 1 ≥ cfg.numLayers then []
        else
          let layer := (cur.row + 1).toNat
          let next : Cursor := ⟨cur.row + 1, s.chunkBound layer⟩
          .layer next.row ::
            match openToRead io layer { s with curToStore := next } with
            | none => []
            | some s' => .chunk next.row next.col :: loadLoopAccesses cfg io numChunks s'
      else
        let next : Cursor := ⟨cur.row, cur.col + 1⟩
        .chunk next.row next.col ::
          loadLoopAccesses cfg io numChunks { s with curToStore := next }

/-- The accesses of `mzcache_load_chunks`. -/
def loadAccesses (cfg : Config) (io : Io) (numChunks : Nat) (s : KvState) : List Access :=
  (if s.curToStore.col < (s.numChunksPerTensor : Int) - 1 then [.layer s.curToStore.row]
    else []) ++
    match openFirstToRead io s with
    | none => []
    | some s1 => loadLoopAccesses cfg io numChunks s1

/-! ## Calls and runs -/

inductive ChunkCall where
  | compress (n : Nat)
  | decompress (n : Nat)
  | store (n : Nat)
  | load (n : Nat)
deriving DecidableEq, Repr

/-- The accesses of a call. -/
def ChunkCall.accesses (cfg : Config) (io : Io) (s : KvState) : ChunkCall → List Access
  | .compress n => compressAccesses cfg n s
  | .decompress n => decompressAccesses cfg.numLayers s.chunkBound n s.curToCompress
  | .store n => storeAccesses cfg io n s
  | .load n => loadAccesses cfg io n s

/-- The state of a run: the chunks compressed, and the chunks stored, that were not restored
since, most recently evicted first. -/
structure CursorRun where
  kv : KvState
  comp : List Cell
  store : List Cell

/-- The run after a call; `none` when a load throws. -/
def ChunkCall.run (cfg : Config) (io : Io) (r : CursorRun) (call : ChunkCall) :
    Option CursorRun :=
  let cells := visited (call.accesses cfg io r.kv)
  match call with
  | .compress n =>
      some { r with kv := (mzcacheCompressChunks cfg n r.kv).1, comp := cells.reverse ++ r.comp }
  | .decompress n =>
      some { r with
        kv := mzcacheDecompressChunks cfg n r.kv
        comp := r.comp.filter fun e => decide (e ∉ cells) }
  | .store n =>
      some { r with kv := mzcacheStoreChunks cfg io n r.kv, store := cells.reverse ++ r.store }
  | .load n =>
      (mzcacheLoadChunks cfg io n r.kv).map fun kv =>
        { r with kv := kv, store := r.store.filter fun e => decide (e ∉ cells) }

/-- What a call for at least one chunk assumes of its cursor. -/
def ChunkCall.Meets (cfg : Config) (s : KvState) : ChunkCall → Prop
  | .compress n =>
      n = 0 ∨ (s.curToCompress.row < cfg.numLayers ∧
        (0 ≤ s.curToCompress.row →
          s.curToCompress.col < s.chunkBound s.curToCompress.row.toNat))
  | .decompress n => n = 0 ∨ (0 ≤ s.curToCompress.row ∧ s.curToCompress.row < cfg.numLayers)
  | .store n => n = 0 ∨ s.curToStore.row < cfg.numLayers
  | .load n =>
      n = 0 ∨ (0 ≤ s.curToStore.row ∧ s.curToStore.row < cfg.numLayers) ∨
        (s.curToStore.row = -1 ∧ s.chunkBound 0 < s.numChunksPerTensor)

/-- What is expected of a call: indices in range, and a restore of no more chunks than are
evicted restores those evicted last, the last one first. -/
structure ChunkCall.Safe (cfg : Config) (io : Io) (r : CursorRun) (call : ChunkCall) : Prop where
  inRange : ∀ a ∈ call.accesses cfg io r.kv, a.InRange cfg.numLayers r.kv.numChunksPerTensor
  decompress : ∀ n, call = .decompress n → n ≤ r.comp.length →
    (decompWalk cfg n r.kv).cells = r.comp.take n
  load : ∀ n, call = .load n → n ≤ r.store.length →
    ∀ s w, openFirstToRead io r.kv = some s → loadWalk cfg io n s = some w →
      w.cells = r.store.take n

/-- Runs from a freshly derived plan, by the calls that are allowed. -/
def cursorSystem (cfg : Config) (io : Io) (allowed : KvState → ChunkCall → Prop) :
    TSys CursorRun where
  init r := ∃ s : KvState, s.numChunksPerTensor ≤ cfg.f32.limit ∧
    r = ⟨deriveSwapoutPlan cfg s, [], []⟩
  step r r' := ∃ call : ChunkCall, allowed r.kv call ∧ call.run cfg io r = some r'

/-! ## Where the cursors are -/

/-- Where the compress cursor is and which chunks are compressed: on the plan, below its
first layer, or past the last compressed chunk because more were asked back. -/
inductive CompAt (numLayers n : Nat) (bound : Nat → Nat) (cur : Cursor) (stack : List Cell) : Prop
  | on (hwf : cur.Wf (fun _ => 0) bound numLayers) (hn : 0 < n ∨ cur.row + 1 = numLayers)
      (hstack : stack = beyond (fun _ => 0) bound numLayers cur)
  | out (hrow : cur.row = -1) (hstack : stack = cells (fun _ => 0) bound numLayers)
  | past (hnn : 0 ≤ cur.row) (hle : cur.row ≤ numLayers) (hcol : cur.col = 0)
      (hbound : cur.row < numLayers → bound cur.row.toNat = 0) (hn : 0 < n ∨ numLayers ≤ cur.row)
      (hstack : stack = [])

/-- The same for the store cursor, which leaves the plan only past its last layer. -/
inductive StoreAt (numLayers n : Nat) (bound : Nat → Nat) (cur : Cursor) (stack : List Cell) : Prop
  | on (hwf : cur.Wf bound (fun _ => n) numLayers)
      (hrow : bound cur.row.toNat < n ∨ cur.row + 1 = numLayers)
      (hstack : stack = beyond bound (fun _ => n) numLayers cur)
  | out (hrow : cur.row = -1) (hcol : cur.col = (n : Int) - 1)
      (hstack : stack = cells bound (fun _ => n) numLayers)
  | past (hrow : cur.row = numLayers) (hcol : cur.col = n) (hstack : stack = [])

section

variable {numLayers n : Nat} {bound : Nat → Nat} {cur : Cursor} {stack : List Cell}

/-! ### Going down -/

/-- Skipping stops on a cell when one is left and passes the first row otherwise. -/
theorem skipDown_cases {lo hi : Nat → Nat} (last : Int → Int → Int)
    (hlast : ∀ row col, 0 ≤ row → last row col = (hi row.toNat : Int) - 1)
    (hle : ∀ i, lo i ≤ hi i) (hwf : cur.Wf lo hi numLayers) :
    (∃ e ∈ cells lo hi numLayers, skipDown lo last (cur.row + 1).toNat cur = .at e ∧
      beyond lo hi numLayers cur = beyond lo hi numLayers (.at e)) ∨
    ∃ col, skipDown lo last (cur.row + 1).toNat cur = ⟨-1, last (-1) col⟩ ∧
      beyond lo hi numLayers cur = cells lo hi numLayers := by
  by_cases hleft : cur.Leaves lo hi numLayers
  · obtain ⟨e, he, hskip, hpass⟩ := skipDown_spec last hlast hle _ cur hwf le_rfl hleft
    exact Or.inl ⟨e, he, hskip, beyond_congr hpass⟩
  · obtain ⟨col, hskip⟩ := skipDown_exhausted last hlast hle _ cur hwf le_rfl hleft
    exact Or.inr ⟨col, hskip, beyond_of_not_leaves hleft⟩

theorem compressSkipReads_inRange (fuel : Nat) : ∀ cur : Cursor, cur.row < numLayers →
    ∀ a ∈ compressSkipReads bound fuel cur, a.InRange numLayers n := by
  induction fuel with
  | zero => intro cur _ a ha; exact absurd ha List.not_mem_nil
  | succ fuel ih =>
      intro cur hlt a ha
      rw [compressSkipReads] at ha
      dsimp only at ha
      split at ha
      · rcases List.mem_append.mp ha with ha | ha
        · split at ha
          · rw [List.mem_singleton.mp ha]
            exact ⟨by assumption, by omega⟩
          · exact absurd ha List.not_mem_nil
        · exact ih ⟨cur.row - 1, _⟩ (by dsimp only; omega) a ha
      · exact absurd ha List.not_mem_nil

theorem storeSkipReads_inRange (fuel : Nat) : ∀ cur : Cursor, cur.row < numLayers →
    ∀ a ∈ storeSkipReads bound n fuel cur, a.InRange numLayers n := by
  induction fuel with
  | zero => intro cur _ a ha; exact absurd ha List.not_mem_nil
  | succ fuel ih =>
      intro cur hlt a ha
      rw [storeSkipReads] at ha
      split at ha
      · rename_i hnn
        rcases List.mem_cons.mp ha with rfl | ha
        · exact ⟨hnn, hlt⟩
        · split at ha
          · exact ih ⟨cur.row - 1, _⟩ (by dsimp only; omega) a ha
          · exact absurd ha List.not_mem_nil
      · exact absurd ha List.not_mem_nil

theorem visited_compressSkipReads (fuel : Nat) : ∀ cur : Cursor,
    visited (compressSkipReads bound fuel cur) = [] := by
  induction fuel with
  | zero => intro cur; rfl
  | succ fuel ih =>
      intro cur
      rw [compressSkipReads]
      dsimp only
      split
      · unfold visited at ih ⊢
        rw [List.filterMap_append, ih, List.append_nil]
        split <;> rfl
      · rfl

theorem visited_storeSkipReads (fuel : Nat) : ∀ cur : Cursor,
    visited (storeSkipReads bound n fuel cur) = [] := by
  induction fuel with
  | zero => intro cur; rfl
  | succ fuel ih =>
      intro cur
      rw [storeSkipReads]
      split
      · unfold visited at ih ⊢
        rw [List.filterMap_cons_none rfl]
        split
        · exact ih _
        · rfl
      · rfl

end

/-! ### Compressing -/

section

variable {cfg : Config} {s : KvState} {stack : List Cell}

/-- A cell of the plan is in range. -/
theorem compCell_inRange (hshape : PlanShape cfg.numLayers s.numChunksPerTensor s.chunkBound)
    {e : Cell} (he : e ∈ s.compCells cfg) :
    (Access.chunk e.1 e.2).InRange cfg.numLayers s.numChunksPerTensor := by
  obtain ⟨h1, -, h3⟩ := mem_cells.mp he
  have := hshape.le e.1
  exact ⟨⟨Int.natCast_nonneg _, by omega⟩, Int.natCast_nonneg _, by omega⟩

theorem storeCell_inRange {e : Cell} (he : e ∈ s.storeCells cfg) :
    (Access.chunk e.1 e.2).InRange cfg.numLayers s.numChunksPerTensor := by
  obtain ⟨h1, -, h3⟩ := mem_cells.mp he
  exact ⟨⟨Int.natCast_nonneg _, by omega⟩, Int.natCast_nonneg _, by omega⟩

/-- What a call leaves of the plan, besides its own cursor. -/
structure SamePlan (s t : KvState) : Prop where
  n : t.numChunksPerTensor = s.numChunksPerTensor
  bound : t.chunkBound = s.chunkBound

theorem SamePlan.refl (s : KvState) : SamePlan s s := ⟨rfl, rfl⟩

theorem SamePlan.trans {s t u : KvState} (h : SamePlan s t) (h' : SamePlan t u) : SamePlan s u :=
  ⟨h'.n.trans h.n, h'.bound.trans h.bound⟩

/-- The guard of `mzcache_compress_chunks` stops on a chunk or below the first layer. -/
theorem CompAt.skip
    (h : CompAt cfg.numLayers s.numChunksPerTensor s.chunkBound s.curToCompress stack)
    (hmeets : 0 ≤ s.curToCompress.row →
      s.curToCompress.col < s.chunkBound s.curToCompress.row.toNat)
    (hlt : s.curToCompress.row < cfg.numLayers) :
    (∃ e ∈ s.compCells cfg, s.skipToCompress.curToCompress = .at e ∧
      stack = beyond (fun _ => 0) s.chunkBound cfg.numLayers (.at e)) ∨
    (s.skipToCompress.curToCompress.row = -1 ∧ stack = s.compCells cfg) := by
  cases h with
  | on hwf hn hstack =>
      rcases skipDown_cases (fun row col =>
          if 0 ≤ row then (s.chunkBound row.toNat : Int) - 1 else col)
        (fun row col hrow => if_pos hrow) (fun i => Nat.zero_le _) hwf with
        ⟨e, he, hskip, hbeyond⟩ | ⟨col, hskip, hbeyond⟩
      · exact Or.inl ⟨e, he, hskip, hstack.trans hbeyond⟩
      · exact Or.inr ⟨congrArg Cursor.row hskip, hstack.trans hbeyond⟩
  | out hrow hstack =>
      refine Or.inr ⟨?_, hstack⟩
      unfold KvState.skipToCompress
      dsimp only
      rw [hrow]
      exact hrow
  | past hnn hle hcol hbound hn hstack =>
      have h1 := hmeets hnn
      rw [hcol, hbound hlt] at h1
      exact absurd h1 (by simp)

/-- One iteration of the compress loop. -/
theorem compressChunks_succ (m : Nat) {e : Cell} (hskip : s.skipToCompress.curToCompress = .at e) :
    compressAccesses cfg (m + 1) s =
        compressSkipReads s.chunkBound (s.curToCompress.row + 1).toNat s.curToCompress ++
          .chunk e.1 e.2 :: compressAccesses cfg m (compressAt cfg e.1 e.2 s.skipToCompress) ∧
      (mzcacheCompressChunks cfg (m + 1) s).1 =
        (mzcacheCompressChunks cfg m (compressAt cfg e.1 e.2 s.skipToCompress)).1 := by
  have hrow : ¬ s.skipToCompress.curToCompress.row < 0 := by
    rw [hskip]
    exact not_lt.mpr (Int.natCast_nonneg _)
  rw [compressAccesses, mzcacheCompressChunks]
  dsimp only
  rw [if_neg hrow, if_neg hrow, hskip]
  exact ⟨rfl, rfl⟩

/-- `mzcache_compress_chunks` for any number of chunks. -/
theorem CompAt.compressChunks (m : Nat) : ∀ (s : KvState) (stack : List Cell),
    PlanShape cfg.numLayers s.numChunksPerTensor s.chunkBound →
    CompAt cfg.numLayers s.numChunksPerTensor s.chunkBound s.curToCompress stack →
    (ChunkCall.compress m).Meets cfg s →
    let t := (mzcacheCompressChunks cfg m s).1
    (∀ a ∈ compressAccesses cfg m s, a.InRange cfg.numLayers s.numChunksPerTensor) ∧
    SamePlan s t ∧ t.curToStore = s.curToStore ∧
    CompAt cfg.numLayers s.numChunksPerTensor s.chunkBound t.curToCompress
      ((visited (compressAccesses cfg m s)).reverse ++ stack) := by
  induction m with
  | zero =>
      intro s stack _ h _
      exact ⟨fun a ha => absurd ha List.not_mem_nil, SamePlan.refl s, rfl, h⟩
  | succ m ih =>
      intro s stack hshape h hmeets
      obtain ⟨hlt, hcol⟩ := hmeets.resolve_left (Nat.succ_ne_zero m)
      have hskips := @compressSkipReads_inRange cfg.numLayers s.numChunksPerTensor s.chunkBound
        (s.curToCompress.row + 1).toNat s.curToCompress hlt
      have hvis := @visited_compressSkipReads s.chunkBound
        (s.curToCompress.row + 1).toNat s.curToCompress
      rcases h.skip hcol hlt with ⟨e, he, hskip, hstack⟩ | ⟨hrow, hstack⟩
      · obtain ⟨hacc, hrun⟩ := @compressChunks_succ cfg s m e hskip
        rw [hacc, hrun]
        -- one chunk on top of the stack, then the rest of the call
        set t := compressAt cfg e.1 e.2 s.skipToCompress with ht
        have hcur : t.curToCompress = ⟨e.1, (e.2 : Int) - 1⟩ := by
          show Cursor.mk _ _ = _
          rw [hskip]
          rfl
        have hreg := mem_cells.mp he
        have hn := hshape.le e.1
        have hat : CompAt cfg.numLayers s.numChunksPerTensor s.chunkBound t.curToCompress
            (e :: stack) := by
          rw [hcur]
          refine .on (Cursor.Wf.stepDown he) (Or.inl (by omega)) ?_
          rw [hstack]
          exact (beyond_stepDown he).symm
        have hmeets' : (ChunkCall.compress m).Meets cfg t := by
          refine Or.inr ?_
          rw [hcur]
          refine ⟨by dsimp only; omega, fun _ => ?_⟩
          show (e.2 : Int) - 1 < s.chunkBound (e.1 : Int).toNat
          rw [Int.toNat_natCast]
          omega
        obtain ⟨hin, hsame, hother, hafter⟩ := ih t (e :: stack) hshape hat hmeets'
        refine ⟨?_, ⟨hsame.n, hsame.bound⟩, hother, ?_⟩
        · intro a ha
          rcases List.mem_append.mp ha with ha | ha
          · exact hskips a ha
          · rcases List.mem_cons.mp ha with rfl | ha
            · exact compCell_inRange hshape he
            · exact hin a ha
        · unfold visited at hvis hafter ⊢
          rw [List.filterMap_append, hvis, List.nil_append,
            List.filterMap_cons_some (show Access.cell? (.chunk e.1 e.2) = some e from rfl),
            List.reverse_cons, List.append_assoc]
          exact hafter
      · have hneg : s.skipToCompress.curToCompress.row < 0 := by
          rw [hrow]
          exact neg_one_lt_zero
        rw [compressAccesses, mzcacheCompressChunks]
        dsimp only
        rw [if_pos hneg, if_pos hneg, List.append_nil, hvis]
        exact ⟨hskips, ⟨rfl, rfl⟩, rfl, .out hrow hstack⟩

/-! ### Storing -/

/-- The guard of `mzcache_store_chunks` stops on a chunk or before the first layer. -/
theorem StoreAt.skip
    (h : StoreAt cfg.numLayers s.numChunksPerTensor s.chunkBound s.curToStore stack)
    (hle : ∀ i, s.chunkBound i ≤ s.numChunksPerTensor) (hlt : s.curToStore.row < cfg.numLayers) :
    (∃ e ∈ s.storeCells cfg, s.skipToStore.curToStore = .at e ∧
      stack = beyond s.chunkBound (fun _ => s.numChunksPerTensor) cfg.numLayers (.at e)) ∨
    (s.skipToStore.curToStore = ⟨-1, (s.numChunksPerTensor : Int) - 1⟩ ∧
      stack = s.storeCells cfg) := by
  cases h with
  | on hwf hrow hstack =>
      rcases skipDown_cases (fun _ _ => (s.numChunksPerTensor : Int) - 1)
        (fun row col _ => rfl) hle hwf with
        ⟨e, he, hskip, hbeyond⟩ | ⟨col, hskip, hbeyond⟩
      · exact Or.inl ⟨e, he, hskip, hstack.trans hbeyond⟩
      · exact Or.inr ⟨hskip, hstack.trans hbeyond⟩
  | out hrow hcol hstack =>
      refine Or.inr ⟨?_, hstack⟩
      show skipStore s = _
      unfold skipStore
      rw [hrow]
      show s.curToStore = _
      rw [← hrow, ← hcol]
  | past hrow hcol hstack => exact absurd hrow (ne_of_lt hlt)

/-- One iteration of the store loop. -/
theorem storeChunks_succ (io : Io) (m : Nat) {e : Cell} (hskip : s.skipToStore.curToStore = .at e) :
    let opened := openToStore io e.1 s.skipToStore
    storeAccesses cfg io (m + 1) s =
        storeSkipReads s.chunkBound s.numChunksPerTensor (s.curToStore.row + 1).toNat
            s.curToStore ++
          .layer e.1 ::
            (if opened.2 then
              .chunk e.1 e.2 :: storeAccesses cfg io m (storeAt cfg io e.1 e.2 opened.1)
            else []) ∧
      mzcacheStoreChunks cfg io (m + 1) s =
        if opened.2 then mzcacheStoreChunks cfg io m (storeAt cfg io e.1 e.2 opened.1)
        else opened.1 := by
  have hrow : ¬ s.skipToStore.curToStore.row < 0 := by
    rw [hskip]
    exact not_lt.mpr (Int.natCast_nonneg _)
  rw [storeAccesses, mzcacheStoreChunks]
  dsimp only
  rw [if_neg hrow, if_neg hrow, hskip]
  exact ⟨rfl, rfl⟩

/-- `mzcache_store_chunks` for any number of chunks. -/
theorem StoreAt.storeChunks (io : Io) (m : Nat) : ∀ (s : KvState) (stack : List Cell),
    (∀ i, s.chunkBound i ≤ s.numChunksPerTensor) →
    StoreAt cfg.numLayers s.numChunksPerTensor s.chunkBound s.curToStore stack →
    (ChunkCall.store m).Meets cfg s →
    let t := mzcacheStoreChunks cfg io m s
    (∀ a ∈ storeAccesses cfg io m s, a.InRange cfg.numLayers s.numChunksPerTensor) ∧
    SamePlan s t ∧ t.curToCompress = s.curToCompress ∧
    StoreAt cfg.numLayers s.numChunksPerTensor s.chunkBound t.curToStore
      ((visited (storeAccesses cfg io m s)).reverse ++ stack) := by
  induction m with
  | zero =>
      intro s stack _ h _
      exact ⟨fun a ha => absurd ha List.not_mem_nil, SamePlan.refl s, rfl, h⟩
  | succ m ih =>
      intro s stack hle h hmeets
      have hlt := hmeets.resolve_left (Nat.succ_ne_zero m)
      have hskips := @storeSkipReads_inRange cfg.numLayers s.numChunksPerTensor s.chunkBound
        (s.curToStore.row + 1).toNat s.curToStore hlt
      have hvis := @visited_storeSkipReads s.numChunksPerTensor s.chunkBound
        (s.curToStore.row + 1).toNat s.curToStore
      rcases h.skip hle hlt with ⟨e, he, hskip, hstack⟩ | ⟨hcur, hstack⟩
      · obtain ⟨hacc, hrun⟩ := @storeChunks_succ cfg s io m e hskip
        obtain ⟨fds, tick, hopen⟩ := openToStore_eq io e.1 s.skipToStore
        have hreg := mem_cells.mp he
        rw [hacc, hrun]
        by_cases hopened : (openToStore io e.1 s.skipToStore).2
        · rw [if_pos hopened, if_pos hopened]
          -- one chunk on top of the stack, then the rest of the call
          set t := storeAt cfg io e.1 e.2 (openToStore io e.1 s.skipToStore).1 with ht
          have hcur : t.curToStore = ⟨e.1, (e.2 : Int) - 1⟩ := by
            rw [ht, hopen]
            show Cursor.mk _ _ = _
            rw [hskip]
            rfl
          have hplan : SamePlan s t ∧ t.curToCompress = s.curToCompress := by
            rw [ht, hopen]
            exact ⟨⟨rfl, rfl⟩, rfl⟩
          have hat : StoreAt cfg.numLayers t.numChunksPerTensor t.chunkBound t.curToStore
              (e :: stack) := by
            rw [hplan.1.n, hplan.1.bound, hcur]
            refine .on (Cursor.Wf.stepDown he) (Or.inl ?_) ?_
            · rw [Int.toNat_natCast]
              omega
            · rw [hstack]
              exact (beyond_stepDown he).symm
          have hmeets' : (ChunkCall.store m).Meets cfg t := by
            refine Or.inr ?_
            rw [hcur]
            dsimp only
            omega
          have hle' : ∀ i, t.chunkBound i ≤ t.numChunksPerTensor := by
            rw [hplan.1.n, hplan.1.bound]
            exact hle
          obtain ⟨hin, hsame, hother, hafter⟩ := ih t (e :: stack) hle' hat hmeets'
          rw [hplan.1.n] at hin hafter
          rw [hplan.1.bound] at hafter
          refine ⟨?_, hplan.1.trans hsame, hother.trans hplan.2, ?_⟩
          · intro a ha
            rcases List.mem_append.mp ha with ha | ha
            · exact hskips a ha
            · rcases List.mem_cons.mp ha with rfl | ha
              · exact (storeCell_inRange he).1
              · rcases List.mem_cons.mp ha with rfl | ha
                · exact storeCell_inRange he
                · exact hin a ha
          · unfold visited at hvis hafter ⊢
            rw [List.filterMap_append, hvis, List.nil_append, List.filterMap_cons_none rfl,
              List.filterMap_cons_some (show Access.cell? (.chunk e.1 e.2) = some e from rfl),
              List.reverse_cons, List.append_assoc]
            exact hafter
        · -- the open failed: the cursor stays on the chunk
          rw [if_neg hopened, if_neg hopened, hopen]
          refine ⟨?_, ⟨rfl, rfl⟩, rfl, ?_⟩
          · intro a ha
            rcases List.mem_append.mp ha with ha | ha
            · exact hskips a ha
            · rw [List.mem_singleton.mp ha]
              exact (storeCell_inRange he).1
          · unfold visited at hvis ⊢
            rw [List.filterMap_append, hvis]
            show StoreAt _ _ _ s.skipToStore.curToStore stack
            rw [hskip]
            refine .on (Cursor.Wf.at he) (Or.inl ?_) hstack
            show s.chunkBound (e.1 : Int).toNat < _
            rw [Int.toNat_natCast]
            omega
      · have hneg : s.skipToStore.curToStore.row < 0 := by
          rw [hcur]
          exact neg_one_lt_zero
        rw [storeAccesses, mzcacheStoreChunks]
        dsimp only
        rw [if_pos hneg, if_pos hneg, List.append_nil, hvis]
        refine ⟨hskips, ⟨rfl, rfl⟩, rfl, ?_⟩
        rw [hcur]
        exact .out rfl rfl hstack

end

/-! ### Going up -/

section

variable {numLayers n : Nat} {bound : Nat → Nat} {cur : Cursor} {stack : List Cell}

theorem CompAt.nodup (h : CompAt numLayers n bound cur stack) : stack.Nodup := by
  cases h with
  | on _ _ hstack => exact hstack ▸ nodup_of_sorted beyond_sorted
  | out _ hstack => exact hstack ▸ nodup_of_sorted cells_sorted
  | past _ _ _ _ _ hstack => exact hstack ▸ List.nodup_nil

theorem StoreAt.nodup (h : StoreAt numLayers n bound cur stack) : stack.Nodup := by
  cases h with
  | on _ _ hstack => exact hstack ▸ nodup_of_sorted beyond_sorted
  | out _ _ hstack => exact hstack ▸ nodup_of_sorted cells_sorted
  | past _ _ hstack => exact hstack ▸ List.nodup_nil

/-- With nothing beyond it, a cursor stands at the end of its row, and the later rows are
empty. -/
theorem beyond_nil {lo hi : Nat → Nat} (hwf : cur.Wf lo hi numLayers)
    (hnil : beyond lo hi numLayers cur = []) :
    cur.col + 1 = hi cur.row.toNat ∧ ∀ i < numLayers, cur.row < i → hi i ≤ lo i := by
  have hr := hwf.toNat_row
  have hlt := hwf.lt
  obtain ⟨hon1, hon2⟩ := hwf.onRow cur.row.toNat hr
  have hnot : ∀ e ∈ cells lo hi numLayers, ¬ cur.Before e := by
    intro e he hb
    have hmem := mem_beyond.mpr ⟨he, hb⟩
    rw [hnil] at hmem
    exact absurd hmem List.not_mem_nil
  constructor
  · by_contra hcol
    refine hnot (cur.row.toNat, (cur.col + 1).toNat) ?_ (Or.inr ⟨hr.symm, ?_⟩)
    · exact mem_cells.mpr ⟨by dsimp only; omega, by dsimp only; omega, by dsimp only; omega⟩
    · dsimp only
      omega
  · intro i hi' hrow
    by_contra hopen
    exact hnot (i, lo i) (mem_cells.mpr ⟨hi', le_rfl, by dsimp only; omega⟩) (Or.inl hrow)

end

section

variable {cfg : Config} {n : Nat} {bound : Nat → Nat} {cur : Cursor} {stack : List Cell}

/-- One step up of the compress cursor: onto the chunk on top of the stack, or with an empty
stack to the start of the next layer. -/
theorem CompAt.ascend (hshape : PlanShape cfg.numLayers n bound)
    (h : CompAt cfg.numLayers n bound cur stack) (hnn : 0 ≤ cur.row)
    (hlt : cur.row < cfg.numLayers) :
    (∃ e rest, stack = e :: rest ∧ e ∈ cells (fun _ => 0) bound cfg.numLayers ∧
      stepUp (fun _ => 0) bound cur = .at e ∧ CompAt cfg.numLayers n bound (.at e) rest) ∨
    (stack = [] ∧ cur.col + 1 ≥ bound cur.row.toNat ∧
      stepUp (fun _ => 0) bound cur = ⟨cur.row + 1, 0⟩ ∧
      CompAt cfg.numLayers n bound ⟨cur.row + 1, 0⟩ [] ∧
      (cur.row + 1 < cfg.numLayers → 0 < n)) := by
  -- past the last chunk of a row there is only the start of the next one
  have hpast : cur.col + 1 ≥ bound cur.row.toNat →
      (cur.row + 1 < cfg.numLayers → bound (cur.row + 1).toNat = 0) →
      (0 < n ∨ cur.row + 1 = cfg.numLayers) →
      stepUp (fun _ => 0) bound cur = ⟨cur.row + 1, 0⟩ ∧
        CompAt cfg.numLayers n bound ⟨cur.row + 1, 0⟩ [] ∧
        (cur.row + 1 < cfg.numLayers → 0 < n) := by
    intro hcol hnext hn
    refine ⟨?_, ?_, by omega⟩
    · unfold stepUp
      rw [if_pos hcol]
      rfl
    · exact .past (by dsimp only; omega) (by dsimp only; omega) rfl hnext
        (by dsimp only; omega) rfl
  cases h with
  | on hwf hn hstack =>
      by_cases hnil : beyond (fun _ => 0) bound cfg.numLayers cur = []
      · obtain ⟨hcol, hlater⟩ := beyond_nil hwf hnil
        refine Or.inr ⟨hstack.trans hnil, by omega, hpast (by omega) ?_ hn⟩
        intro hrow
        have := hlater (cur.row + 1).toNat (by omega) (by omega)
        omega
      · obtain ⟨e, he, hstep, hcons⟩ := beyond_stepUp hwf (hshape.comp_noGap hnn) hnil
        have hreg := mem_cells.mp he
        have hle := hshape.le e.1
        exact Or.inl ⟨e, _, hstack.trans hcons, he, hstep,
          .on (Cursor.Wf.at he) (Or.inl (by omega)) rfl⟩
  | out hrow _ => omega
  | past _ _ hcol hbound hn hstack =>
      have hzero := hbound hlt
      refine Or.inr ⟨hstack, by omega, hpast (by omega) ?_ (by omega)⟩
      intro hrow
      have hnext := hshape.emptyComp cur.row.toNat (by omega) hzero
      rwa [show cur.row.toNat + 1 = (cur.row + 1).toNat by omega] at hnext

/-- The decompress walk for any number of chunks: the chunks on top of the stack, and others
only when it is empty. -/
theorem CompAt.walk (hshape : PlanShape cfg.numLayers n bound) (m : Nat) :
    ∀ (cur : Cursor) (stack : List Cell), CompAt cfg.numLayers n bound cur stack →
    (m = 0 ∨ (0 ≤ cur.row ∧ cur.row < cfg.numLayers)) →
    let accesses := decompressAccesses cfg.numLayers bound m cur
    (∀ a ∈ accesses, a.InRange cfg.numLayers n) ∧
    (∃ more, visited accesses = stack.take m ++ more ∧ (m ≤ stack.length → more = [])) ∧
    CompAt cfg.numLayers n bound (compWalk cfg.numLayers bound m cur).cur (stack.drop m) := by
  induction m with
  | zero =>
      intro cur stack h _
      exact ⟨fun a ha => absurd ha List.not_mem_nil, ⟨[], rfl, fun _ => rfl⟩, h⟩
  | succ m ih =>
      intro cur stack h hmeets
      obtain ⟨hnn, hlt⟩ := hmeets.resolve_left (Nat.succ_ne_zero m)
      have hfirst : (Access.layer cur.row).InRange cfg.numLayers n := ⟨hnn, hlt⟩
      rw [decompressAccesses, compWalk]
      dsimp only
      rcases h.ascend hshape hnn hlt with
        ⟨e, rest, rfl, he, hstep, hat⟩ | ⟨rfl, hcol, hstep, hat, hn⟩
      · have hreg := mem_cells.mp he
        have hle := hshape.le e.1
        have hnot : ¬ (cur.col + 1 ≥ bound cur.row.toNat ∧ cur.row + 1 ≥ cfg.numLayers) := by
          rintro ⟨hcol, hrow⟩
          have hrow' := congrArg Cursor.row hstep
          unfold stepUp at hrow'
          rw [if_pos hcol] at hrow'
          simp only [Cursor.at] at hrow'
          omega
        have hrow : 0 ≤ (Cursor.at e).row ∧ (Cursor.at e).row < cfg.numLayers := by
          unfold Cursor.at
          dsimp only
          omega
        obtain ⟨hin, ⟨more, hvis, hmore⟩, hafter⟩ := ih (.at e) rest hat (Or.inr hrow)
        rw [if_neg hnot, if_neg hnot, hstep]
        refine ⟨?_, ⟨more, ?_, ?_⟩, hafter⟩
        · intro a ha
          rcases List.mem_cons.mp ha with rfl | ha
          · exact hfirst
          · rcases List.mem_cons.mp ha with rfl | ha
            · refine ⟨hrow, ?_⟩
              unfold Cursor.at
              dsimp only
              omega
            · exact hin a ha
        · rw [List.take_succ_cons, List.cons_append, ← hvis]
          rfl
        · intro hlen
          exact hmore (Nat.le_of_succ_le_succ hlen)
      · rw [hstep]
        by_cases hrow : cur.row + 1 ≥ cfg.numLayers
        · rw [if_pos ⟨hcol, hrow⟩, if_pos ⟨hcol, hrow⟩]
          refine ⟨?_, ⟨[], rfl, fun _ => rfl⟩, hat⟩
          intro a ha
          rw [List.mem_singleton.mp ha]
          exact hfirst
        · have hnot : ¬ (cur.col + 1 ≥ bound cur.row.toNat ∧ cur.row + 1 ≥ cfg.numLayers) :=
            fun hboth => hrow hboth.2
          rw [if_neg hnot, if_neg hnot]
          obtain ⟨hin, -, hafter⟩ := ih ⟨cur.row + 1, 0⟩ [] hat
            (Or.inr ⟨by dsimp only; omega, by dsimp only; omega⟩)
          refine ⟨?_, ⟨_, rfl, fun hlen => absurd hlen (Nat.not_succ_le_zero m)⟩, ?_⟩
          · intro a ha
            rcases List.mem_cons.mp ha with rfl | ha
            · exact hfirst
            · rcases List.mem_cons.mp ha with rfl | ha
              · have hpos := hn (by omega)
                show (0 ≤ cur.row + 1 ∧ cur.row + 1 < cfg.numLayers) ∧ (0 : Int) ≤ 0 ∧ (0 : Int) < n
                omega
              · exact hin a ha
          · rw [List.drop_nil] at hafter ⊢
            exact hafter

/-- One step up of the store cursor: onto the chunk on top of the stack, or with an empty
stack past the last layer. -/
theorem StoreAt.ascend (hshape : PlanShape cfg.numLayers n bound)
    (h : StoreAt cfg.numLayers n bound cur stack)
    (hmeets : (0 ≤ cur.row ∧ cur.row < cfg.numLayers) ∨ (cur.row = -1 ∧ bound 0 < n)) :
    (∃ e rest, stack = e :: rest ∧ e ∈ cells bound (fun _ => n) cfg.numLayers ∧
      StoreAt cfg.numLayers n bound (.at e) rest ∧
      ((cur.col + 1 = n ∧ cur.row + 1 = e.1 ∧ bound e.1 = e.2) ∨
        (cur.col + 1 ≠ n ∧ (⟨cur.row, cur.col + 1⟩ : Cursor) = .at e))) ∨
    (stack = [] ∧ cur.col + 1 = n ∧ cur.row + 1 = cfg.numLayers) := by
  have hon : ∀ e ∈ cells bound (fun _ => n) cfg.numLayers,
      StoreAt cfg.numLayers n bound (.at e) (beyond bound (fun _ => n) cfg.numLayers (.at e)) := by
    intro e he
    have hreg := mem_cells.mp he
    refine .on (Cursor.Wf.at he) (Or.inl ?_) rfl
    show bound (e.1 : Int).toNat < n
    rw [Int.toNat_natCast]
    omega
  cases h with
  | on hwf hrow hstack =>
      have hlt := hwf.lt
      have hnn := hwf.nonneg
      by_cases hnil : beyond bound (fun _ => n) cfg.numLayers cur = []
      · obtain ⟨hcol, hlater⟩ := beyond_nil hwf hnil
        refine Or.inr ⟨hstack.trans hnil, hcol, ?_⟩
        -- an open row is followed by an open one, so this row is the last
        rcases hrow with hopen | hlast
        · by_contra hne
          have hnext := hshape.openStore cur.row.toNat (by omega) hopen
          have := hlater (cur.row.toNat + 1) (by omega) (by omega)
          omega
        · exact hlast
      · obtain ⟨e, he, hstep, hcons⟩ := beyond_stepUp hwf (hshape.store_noGap hnn hrow) hnil
        refine Or.inl ⟨e, _, hstack.trans hcons, he, hon e he, ?_⟩
        obtain ⟨-, hon2⟩ := hwf.onRow cur.row.toNat hwf.toNat_row
        unfold stepUp at hstep
        dsimp only at hon2 hstep
        by_cases hcol : cur.col + 1 = n
        · rw [if_pos (by omega)] at hstep
          have h1 : cur.row + 1 = e.1 := congrArg Cursor.row hstep
          have h2 : (bound (cur.row + 1).toNat : Int) = e.2 := congrArg Cursor.col hstep
          rw [show (cur.row + 1).toNat = e.1 by omega] at h2
          exact Or.inl ⟨hcol, h1, by exact_mod_cast h2⟩
        · rw [if_neg (by omega)] at hstep
          exact Or.inr ⟨hcol, hstep⟩
  | out hrow hcol hstack =>
      have hopen : bound 0 < n := by omega
      have hpos := cfg.numLayers_pos
      have hzero : (cur.row + 1).toNat = 0 := by omega
      obtain ⟨hmem, hcons⟩ := @beyond_nextRow bound n cur cfg.numLayers (by omega) (by omega)
        (by omega) (by rw [hzero]; exact hopen)
      have hcells : beyond bound (fun _ => n) cfg.numLayers cur =
          cells bound (fun _ => n) cfg.numLayers := by
        obtain ⟨row, col⟩ := cur
        dsimp only at hrow
        rw [hrow]
        exact beyond_outside
      have hat : (⟨cur.row + 1, bound (cur.row + 1).toNat⟩ : Cursor) =
          .at ((cur.row + 1).toNat, bound (cur.row + 1).toNat) := by
        unfold Cursor.at
        rw [Cursor.mk.injEq]
        exact ⟨by dsimp only; omega, rfl⟩
      rw [hat, hcells] at hcons
      exact Or.inl ⟨_, _, hstack.trans hcons, hmem, hon _ hmem,
        Or.inl ⟨by omega, by dsimp only; omega, rfl⟩⟩
  | past hrow _ _ => omega

/-- The chunks whose accesses are listed are those the walk enqueues. -/
theorem visited_decompressAccesses {numLayers : Nat} (m : Nat) : ∀ cur : Cursor,
    visited (decompressAccesses numLayers bound m cur) = (compWalk numLayers bound m cur).cells := by
  induction m with
  | zero => intro cur; rfl
  | succ m ih =>
      intro cur
      rw [decompressAccesses, compWalk]
      dsimp only
      split
      · rfl
      · rw [← ih]
        rfl

theorem visited_loadLoopAccesses (io : Io) (m : Nat) : ∀ (s : KvState) {w : Walk},
    loadWalk cfg io m s = some w → visited (loadLoopAccesses cfg io m s) = w.cells := by
  induction m with
  | zero =>
      intro s w hw
      rw [loadWalk, Option.some.injEq] at hw
      rw [← hw]
      rfl
  | succ m ih =>
      intro s w hw
      rw [loadWalk] at hw
      rw [loadLoopAccesses]
      dsimp only at hw ⊢
      split at hw
      · rename_i hcol
        rw [if_pos hcol]
        split at hw
        · rename_i hrow
          rw [if_pos hrow]
          cases hw
          rfl
        · rename_i hrow
          rw [if_neg hrow]
          rw [Option.bind_eq_some_iff] at hw
          obtain ⟨t, hopen, hw⟩ := hw
          rw [Option.map_eq_some_iff] at hw
          obtain ⟨w', hw', rfl⟩ := hw
          rw [hopen, ← ih t hw']
          rfl
      · rename_i hcol
        rw [if_neg hcol]
        rw [Option.map_eq_some_iff] at hw
        obtain ⟨w', hw', rfl⟩ := hw
        rw [← ih _ hw']
        rfl

/-- The load loop for any number of chunks: the chunks on top of the stack. -/
theorem StoreAt.loadLoop (io : Io) (m : Nat) : ∀ (s : KvState) (stack : List Cell),
    PlanShape cfg.numLayers s.numChunksPerTensor s.chunkBound →
    StoreAt cfg.numLayers s.numChunksPerTensor s.chunkBound s.curToStore stack →
    (ChunkCall.load m).Meets cfg s →
    (∀ a ∈ loadLoopAccesses cfg io m s, a.InRange cfg.numLayers s.numChunksPerTensor) ∧
    ∀ w, loadWalk cfg io m s = some w →
      w.cells = stack.take m ∧ SamePlan s w.state ∧ w.state.curToCompress = s.curToCompress ∧
      StoreAt cfg.numLayers s.numChunksPerTensor s.chunkBound w.state.curToStore
        (stack.drop m) := by
  induction m with
  | zero =>
      intro s stack _ h _
      refine ⟨fun a ha => absurd ha List.not_mem_nil, fun w hw => ?_⟩
      rw [loadWalk, Option.some.injEq] at hw
      rw [← hw]
      exact ⟨rfl, SamePlan.refl s, rfl, h⟩
  | succ m ih =>
      intro s stack hshape h hmeets
      have hcur := hmeets.resolve_left (Nat.succ_ne_zero m)
      rcases h.ascend hshape hcur with ⟨e, rest, rfl, he, hat, hnext⟩ | ⟨rfl, hcol, hrow⟩
      · have hreg := mem_cells.mp he
        have hcell := @storeCell_inRange cfg s e he
        have hmeets' : ∀ t : KvState, t.curToStore = .at e → (ChunkCall.load m).Meets cfg t := by
          intro t ht
          refine Or.inr (Or.inl ?_)
          rw [ht]
          unfold Cursor.at
          dsimp only
          omega
        rcases hnext with ⟨hcol, hrow, hbound⟩ | ⟨hcol, hnext⟩
        · -- the first chunk stored of the next layer, whose file may have to be opened
          have hlayer : (s.curToStore.row + 1).toNat = e.1 := by omega
          have hcur' : (⟨s.curToStore.row + 1, s.chunkBound e.1⟩ : Cursor) = .at e := by
            unfold Cursor.at
            rw [hrow, hbound]
          have hfirst : (Access.layer e.1).InRange cfg.numLayers s.numChunksPerTensor := hcell.1
          rw [loadLoopAccesses, loadWalk]
          dsimp only
          rw [if_pos hcol, if_pos hcol, if_neg (by omega), if_neg (by omega), hlayer, hcur', hrow,
            hbound]
          cases hopen : openToRead io e.1 { s with curToStore := .at e } with
          | none =>
              refine ⟨?_, fun w hw => ?_⟩
              · intro a ha
                rw [List.mem_singleton.mp ha]
                exact hfirst
              · exact absurd hw (by simp)
          | some t =>
              obtain ⟨fds, tick, rfl⟩ := openToRead_eq io _ _ hopen
              obtain ⟨hin, hwalk⟩ :=
                ih (s.withStore (.at e) fds tick) rest hshape hat (hmeets' _ rfl)
              refine ⟨?_, fun w hw => ?_⟩
              · intro a ha
                rcases List.mem_cons.mp ha with rfl | ha
                · exact hfirst
                · rcases List.mem_cons.mp ha with rfl | ha
                  · exact hcell
                  · exact hin a ha
              · rw [Option.bind_some, Option.map_eq_some_iff] at hw
                obtain ⟨w', hw', rfl⟩ := hw
                obtain ⟨hcells, hsame, hother, hafter⟩ := hwalk w' hw'
                refine ⟨?_, ⟨hsame.n, hsame.bound⟩, hother, hafter⟩
                rw [List.take_succ_cons, hcells]
        · rw [loadLoopAccesses, loadWalk]
          dsimp only
          rw [if_neg hcol, if_neg hcol, hnext]
          have h1 : s.curToStore.row = e.1 := congrArg Cursor.row hnext
          have h2 : s.curToStore.col + 1 = e.2 := congrArg Cursor.col hnext
          obtain ⟨hin, hwalk⟩ := ih { s with curToStore := .at e } rest hshape hat (hmeets' _ rfl)
          refine ⟨?_, fun w hw => ?_⟩
          · intro a ha
            rcases List.mem_cons.mp ha with rfl | ha
            · rw [h1, h2]
              exact hcell
            · exact hin a ha
          · rw [Option.map_eq_some_iff] at hw
            obtain ⟨w', hw', rfl⟩ := hw
            obtain ⟨hcells, hsame, hother, hafter⟩ := hwalk w' hw'
            refine ⟨?_, ⟨hsame.n, hsame.bound⟩, hother, hafter⟩
            rw [List.take_succ_cons, hcells, h1, h2, Int.toNat_natCast, Int.toNat_natCast]
      · rw [loadLoopAccesses, loadWalk]
        dsimp only
        rw [if_pos hcol, if_pos hcol, if_pos (le_of_eq hrow.symm), if_pos (le_of_eq hrow.symm)]
        refine ⟨fun a ha => absurd ha List.not_mem_nil, fun w hw => ?_⟩
        cases hw
        exact ⟨rfl, ⟨rfl, rfl⟩, rfl, .past hrow hcol List.drop_nil⟩

end

/-! ## Calls -/

/-- What is left of a stack after its top was taken. -/
theorem filter_not_taken {l more : List Cell} {m : Nat} (h : l.Nodup)
    (hmore : m ≤ l.length → more = []) :
    l.filter (fun e => decide (e ∉ l.take m ++ more)) = l.drop m := by
  by_cases hm : m ≤ l.length
  · rw [hmore hm, List.append_nil]
    have hdisj := List.disjoint_take_drop h (le_refl m)
    have htake : (l.take m).filter (fun e => decide (e ∉ l.take m)) = [] := by
      rw [List.filter_eq_nil_iff]
      intro e he
      simp [he]
    have hdrop : (l.drop m).filter (fun e => decide (e ∉ l.take m)) = l.drop m := by
      rw [List.filter_eq_self]
      intro e he
      exact decide_eq_true fun hmem => hdisj hmem he
    conv_lhs =>
      rw [← List.take_append_drop m l, List.filter_append]
    rw [List.take_append_drop, htake, hdrop, List.nil_append]
  · rw [List.drop_eq_nil_of_le (by omega), List.take_of_length_le (by omega),
      List.filter_eq_nil_iff]
    intro e he
    simp [he]

section

variable {cfg : Config} {io : Io} {r r' : CursorRun}

theorem runDecomps_cursors (cfg : Config) (l : List Cell) (s : KvState) :
    SamePlan s (runDecomps cfg l s) ∧ (runDecomps cfg l s).curToStore = s.curToStore ∧
      (runDecomps cfg l s).curToCompress = s.curToCompress := by
  have hview := runDecomps_view cfg l s
  exact ⟨⟨congrArg LadderView.numChunksPerTensor hview, congrArg LadderView.chunkBound hview⟩,
    congrArg LadderView.curToStore hview, congrArg LadderView.curToCompress hview⟩

theorem runReads_cursors (cfg : Config) (io : Io) (l : List Cell) (s : KvState) :
    SamePlan s (runReads cfg io l s) ∧ (runReads cfg io l s).curToStore = s.curToStore ∧
      (runReads cfg io l s).curToCompress = s.curToCompress := by
  have hview := runReads_view cfg io l s
  exact ⟨⟨congrArg LadderView.numChunksPerTensor hview, congrArg LadderView.chunkBound hview⟩,
    congrArg LadderView.curToStore hview, congrArg LadderView.curToCompress hview⟩

theorem cleanAfterDecompress_cursors (m : Nat) (s : KvState) :
    SamePlan s (cleanAfterDecompress m s) ∧
      (cleanAfterDecompress m s).curToStore = s.curToStore ∧
      (cleanAfterDecompress m s).curToCompress = s.curToCompress := by
  unfold cleanAfterDecompress
  dsimp only
  split
  · exact ⟨SamePlan.refl s, rfl, rfl⟩
  · split <;> split <;> exact ⟨⟨rfl, rfl⟩, rfl, rfl⟩

/-- The bookkeeping of `mzcache_decompress_chunks` leaves the cursor where the walk left it,
whichever way the call returns. -/
theorem decompressChunks_cursors (m : Nat) (s : KvState) :
    SamePlan s (mzcacheDecompressChunks cfg m s) ∧
      (mzcacheDecompressChunks cfg m s).curToStore = s.curToStore ∧
      (mzcacheDecompressChunks cfg m s).curToCompress = (s.compWalk cfg m).cur := by
  have hwalk := @decompWalk_eq cfg m s
  obtain ⟨h1, h2, h3⟩ := runDecomps_cursors cfg (decompWalk cfg m s).cells (decompWalk cfg m s).state
  have hstate : SamePlan s (decompWalk cfg m s).state ∧
      (decompWalk cfg m s).state.curToStore = s.curToStore ∧
      (decompWalk cfg m s).state.curToCompress = (s.compWalk cfg m).cur := by
    rw [hwalk]
    exact ⟨⟨rfl, rfl⟩, rfl, rfl⟩
  have hrun := And.intro (hstate.1.trans h1)
    (And.intro (h2.trans hstate.2.1) (h3.trans hstate.2.2))
  unfold mzcacheDecompressChunks
  dsimp only
  split
  · exact hrun
  · obtain ⟨g1, g2, g3⟩ := cleanAfterDecompress_cursors m
      (runDecomps cfg (decompWalk cfg m s).cells (decompWalk cfg m s).state)
    exact ⟨hrun.1.trans g1, g2.trans hrun.2.1, g3.trans hrun.2.2⟩

/-- Where a run can be: the plan is sound and the cursors stand for the stacks. -/
structure CursorRun.Ok (cfg : Config) (r : CursorRun) : Prop where
  shape : PlanShape cfg.numLayers r.kv.numChunksPerTensor r.kv.chunkBound
  comp : CompAt cfg.numLayers r.kv.numChunksPerTensor r.kv.chunkBound r.kv.curToCompress r.comp
  store : StoreAt cfg.numLayers r.kv.numChunksPerTensor r.kv.chunkBound r.kv.curToStore r.store

/-- The runs start there. -/
theorem CursorRun.Ok.start {s : KvState} (hmax : s.numChunksPerTensor ≤ cfg.f32.limit) :
    CursorRun.Ok cfg ⟨deriveSwapoutPlan cfg s, [], []⟩ := by
  have hshape := chunkBounds_shape cfg hmax
  have hpos := cfg.numLayers_pos
  have hlast : ((cfg.numLayers : Int) - 1).toNat = cfg.numLayers - 1 := by omega
  have hbound := hshape.le (cfg.numLayers - 1)
  have hnil : ∀ lo hi : Nat → Nat, beyond lo hi cfg.numLayers
      ⟨(cfg.numLayers : Int) - 1, (hi (cfg.numLayers - 1) : Int) - 1⟩ = [] := by
    intro lo hi
    rw [List.eq_nil_iff_forall_not_mem]
    intro e he
    obtain ⟨hmem, hb⟩ := mem_beyond.mp he
    obtain ⟨h1, -, h3⟩ := mem_cells.mp hmem
    unfold Cursor.Before at hb
    dsimp only at hb
    rcases hb with h | ⟨h, h'⟩
    · omega
    · rw [show e.1 = cfg.numLayers - 1 by omega] at h3
      omega
  refine ⟨hshape, .on ?_ (Or.inr ?_) ?_, .on ?_ (Or.inr ?_) ?_⟩
  · refine ⟨by show 0 ≤ (cfg.numLayers : Int) - 1; omega,
      by show (cfg.numLayers : Int) - 1 < cfg.numLayers; omega, ?_⟩
    intro i hi
    have hi' : (i : Int) = (cfg.numLayers : Int) - 1 := hi
    show ((0 : Nat) : Int) - 1 ≤ (chunkBounds cfg s.numChunksPerTensor (cfg.numLayers - 1) : Int) - 1 ∧
      (chunkBounds cfg s.numChunksPerTensor (cfg.numLayers - 1) : Int) - 1 <
        chunkBounds cfg s.numChunksPerTensor i
    rw [show i = cfg.numLayers - 1 by omega]
    omega
  · show (cfg.numLayers : Int) - 1 + 1 = cfg.numLayers
    omega
  · exact (hnil _ _).symm
  · refine ⟨by show 0 ≤ (cfg.numLayers : Int) - 1; omega,
      by show (cfg.numLayers : Int) - 1 < cfg.numLayers; omega, ?_⟩
    intro i hi
    have hi' : (i : Int) = (cfg.numLayers : Int) - 1 := hi
    show (chunkBounds cfg s.numChunksPerTensor i : Int) - 1 ≤ (s.numChunksPerTensor : Int) - 1 ∧
      (s.numChunksPerTensor : Int) - 1 < s.numChunksPerTensor
    rw [show i = cfg.numLayers - 1 by omega]
    omega
  · show (cfg.numLayers : Int) - 1 + 1 = cfg.numLayers
    omega
  · exact (hnil _ _).symm

/-- The accesses of a load are in range, also the first one. -/
theorem CursorRun.Ok.loadAccesses (h : r.Ok cfg) {m : Nat}
    (hmeets : (ChunkCall.load m).Meets cfg r.kv) :
    (∀ a ∈ loadAccesses cfg io m r.kv, a.InRange cfg.numLayers r.kv.numChunksPerTensor) ∧
    ∀ s w, openFirstToRead io r.kv = some s → loadWalk cfg io m s = some w →
      visited (MzCache.loadAccesses cfg io m r.kv) = w.cells ∧ w.cells = r.store.take m ∧
      SamePlan r.kv w.state ∧ w.state.curToCompress = r.kv.curToCompress ∧
      StoreAt cfg.numLayers r.kv.numChunksPerTensor r.kv.chunkBound w.state.curToStore
        (r.store.drop m) := by
  have hfirst : r.kv.curToStore.col < (r.kv.numChunksPerTensor : Int) - 1 →
      (Access.layer r.kv.curToStore.row).InRange cfg.numLayers r.kv.numChunksPerTensor := by
    intro hcol
    cases h.store with
    | on hwf _ _ => exact ⟨hwf.nonneg, hwf.lt⟩
    | out _ hend _ => omega
    | past _ hend _ => omega
  unfold MzCache.loadAccesses
  cases hopen : openFirstToRead io r.kv with
  | none =>
      refine ⟨?_, fun s w hs => absurd hs (by simp)⟩
      intro a ha
      rw [List.append_nil] at ha
      split at ha
      · rw [List.mem_singleton.mp ha]
        exact hfirst (by assumption)
      · exact absurd ha List.not_mem_nil
  | some t =>
      obtain ⟨fds, tick, rfl⟩ := openFirstToRead_eq io r.kv hopen
      obtain ⟨hin, hwalk⟩ := StoreAt.loadLoop io m (r.kv.withStore r.kv.curToStore fds tick)
        r.store h.shape h.store hmeets
      refine ⟨?_, ?_⟩
      · intro a ha
        rcases List.mem_append.mp ha with ha | ha
        · split at ha
          · rw [List.mem_singleton.mp ha]
            exact hfirst (by assumption)
          · exact absurd ha List.not_mem_nil
        · exact hin a ha
      · intro s w hs hw
        cases hs
        obtain ⟨hcells, hsame, hother, hafter⟩ := hwalk w hw
        refine ⟨?_, hcells, ⟨hsame.n, hsame.bound⟩, hother, hafter⟩
        rw [← visited_loadLoopAccesses io m _ hw]
        unfold visited
        rw [List.filterMap_append]
        split <;> rfl

/-- A call that meets its condition is safe. -/
theorem CursorRun.Ok.safe (h : r.Ok cfg) {call : ChunkCall} (hmeets : call.Meets cfg r.kv) :
    call.Safe cfg io r := by
  cases call with
  | compress m =>
      obtain ⟨hin, -⟩ := CompAt.compressChunks m r.kv r.comp h.shape h.comp hmeets
      exact ⟨hin, fun _ hcall => (nomatch hcall), fun _ hcall => (nomatch hcall)⟩
  | decompress m =>
      obtain ⟨hin, ⟨more, hvis, hmore⟩, -⟩ := CompAt.walk h.shape m _ _ h.comp hmeets
      refine ⟨hin, ?_, fun _ hcall => (nomatch hcall)⟩
      intro k hcall hk
      cases hcall
      rw [decompWalk_eq]
      show (compWalk cfg.numLayers r.kv.chunkBound m r.kv.curToCompress).cells = _
      rw [← visited_decompressAccesses, hvis, hmore hk, List.append_nil]
  | store m =>
      obtain ⟨hin, -⟩ := StoreAt.storeChunks io m r.kv r.store h.shape.le h.store hmeets
      exact ⟨hin, fun _ hcall => (nomatch hcall), fun _ hcall => (nomatch hcall)⟩
  | load m =>
      obtain ⟨hin, hwalk⟩ := @CursorRun.Ok.loadAccesses cfg io r h m hmeets
      refine ⟨hin, fun _ hcall => (nomatch hcall), ?_⟩
      intro k hcall _ s w hs hw
      cases hcall
      exact (hwalk s w hs hw).2.1

/-- And leads to another such state. -/
theorem CursorRun.Ok.run (h : r.Ok cfg) {call : ChunkCall} (hmeets : call.Meets cfg r.kv)
    (hrun : call.run cfg io r = some r') : r'.Ok cfg := by
  have hkeep : ∀ {t : KvState} {comp store : List Cell}, SamePlan r.kv t →
      CompAt cfg.numLayers r.kv.numChunksPerTensor r.kv.chunkBound t.curToCompress comp →
      StoreAt cfg.numLayers r.kv.numChunksPerTensor r.kv.chunkBound t.curToStore store →
      CursorRun.Ok cfg ⟨t, comp, store⟩ := by
    intro t comp store hsame hcomp hstore
    refine ⟨?_, ?_, ?_⟩ <;> dsimp only <;> rw [hsame.n, hsame.bound]
    · exact h.shape
    · exact hcomp
    · exact hstore
  cases call with
  | compress m =>
      cases hrun
      obtain ⟨-, hsame, hother, hafter⟩ :=
        CompAt.compressChunks m r.kv r.comp h.shape h.comp hmeets
      exact hkeep hsame hafter (hother ▸ h.store)
  | decompress m =>
      cases hrun
      obtain ⟨-, ⟨more, hvis, hmore⟩, hafter⟩ := CompAt.walk h.shape m _ _ h.comp hmeets
      obtain ⟨hsame, hother, hcur⟩ := @decompressChunks_cursors cfg m r.kv
      refine hkeep hsame ?_ (hother ▸ h.store)
      show CompAt _ _ _ _ (r.comp.filter fun e => decide (e ∉ visited (decompressAccesses
        cfg.numLayers r.kv.chunkBound m r.kv.curToCompress)))
      rw [hvis, filter_not_taken h.comp.nodup hmore, hcur]
      exact hafter
  | store m =>
      cases hrun
      obtain ⟨-, hsame, hother, hafter⟩ :=
        StoreAt.storeChunks io m r.kv r.store h.shape.le h.store hmeets
      exact hkeep hsame (hother ▸ h.comp) hafter
  | load m =>
      obtain ⟨-, hwalk⟩ := @CursorRun.Ok.loadAccesses cfg io r h m hmeets
      unfold ChunkCall.run mzcacheLoadChunks at hrun
      dsimp only at hrun
      rw [Option.map_eq_some_iff] at hrun
      obtain ⟨kv, hkv, rfl⟩ := hrun
      rw [Option.bind_eq_some_iff] at hkv
      obtain ⟨s, hs, hkv⟩ := hkv
      rw [Option.map_eq_some_iff] at hkv
      obtain ⟨w, hw, rfl⟩ := hkv
      obtain ⟨hvis, hcells, hsame, hother, hafter⟩ := hwalk s w hs hw
      obtain ⟨h1, h2, h3⟩ := runReads_cursors cfg io w.cells w.state
      have hsame' : SamePlan r.kv (cleanAfterRead m (runReads cfg io w.cells w.state)) :=
        ⟨h1.n.trans hsame.n, h1.bound.trans hsame.bound⟩
      refine hkeep hsame' ?_ ?_
      · show CompAt _ _ _ (runReads cfg io w.cells w.state).curToCompress r.comp
        rw [h3, hother]
        exact h.comp
      · show StoreAt _ _ _ (runReads cfg io w.cells w.state).curToStore
          (r.store.filter fun e => decide (e ∉ visited (MzCache.loadAccesses cfg io m r.kv)))
        have hfilter := @filter_not_taken r.store [] m h.store.nodup (fun _ => rfl)
        rw [List.append_nil] at hfilter
        rw [h2, hvis, hcells, hfilter]
        exact hafter

end

end MzCache
