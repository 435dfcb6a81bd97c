import MzCache.Kv.Offload

/-!
# The ladder invariant

The set of evicted chunks is stored nowhere: the compress cursor stands for the
chunks of the compress regions beyond it, the store cursor for those of the store
regions. `Ladder` says that the chunk states and the counters agree with these two
lists, and each operation has one lemma that says what it does to them:

* compressing pushes a chunk in front of `compBeyond`, storing one in front of
  `storeBeyond`;
* a walk up takes a prefix of its list off;
* nothing else moves a cursor.

None of the lemmas depends on the outcomes of the system calls.
-/

namespace MzCache

open MzCache.Lib

/-- The state a chunk is in, given the chunks the cursors stand for. -/
def stateOf (comp store : List Cell) (c : Cell) : KVstate :=
  if c ∈ comp then .compressed else if c ∈ store then .stored else .raw

/-- States, counters and cursors agree. -/
structure Ladder (cfg : Config) (s : KvState) : Prop where
  chunks_pos : 0 < s.numChunksPerTensor
  chunks_le : s.numChunksPerTensor ≤ cfg.f32.limit
  bound : s.chunkBound = chunkBounds cfg s.numChunksPerTensor
  maxComp : s.maxCompChunks = layerSum cfg fun i => (s.chunkBound i : Int)
  maxStore : s.maxStoreChunks =
    layerSum cfg fun i => (s.numChunksPerTensor : Int) - s.chunkBound i
  compWf : s.curToCompress.Wf (fun _ => 0) s.chunkBound cfg.numLayers
  storeWf : s.curToStore.Wf s.chunkBound (fun _ => s.numChunksPerTensor) cfg.numLayers
  /-- The store cursor stands in a layer that stores something, or in the last one. -/
  storeRow : s.chunkBound s.curToStore.row.toNat < s.numChunksPerTensor ∨
    s.curToStore.row + 1 = cfg.numLayers
  states : ∀ i c, i < cfg.numLayers → c < s.numChunksPerTensor →
    s.states i c = stateOf (s.compBeyond cfg) (s.storeBeyond cfg) (i, c)
  nComp : s.nCurCompChunks = (s.compBeyond cfg).length
  nStore : s.nCurStoreChunks = (s.storeBeyond cfg).length

/-- What `Ladder` reads of a state. -/
structure LadderView where
  numChunksPerTensor : Nat
  chunkBound : Nat → Nat
  curToCompress : Cursor
  curToStore : Cursor
  maxCompChunks : Int
  maxStoreChunks : Int
  nCurCompChunks : Int
  nCurStoreChunks : Int
  states : Nat → Nat → KVstate

def KvState.view (s : KvState) : LadderView :=
  ⟨s.numChunksPerTensor, s.chunkBound, s.curToCompress, s.curToStore, s.maxCompChunks,
    s.maxStoreChunks, s.nCurCompChunks, s.nCurStoreChunks, s.states⟩

section

variable {cfg : Config} {s s' : KvState}

theorem KvState.compBeyond_of_view (h : s'.view = s.view) :
    s'.compBeyond cfg = s.compBeyond cfg := by
  simp only [KvState.view, LadderView.mk.injEq] at h
  unfold KvState.compBeyond
  rw [h.2.1, h.2.2.1]

theorem KvState.storeBeyond_of_view (h : s'.view = s.view) :
    s'.storeBeyond cfg = s.storeBeyond cfg := by
  simp only [KvState.view, LadderView.mk.injEq] at h
  unfold KvState.storeBeyond
  rw [h.1, h.2.1, h.2.2.2.1]

/-- An operation that leaves the view alone keeps the ladder. -/
theorem Ladder.of_view (h : Ladder cfg s) (hv : s'.view = s.view) : Ladder cfg s' := by
  have hc := @KvState.compBeyond_of_view cfg s s' hv
  have hs := @KvState.storeBeyond_of_view cfg s s' hv
  simp only [KvState.view, LadderView.mk.injEq] at hv
  obtain ⟨h1, h2, h3, h4, h5, h6, h7, h8, h9⟩ := hv
  exact
    { chunks_pos := h1 ▸ h.chunks_pos
      chunks_le := h1 ▸ h.chunks_le
      bound := by rw [h1, h2]; exact h.bound
      maxComp := by rw [h2, h5]; exact h.maxComp
      maxStore := by rw [h1, h2, h6]; exact h.maxStore
      compWf := by rw [h2, h3]; exact h.compWf
      storeWf := by rw [h1, h2, h4]; exact h.storeWf
      storeRow := by rw [h1, h2, h4]; exact h.storeRow
      states := by rw [h1, h9, hc, hs]; exact h.states
      nComp := by rw [h7, hc]; exact h.nComp
      nStore := by rw [h8, hs]; exact h.nStore }

theorem Ladder.shape (h : Ladder cfg s) :
    PlanShape cfg.numLayers s.numChunksPerTensor s.chunkBound := by
  rw [h.bound]
  exact chunkBounds_shape cfg h.chunks_le

theorem Ladder.length_compCells (h : Ladder cfg s) :
    ((s.compCells cfg).length : Int) = s.maxCompChunks := by
  rw [h.maxComp]
  unfold KvState.compCells layerSum
  rw [length_cells (fun i => Nat.zero_le _)]
  simp

theorem Ladder.length_storeCells (h : Ladder cfg s) :
    ((s.storeCells cfg).length : Int) = s.maxStoreChunks := by
  rw [h.maxStore]
  unfold KvState.storeCells layerSum
  rw [length_cells h.shape.le]

/-- A chunk lies in one region only. -/
theorem not_mem_storeBeyond {c : Cell} (hc : c ∈ s.compCells cfg) : c ∉ s.storeBeyond cfg := by
  intro hs
  have h1 := (mem_cells.mp hc).2.2
  have h2 := (mem_cells.mp (mem_beyond.mp hs).1).2.1
  omega

theorem not_mem_compBeyond {c : Cell} (hc : c ∈ s.storeCells cfg) : c ∉ s.compBeyond cfg := by
  intro hs
  have h1 := (mem_cells.mp hc).2.1
  have h2 := (mem_cells.mp (mem_beyond.mp hs).1).2.2
  omega

theorem KvState.compBeyond_nodup : (s.compBeyond cfg).Nodup := nodup_of_sorted beyond_sorted

theorem KvState.storeBeyond_nodup : (s.storeBeyond cfg).Nodup := nodup_of_sorted beyond_sorted

theorem Ladder.nComp_le (h : Ladder cfg s) : s.nCurCompChunks ≤ s.maxCompChunks := by
  rw [h.nComp, ← h.length_compCells]
  exact Int.ofNat_le.mpr (List.length_filter_le _ _)

theorem Ladder.nStore_le (h : Ladder cfg s) : s.nCurStoreChunks ≤ s.maxStoreChunks := by
  rw [h.nStore, ← h.length_storeCells]
  exact Int.ofNat_le.mpr (List.length_filter_le _ _)

theorem Ladder.nComp_nonneg (h : Ladder cfg s) : 0 ≤ s.nCurCompChunks := by
  rw [h.nComp]
  exact Int.natCast_nonneg _

theorem Ladder.nStore_nonneg (h : Ladder cfg s) : 0 ≤ s.nCurStoreChunks := by
  rw [h.nStore]
  exact Int.natCast_nonneg _

/-- A chunk of the plan is compressed exactly when the compress cursor stands for it. -/
theorem Ladder.compressed_iff (h : Ladder cfg s) (c : Cell) :
    c ∈ s.compBeyond cfg ↔ c.1 < cfg.numLayers ∧ c.2 < s.numChunksPerTensor ∧
      s.states c.1 c.2 = .compressed := by
  constructor
  · intro hc
    obtain ⟨h1, h2⟩ := mem_beyond.mp hc
    obtain ⟨h3, _, h4⟩ := mem_cells.mp h1
    have hlt := lt_of_lt_of_le h4 (h.shape.le c.1)
    refine ⟨h3, hlt, ?_⟩
    rw [h.states _ _ h3 hlt]
    exact if_pos hc
  · rintro ⟨h1, h2, h3⟩
    rw [h.states _ _ h1 h2] at h3
    by_contra hc
    rw [stateOf, if_neg hc] at h3
    split at h3 <;> cases h3

/-- A chunk of the plan is stored exactly when the store cursor stands for it. -/
theorem Ladder.stored_iff (h : Ladder cfg s) (c : Cell) :
    c ∈ s.storeBeyond cfg ↔ c.1 < cfg.numLayers ∧ c.2 < s.numChunksPerTensor ∧
      s.states c.1 c.2 = .stored := by
  constructor
  · intro hc
    obtain ⟨h1, h2⟩ := mem_beyond.mp hc
    obtain ⟨h3, _, h4⟩ := mem_cells.mp h1
    refine ⟨h3, h4, ?_⟩
    rw [h.states _ _ h3 h4, stateOf, if_neg (not_mem_compBeyond h1), if_pos hc]
  · rintro ⟨h1, h2, h3⟩
    rw [h.states _ _ h1 h2, stateOf] at h3
    split at h3
    · cases h3
    · split at h3
      · assumption
      · cases h3

/-- With as many stored chunks as the plan has, every store region is stored. -/
theorem Ladder.storeBeyond_of_full (h : Ladder cfg s)
    (hfull : s.nCurStoreChunks = s.maxStoreChunks) :
    s.storeBeyond cfg = s.storeCells cfg := by
  apply List.Sublist.eq_of_length
  · exact List.filter_sublist
  · have h1 := h.nStore
    have h2 := h.length_storeCells
    omega

/-- With as many compressed chunks as the plan has, every compress region is compressed. -/
theorem Ladder.compBeyond_of_full (h : Ladder cfg s)
    (hfull : s.nCurCompChunks = s.maxCompChunks) :
    s.compBeyond cfg = s.compCells cfg := by
  apply List.Sublist.eq_of_length
  · exact List.filter_sublist
  · have h1 := h.nComp
    have h2 := h.length_compCells
    omega

/-! ## Moves -/

/-- `s'` is a ladder over the plan of `s` whose cursors stand for `comp` and `store`. -/
structure Moved (cfg : Config) (s s' : KvState) (comp store : List Cell) : Prop where
  ladder : Ladder cfg s'
  chunks : s'.numChunksPerTensor = s.numChunksPerTensor
  comp : s'.compBeyond cfg = comp
  store : s'.storeBeyond cfg = store

theorem Moved.bound {comp store : List Cell} (h : Ladder cfg s) (hm : Moved cfg s s' comp store) :
    s'.chunkBound = s.chunkBound := by
  rw [hm.ladder.bound, h.bound, hm.chunks]

theorem Moved.maxComp {comp store : List Cell} (h : Ladder cfg s)
    (hm : Moved cfg s s' comp store) : s'.maxCompChunks = s.maxCompChunks := by
  rw [hm.ladder.maxComp, h.maxComp, hm.bound h]

theorem Moved.maxStore {comp store : List Cell} (h : Ladder cfg s)
    (hm : Moved cfg s s' comp store) : s'.maxStoreChunks = s.maxStoreChunks := by
  rw [hm.ladder.maxStore, h.maxStore, hm.bound h, hm.chunks]

theorem Moved.trans {s'' : KvState} {comp store comp' store' : List Cell}
    (h1 : Moved cfg s s' comp store) (h2 : Moved cfg s' s'' comp' store') :
    Moved cfg s s'' comp' store' :=
  ⟨h2.ladder, h2.chunks.trans h1.chunks, h2.comp, h2.store⟩

/-- An operation that leaves the view alone moves nothing. -/
theorem Ladder.stay (h : Ladder cfg s) (hv : s'.view = s.view) :
    Moved cfg s s' (s.compBeyond cfg) (s.storeBeyond cfg) :=
  ⟨h.of_view hv, congrArg LadderView.numChunksPerTensor hv,
    KvState.compBeyond_of_view hv, KvState.storeBeyond_of_view hv⟩

/-- The compress cursor may pass over stretches without chunks. -/
theorem Ladder.slide_comp {cur : Cursor} (h : Ladder cfg s)
    (hwf : cur.Wf (fun _ => 0) s.chunkBound cfg.numLayers)
    (hpass : ∀ b ∈ s.compCells cfg, s.curToCompress.Before b ↔ cur.Before b) :
    Moved cfg s { s with curToCompress := cur } (s.compBeyond cfg) (s.storeBeyond cfg) := by
  have hb : KvState.compBeyond cfg { s with curToCompress := cur } = s.compBeyond cfg :=
    (beyond_congr hpass).symm
  refine ⟨?_, rfl, hb, rfl⟩
  exact { h with
    compWf := hwf
    states := by rw [hb]; exact h.states
    nComp := by rw [hb]; exact h.nComp }

/-- So may the store cursor, onto a layer that stores something. -/
theorem Ladder.slide_store {cur : Cursor} (h : Ladder cfg s)
    (hwf : cur.Wf s.chunkBound (fun _ => s.numChunksPerTensor) cfg.numLayers)
    (hrow : s.chunkBound cur.row.toNat < s.numChunksPerTensor)
    (hpass : ∀ b ∈ s.storeCells cfg, s.curToStore.Before b ↔ cur.Before b) :
    Moved cfg s { s with curToStore := cur } (s.compBeyond cfg) (s.storeBeyond cfg) := by
  have hb : KvState.storeBeyond cfg { s with curToStore := cur } = s.storeBeyond cfg :=
    (beyond_congr hpass).symm
  refine ⟨?_, rfl, rfl, hb⟩
  exact { h with
    storeWf := hwf
    storeRow := Or.inl hrow
    states := by rw [hb]; exact h.states
    nStore := by rw [hb]; exact h.nStore }

theorem stateOf_cons_comp (comp store : List Cell) (e : Cell) (i c : Nat) (t : Nat → Nat → KVstate)
    (h : t i c = stateOf comp store (i, c)) :
    Table.set t e.1 e.2 .compressed i c = stateOf (e :: comp) store (i, c) := by
  by_cases hic : i = e.1 ∧ c = e.2
  · obtain ⟨rfl, rfl⟩ := hic
    simp [stateOf]
  · rw [Table.set_ne _ _ hic, h]
    have hne : (i, c) ≠ e := fun heq => hic ⟨congrArg Prod.fst heq, congrArg Prod.snd heq⟩
    simp only [stateOf, List.mem_cons, hne, false_or]

theorem stateOf_cons_store (comp store : List Cell) (e : Cell) (hcomp : e ∉ comp) (i c : Nat)
    (t : Nat → Nat → KVstate) (h : t i c = stateOf comp store (i, c)) :
    Table.set t e.1 e.2 .stored i c = stateOf comp (e :: store) (i, c) := by
  by_cases hic : i = e.1 ∧ c = e.2
  · obtain ⟨rfl, rfl⟩ := hic
    simp [stateOf, hcomp]
  · rw [Table.set_ne _ _ hic, h]
    have hne : (i, c) ≠ e := fun heq => hic ⟨congrArg Prod.fst heq, congrArg Prod.snd heq⟩
    simp only [stateOf, List.mem_cons, hne, false_or]

/-- Compressing the chunk under the cursor pushes it. -/
theorem Ladder.push_comp {e : Cell} (h : Ladder cfg s) (he : e ∈ s.compCells cfg)
    (hcur : s.curToCompress = .at e)
    (hv : s'.view = { s.view with
      curToCompress := ⟨e.1, (e.2 : Int) - 1⟩
      nCurCompChunks := s.nCurCompChunks + 1
      states := Table.set s.states e.1 e.2 .compressed }) :
    Moved cfg s s' (e :: s.compBeyond cfg) (s.storeBeyond cfg) := by
  have hc : s'.compBeyond cfg = e :: s.compBeyond cfg := by
    simp only [KvState.view, LadderView.mk.injEq] at hv
    unfold KvState.compBeyond
    rw [hv.2.1, hv.2.2.1, beyond_stepDown he, hcur]
  have hs : s'.storeBeyond cfg = s.storeBeyond cfg := by
    simp only [KvState.view, LadderView.mk.injEq] at hv
    unfold KvState.storeBeyond
    rw [hv.1, hv.2.1, hv.2.2.2.1]
  simp only [KvState.view, LadderView.mk.injEq] at hv
  obtain ⟨h1, h2, h3, h4, h5, h6, h7, h8, h9⟩ := hv
  refine ⟨?_, h1, hc, hs⟩
  exact
    { chunks_pos := h1 ▸ h.chunks_pos
      chunks_le := h1 ▸ h.chunks_le
      bound := by rw [h1, h2]; exact h.bound
      maxComp := by rw [h2, h5]; exact h.maxComp
      maxStore := by rw [h1, h2, h6]; exact h.maxStore
      compWf := by rw [h2, h3]; exact Cursor.Wf.stepDown he
      storeWf := by rw [h1, h2, h4]; exact h.storeWf
      storeRow := by rw [h1, h2, h4]; exact h.storeRow
      states := by
        rw [h1, h9, hc, hs]
        intro i c hi hlt
        exact stateOf_cons_comp _ _ _ _ _ _ (h.states i c hi hlt)
      nComp := by rw [h7, hc, h.nComp, List.length_cons]; push_cast; ring
      nStore := by rw [h8, hs]; exact h.nStore }

/-- Storing the chunk under the cursor pushes it. -/
theorem Ladder.push_store {e : Cell} (h : Ladder cfg s) (he : e ∈ s.storeCells cfg)
    (hcur : s.curToStore = .at e)
    (hv : s'.view = { s.view with
      curToStore := ⟨e.1, (e.2 : Int) - 1⟩
      nCurStoreChunks := s.nCurStoreChunks + 1
      states := Table.set s.states e.1 e.2 .stored }) :
    Moved cfg s s' (s.compBeyond cfg) (e :: s.storeBeyond cfg) := by
  have hs : s'.storeBeyond cfg = e :: s.storeBeyond cfg := by
    simp only [KvState.view, LadderView.mk.injEq] at hv
    unfold KvState.storeBeyond
    rw [hv.1, hv.2.1, hv.2.2.2.1, beyond_stepDown he, hcur]
  have hc : s'.compBeyond cfg = s.compBeyond cfg := by
    simp only [KvState.view, LadderView.mk.injEq] at hv
    unfold KvState.compBeyond
    rw [hv.2.1, hv.2.2.1]
  have hreg := mem_cells.mp he
  simp only [KvState.view, LadderView.mk.injEq] at hv
  obtain ⟨h1, h2, h3, h4, h5, h6, h7, h8, h9⟩ := hv
  refine ⟨?_, h1, hc, hs⟩
  exact
    { chunks_pos := h1 ▸ h.chunks_pos
      chunks_le := h1 ▸ h.chunks_le
      bound := by rw [h1, h2]; exact h.bound
      maxComp := by rw [h2, h5]; exact h.maxComp
      maxStore := by rw [h1, h2, h6]; exact h.maxStore
      compWf := by rw [h2, h3]; exact h.compWf
      storeWf := by rw [h1, h2, h4]; exact Cursor.Wf.stepDown he
      storeRow := by
        rw [h1, h2, h4]
        refine Or.inl ?_
        simp only [Int.toNat_natCast]
        omega
      states := by
        rw [h1, h9, hc, hs]
        intro i c hi hlt
        exact stateOf_cons_store _ _ _ (not_mem_compBeyond he) _ _ _ (h.states i c hi hlt)
      nComp := by rw [h7, hc]; exact h.nComp
      nStore := by rw [h8, hs, h.nStore, List.length_cons]; push_cast; ring }

end

end MzCache
