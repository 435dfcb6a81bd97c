import MzCache.Unified.SeqSource

/-!
# Restoring a whole cache

The records of a whole-cache save go into the first cells and the rows into the first rows. In a
fresh cache chunk 0 of a slot is a tensor of its own, so its rows are apart from all others; K and V
of a grown chunk share one allocation, and their rows are apart exactly when no half is longer than
the allocation has room for.
-/

namespace MzCache.Unified

open MzCache MzCache.Lib

/-! ## Rows that fit -/

/-- The rows that fall into a grown chunk fit in half of its allocation, for `n` cells. The
first grown chunk is the fullest. -/
def GrownRowsFit (sh : Shape) (n : Nat) : Prop :=
  ∀ l ∈ sh.layers, ∀ h,
    min tokensPerChunk (n - tokensPerChunk) * l.sizeRow h ≤ l.chunkBytes

section

variable {sh : Shape} {g : Cache} {n i i' : Nat} {l l' : Layer} {h h' : Half} {q : Place}

theorem Layer.home_block (heq : (l.home h i).block = (l'.home h' i').block) :
    l.il = l'.il ∧ i = i' ∧ (i = 0 → h = h') := by
  unfold Layer.home at heq
  by_cases h1 : i = 0
  · by_cases h2 : i' = 0
    · rw [if_pos h1, if_pos h2, Block.base.injEq] at heq
      obtain ⟨hil, hh⟩ := Layer.slot_inj heq
      exact ⟨hil, by omega, fun _ => hh⟩
    · rw [if_pos h1, if_neg h2] at heq
      exact absurd heq (by simp)
  · by_cases h2 : i' = 0
    · rw [if_neg h1, if_pos h2] at heq
      exact absurd heq (by simp)
    · rw [if_neg h1, if_neg h2, Block.grown.injEq] at heq
      exact ⟨heq.1, heq.2, fun h0 => absurd h0 h1⟩

/-- The chunks of the first `n` rows stand where they were made. -/
def Cache.HomeFor (sh : Shape) (g : Cache) (n : Nat) : Prop :=
  ∀ l ∈ sh.layers, ∀ ci < chunksFor n, g.AtHome l ci

theorem HomeFor.ptr (hhome : g.HomeFor sh n) (hl : l ∈ sh.layers) (hi : i < n) :
    g.ptr (l.slot h) (i / tokensPerChunk) = some (l.home h (i / tokensPerChunk)) := by
  refine (hhome l hl _ ?_ h).1
  unfold chunksFor tokensPerChunk
  omega

theorem HomeFor.there (hhome : g.HomeFor sh n) :
    ∀ l ∈ sh.layers, ∀ h, g.HalfThere h 0 n l := by
  intro l hl h i _ hi
  unfold Cache.RowThere
  rw [HomeFor.ptr hhome hl (by omega)]
  rfl

theorem HomeFor.mem_rowPlaces (hhome : g.HomeFor sh n) (hl : l ∈ sh.layers) (hi : i < n) :
    q ∈ g.rowPlaces (l.slot h) (l.sizeRow h) i ↔
      ∃ b < l.sizeRow h, q = ((l.home h (i / tokensPerChunk)).block,
        (l.home h (i / tokensPerChunk)).off + (i % tokensPerChunk * l.sizeRow h + b)) := by
  unfold Cache.rowPlaces
  rw [HomeFor.ptr hhome hl hi]
  dsimp only
  unfold placesAt
  rw [List.mem_map]
  constructor
  · rintro ⟨b, hb, rfl⟩
    exact ⟨b, List.mem_range.mp hb, by rw [Nat.add_assoc]⟩
  · rintro ⟨b, hb, rfl⟩
    exact ⟨b, List.mem_range.mpr hb, by rw [Nat.add_assoc]⟩

/-- Rows of one half are apart. -/
theorem HomeFor.row_inj (hhome : g.HomeFor sh n) (hl : l ∈ sh.layers) (hi : i < n) (hi' : i' < n)
    (hq : q ∈ g.rowPlaces (l.slot h) (l.sizeRow h) i)
    (hq' : q ∈ g.rowPlaces (l.slot h) (l.sizeRow h) i') : i = i' := by
  obtain ⟨b, hb, rfl⟩ := (HomeFor.mem_rowPlaces hhome hl hi).mp hq
  obtain ⟨b', hb', heq⟩ := (HomeFor.mem_rowPlaces hhome hl hi').mp hq'
  obtain ⟨hblock, hoff⟩ := Prod.mk.inj heq
  have hdiv := (Layer.home_block hblock).2.1
  rw [hdiv] at hoff
  have hoff' := Nat.add_left_cancel hoff
  have hmod : i % tokensPerChunk = i' % tokensPerChunk := by
    have h1 := Nat.mul_add_div (by omega : 0 < l.sizeRow h) (i % tokensPerChunk) b
    have h2 := Nat.mul_add_div (by omega : 0 < l.sizeRow h) (i' % tokensPerChunk) b'
    rw [Nat.div_eq_of_lt hb, Nat.mul_comm] at h1
    rw [Nat.div_eq_of_lt hb', Nat.mul_comm] at h2
    rw [hoff'] at h1
    omega
  rw [← Nat.div_add_mod i tokensPerChunk, ← Nat.div_add_mod i' tokensPerChunk, hdiv, hmod]

/-- Rows of the two halves are apart when they fit. -/
theorem HomeFor.key_ne_value (hhome : g.HomeFor sh n) (hfit : GrownRowsFit sh n)
    (hl : l ∈ sh.layers) (hl' : l' ∈ sh.layers) (hi : i < n) (hi' : i' < n)
    (hq : q ∈ g.rowPlaces (l.slot .key) (l.sizeRow .key) i) :
    q ∉ g.rowPlaces (l'.slot .value) (l'.sizeRow .value) i' := by
  intro hq'
  obtain ⟨b, hb, rfl⟩ := (HomeFor.mem_rowPlaces hhome hl hi).mp hq
  obtain ⟨b', hb', heq⟩ := (HomeFor.mem_rowPlaces hhome hl' hi').mp hq'
  obtain ⟨hblock, hoff⟩ := Prod.mk.inj heq
  obtain ⟨hil, hdiv, hzero⟩ := Layer.home_block hblock
  obtain rfl := Shape.layer_eq hl hl' hil
  have hgrown : i / tokensPerChunk ≠ 0 := fun h0 => absurd (hzero h0) (by decide)
  -- the K byte lies below the V half
  have hrow : (i % tokensPerChunk + 1) * l.sizeRow .key ≤
      min tokensPerChunk (n - tokensPerChunk) * l.sizeRow .key := by
    refine Nat.mul_le_mul_right _ ?_
    unfold tokensPerChunk at *
    omega
  have hroom := hfit l hl .key
  unfold Layer.home at hoff
  rw [← hdiv, if_neg hgrown, if_neg hgrown] at hoff
  dsimp only at hoff
  rw [Nat.succ_mul] at hrow
  omega

theorem HomeFor.mem_halfPlaces (hhome : g.HomeFor sh n) (hl : l ∈ sh.layers) :
    q ∈ g.halfPlaces h 0 n l ↔ ∃ i < n, q ∈ g.rowPlaces (l.slot h) (l.sizeRow h) i := by
  unfold Cache.halfPlaces Cache.slotPlaces
  rw [List.mem_flatMap]
  simp only [List.mem_range'_1, Nat.zero_le, true_and, Nat.zero_add]

theorem HomeFor.half_nodup (hhome : g.HomeFor sh n) (hl : l ∈ sh.layers) :
    (g.halfPlaces h 0 n l).Nodup := by
  unfold Cache.halfPlaces Cache.slotPlaces
  refine List.nodup_flatMap.mpr ⟨fun i hi => ?_, ?_⟩
  · rw [List.mem_range'_1] at hi
    unfold Cache.rowPlaces
    rw [HomeFor.ptr hhome hl (by omega)]
    exact placesAt_nodup _ _ _
  · refine (List.nodup_range' 1).pairwise_of_forall_ne fun i hi i' hi' hne q hq hq' => ?_
    rw [List.mem_range'_1] at hi hi'
    exact hne (HomeFor.row_inj hhome hl (by omega) (by omega) hq hq')

theorem HomeFor.layers_nodup (hhome : g.HomeFor sh n) (h : Half) :
    (sh.layers.flatMap (g.halfPlaces h 0 n)).Nodup := by
  have hlayers : sh.layers.Nodup := List.Nodup.of_map _ sh.layers_nodup
  refine List.nodup_flatMap.mpr ⟨fun l hl => HomeFor.half_nodup hhome hl, ?_⟩
  refine hlayers.pairwise_of_forall_ne fun l hl l' hl' hne q hq hq' => ?_
  obtain ⟨i, hi, hq⟩ := (HomeFor.mem_halfPlaces hhome hl).mp hq
  obtain ⟨i', hi', hq'⟩ := (HomeFor.mem_halfPlaces hhome hl').mp hq'
  obtain ⟨b, -, rfl⟩ := (HomeFor.mem_rowPlaces hhome hl hi).mp hq
  obtain ⟨b', -, heq⟩ := (HomeFor.mem_rowPlaces hhome hl' hi').mp hq'
  exact hne (Shape.layer_eq hl hl' (Layer.home_block (Prod.mk.inj heq).1).1)

/-- The places are all different when the rows fit. -/
theorem HomeFor.places_nodup (hhome : g.HomeFor sh n) (hfit : GrownRowsFit sh n) :
    (g.places sh 0 n).Nodup := by
  refine (HomeFor.layers_nodup hhome .key).append (HomeFor.layers_nodup hhome .value) ?_
  intro q hq hq'
  obtain ⟨l, hl, hq⟩ := List.mem_flatMap.mp hq
  obtain ⟨l', hl', hq'⟩ := List.mem_flatMap.mp hq'
  obtain ⟨i, hi, hq⟩ := (HomeFor.mem_halfPlaces hhome hl).mp hq
  obtain ⟨i', hi', hq'⟩ := (HomeFor.mem_halfPlaces hhome hl').mp hq'
  exact HomeFor.key_ne_value hhome hfit hl hl' hi hi' hq hq'

/-- A row of a chunk that was grown, at the end of its rows. -/
theorem grown_row {m r : Nat} (hm : m = min tokensPerChunk (n - tokensPerChunk)) (hr : r < m) :
    tokensPerChunk + r < n ∧ (tokensPerChunk + r) / tokensPerChunk = 1 ∧
      (tokensPerChunk + r) % tokensPerChunk = r := by
  unfold tokensPerChunk at *
  omega

/-- Rows inside their allocations, K and V apart: that is what fitting means. -/
theorem HomeFor.fit_iff (hhome : g.HomeFor sh n) :
    ((∀ l ∈ sh.layers, ∀ h, g.HalfInside h 0 n l) ∧ (g.places sh 0 n).Nodup) ↔
      GrownRowsFit sh n := by
  have hat : ∀ l ∈ sh.layers, ∀ h, ∀ i < n, (g.RowInside (l.slot h) (l.sizeRow h) i ↔
      (l.home h (i / tokensPerChunk)).off +
        i % tokensPerChunk * l.sizeRow h + l.sizeRow h ≤ l.homeSize h (i / tokensPerChunk)) := by
    intro l hl h i hi
    have hsize := (hhome l hl (i / tokensPerChunk)
      (by unfold chunksFor tokensPerChunk; omega) h).2
    unfold Cache.RowInside Memory.Inside
    rw [HomeFor.ptr hhome hl hi, ← hsize]
    refine ⟨fun hin => hin _ rfl, fun hin p hp => ?_⟩
    obtain rfl := Option.some.inj hp
    exact hin
  constructor
  · rintro ⟨hinside, hnodup⟩ l hl h
    obtain ⟨m, hm⟩ : ∃ m, m = min tokensPerChunk (n - tokensPerChunk) := ⟨_, rfl⟩
    rw [← hm]
    by_contra hover
    rw [not_le] at hover
    have hpos : 0 < m := Nat.pos_of_ne_zero fun h0 => by simp [h0] at hover
    cases h with
    | key =>
        -- a K row of the first grown chunk runs into the first V row
        have hk : 0 < l.sizeRow .key := Nat.pos_of_ne_zero fun h0 => by simp [h0] at hover
        have hr : l.chunkBytes / l.sizeRow .key < m :=
          (Nat.div_lt_iff_lt_mul hk).mpr hover
        obtain ⟨hi, hdiv, hmod⟩ := grown_row hm hr
        obtain ⟨hi', hdiv', hmod'⟩ := grown_row hm hpos
        have hkey : ((Block.grown l.il 1, l.chunkBytes) : Place) ∈
            g.rowPlaces (l.slot .key) (l.sizeRow .key)
              (tokensPerChunk + l.chunkBytes / l.sizeRow .key) := by
          refine (HomeFor.mem_rowPlaces hhome hl hi).mpr
            ⟨l.chunkBytes % l.sizeRow .key, Nat.mod_lt _ hk, ?_⟩
          rw [hdiv, hmod, Nat.div_add_mod']
          simp [Layer.home]
        have hvalue : ((Block.grown l.il 1, l.chunkBytes) : Place) ∈
            g.rowPlaces (l.slot .value) (l.sizeRow .value) (tokensPerChunk + 0) := by
          refine (HomeFor.mem_rowPlaces hhome hl hi').mpr ⟨0, l.vSizeRow_pos, ?_⟩
          rw [hdiv', hmod']
          simp [Layer.home]
        have hkeys := (HomeFor.mem_halfPlaces hhome hl).mpr ⟨_, hi, hkey⟩
        have hvalues := (HomeFor.mem_halfPlaces hhome hl).mpr ⟨_, hi', hvalue⟩
        exact (List.disjoint_of_nodup_append hnodup) (List.mem_flatMap.mpr ⟨l, hl, hkeys⟩)
          (List.mem_flatMap.mpr ⟨l, hl, hvalues⟩)
    | value =>
        -- the last V row of the first grown chunk ends behind it
        obtain ⟨hi, hdiv, hmod⟩ := @grown_row n m (m - 1) hm (by omega)
        have hin := (hat l hl .value _ hi).mp (hinside l hl .value _ (Nat.zero_le _) (by omega))
        rw [hdiv, hmod] at hin
        simp only [Layer.home, Layer.homeSize, Nat.one_ne_zero, if_false] at hin
        have hlast : (m - 1) * l.sizeRow .value + l.sizeRow .value = m * l.sizeRow .value := by
          rw [← Nat.succ_mul]
          congr 1
          omega
        omega
  · intro hfit
    refine ⟨fun l hl h i _ hi => (hat l hl h i (by omega)).mpr ?_, HomeFor.places_nodup hhome hfit⟩
    have hrow := hfit l hl h
    unfold Layer.home Layer.homeSize
    by_cases h0 : i / tokensPerChunk = 0
    · rw [if_pos h0, if_pos h0]
      dsimp only
      rw [Nat.zero_add, ← Nat.succ_mul]
      exact Nat.mul_le_mul_right _ (Nat.mod_lt _ tokensPerChunk_pos)
    · rw [if_neg h0, if_neg h0]
      have hle : (i % tokensPerChunk + 1) * l.sizeRow h ≤
          min tokensPerChunk (n - tokensPerChunk) * l.sizeRow h := by
        refine Nat.mul_le_mul_right _ ?_
        unfold tokensPerChunk at *
        omega
      rw [Nat.succ_mul] at hle
      cases h with
      | key => dsimp only; omega
      | value => dsimp only; omega

end

/-! ## The read -/

/-- The records of the saved cells. -/
def Cells.records (sh : Shape) (c : Cells) : List Record :=
  (c.savedCells (-1)).map fun i => (c.pos i, c.seqIds sh (-1) i)

/-- The destination with the records in its first cells. -/
def Cache.refilled (sh : Shape) (cells : Cells) (d : Cache) : Cache :=
  { d.clear with cells := fillCells 0 (cells.records sh) d.clear.cells, head := 0 }

section

variable {sh : Shape} {alloc : Alloc} {c : Cells} {d : Cache} {i k : Nat}

theorem records_bytes : (c.savedCells (-1)).flatMap (c.cellRecord sh (-1)) =
    (c.records sh).flatMap recordBytes := by
  rw [Cells.records, List.flatMap_map]
  rfl

theorem records_length : (c.records sh).length = c.cellCount (-1) := by
  rw [Cells.records, List.length_map, cellCount_length]

theorem records_ok (hpos : ∀ i, InI32 (c.pos i)) : ∀ r ∈ c.records sh, r.Ok sh := by
  intro r hr
  obtain ⟨i, -, rfl⟩ := List.mem_map.mp hr
  refine ⟨hpos i, ?_, fun s hs => List.mem_range.mp (List.mem_filter.mp hs).1⟩
  have hlen : (c.seqIds sh (-1) i).length ≤ sh.nSeqMax :=
    (List.length_filter_le _ _).trans_eq List.length_range
  have hmax := sh.nSeqMax_lt
  dsimp only
  omega

/-- A cell is written with all its sequences, if they are below `n_seq_max`. -/
theorem seqIds_all (h : ∀ s ∈ c.seq i, s < sh.nSeqMax) :
    (c.seqIds sh (-1) i).toFinset = c.seq i := by
  ext s
  unfold Cells.seqIds
  simp only [List.mem_toFinset, List.mem_filter, List.mem_range, decide_true, Bool.or_true,
    Bool.true_and, decide_eq_true_eq]
  exact ⟨fun hs => hs.2, fun hs => ⟨h s hs, hs⟩⟩

/-- What the refilled cells hold. -/
theorem refilled_cells (hseq : ∀ i, ∀ s ∈ c.seq i, s < sh.nSeqMax) :
    (∀ k < c.cellCount (-1), (d.refilled sh c).cells.cell k =
      c.cell ((c.savedCells (-1)).getD k 0)) ∧
    ∀ k, c.cellCount (-1) ≤ k → (d.refilled sh c).cells.cell k = (-1, ∅) := by
  obtain ⟨-, -, hrest, hfilled⟩ := fillCells_spec (c.records sh) 0 d.clear.cells
  rw [records_length, Nat.zero_add] at hrest
  refine ⟨fun k hk => ?_, fun k hk => ?_⟩
  · have hk' : k < (c.savedCells (-1)).length := by rwa [← cellCount_length]
    have hget : (c.records sh)[k]? = some (c.pos ((c.savedCells (-1)).getD k 0),
        c.seqIds sh (-1) ((c.savedCells (-1)).getD k 0)) := by
      rw [Cells.records, List.getElem?_map, List.getElem?_eq_getElem hk', List.getD_eq_getElem _ _ hk']
      rfl
    obtain ⟨hpos, hids⟩ := hfilled k _ hget
    rw [Nat.zero_add] at hpos hids
    refine Prod.ext hpos (hids.trans ?_)
    rw [seqIds_all (hseq _)]
    exact Finset.empty_union _
  · obtain ⟨hpos, hseq⟩ := hrest k (Or.inr hk)
    exact Prod.ext hpos hseq

theorem stateReadBody_whole {rest : List UInt8} (hpos : ∀ i, InI32 (c.pos i))
    (hsize : c.size < 2 ^ 32) (hroom : c.cellCount (-1) ≤ d.cells.size) :
    stateReadBody sh alloc (-1) ⟨d, toLe 4 (c.cellCount (-1)) ++
        (c.savedCells (-1)).flatMap (c.cellRecord sh (-1)) ++ rest⟩ =
      stateReadData sh alloc (c.cellCount (-1)) ⟨d.refilled sh c, rest⟩ := by
  have hcount : c.cellCount (-1) < 2 ^ 32 := by
    refine lt_of_le_of_lt ?_ hsize
    rw [cellCount_length]
    exact (List.length_filter_le _ _).trans_eq List.length_range
  have hread := @readCells_ok rest sh (c.records sh) 0 d.clear (records_ok hpos)
  rw [records_length] at hread
  unfold stateReadBody stateReadMeta
  rw [List.append_assoc, bind_ok (readU32_ok hcount), if_neg (fun h => h rfl), records_bytes]
  simp only [bind_assoc]
  rw [bind_ok (show (get : Read Restore) _ = .ok _ _ from rfl), bind_ok (require_ok hroom),
    bind_ok (show onCache Cache.clear _ = .ok () _ from rfl), bind_ok hread]
  rfl

/-- A growth that fails ends the data pass. -/
theorem stateReadData_ungrown {e : Cache} {n : Nat} {data : Half → Layer → List UInt8}
    (hv : sh.vTrans = false) (hn : n ≤ e.cells.size)
    (hgrow : (mzGrowChunks sh alloc (e.head + n) e).2 = false) :
    ∃ s', stateReadData sh alloc n ⟨e, dataStream sh data⟩ = .error .thrown s' := by
  have hthrows : ∀ input, ∃ s', growFor sh alloc (fun head => head + n) ⟨e, input⟩ =
      .error .thrown s' := by
    intro input
    unfold growFor
    dsimp only
    rw [hgrow]
    exact ⟨_, rfl⟩
  unfold stateReadData dataStream
  rw [List.append_assoc, bind_ok (readU32_ok (by decide)), bind_ok (readU32_ok sh.layers_lt),
    bind_ok (require_ok rfl), bind_ok (show (get : Read Restore) _ = .ok _ _ from rfl), bind_ok (require_ok hn),
    bind_ok (require_ok (by rw [hv]; rfl))]
  obtain ⟨s', hs'⟩ := hthrows _
  exact ⟨s', bind_error hs'⟩

/-! ## Growth by the tables alone -/

theorem growLayerChunk_tables {e e' : Cache} (h : e.tensors = e'.tensors) (l : Layer) (idx : Nat) :
    (growLayerChunk alloc l idx e).2 = (growLayerChunk alloc l idx e').2 ∧
      (growLayerChunk alloc l idx e).1.tensors = (growLayerChunk alloc l idx e').1.tensors := by
  unfold growLayerChunk
  rw [h]
  split
  · exact ⟨rfl, h⟩
  split
  · exact ⟨rfl, h⟩
  split
  · exact ⟨rfl, rfl⟩
  · exact ⟨rfl, h⟩

theorem growList_tables (todo : List (Layer × Nat)) : ∀ {e e' : Cache}, e.tensors = e'.tensors →
    (growList alloc todo e).2 = (growList alloc todo e').2 := by
  induction todo with
  | nil => exact fun _ => rfl
  | cons x rest ih =>
      intro e e' h
      obtain ⟨hflag, htensors⟩ := @growLayerChunk_tables alloc e e' h x.1 x.2
      unfold growList
      dsimp only
      rw [hflag]
      split
      · exact ih htensors
      · exact hflag

/-- Whether the cache grows depends on its tables and on the allocator. -/
theorem mzGrowChunks_tables {e e' : Cache} (h : e.tensors = e'.tensors)
    (hn : e.nChunksAlloc = e'.nChunksAlloc) (n : Nat) :
    (mzGrowChunks sh alloc n e).2 = (mzGrowChunks sh alloc n e').2 := by
  unfold mzGrowChunks
  dsimp only
  rw [hn]
  split
  · rfl
  split
  · rfl
  have hlist := @growList_tables alloc (sh.layers.flatMap fun l =>
    (List.range' e'.nChunksAlloc (chunksFor n - e'.nChunksAlloc)).map fun idx => (l, idx)) e e' h
  rw [hlist]
  split
  · rfl
  · exact hlist

end

end MzCache.Unified
