import MzCache.Unified.SeqRestore

/-!
# Where a sequence may be restored

A slot fits when the destination's own sequence is gone, the slot is free, the cache grows to it,
its rows lie inside their allocations, apart from each other and from the rows of the other
sequences. Then the sequence stands in the slot, cell by cell and row by row, and the others are as
they were.
-/

namespace MzCache.Unified

open MzCache MzCache.Lib

/-! ## Definitions -/

/-- Cell `k` of a sequence. -/
def Cells.savedCell (c : Cells) (s k : Nat) : Nat := (c.savedCells (s : Int)).getD k 0

/-- Sequence `t` of `r` is sequence `s` of `c`, in the cells from `head` on, and the other
sequences are those of `d`. -/
structure SeqRestored (sh : Shape) (c d r : Cache) (s t head : Nat) : Prop where
  size : r.cells.size = d.cells.size
  owned : ∀ j, t ∈ r.cells.seq j ↔ head ≤ j ∧ j < head + c.cells.cellCount (s : Int)
  pos : ∀ k < c.cells.cellCount (s : Int),
    r.cells.pos (head + k) = c.cells.pos (c.cells.savedCell s k)
  rows : ∀ l ∈ sh.layers, ∀ h, ∀ k < c.cells.cellCount (s : Int),
    r.row (l.slot h) (l.sizeRow h) (head + k) =
      c.row (l.slot h) (l.sizeRow h) (c.cells.savedCell s k)
  others : ∀ u, u ≠ t → ∀ j, (u ∈ r.cells.seq j ↔ u ∈ d.cells.seq j) ∧
    (u ∈ d.cells.seq j → r.cells.pos j = d.cells.pos j ∧
      ∀ l ∈ sh.layers, ∀ h, r.row (l.slot h) (l.sizeRow h) j = d.row (l.slot h) (l.sizeRow h) j)

/-- The slot of `n` cells at `head` takes sequence `t`. -/
structure SlotFits (sh : Shape) (alloc : Alloc) (d : Cache) (t n head : Nat) : Prop where
  removed : ∀ j, t ∈ d.cells.seq j → d.cells.pos j < posLimit
  free : FreeSlot (d.without t).cells.cell head n
  grows : (mzGrowChunks sh alloc (head + n) (d.without t)).2 = true
  inside : ∀ l ∈ sh.layers, ∀ h, ((d.without t).grownFor sh alloc head n).HalfInside h head n l
  apart : (((d.without t).grownFor sh alloc head n).places sh head n).Nodup
  others : ∀ u, u ≠ t → ∀ j, u ∈ d.cells.seq j → ∀ l ∈ sh.layers, ∀ h,
    ∀ q ∈ d.rowPlaces (l.slot h) (l.sizeRow h) j,
      q ∉ ((d.without t).grownFor sh alloc head n).places sh head n

/-- Positions that `is_empty` accepts, in 32 bits. -/
def Cells.PosOk (c : Cells) : Prop := ∀ i, InI32 (c.pos i) ∧ (c.pos i = -1 ∨ 0 ≤ c.pos i)

/-! ## Rows in a row -/

section

variable {sh : Shape} {c g : Cache} {s head n : Nat}

theorem savedCells_map (c : Cells) (s : Nat) :
    c.savedCells (s : Int) = (List.range (c.cellCount (s : Int))).map (c.savedCell s) := by
  apply List.ext_getElem
  · rw [List.length_map, List.length_range, cellCount_length]
  · intro k hk hk'
    rw [List.getElem_map, List.getElem_range]
    exact (List.getD_eq_getElem _ _ hk).symm

theorem savedCell_mem {c : Cells} {k : Nat} (hk : k < c.cellCount (s : Int)) :
    c.savedCell s k ∈ c.savedCells (s : Int) := by
  rw [savedCells_map]
  exact List.mem_map_of_mem (List.mem_range.mpr hk)

theorem savedRows_length {h : Half} {l : Layer}
    (hrows : ∀ i ∈ c.cells.savedCells (s : Int), c.RowThere (l.slot h) i) :
    (c.savedRows (c.cells.savedCells (s : Int)) h l).length =
      c.cells.cellCount (s : Int) * l.sizeRow h := by
  rw [cellCount_length]
  exact rows_length hrows

/-- The places of a slot hold the saved rows iff every row holds its own. -/
theorem places_map_iff {m : Place → UInt8}
    (hthere : ∀ l ∈ sh.layers, ∀ h, g.HalfThere h head (c.cells.cellCount (s : Int)) l)
    (hrows : ∀ l ∈ sh.layers, ∀ h, ∀ i ∈ c.cells.savedCells (s : Int), c.RowThere (l.slot h) i) :
    (g.places sh head (c.cells.cellCount (s : Int))).map m =
        rowsData sh (c.savedRows (c.cells.savedCells (s : Int))) ↔
      ∀ l ∈ sh.layers, ∀ h, ∀ k < c.cells.cellCount (s : Int),
        (g.rowPlaces (l.slot h) (l.sizeRow h) (head + k)).map m =
          c.row (l.slot h) (l.sizeRow h) (c.cells.savedCell s k) := by
  rw [cellCount_length] at hthere ⊢
  exact placesHold_iff hthere hrows

end

/-! ## The cells of a slot that fits -/

section

variable {sh : Shape} {alloc : Alloc} {c d : Cache} {cells : Cells} {s t u head j k : Nat}

theorem seqTokens_at (hk : k < cells.cellCount (s : Int)) :
    tokenCell (tokenAt head (cells.seqTokens s t) (head + k)) =
      (cells.pos (cells.savedCell s k), {t}) := by
  unfold tokenAt
  rw [Nat.add_sub_cancel_left, Cells.seqTokens, savedCells_map, List.map_map,
    List.getD_eq_getElem _ _ (by rw [List.length_map, List.length_range]; exact hk),
    List.getElem_map, List.getElem_range]
  rfl

/-- Nothing is left of the destination's own sequence. -/
theorem without_gone (hd : d.cells.Tidy) (hdpos : d.cells.PosOk)
    (hremoved : ∀ j, t ∈ d.cells.seq j → d.cells.pos j < posLimit) :
    t ∉ (d.without t).cells.seq j := by
  intro ht
  obtain ⟨hold, hkept⟩ := (mem_without hd).mp ht
  refine hkept ⟨rfl, (hdpos j).2.resolve_left (hd.pos_of_mem hold), hremoved j hold⟩

theorem mem_without_other (hd : d.cells.Tidy) (hu : u ≠ t) :
    u ∈ (d.without t).cells.seq j ↔ u ∈ d.cells.seq j := by
  rw [mem_without hd]
  exact ⟨fun h => h.1, fun h => ⟨h, fun hut => hu hut.1⟩⟩

theorem filled_cells {toks : List BatchToken} {data : List UInt8}
    (hgrows : (mzGrowChunks sh alloc (head + toks.length) d).2 = true)
    (hfree : FreeSlot d.cells.cell head toks.length) :
    (d.filled sh alloc head toks data).cells.cell = overlay head toks d.cells.cell ∧
      (d.filled sh alloc head toks data).cells.size = d.cells.size :=
  applyUbatch_free hfree ((applyUbatch_layout head toks d).1.trans hgrows)

theorem overlay_in (hge : head ≤ j) (hlt : j < head + cells.cellCount (s : Int))
    (f : Nat → Int × Finset Nat) : overlay head (cells.seqTokens s t) f j =
      (cells.pos (cells.savedCell s (j - head)), {t}) := by
  have hcell := @seqTokens_at cells s t head (j - head) (by omega)
  rw [Nat.add_sub_cancel' hge] at hcell
  rw [overlay, seqTokens_length, if_pos ⟨hge, hlt⟩, hcell]

theorem overlay_out (hout : ¬ (head ≤ j ∧ j < head + cells.cellCount (s : Int)))
    (f : Nat → Int × Finset Nat) : overlay head (cells.seqTokens s t) f j = f j := by
  rw [overlay, seqTokens_length, if_neg hout]

/-- The checks hold in a free slot that is not empty. -/
theorem checked_free {r : Cache} (hcell : r.cells.cell =
      overlay head (c.cells.seqTokens s t) (d.without t).cells.cell)
    (hn : 0 < c.cells.cellCount (s : Int))
    (hroom : head + c.cells.cellCount (s : Int) ≤ r.cells.size) :
    Checked r t head (c.cells.seqTokens s t) := by
  have hlen := seqTokens_length c.cells s t
  have hat : ∀ k < c.cells.cellCount (s : Int), r.cells.cell (head + k) =
      (c.cells.pos (c.cells.savedCell s k), {t}) := by
    intro k hk
    rw [hcell, overlay_in (Nat.le_add_right _ _) (by omega), Nat.add_sub_cancel_left]
  have htoks : ∀ k < c.cells.cellCount (s : Int),
      (c.cells.seqTokens s t)[k]?.map BatchToken.pos =
        some (c.cells.pos (c.cells.savedCell s k)) := by
    intro k hk
    rw [Cells.seqTokens, savedCells_map, List.map_map, List.getElem?_map,
      List.getElem?_range hk]
    rfl
  have hlast : head + c.cells.cellCount (s : Int) - 1 =
      head + (c.cells.cellCount (s : Int) - 1) := by omega
  unfold Checked
  rw [hlen, hlast, List.head?_eq_getElem?, List.getLast?_eq_getElem?, hlen, htoks 0 hn,
    htoks _ (by omega)]
  refine ⟨hroom, ?_, ?_, ?_, ?_⟩
  · exact congrArg some (congrArg Prod.fst (hat 0 hn)).symm
  · exact congrArg some (congrArg Prod.fst (hat _ (by omega))).symm
  · exact (congrArg (t ∈ ·) (congrArg Prod.snd (hat 0 hn))).mpr (Finset.mem_singleton_self t)
  · exact (congrArg (t ∈ ·) (congrArg Prod.snd (hat _ (by omega)))).mpr
      (Finset.mem_singleton_self t)

theorem SlotFits.accepts (hfits : SlotFits sh alloc d t (c.cells.cellCount (s : Int)) head)
    (hn : 0 < c.cells.cellCount (s : Int))
    (hroom : head + c.cells.cellCount (s : Int) ≤ d.cells.size) :
    (d.without t).Accepts sh alloc t head (c.cells.seqTokens s t) := by
  have hlen := seqTokens_length c.cells s t
  obtain ⟨hcell, hsize⟩ := @filled_cells sh alloc (d.without t) head (c.cells.seqTokens s t) []
    (by rw [hlen]; exact hfits.grows) (by rw [hlen]; exact hfits.free)
  refine ⟨by rw [hlen]; exact hfits.grows, ?_, by rw [hlen]; exact hfits.inside⟩
  exact checked_free hcell hn (hroom.trans_eq (without_size.symm.trans hsize.symm))

/-- A row of the filled cache. -/
theorem filled_row (toks : List BatchToken) (data : List UInt8) (slot sizeRow i : Nat) :
    (d.filled sh alloc head toks data).row slot sizeRow i =
      ((d.grownFor sh alloc head toks.length).rowPlaces slot sizeRow i).map
        (writeAll (((d.grownFor sh alloc head toks.length).places sh head toks.length).zip data)
          (d.grownFor sh alloc head toks.length).mem.at) := Cache.row_places _ _ _ _

/-- What stood in a counted chunk stands there after the growth. -/
theorem grownFor_row (hd : d.cells.Tidy) (hb : d.Backed sh) (n : Nat) (hu : u ∈ d.cells.seq j)
    {l : Layer} (hl : l ∈ sh.layers) (h : Half) :
    ((d.without t).grownFor sh alloc head n).rowPlaces (l.slot h) (l.sizeRow h) j =
        d.rowPlaces (l.slot h) (l.sizeRow h) j ∧
      ∀ q ∈ d.rowPlaces (l.slot h) (l.sizeRow h) j,
        ((d.without t).grownFor sh alloc head n).mem.at q = d.mem.at q := by
  obtain ⟨hgrew, -⟩ := @Cache.Backed.mzGrowChunks sh (d.without t) alloc (hb.without hd t) (head + n)
  have hci : j / tokensPerChunk < d.nChunksAlloc :=
    (Nat.div_lt_iff_lt_mul tokensPerChunk_pos).mpr (hb.occupied j (hd.pos_of_mem hu))
  have hptr : ((d.without t).grownFor sh alloc head n).ptr (l.slot h) (j / tokensPerChunk) =
      d.ptr (l.slot h) (j / tokensPerChunk) := hgrew.ptr l hl h _ hci
  refine ⟨?_, fun q hq => ?_⟩
  · unfold Cache.rowPlaces
    rw [hptr]
  · unfold Cache.rowPlaces at hq
    split at hq
    · rename_i p hp
      obtain ⟨x, -, rfl⟩ := List.mem_map.mp hq
      exact congrFun (hgrew.bytes p.block fun il idx heq => hb.fresh l hl h _ hci p hp il idx heq) _
    · exact (List.not_mem_nil hq).elim

/-- A slot that fits takes the sequence and leaves the others. -/
theorem SlotFits.restored (hd : d.cells.Tidy) (hdpos : d.cells.PosOk) (hb : d.Backed sh)
    (hrows : ∀ l ∈ sh.layers, ∀ h, ∀ i ∈ c.cells.savedCells (s : Int), c.RowThere (l.slot h) i)
    (hfits : SlotFits sh alloc d t (c.cells.cellCount (s : Int)) head) :
    SeqRestored sh c d ((d.without t).filled sh alloc head (c.cells.seqTokens s t)
      (rowsData sh (c.savedRows (c.cells.savedCells (s : Int))))) s t head := by
  have hlen := seqTokens_length c.cells s t
  set data := rowsData sh (c.savedRows (c.cells.savedCells (s : Int))) with hdata
  set r := (d.without t).filled sh alloc head (c.cells.seqTokens s t) data with hr
  set n := c.cells.cellCount (s : Int) with hn
  set g := (d.without t).grownFor sh alloc head n with hg
  obtain ⟨hcell, hsize⟩ := @filled_cells sh alloc (d.without t) head (c.cells.seqTokens s t) data
    (by rw [hlen]; exact hfits.grows) (by rw [hlen]; exact hfits.free)
  have hthere : ∀ l ∈ sh.layers, ∀ h, g.HalfThere h head n l :=
    grownFor_there (hb.without hd t) hfits.grows
  have hplaces : (g.places sh head n).length = data.length :=
    places_length hthere fun l hl h => savedRows_length (hrows l hl h)
  have hrow : ∀ slot sizeRow i, r.row slot sizeRow i = (g.rowPlaces slot sizeRow i).map
      (writeAll ((g.places sh head n).zip data) g.mem.at) := by
    intro slot sizeRow i
    have h := @filled_row sh alloc (d.without t) head (c.cells.seqTokens s t) data slot sizeRow i
    rwa [hlen] at h
  have hslot : ∀ j, head ≤ j → j < head + n →
      r.cells.cell j = (c.cells.pos (c.cells.savedCell s (j - head)), {t}) := by
    intro j hge hlt
    exact (congrFun hcell j).trans (overlay_in hge hlt _)
  have hrest : ∀ j, ¬ (head ≤ j ∧ j < head + n) → r.cells.cell j = (d.without t).cells.cell j := by
    intro j hout
    exact (congrFun hcell j).trans (overlay_out hout _)
  refine ⟨hsize.trans without_size, fun j => ?_, fun k hk => ?_, ?_, fun u hu j => ?_⟩
  · by_cases hin : head ≤ j ∧ j < head + n
    · refine ⟨fun _ => hin, fun _ => ?_⟩
      exact (congrArg (t ∈ ·) (congrArg Prod.snd (hslot j hin.1 hin.2))).mpr
        (Finset.mem_singleton_self t)
    · refine ⟨fun ht => absurd ht ?_, fun h => absurd h hin⟩
      exact fun ht => without_gone hd hdpos hfits.removed
        ((congrArg (t ∈ ·) (congrArg Prod.snd (hrest j hin))).mp ht)
  · have h := congrArg Prod.fst (hslot (head + k) (Nat.le_add_right _ _) (by omega))
    rwa [Nat.add_sub_cancel_left] at h
  · have hall := (@places_map_iff sh c g s head _ hthere hrows).mp
      (map_writeAll_zip hplaces hfits.apart g.mem.at)
    intro l hl h k hk
    exact (hrow _ _ _).trans (hall l hl h k hk)
  · by_cases hin : head ≤ j ∧ j < head + n
    · -- the cells of the slot belonged to no one
      have hnone : u ∉ d.cells.seq j := by
        intro hmem
        have hmem' : u ∈ ((d.without t).cells.cell j).2 := (mem_without_other hd hu).mpr hmem
        rw [hfits.free j hin.1 hin.2] at hmem'
        exact Finset.notMem_empty u hmem'
      refine ⟨⟨fun hmem => ?_, fun hmem => absurd hmem hnone⟩, fun hmem => absurd hmem hnone⟩
      have hmem' := (congrArg (u ∈ ·) (congrArg Prod.snd (hslot j hin.1 hin.2))).mp hmem
      exact absurd (Finset.mem_singleton.mp hmem') hu
    · have hmem : u ∈ r.cells.seq j ↔ u ∈ d.cells.seq j :=
        (Iff.of_eq (congrArg (u ∈ ·) (congrArg Prod.snd (hrest j hin)))).trans
          (mem_without_other hd hu)
      refine ⟨hmem, fun hold => ⟨?_, fun l hl h => ?_⟩⟩
      · exact (congrArg Prod.fst (hrest j hin)).trans
          (pos_without ((mem_without_other hd hu).mpr hold))
      · obtain ⟨hsame, hbytes⟩ := @grownFor_row sh alloc d t u head j hd hb n hold l hl h
        rw [hrow, hsame, Cache.row_places]
        refine List.map_congr_left fun q hq => ?_
        rw [writeAll_other ?_, hbytes q hq]
        rw [List.map_fst_zip (Nat.le_of_eq hplaces)]
        exact hfits.others u hu j hold l hl h q hq

end

end MzCache.Unified
