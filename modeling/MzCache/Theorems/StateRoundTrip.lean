import MzCache.Theorems.SequenceRoundTrip
import MzCache.Unified.WholeRestore

/-!
# Saving and restoring a whole cache

The stream of a whole-cache save is the one that a flat tensor would give. Restored into a fresh
cache it puts saved cell `k` into cell `k`, with its rows at chunk `k / 256`, for every contents of
the source if and only if the cache can grow to the cells and the rows of grown chunks fit.
-/

namespace MzCache.Theorems

open MzCache MzCache.Lib MzCache.Unified

/-- The saved cells of `c` stand in the first cells of `r`, which has no others. -/
structure Restored (sh : Shape) (c r : Cache) : Prop where
  cells : ∀ k < c.cells.cellCount (-1),
    r.cells.cell k = c.cells.cell ((c.cells.savedCells (-1)).getD k 0)
  rest : ∀ k, c.cells.cellCount (-1) ≤ k → r.cells.cell k = (-1, ∅)
  rows : ∀ l ∈ sh.layers, ∀ h, ∀ k < c.cells.cellCount (-1),
    r.row (l.slot h) (l.sizeRow h) k =
      c.row (l.slot h) (l.sizeRow h) ((c.cells.savedCells (-1)).getD k 0)

/-- The save writes what the unchunked path would write, and the restore reads all of it. -/
def RoundTrip (sh : Shape) (alloc : Alloc) (c d : Cache) : Prop :=
  ∃ stream r, stateWrite sh c (-1) = some stream ∧
    stream = unchunkedStream sh c.cells (-1) (fun l => c.flat l.kSlot l.kSizeRow)
      (fun l => c.flat l.vSlot l.vSizeRow) ∧
    stateRead sh alloc (-1) ⟨d, stream⟩ = .ok () ⟨r, []⟩ ∧ Restored sh c r

section

variable {sh : Shape} {alloc : Alloc} {cells : Cells} {c d g : Cache} {n : Nat}

theorem savedAll_used (htidy : cells.Tidy) : ∀ i ∈ cells.savedCells (-1), i < cells.usedMaxP1 := by
  intro i hi
  have hpos : cells.pos i ≠ -1 := by
    intro h
    have hsaved := (List.mem_filter.mp hi).2
    simp [Cells.saved, Cells.isEmpty, h] at hsaved
  exact Finset.le_sup (f := (· + 1)) ((htidy.used i).mpr hpos)

theorem savedAll_there (htidy : c.cells.Tidy) (hres : c.AllResident sh c.cells.usedMaxP1) :
    ∀ l ∈ sh.layers, ∀ h, ∀ i ∈ c.cells.savedCells (-1), c.RowThere (l.slot h) i :=
  fun _ hl h i hi => AllResident.rowThere hres hl h (savedAll_used htidy i hi)

/-- The rows of the saved cells, in a destination that has grown. -/
def Cache.wholeResult (sh : Shape) (c g : Cache) : Cache :=
  { g with mem := g.mem.write ((g.places sh 0 (c.cells.cellCount (-1))).zip
      (rowsData sh (c.savedRows (c.cells.savedCells (-1))))) }

/-- The bytes after the rows were written. -/
def Cache.wholeBytes (sh : Shape) (c g : Cache) : Place → UInt8 :=
  writeAll ((g.places sh 0 (c.cells.cellCount (-1))).zip
    (rowsData sh (c.savedRows (c.cells.savedCells (-1))))) g.mem.at

/-- The saved data stands at its places exactly when every saved row is where its new cell is. -/
theorem wholeResult_rows_iff (htidy : c.cells.Tidy) (hres : c.AllResident sh c.cells.usedMaxP1)
    (hhome : g.HomeFor sh (c.cells.cellCount (-1))) :
    (g.places sh 0 (c.cells.cellCount (-1))).map (Cache.wholeBytes sh c g) =
        rowsData sh (c.savedRows (c.cells.savedCells (-1))) ↔
      ∀ l ∈ sh.layers, ∀ h, ∀ k < c.cells.cellCount (-1),
        (Cache.wholeResult sh c g).row (l.slot h) (l.sizeRow h) k =
          c.row (l.slot h) (l.sizeRow h) ((c.cells.savedCells (-1)).getD k 0) := by
  have hrow : ∀ slot sizeRow k, (Cache.wholeResult sh c g).row slot sizeRow k =
      (g.rowPlaces slot sizeRow k).map (Cache.wholeBytes sh c g) := by
    intro slot sizeRow k
    rw [Cache.row_places]
    rfl
  have hiff := @placesHold_iff sh c g (c.cells.savedCells (-1)) 0 (Cache.wholeBytes sh c g)
    (by rw [← cellCount_length]; exact HomeFor.there hhome) (savedAll_there htidy hres)
  rw [← cellCount_length] at hiff
  simpa only [Nat.zero_add, hrow] using hiff

/-- Rows that come back whatever they held have places of their own. -/
theorem places_nodup_of_restored (htidy : cells.Tidy) (hhome : g.HomeFor sh (cells.cellCount (-1)))
    (hall : ∀ f, Restored sh (Cache.source sh cells f)
      (Cache.wholeResult sh (Cache.source sh cells f) g)) :
    (g.places sh 0 (cells.cellCount (-1))).Nodup := by
  have hsrc : ((Cache.source sh cells fun _ => 0).savedPlaces sh
      (cells.savedCells (-1))).Nodup := source_nodup (List.nodup_range.filter _)
  refine nodup_of_map_eq (show (1 : UInt8) ≠ 0 by decide) hsrc fun f =>
    ⟨Cache.wholeBytes sh (Cache.source sh cells f) g, ?_⟩
  refine Eq.trans ?_ (rowsData_places (Cache.source sh cells f) (cells.savedCells (-1)))
  exact (wholeResult_rows_iff (c := Cache.source sh cells f) htidy
    (source_resident sh cells f _) hhome).mpr (hall f).rows

/-- Places of their own bring the rows back. -/
theorem restored_of_places_nodup (htidy : c.cells.Tidy)
    (hres : c.AllResident sh c.cells.usedMaxP1)
    (hseq : ∀ i, ∀ s ∈ c.cells.seq i, s < sh.nSeqMax)
    (hhome : g.HomeFor sh (c.cells.cellCount (-1)))
    (hnodup : (g.places sh 0 (c.cells.cellCount (-1))).Nodup)
    (hcells : g.cells = (d.refilled sh c.cells).cells) :
    Restored sh c (Cache.wholeResult sh c g) := by
  obtain ⟨hfirst, hrest⟩ := @refilled_cells sh c.cells d hseq
  have hcell := congrFun (congrArg Cells.cell hcells)
  have hplaces : (g.places sh 0 (c.cells.cellCount (-1))).length =
      (rowsData sh (c.savedRows (c.cells.savedCells (-1)))).length := by
    refine places_length (HomeFor.there hhome) fun l hl h => ?_
    rw [rows_length (savedAll_there htidy hres l hl h), cellCount_length]
  refine ⟨fun k hk => ?_, fun k hk => ?_, ?_⟩
  · exact (hcell k).trans (hfirst k hk)
  · exact (hcell k).trans (hrest k hk)
  · exact (wholeResult_rows_iff htidy hres hhome).mp (map_writeAll_zip hplaces hnodup g.mem.at)

/-- The result of the read, or its end in an error. -/
theorem stateRead_whole (hv : sh.vTrans = false) (hcells : c.cells = cells) (htidy : cells.Tidy)
    (hsize : cells.size < 2 ^ 32) (hpos : ∀ i, InI32 (cells.pos i))
    (hres : c.AllResident sh cells.usedMaxP1) (hroom : cells.cellCount (-1) ≤ d.cells.size)
    (hn : n = cells.cellCount (-1))
    (hgrow : (Unified.mzGrowChunks sh alloc n (d.refilled sh cells)).1 = g)
    (hhead : g.head = 0)
    (hhome : (Unified.mzGrowChunks sh alloc n (d.refilled sh cells)).2 = true → g.HomeFor sh n) :
    ∃ stream, stateWrite sh c (-1) = some stream ∧
      (∀ r, stateRead sh alloc (-1) ⟨d, stream⟩ = .ok () r →
        (Unified.mzGrowChunks sh alloc n (d.refilled sh cells)).2 = true ∧
          (∀ l ∈ sh.layers, ∀ h, g.HalfInside h 0 n l) ∧ r = ⟨Cache.wholeResult sh c g, []⟩) ∧
      ((Unified.mzGrowChunks sh alloc n (d.refilled sh cells)).2 = true →
        (∀ l ∈ sh.layers, ∀ h, g.HalfInside h 0 n l) →
        stateRead sh alloc (-1) ⟨d, stream⟩ = .ok () ⟨Cache.wholeResult sh c g, []⟩) := by
  subst hcells
  have hrows : ∀ l ∈ sh.layers, ∀ h, (c.savedRows (c.cells.savedCells (-1)) h l).length =
      n * l.sizeRow h := by
    intro l hl h
    rw [hn, cellCount_length]
    exact rows_length (savedAll_there htidy hres l hl h)
  refine ⟨_, stateWrite_rows hv (savedAll_used htidy) hres, ?_⟩
  set stream := toLe 4 (c.cells.cellCount (-1)) ++
    (c.cells.savedCells (-1)).flatMap (c.cells.cellRecord sh (-1)) ++
      dataStream sh (c.savedRows (c.cells.savedCells (-1))) with hstream
  have hbody := @stateReadBody_whole sh alloc c.cells d
    (dataStream sh (c.savedRows (c.cells.savedCells (-1)))) hpos hsize hroom
  rw [← hstream, ← hn] at hbody
  have hok : ∀ r, stateRead sh alloc (-1) ⟨d, stream⟩ = .ok () r ↔
      stateReadData sh alloc n ⟨d.refilled sh c.cells,
        dataStream sh (c.savedRows (c.cells.savedCells (-1)))⟩ = .ok () r := by
    intro r
    unfold stateRead
    rw [hbody]
    split
    · rename_i heq
      rw [heq]
      constructor
      · exact fun h => nomatch h
      · exact fun h => nomatch h
    · exact Iff.rfl
  have hsizes : n ≤ (d.refilled sh c.cells).cells.size := by
    have hfill := (fillCells_spec (c.cells.records sh) 0 d.clear.cells).1
    exact (hn.trans_le hroom).trans_eq hfill.symm
  cases hflag : (Unified.mzGrowChunks sh alloc n (d.refilled sh c.cells)).2 with
  | false =>
      refine ⟨fun r hr => ?_, fun h => absurd h Bool.false_ne_true⟩
      obtain ⟨s', hs'⟩ := @stateReadData_ungrown sh alloc (d.refilled sh c.cells) n
        (c.savedRows (c.cells.savedCells (-1))) hv hsizes (by
          show (Unified.mzGrowChunks sh alloc (0 + n) _).2 = false
          rwa [Nat.zero_add])
      rw [hok, hs'] at hr
      exact nomatch hr
  | true =>
      have hgrown : Unified.mzGrowChunks sh alloc ((d.refilled sh c.cells).head + n)
          (d.refilled sh c.cells) = (g, true) := by
        show Unified.mzGrowChunks sh alloc (0 + n) _ = _
        rw [Nat.zero_add]
        exact Prod.ext hgrow hflag
      obtain ⟨hwrite, hcrash⟩ := stateReadData_writes hv hgrown hhead hsizes
        (HomeFor.there (hhome hflag)) hrows
      rw [hn] at hwrite
      refine ⟨fun r hr => ?_, fun _ hin => (hok _).mpr ?_⟩
      · rw [hok] at hr
        by_cases hin : ∀ l ∈ sh.layers, ∀ h, g.HalfInside h 0 n l
        · rw [hn, hwrite (hn ▸ hin)] at hr
          exact ⟨rfl, hin, (EStateM.Result.ok.inj hr).2.symm⟩
        · obtain ⟨s', hs'⟩ := hcrash hin
          rw [hs'] at hr
          exact nomatch hr
      · rw [hn]
        exact hwrite (hn ▸ hin)

/-- What the growth of the refilled cache leaves. -/
theorem refilled_grown (kvSize : Nat) (cells : Cells) (n : Nat) {g : Cache}
    (hgrow : (Unified.mzGrowChunks sh alloc n ((Cache.fresh sh kvSize).refilled sh cells)).1 = g) :
    g.cells = ((Cache.fresh sh kvSize).refilled sh cells).cells ∧ g.head = 0 ∧
      ((Unified.mzGrowChunks sh alloc n ((Cache.fresh sh kvSize).refilled sh cells)).2 = true →
        g.HomeFor sh n) := by
  have hlaid : ((Cache.fresh sh kvSize).refilled sh cells).Laid sh :=
    (Laid.fresh sh kvSize).keep rfl rfl rfl rfl
  obtain ⟨hlaid', hcells, hhead, -, hdone⟩ := @mzGrowChunks_spec sh _ alloc hlaid n
  subst hgrow
  refine ⟨hcells, hhead, fun hflag l hl ci hci => ?_⟩
  exact hlaid'.atHome l hl ci (hlaid'.counted l hl ci (lt_of_lt_of_le hci (hdone hflag)))

/-- A whole-cache save restored into a fresh cache gives the saved cells and rows, for every
contents of the source, if and only if the chunks can be allocated and the rows of grown chunks fit
in half an allocation each. -/
theorem state_round_trip_iff (sh : Shape) (hv : sh.vTrans = false) (alloc : Alloc) (cells : Cells)
    (htidy : cells.Tidy) (hsize : cells.size < 2 ^ 32) (hpos : ∀ i, InI32 (cells.pos i))
    (hseq : ∀ i, ∀ s ∈ cells.seq i, s < sh.nSeqMax) (kvSize : Nat)
    (hroom : cells.cellCount (-1) ≤ kvSize) :
    (∀ c : Cache, c.cells = cells → c.AllResident sh cells.usedMaxP1 →
      RoundTrip sh alloc c (Cache.fresh sh kvSize)) ↔
    (Unified.mzGrowChunks sh alloc (cells.cellCount (-1)) (Cache.fresh sh kvSize)).2 = true ∧
      GrownRowsFit sh (cells.cellCount (-1)) := by
  set d := Cache.fresh sh kvSize
  obtain ⟨n, hn⟩ : ∃ n, n = cells.cellCount (-1) := ⟨_, rfl⟩
  obtain ⟨g, hgrow⟩ : ∃ g, (Unified.mzGrowChunks sh alloc n (d.refilled sh cells)).1 = g :=
    ⟨_, rfl⟩
  obtain ⟨hcells, hhead, hhome⟩ := refilled_grown kvSize cells n hgrow
  have hflag : (Unified.mzGrowChunks sh alloc n (d.refilled sh cells)).2 =
      (Unified.mzGrowChunks sh alloc n d).2 :=
    @mzGrowChunks_tables sh alloc (d.refilled sh cells) d rfl rfl n
  have hread := fun (c : Cache) (hc : c.cells = cells) (hres : c.AllResident sh cells.usedMaxP1) =>
    stateRead_whole (d := d) hv hc htidy hsize hpos hres hroom hn hgrow hhead hhome
  rw [← hn]
  constructor
  · intro hall
    have hsource : ∀ f, (Unified.mzGrowChunks sh alloc n (d.refilled sh cells)).2 = true ∧
        (∀ l ∈ sh.layers, ∀ h, g.HalfInside h 0 n l) ∧
        Restored sh (Cache.source sh cells f)
          (Cache.wholeResult sh (Cache.source sh cells f) g) := by
      intro f
      obtain ⟨stream, r, hstream, -, hr, hrestored⟩ := hall (Cache.source sh cells f) rfl
        (source_resident sh cells f _)
      obtain ⟨stream', hstream', hok, -⟩ := hread (Cache.source sh cells f) rfl
        (source_resident sh cells f _)
      obtain rfl := Option.some.inj (hstream.symm.trans hstream')
      obtain ⟨hgrown, hinside, hresult⟩ := hok _ hr
      have hcache := congrArg Restore.cache hresult
      dsimp only at hcache
      exact ⟨hgrown, hinside, hcache ▸ hrestored⟩
    obtain ⟨hgrown, hinside, -⟩ := hsource fun _ => 0
    have hnodup := places_nodup_of_restored htidy (hn ▸ hhome hgrown) fun f => (hsource f).2.2
    rw [← hn] at hnodup
    exact ⟨hflag.symm.trans hgrown, (HomeFor.fit_iff (hhome hgrown)).mp ⟨hinside, hnodup⟩⟩
  · rintro ⟨hgrown, hfit⟩ c hc hres
    obtain ⟨stream, hstream, -, hok⟩ := hread c hc hres
    have hhomes := hhome (hflag.trans hgrown)
    obtain ⟨hinside, hnodup⟩ := (HomeFor.fit_iff hhomes).mpr hfit
    subst hc
    rw [hn] at hhomes hnodup
    have hflat := stateWrite_eq (-1) hv (savedAll_used htidy) hres
    exact ⟨stream, _, hstream, Option.some.inj (hstream.symm.trans hflat),
      hok (hflag.trans hgrown) hinside,
      restored_of_places_nodup htidy hres hseq hhomes hnodup hcells⟩

end

theorem oneCells_rowsFit : GrownRowsFit Shape.single (oneCells.cellCount (-1)) := by
  intro l _ h
  have hnone : min tokensPerChunk (oneCells.cellCount (-1) - tokensPerChunk) = 0 := by decide
  rw [hnone, Nat.zero_mul]
  exact Nat.zero_le _

theorem oneCells_seq : ∀ i, ∀ s ∈ oneCells.seq i, s < Shape.single.nSeqMax := by
  intro i s hs
  have hseq : oneCells.seq i = if i = 2 then {0} else ∅ := Function.update_apply _ _ _ _
  rw [hseq] at hs
  split at hs
  · rw [Finset.mem_singleton.mp hs]
    exact Nat.one_pos
  · exact (Finset.notMem_empty s hs).elim

theorem state_round_trip_one : oneCells.cellCount (-1) = 1 ∧ ∀ c : Cache, c.cells = oneCells →
    c.AllResident Shape.single oneCells.usedMaxP1 →
    RoundTrip Shape.single (fun _ _ => true) c (Cache.fresh Shape.single 4) :=
  ⟨by decide, (state_round_trip_iff Shape.single rfl (fun _ _ => true) oneCells oneCells_tidy
    (by decide) (fun i => (oneCells_posOk i).1) oneCells_seq 4 (by decide)).mpr
    ⟨by decide, oneCells_rowsFit⟩⟩

end MzCache.Theorems
