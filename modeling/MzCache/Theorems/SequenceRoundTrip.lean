import MzCache.Unified.CacheRuns
import MzCache.Unified.SeqNeeds

/-!
# One sequence into another cache

A sequence that is written and read back into another cache stands there cell by cell and row by
row, beside sequences that have not changed, if it has cells, an identifier that is written, and a
slot that fits. Otherwise some contents of the source fail an assertion, are refused, or end up in
the wrong place.
-/

namespace MzCache.Theorems

open MzCache MzCache.Lib MzCache.Unified

/-- The stream is refused, its records having been read, because no slot is found for them. -/
def ReportsNoSlot (sh : Shape) (alloc : Alloc) (d : Cache) (t : Nat) (stream : List UInt8) : Prop :=
  (∃ s', stateRead sh alloc (t : Int) ⟨d, stream⟩ = .error .refused s') ∧
    ∃ n s₁ toks s₂, readU32 ⟨d, stream⟩ = .ok n s₁ ∧
      readUbatch t n ⟨s₁.cache.without t, s₁.input⟩ = .ok toks s₂ ∧
      s₂.cache.findSlot sh toks.length = none

/-- Sequence `s` of `c` is written and read into `d` as sequence `t`: the read says that there is
no slot, or the sequence is there. -/
def SeqRoundTrip (sh : Shape) (alloc : Alloc) (c d : Cache) (s t : Nat) : Prop :=
  ∃ stream, stateWrite sh c (s : Int) = some stream ∧
    (ReportsNoSlot sh alloc d t stream ∨
      ∃ r head, stateRead sh alloc (t : Int) ⟨d, stream⟩ = .ok () ⟨r, []⟩ ∧
        SeqRestored sh c d r s t head)

/-- The sequence has cells and an identifier that is written, and the slot that is found fits. -/
structure SeqFits (sh : Shape) (alloc : Alloc) (cells : Cells) (d : Cache) (s t : Nat) : Prop where
  occupied : 0 < cells.cellCount (s : Int)
  known : s < sh.nSeqMax
  fits : ∀ head, (d.without t).findSlot sh (cells.cellCount (s : Int)) = some head →
    SlotFits sh alloc d t (cells.cellCount (s : Int)) head

section

variable {sh : Shape} {alloc : Alloc} {cells : Cells} {c d : Cache} {head s t : Nat}
  {stream : List UInt8}

theorem stateRead_ok_iff {r : Restore} : stateRead sh alloc (t : Int) ⟨d, stream⟩ = .ok () r ↔
    stateReadBody sh alloc (t : Int) ⟨d, stream⟩ = .ok () r := by
  unfold stateRead
  split
  · rename_i heq
    rw [heq]
    constructor
    · exact fun h => nomatch h
    · exact fun h => nomatch h
  · exact Iff.rfl

/-- What is written for the sequence. -/
def Cache.seqStream (sh : Shape) (c : Cache) (s : Nat) : List UInt8 :=
  toLe 4 (c.cells.cellCount (s : Int)) ++
    (c.cells.savedCells (s : Int)).flatMap (c.cells.cellRecord sh (s : Int)) ++
      dataStream sh (c.savedRows (c.cells.savedCells (s : Int)))

theorem savedCells_used (htidy : cells.Tidy) :
    ∀ i ∈ cells.savedCells (s : Int), i < cells.usedMaxP1 := by
  intro i hi
  have hused := (htidy.used i).mpr (mem_savedCells.mp hi).2.1
  exact Finset.le_sup (f := (· + 1)) hused

theorem stateWrite_seq (hv : sh.vTrans = false) (hcells : c.cells = cells) (htidy : cells.Tidy)
    (hres : c.AllResident sh cells.usedMaxP1) : stateWrite sh c (s : Int) = some (Cache.seqStream sh c s) := by
  subst hcells
  exact stateWrite_rows hv (savedCells_used htidy) hres

section

variable (hcells : c.cells = cells) (hsize : cells.size < 2 ^ 32) (hpos : cells.PosOk)
  (hs : cells.savedCells (s : Int) ≠ [] → s < sh.nSeqMax)
include hcells hsize hpos hs

/-- The read is a placement and a data pass. -/
theorem seqStream_read :
    stateReadBody sh alloc (t : Int) ⟨d, Cache.seqStream sh c s⟩ =
      (placeUbatch sh alloc t (cells.seqTokens s t) >>= fun _ =>
        stateReadData sh alloc (cells.seqTokens s t).length)
      ⟨d.without t, dataStream sh (c.savedRows (cells.savedCells (s : Int)))⟩ := by
  subst hcells
  exact stateReadBody_seq hs (fun i => (hpos i).1) hsize

/-- The records of the stream are what the reader takes. -/
theorem seqStream_records :
    ∃ s₁ s₂, readU32 ⟨d, Cache.seqStream sh c s⟩ = .ok (cells.cellCount (s : Int)) s₁ ∧
      readUbatch t (cells.cellCount (s : Int)) ⟨s₁.cache.without t, s₁.input⟩ =
        .ok (cells.seqTokens s t) s₂ ∧ s₂.cache = d.without t := by
  subst hcells
  unfold Cache.seqStream
  rw [List.append_assoc]
  exact ⟨_, _, readU32_ok (lt_of_le_of_lt (cellCount_le _ _) hsize),
    seqTokens_read hs fun i => (hpos i).1, rfl⟩

/-- Without a slot the read says so. -/
theorem reportsNoSlot
    (hnone : (d.without t).findSlot sh (cells.cellCount (s : Int)) = none) :
    ReportsNoSlot sh alloc d t (Cache.seqStream sh c s) := by
  obtain ⟨s₁, s₂, hread, htoks, hcache⟩ :=
    @seqStream_records sh cells c d s t hcells hsize hpos hs
  refine ⟨?_, _, s₁, _, s₂, hread, htoks, ?_⟩
  · have hbody := @seqStream_read sh alloc cells c d s t hcells hsize hpos hs
    have hplace : ∀ input, placeUbatch sh alloc t (cells.seqTokens s t) ⟨d.without t, input⟩ =
        .error .refused ⟨d.without t, input⟩ := by
      intro input
      unfold placeUbatch
      dsimp only
      rw [seqTokens_length, hnone]
    rw [bind_error (hplace _)] at hbody
    unfold stateRead
    rw [hbody]
    exact ⟨_, rfl⟩
  · rw [hcache, seqTokens_length]
    exact hnone

/-- With one the read goes through exactly when the slot accepts the tokens. -/
theorem seqRoundTrip_found (hd : d.cells.Tidy) (hb : d.Backed sh) (hv : sh.vTrans = false)
    (htidy : cells.Tidy) (hres : c.AllResident sh cells.usedMaxP1)
    (hfound : (d.without t).findSlot sh (cells.cellCount (s : Int)) = some head) :
    SeqRoundTrip sh alloc c d s t ↔ (d.without t).Accepts sh alloc t head (cells.seqTokens s t) ∧
      ∃ head', SeqRestored sh c d ((d.without t).filled sh alloc head (cells.seqTokens s t)
        (rowsData sh (c.savedRows (cells.savedCells (s : Int))))) s t head' := by
  have hlen := seqTokens_length cells s t
  have hrows : ∀ l ∈ sh.layers, ∀ h, (c.savedRows (cells.savedCells (s : Int)) h l).length =
      (cells.seqTokens s t).length * l.sizeRow h := by
    intro l hl h
    subst hcells
    rw [hlen]
    exact savedRows_length fun i hi => AllResident.rowThere hres hl h (savedCells_used htidy i hi)
  have hread := @seqStream_read sh alloc cells c d s t hcells hsize hpos hs
  obtain ⟨hok, herr⟩ := @place_and_read sh alloc (d.without t) t hv (hb.without hd t)
    (cells.seqTokens s t) head (by rw [hlen]; exact hfound) _ hrows
  rw [← hread] at hok herr
  constructor
  · rintro ⟨stream, hstream, hreport | ⟨r, head', hr, hrestored⟩⟩
    · -- the reader's records are the tokens, and there is a slot for them
      rw [stateWrite_seq hv hcells htidy hres, Option.some.injEq] at hstream
      subst hstream
      obtain ⟨-, n, s₁, toks, s₂, hn, htoks, hnone⟩ := hreport
      obtain ⟨s₁', s₂', hn', htoks', hcache⟩ :=
        @seqStream_records sh cells c d s t hcells hsize hpos hs
      rw [hn'] at hn
      obtain ⟨rfl, rfl⟩ := EStateM.Result.ok.inj hn
      rw [htoks'] at htoks
      obtain ⟨rfl, rfl⟩ := EStateM.Result.ok.inj htoks
      rw [hcache, hlen, hfound] at hnone
      exact absurd hnone (by simp)
    · rw [stateWrite_seq hv hcells htidy hres, Option.some.injEq] at hstream
      subst hstream
      rw [stateRead_ok_iff] at hr
      by_cases hacc : (d.without t).Accepts sh alloc t head (cells.seqTokens s t)
      · rw [hok hacc] at hr
        have hcache := congrArg Restore.cache (EStateM.Result.ok.inj hr).2
        dsimp only at hcache
        exact ⟨hacc, head', hcache ▸ hrestored⟩
      · obtain ⟨e, s', -, he⟩ := herr hacc
        rw [he] at hr
        exact nomatch hr
  · rintro ⟨hacc, head', hrestored⟩
    exact ⟨_, stateWrite_seq hv hcells htidy hres, .inr ⟨_, head',
      stateRead_ok_iff.mpr (hok hacc), hrestored⟩⟩

end

/-- A sequence without an identifier is refused, and not for want of a slot. -/
theorem not_seqRoundTrip_unknown (hv : sh.vTrans = false) (hcells : c.cells = cells)
    (htidy : cells.Tidy) (hsize : cells.size < 2 ^ 32) (hpos : cells.PosOk)
    (hres : c.AllResident sh cells.usedMaxP1) (hs : ¬ s < sh.nSeqMax)
    (hsome : cells.savedCells (s : Int) ≠ []) : ¬ SeqRoundTrip sh alloc c d s t := by
  rintro ⟨stream, hstream, hresult⟩
  rw [stateWrite_seq hv hcells htidy hres, Option.some.injEq] at hstream
  subst hstream hcells
  obtain ⟨s₁, s₂, hn, hrefused, hbody⟩ := @stateReadBody_refused sh alloc d t c.cells s
    (dataStream sh (c.savedRows (c.cells.savedCells (s : Int)))) hs (fun i => (hpos i).1) hsize
    hsome
  rcases hresult with hreport | ⟨r, head, hr, -⟩
  · obtain ⟨-, n, s₁', toks, s₂', hn', htoks, -⟩ := hreport
    obtain ⟨rfl, rfl⟩ := EStateM.Result.ok.inj (hn'.symm.trans hn)
    exact nomatch htoks.symm.trans hrefused
  · exact nomatch (stateRead_ok_iff.mp hr).symm.trans hbody

/-- There is always a slot for nothing. -/
theorem findSlot_zero (c : Cache) : ∃ head, c.findSlot sh 0 = some head := by
  have hsearch : ∀ headCur, ∃ head,
      findSlotFrom sh c.cells 0 (2 * c.cells.size + 2) headCur 0 = some head := by
    intro headCur
    rw [findSlotFrom]
    by_cases hover : headCur + 0 > c.cells.size
    · rw [if_pos hover, findSlotFrom, if_neg (Nat.not_lt_zero _)]
      exact ⟨0, rfl⟩
    · rw [if_neg hover]
      exact ⟨headCur, rfl⟩
  unfold Cache.findSlot
  dsimp only
  rw [if_neg (Nat.not_lt_zero _)]
  exact hsearch _

/-- A sequence without cells ends in a failed assertion, or the cache cannot grow. -/
theorem not_seqRoundTrip_empty (hv : sh.vTrans = false) (hcells : c.cells = cells)
    (htidy : cells.Tidy) (hsize : cells.size < 2 ^ 32) (hpos : cells.PosOk)
    (hres : c.AllResident sh cells.usedMaxP1) (hd : d.cells.Tidy) (hb : d.Backed sh)
    (hnone : cells.cellCount (s : Int) = 0) : ¬ SeqRoundTrip sh alloc c d s t := by
  intro htrip
  have hsaved : cells.savedCells (s : Int) = [] := by
    rw [cellCount_length] at hnone
    exact List.length_eq_zero_iff.mp hnone
  have htoks : cells.seqTokens s t = [] := by rw [Cells.seqTokens, hsaved, List.map_nil]
  obtain ⟨head, hfound⟩ := @findSlot_zero sh (d.without t)
  obtain ⟨hacc, -⟩ := (seqRoundTrip_found hcells hsize hpos (fun h => absurd hsaved h) hd hb hv htidy
    hres (by rw [hnone]; exact hfound)).mp htrip
  have hfirst := hacc.checked.2.1
  rw [htoks] at hfirst
  exact absurd hfirst (by simp)

/-- Saving one sequence and restoring it as another brings it there, for every contents of the
source, if and only if it has cells, an identifier, and a slot that fits or none at all. -/
theorem seq_round_trip_iff (sh : Shape) (hv : sh.vTrans = false) (alloc : Alloc) (cells : Cells)
    (htidy : cells.Tidy) (hsize : cells.size < 2 ^ 32) (hpos : cells.PosOk) (d : Cache)
    (hd : d.cells.Tidy) (hdpos : d.cells.PosOk) (hb : d.Backed sh) (s t : Nat)
    (ht : t < llamaMaxSeq) :
    (∀ c : Cache, c.cells = cells → c.AllResident sh cells.usedMaxP1 →
      SeqRoundTrip sh alloc c d s t) ↔ SeqFits sh alloc cells d s t := by
  constructor
  · intro hall
    have hsource : ∀ f, SeqRoundTrip sh alloc (Cache.source sh cells f) d s t := fun f =>
      hall _ rfl (source_resident sh cells f _)
    have hocc : 0 < cells.cellCount (s : Int) := by
      by_contra hzero
      exact not_seqRoundTrip_empty hv rfl htidy hsize hpos (source_resident sh cells _ _) hd hb
        (Nat.eq_zero_of_not_pos hzero) (hsource fun _ => 0)
    have hsaved : cells.savedCells (s : Int) ≠ [] := by
      rw [cellCount_length] at hocc
      exact List.ne_nil_of_length_pos hocc
    have hknown : s < sh.nSeqMax := by
      by_contra hs
      exact not_seqRoundTrip_unknown hv rfl htidy hsize hpos (source_resident sh cells _ _) hs
        hsaved (hsource fun _ => 0)
    refine ⟨hocc, hknown, fun head hfound => ?_⟩
    have htrip := fun f => (seqRoundTrip_found (c := Cache.source sh cells f) rfl hsize hpos
      (fun _ => hknown) hd hb hv htidy (source_resident sh cells f _) hfound).mp (hsource f)
    have hacc := (htrip fun _ => 0).1
    refine RestoresAll.fits ⟨hocc, findSlot_slot hfound, hacc, fun f => ?_⟩ ht hd hdpos hb hpos
    obtain ⟨-, head', hrestored⟩ := htrip f
    rwa [hrestored.head_eq hocc hacc.checked] at hrestored
  · intro hfits c hcells hres
    have hs : cells.savedCells (s : Int) ≠ [] → s < sh.nSeqMax := fun _ => hfits.known
    cases hfound : (d.without t).findSlot sh (cells.cellCount (s : Int)) with
    | none =>
        exact ⟨_, stateWrite_seq hv hcells htidy hres,
          .inl (reportsNoSlot hcells hsize hpos hs hfound)⟩
    | some head =>
        have hslot := hfits.fits head hfound
        have hroom := (findSlot_room hfound).trans_eq without_size
        subst hcells
        refine (seqRoundTrip_found rfl hsize hpos hs hd hb hv htidy hres hfound).mpr
          ⟨hslot.accepts hfits.occupied hroom, head, hslot.restored hd hdpos hb ?_⟩
        exact fun l hl h i hi => AllResident.rowThere hres hl h (savedCells_used htidy i hi)

end

/-! ## A sequence with one cell, and one without -/

/-- Four empty cells. -/
def blankCache : Cache := .fresh Shape.single 4

/-- Sequence 0 in cell 2 of four. -/
def oneCells : Cells := ((Cells.resize 4).posSet 2 7).seqAdd 2 0

theorem blankCache_tidy : blankCache.cells.Tidy := (Cells.resize_indexed 4).tidy

theorem inI32_small {x : Int} (hge : -1 ≤ x) (hle : x ≤ 7) : InI32 x := by
  unfold InI32
  omega

theorem blankCache_posOk : blankCache.cells.PosOk := fun _ =>
  ⟨show InI32 (-1) from inI32_small le_rfl (by decide), .inl rfl⟩

theorem blankCache_backed : blankCache.Backed Shape.single :=
  (Laid.fresh Shape.single 4).backed fun _ h => absurd rfl h

theorem oneCells_pos (i : Nat) : oneCells.pos i = if i = 2 then 7 else -1 :=
  Function.update_apply _ _ _ _

theorem oneCells_tidy : oneCells.Tidy := by
  refine ⟨fun i => ?_, fun i hpos => ?_, fun i hi => ?_⟩
  · rw [oneCells_pos]
    by_cases hi : i = 2 <;> simp [oneCells, Cells.seqAdd, Cells.posSet, Cells.resize, hi]
  · rw [oneCells_pos] at hpos
    have hi : i ≠ 2 := fun h => absurd ((if_pos h).symm.trans hpos) (by decide)
    simp [oneCells, Cells.seqAdd, Cells.posSet, Cells.resize, hi]
  · have hi' : 4 ≤ i := hi
    rw [oneCells_pos, if_neg (by omega)]

theorem oneCells_posOk : oneCells.PosOk := by
  intro i
  rw [oneCells_pos]
  by_cases hi : i = 2
  · rw [if_pos hi]
    exact ⟨inI32_small (by decide) le_rfl, .inr (by decide)⟩
  · rw [if_neg hi]
    exact ⟨inI32_small le_rfl (by decide), .inl rfl⟩

theorem blankCache_fits : SlotFits Shape.single (fun _ _ => true) blankCache 0 1 0 := by
  have hnone : ∀ u j, u ∉ blankCache.cells.seq j := fun _ _ => Finset.notMem_empty _
  refine ⟨fun j hj => absurd hj (hnone 0 j), fun j hge hlt => ?_, by decide, ?_, by decide,
    fun u _ j hj => absurd hj (hnone u j)⟩
  · obtain rfl : j = 0 := by omega
    decide
  · intro l hl h i hge hlt p hp
    obtain rfl : i = 0 := by omega
    obtain rfl := List.mem_singleton.mp hl
    cases h with
    | key =>
        obtain rfl := Option.some.inj hp
        decide
    | value =>
        obtain rfl := Option.some.inj hp
        decide

theorem oneCells_fits :
    SeqFits Shape.single (fun _ _ => true) oneCells blankCache 0 0 := by
  refine ⟨by decide, by decide, fun head hfound => ?_⟩
  have hhead : (blankCache.without 0).findSlot Shape.single (oneCells.cellCount 0) = some 0 := by
    decide
  obtain rfl := Option.some.inj (hfound.symm.trans hhead)
  exact blankCache_fits

theorem seq_round_trip_one : 0 < oneCells.cellCount 0 ∧ ∀ c : Cache, c.cells = oneCells →
    c.AllResident Shape.single oneCells.usedMaxP1 →
    SeqRoundTrip Shape.single (fun _ _ => true) c blankCache 0 0 :=
  ⟨by decide, (seq_round_trip_iff Shape.single rfl (fun _ _ => true) oneCells oneCells_tidy
    (by decide) oneCells_posOk blankCache blankCache_tidy blankCache_posOk blankCache_backed 0 0
    (by decide)).mpr oneCells_fits⟩

/-- A sequence without cells, fewer than the destination has free, ends in a failed assertion. -/
theorem seq_round_trip_empty :
    blankCache.AllResident Shape.single blankCache.cells.usedMaxP1 ∧
    blankCache.cells.cellCount 0 < (List.range 4).countP blankCache.cells.isEmpty ∧
    (∃ stream s', stateWrite Shape.single blankCache 0 = some stream ∧
      stateRead Shape.single (fun _ _ => true) 0 ⟨blankCache, stream⟩ = .error .crashed s') ∧
    ¬ SeqRoundTrip Shape.single (fun _ _ => true) blankCache blankCache 0 0 := by
  have hres : blankCache.AllResident Shape.single blankCache.cells.usedMaxP1 := by
    have hused : blankCache.cells.usedMaxP1 = 0 := Finset.sup_empty
    rw [hused]
    exact fun l _ => ⟨fun _ h => absurd h (Nat.not_lt_zero _),
      fun _ h => absurd h (Nat.not_lt_zero _)⟩
  refine ⟨hres, by decide, ⟨_, _, rfl, rfl⟩, ?_⟩
  exact not_seqRoundTrip_empty rfl rfl blankCache_tidy (by decide) blankCache_posOk hres
    blankCache_tidy blankCache_backed rfl

end MzCache.Theorems
