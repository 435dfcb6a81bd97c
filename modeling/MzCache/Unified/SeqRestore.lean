import MzCache.Unified.Decode
import MzCache.Unified.RowWrites

/-!
# Restoring one sequence

A single-sequence restore first removes the destination sequence, then reads the records as a
ubatch, places it in a slot and writes the rows there. The placement is checked against the first
and the last token, so an empty sequence ends in a failed assertion. After the placement the rows
come down to one list of writes.
-/

namespace MzCache.Unified

open MzCache MzCache.Lib

/-! ## The records -/

/-- The ubatch that the records of sequence `s` stand for. -/
def Cells.seqTokens (c : Cells) (s t : Nat) : List BatchToken :=
  (c.savedCells s).map fun i => ⟨0, c.pos i, [t]⟩

section

variable {sh : Shape} {c : Cells} {s t i : Nat}

theorem mem_savedCells : i ∈ c.savedCells (s : Int) ↔
    i < c.size ∧ c.pos i ≠ -1 ∧ s ∈ c.seq i := by
  unfold Cells.savedCells Cells.saved Cells.isEmpty
  rw [List.mem_filter, List.mem_range]
  have hs : ¬ (s : Int) = -1 := by omega
  simp [hs]

theorem seqTokens_length (c : Cells) (s t : Nat) :
    (c.seqTokens s t).length = c.cellCount (s : Int) := by
  rw [Cells.seqTokens, List.length_map, cellCount_length]

theorem cellCount_le (c : Cells) (s : Nat) : c.cellCount (s : Int) ≤ c.size := by
  have h := List.length_filter_le (c.saved (s : Int)) (List.range c.size)
  rw [List.length_range] at h
  rw [cellCount_length]
  exact h

/-- A saved cell is written with its sequence, if that is below `n_seq_max`. -/
theorem seqIds_one (hi : s ∈ c.seq i) :
    c.seqIds sh (s : Int) i = if s < sh.nSeqMax then [s] else [] := by
  unfold Cells.seqIds
  have hs : ¬ (s : Int) = -1 := by omega
  have hone : ∀ cur : Nat,
      ((((cur : Int) = (s : Int) || (s : Int) = -1) && decide (cur ∈ c.seq i)) = true) ↔ cur = s := by
    intro cur
    rw [Bool.and_eq_true, Bool.or_eq_true, decide_eq_true_eq, decide_eq_true_eq,
      decide_eq_true_eq, Nat.cast_inj]
    constructor
    · rintro ⟨h | h, -⟩
      · exact h
      · exact absurd h hs
    · rintro rfl
      exact ⟨.inl rfl, hi⟩
  rw [List.filter_congr fun cur _ => (Bool.eq_iff_iff.mpr ((hone cur).trans
    (beq_iff_eq (a := cur) (b := s)).symm))]
  rw [List.filter_beq, List.count_range]
  split <;> rfl

/-- The records are read as a ubatch. -/
theorem readUbatch_ok {d : Cache} {rest : List UInt8}
    (hpos : ∀ i, InI32 (c.pos i)) (cells : List Nat) :
    (∀ i ∈ cells, s < sh.nSeqMax ∧ s ∈ c.seq i) →
    readUbatch t cells.length ⟨d, cells.flatMap (c.cellRecord sh (s : Int)) ++ rest⟩ =
      .ok (cells.map fun i => ⟨0, c.pos i, [t]⟩) ⟨d, rest⟩ := by
  have hlt := sh.nSeqMax_lt
  induction cells with
  | nil => exact fun _ => rfl
  | cons i cells ih =>
      intro hmem
      obtain ⟨hs, hi⟩ := hmem i List.mem_cons_self
      rw [List.length_cons, readUbatch, List.flatMap_cons, Cells.cellRecord, seqIds_one hi, if_pos hs]
      simp only [List.length_singleton, List.flatMap_cons, List.flatMap_nil, List.append_nil,
        List.append_assoc]
      rw [bind_ok (readI32_ok (hpos i)), bind_ok (readU32_ok (by decide)), bind_ok (require_ok rfl),
        bind_ok (readI32_ok (inI32_natCast (by omega))),
        bind_ok (ih fun i' hi' => hmem i' (List.mem_cons_of_mem _ hi'))]
      rfl

/-- A sequence from `n_seq_max` on is written without its id, and its first record refused. -/
theorem readUbatch_refused {d : Cache} {rest : List UInt8} (hs : ¬ s < sh.nSeqMax)
    (hpos : ∀ i, InI32 (c.pos i)) {i : Nat} (cells : List Nat) (hi : s ∈ c.seq i) :
    ∃ s', readUbatch t (i :: cells).length
      ⟨d, (i :: cells).flatMap (c.cellRecord sh (s : Int)) ++ rest⟩ = .error .refused s' := by
  rw [List.length_cons, readUbatch, List.flatMap_cons, Cells.cellRecord, seqIds_one hi, if_neg hs]
  simp only [List.length_nil, List.flatMap_nil, List.append_nil, List.append_assoc]
  rw [bind_ok (readI32_ok (hpos i)), bind_ok (readU32_ok (by decide))]
  exact ⟨_, bind_error (if_neg (by decide))⟩

end

/-! ## The destination -/

/-- The destination once its sequence has been removed. -/
def Cache.without (d : Cache) (t : Nat) : Cache := d.seqRm (t : Int) (-1) (-1)

section

variable {sh : Shape} {alloc : Alloc} {d : Cache} {t u j : Nat}

theorem without_cell (hj : j < d.cells.size) : (d.without t).cells.cell j =
    dropWhere (fun _ p => 0 ≤ p ∧ p < posLimit) (d.cells.cell j) t := by
  unfold Cache.without
  rw [seqRm_cell, if_pos hj]
  exact if_congr Iff.rfl rfl rfl

theorem without_size : (d.without t).cells.size = d.cells.size := Cache.seqRm_size _ _ _ _

theorem without_beyond (hj : d.cells.size ≤ j) :
    (d.without t).cells.cell j = d.cells.cell j := by
  unfold Cache.without
  rw [seqRm_cell, if_neg (not_lt.mpr hj)]

/-- A sequence loses the cells below the largest position, no other loses one. -/
theorem mem_without (hd : d.cells.Tidy) : u ∈ (d.without t).cells.seq j ↔
    u ∈ d.cells.seq j ∧ ¬ (u = t ∧ 0 ≤ d.cells.pos j ∧ d.cells.pos j < posLimit) := by
  show u ∈ ((d.without t).cells.cell j).2 ↔ _
  by_cases hj : j < d.cells.size
  · rw [without_cell hj]
    exact dropWhere_seq _ _
  · rw [without_beyond (not_lt.mp hj)]
    have hnone : u ∉ (d.cells.cell j).2 := by
      rw [show (d.cells.cell j).2 = ∅ from hd.empty j (hd.beyond j (not_lt.mp hj))]
      exact Finset.notMem_empty u
    exact ⟨fun h => absurd h hnone, fun h => absurd h.1 hnone⟩

theorem pos_without (hu : u ∈ (d.without t).cells.seq j) :
    (d.without t).cells.pos j = d.cells.pos j := by
  have hu' : u ∈ ((d.without t).cells.cell j).2 := hu
  by_cases hj : j < d.cells.size
  · rw [without_cell hj] at hu'
    exact (congrArg Prod.fst (without_cell hj)).trans (dropWhere_pos hu')
  · exact congrArg Prod.fst (without_beyond (not_lt.mp hj))

theorem without_bare (hd : d.cells.Tidy) :
    ((d.without t).cells.cell j).1 = -1 → ((d.without t).cells.cell j).2 = ∅ := by
  intro hpos
  by_contra hne
  obtain ⟨v, hv⟩ := Finset.nonempty_iff_ne_empty.mpr hne
  have hv' := ((mem_without hd).mp hv).1
  rw [show (d.cells.seq j) = ∅ from hd.empty j ((pos_without hv).symm.trans hpos)] at hv'
  exact Finset.notMem_empty v hv'

theorem Cache.Backed.without (h : d.Backed sh) (hd : d.cells.Tidy) (t : Nat) :
    (d.without t).Backed sh := by
  refine ⟨h.counted, h.there, h.fresh, fun j hpos => h.occupied j fun hempty => hpos ?_⟩
  by_cases hj : j < d.cells.size
  · have hcell : d.cells.cell j = (-1, ∅) := Prod.ext hempty (hd.empty j hempty)
    have hsame : (d.without t).cells.cell j = (-1, ∅) := by
      rw [without_cell hj, hcell]
      exact if_neg fun h => Finset.notMem_empty t h.1
    exact congrArg Prod.fst hsame
  · exact (congrArg Prod.fst (without_beyond (not_lt.mp hj))).trans hempty

/-! ## The placement -/

theorem purge_layout (rmMax : SeqPosMaxRm) (seqs : List Nat) : ∀ c : Cache,
    seqs.foldl (purgeSeq rmMax) c = { c with
      cells := (seqs.foldl (purgeSeq rmMax) c).cells
      head := (seqs.foldl (purgeSeq rmMax) c).head } := by
  induction seqs with
  | nil => exact fun _ => rfl
  | cons s seqs ih =>
      intro c
      have hstep : purgeSeq rmMax c s = { c with
          cells := (purgeSeq rmMax c s).cells, head := (purgeSeq rmMax c s).head } := by
        unfold purgeSeq
        split
        · rfl
        · split <;> rfl
      rw [List.foldl_cons]
      refine (ih _).trans ?_
      rw [hstep]

/-- `apply_ubatch` grows the cache and then changes cells only. -/
theorem applyUbatch_layout (head : Nat) (ubatch : List BatchToken) (c : Cache) :
    (applyUbatch sh alloc head ubatch c).2 =
        (mzGrowChunks sh alloc (head + ubatch.length) c).2 ∧
      ((applyUbatch sh alloc head ubatch c).2 = true →
        (applyUbatch sh alloc head ubatch c).1 =
          { (mzGrowChunks sh alloc (head + ubatch.length) c).1 with
            cells := (applyUbatch sh alloc head ubatch c).1.cells
            head := head + ubatch.length }) := by
  unfold applyUbatch
  dsimp only
  split
  · rename_i hok
    refine ⟨hok.symm, fun _ => ?_⟩
    rw [purge_layout]
  · rename_i hfail
    exact ⟨rfl, fun hok => absurd hok hfail⟩

/-- Growth that is not needed does nothing. -/
theorem mzGrowChunks_enough {n : Nat} {c : Cache} (h : chunksFor n ≤ c.nChunksAlloc) :
    mzGrowChunks sh alloc n c = (c, true) := if_pos h

/-! ## The read -/

/-- The checks after the placement. -/
def Checked (c : Cache) (t head : Nat) (toks : List BatchToken) : Prop :=
  head + toks.length ≤ c.cells.size ∧
    (toks.head?.map BatchToken.pos) = some (c.cells.pos head) ∧
    (toks.getLast?.map BatchToken.pos) = some (c.cells.pos (head + toks.length - 1)) ∧
    t ∈ c.cells.seq head ∧ t ∈ c.cells.seq (head + toks.length - 1)

/-- The cache with chunks for a slot at `head`. -/
def Cache.grownFor (sh : Shape) (alloc : Alloc) (head n : Nat) (d : Cache) : Cache :=
  (mzGrowChunks sh alloc (head + n) d).1

/-- The cache with the tokens placed at `head` and `data` written to their rows. -/
def Cache.filled (sh : Shape) (alloc : Alloc) (head : Nat) (toks : List BatchToken)
    (data : List UInt8) (d : Cache) : Cache :=
  { d.grownFor sh alloc head toks.length with
    cells := (applyUbatch sh alloc head toks d).1.cells
    head := head
    mem := (d.grownFor sh alloc head toks.length).mem.write
      (((d.grownFor sh alloc head toks.length).places sh head toks.length).zip data) }

/-- A slot at `head` in which the read goes through. -/
structure Cache.Accepts (sh : Shape) (alloc : Alloc) (d : Cache) (t head : Nat)
    (toks : List BatchToken) : Prop where
  grows : (mzGrowChunks sh alloc (head + toks.length) d).2 = true
  checked : Checked (applyUbatch sh alloc head toks d).1 t head toks
  inside : ∀ l ∈ sh.layers, ∀ h,
    (d.grownFor sh alloc head toks.length).HalfInside h head toks.length l

/-- The chunks of the slot are there once the cache has grown. -/
theorem grownFor_there (hb : d.Backed sh) {head n : Nat}
    (hgrows : (mzGrowChunks sh alloc (head + n) d).2 = true) :
    ∀ l ∈ sh.layers, ∀ h, (d.grownFor sh alloc head n).HalfThere h head n l := by
  obtain ⟨-, hdone⟩ := @Cache.Backed.mzGrowChunks sh d alloc hb (head + n)
  intro l hl h i hge hlt
  refine (hdone hgrows).2 l hl h _ ?_
  unfold chunksFor tokensPerChunk
  omega

/-- The slot is taken if the cache grows and the checks hold. -/
theorem placeUbatch_found {toks : List BatchToken} {head : Nat} {input : List UInt8}
    (hfound : d.findSlot sh toks.length = some head) :
    ((mzGrowChunks sh alloc (head + toks.length) d).2 = true →
      Checked (applyUbatch sh alloc head toks d).1 t head toks →
      placeUbatch sh alloc t toks ⟨d, input⟩ =
        .ok () ⟨{ (applyUbatch sh alloc head toks d).1 with head := head }, input⟩) ∧
    (¬ ((mzGrowChunks sh alloc (head + toks.length) d).2 = true ∧
        Checked (applyUbatch sh alloc head toks d).1 t head toks) →
      ∃ e s', e ≠ .refused ∧ placeUbatch sh alloc t toks ⟨d, input⟩ = .error e s') := by
  obtain ⟨hgrow, -⟩ := @applyUbatch_layout sh alloc head toks d
  unfold placeUbatch
  dsimp only
  rw [hfound]
  dsimp only
  rw [hgrow]
  constructor
  · intro hok hcheck
    rw [if_pos hok]
    exact if_pos hcheck
  · intro hnot
    split
    · rename_i hok
      refine ⟨.crashed, _, by decide, if_neg fun hcheck => hnot ⟨hok, hcheck⟩⟩
    · exact ⟨.thrown, _, by decide, rfl⟩

/-- The placement and the data pass after it. -/
theorem place_and_read (hv : sh.vTrans = false) (hb : d.Backed sh) {toks : List BatchToken}
    {head : Nat} (hfound : d.findSlot sh toks.length = some head)
    {data : Half → Layer → List UInt8}
    (hlen : ∀ l ∈ sh.layers, ∀ h, (data h l).length = toks.length * l.sizeRow h) :
    (d.Accepts sh alloc t head toks →
      (placeUbatch sh alloc t toks >>= fun _ => stateReadData sh alloc toks.length)
          ⟨d, dataStream sh data⟩ =
        .ok () ⟨d.filled sh alloc head toks (rowsData sh data), []⟩) ∧
    (¬ d.Accepts sh alloc t head toks → ∃ e s', e ≠ .refused ∧
      (placeUbatch sh alloc t toks >>= fun _ => stateReadData sh alloc toks.length)
        ⟨d, dataStream sh data⟩ = .error e s') := by
  obtain ⟨hok, herr⟩ := @placeUbatch_found sh alloc d t toks head (dataStream sh data) hfound
  by_cases hplaced : (mzGrowChunks sh alloc (head + toks.length) d).2 = true ∧
      Checked (applyUbatch sh alloc head toks d).1 t head toks
  · obtain ⟨hgrows, hcheck⟩ := hplaced
    obtain ⟨hgrow, hlayout⟩ := @applyUbatch_layout sh alloc head toks d
    have hplace := hlayout (hgrow.trans hgrows)
    obtain ⟨-, hdone⟩ := @Cache.Backed.mzGrowChunks sh d alloc hb (head + toks.length)
    have henough := (hdone hgrows).1
    set p : Cache := { (applyUbatch sh alloc head toks d).1 with head := head } with hp
    have hp' : p = { d.grownFor sh alloc head toks.length with
        cells := (applyUbatch sh alloc head toks d).1.cells, head := head } := by
      rw [hp, hplace]
      rfl
    have hchunks : p.nChunksAlloc = (d.grownFor sh alloc head toks.length).nChunksAlloc := by
      rw [hp']
    have hptr : p.ptr = (d.grownFor sh alloc head toks.length).ptr := by rw [hp']
    have hmem : p.mem = (d.grownFor sh alloc head toks.length).mem := by rw [hp']
    obtain ⟨hwrite, hcrash⟩ := @stateReadData_writes sh p toks.length head alloc hv p
      (mzGrowChunks_enough (hchunks.symm ▸ henough)) rfl (le_trans (Nat.le_add_left _ _) hcheck.1)
      (fun l hl h i hge hlt => by
        unfold Cache.RowThere
        rw [hptr]
        exact grownFor_there hb hgrows l hl h i hge hlt) data hlen
    have hinside : (∀ l ∈ sh.layers, ∀ h, p.HalfInside h head toks.length l) ↔
        ∀ l ∈ sh.layers, ∀ h,
          (d.grownFor sh alloc head toks.length).HalfInside h head toks.length l := by
      unfold Cache.HalfInside Cache.RowInside
      rw [hptr, hmem]
    rw [bind_ok (hok hgrows hcheck)]
    constructor
    · intro hacc
      rw [hwrite (hinside.mpr hacc.inside), hp']
      rfl
    · intro hnot
      obtain ⟨s', hs'⟩ := hcrash fun hin => hnot ⟨hgrows, hcheck, hinside.mp hin⟩
      exact ⟨.crashed, s', by decide, hs'⟩
  · constructor
    · exact fun hacc => absurd ⟨hacc.grows, hacc.checked⟩ hplaced
    · intro _
      obtain ⟨e, s', hne, he⟩ := herr hplaced
      exact ⟨e, s', hne, bind_error he⟩

theorem seqTokens_read {c : Cells} {s : Nat} {rest : List UInt8}
    (hs : c.savedCells (s : Int) ≠ [] → s < sh.nSeqMax) (hpos : ∀ i, InI32 (c.pos i)) :
    readUbatch t (c.cellCount (s : Int))
        ⟨d, (c.savedCells (s : Int)).flatMap (c.cellRecord sh (s : Int)) ++ rest⟩ =
      .ok (c.seqTokens s t) ⟨d, rest⟩ := by
  rw [cellCount_length]
  refine readUbatch_ok hpos _ fun i hi => ⟨hs fun hnil => ?_, (mem_savedCells.mp hi).2.2⟩
  rw [hnil] at hi
  exact List.not_mem_nil hi

/-- A restore of saved records is a placement in the destination without the sequence. -/
theorem stateReadBody_seq {c : Cells} {s : Nat} {rest : List UInt8}
    (hs : c.savedCells (s : Int) ≠ [] → s < sh.nSeqMax) (hpos : ∀ i, InI32 (c.pos i))
    (hsize : c.size < 2 ^ 32) :
    stateReadBody sh alloc (t : Int) ⟨d, toLe 4 (c.cellCount (s : Int)) ++
        (c.savedCells (s : Int)).flatMap (c.cellRecord sh (s : Int)) ++ rest⟩ =
      (placeUbatch sh alloc t (c.seqTokens s t) >>= fun _ =>
        stateReadData sh alloc (c.seqTokens s t).length) ⟨d.without t, rest⟩ := by
  have hcount := lt_of_le_of_lt (cellCount_le c s) hsize
  have ht : (t : Int) ≠ -1 := by omega
  have hread := @seqTokens_read sh (d.without t) t c s rest hs hpos
  unfold stateReadBody stateReadMeta
  rw [List.append_assoc, bind_ok (readU32_ok hcount), if_pos ht]
  simp only [bind_assoc]
  rw [bind_ok (show onCache (fun c => c.seqRm (t : Int) (-1) (-1)) _ = .ok () _ from rfl)]
  rw [Int.toNat_natCast, seqTokens_length]
  exact bind_ok hread

/-- The records of a sequence without an id are refused. -/
theorem stateReadBody_refused {c : Cells} {s : Nat} {rest : List UInt8} (hs : ¬ s < sh.nSeqMax)
    (hpos : ∀ i, InI32 (c.pos i)) (hsize : c.size < 2 ^ 32)
    (hsome : c.savedCells (s : Int) ≠ []) :
    ∃ s₁ s₂, readU32 ⟨d, toLe 4 (c.cellCount (s : Int)) ++
        (c.savedCells (s : Int)).flatMap (c.cellRecord sh (s : Int)) ++ rest⟩ =
          .ok (c.cellCount (s : Int)) s₁ ∧
      readUbatch t (c.cellCount (s : Int)) ⟨s₁.cache.without t, s₁.input⟩ =
        .error .refused s₂ ∧
      stateReadBody sh alloc (t : Int) ⟨d, toLe 4 (c.cellCount (s : Int)) ++
        (c.savedCells (s : Int)).flatMap (c.cellRecord sh (s : Int)) ++ rest⟩ =
          .error .refused s₂ := by
  have hcount := lt_of_le_of_lt (cellCount_le c s) hsize
  have ht : (t : Int) ≠ -1 := by omega
  obtain ⟨i, cells, hcells⟩ := List.exists_cons_of_ne_nil hsome
  obtain ⟨s₂, hs₂⟩ := @readUbatch_refused sh c s t (d.without t) rest hs hpos i cells
    (mem_savedCells.mp (hcells ▸ List.mem_cons_self)).2.2
  rw [← hcells, ← cellCount_length] at hs₂
  rw [List.append_assoc]
  refine ⟨_, s₂, readU32_ok hcount, hs₂, ?_⟩
  unfold stateReadBody stateReadMeta
  rw [bind_ok (readU32_ok hcount), if_pos ht]
  simp only [bind_assoc]
  rw [bind_ok (show onCache (fun c => c.seqRm (t : Int) (-1) (-1)) _ = .ok () _ from rfl)]
  rw [Int.toNat_natCast]
  exact bind_error hs₂

end

end MzCache.Unified
