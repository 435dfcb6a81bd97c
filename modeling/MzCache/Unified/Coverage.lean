import MzCache.Unified.Aligned
import MzCache.Unified.Growth
import MzCache.Unified.UpdateSpec

/-!
# Chunks under the cells in use

Attention reads the chunks of the first `get_n_kv` cells of every layer, whether or not anything is
in them, so every cell in use needs a chunk that exists. Placing grows first, everything else takes
cells out of use or moves them down, and the chunks that the cache counts stay where they are.
-/

namespace MzCache.Unified

open MzCache MzCache.Lib

/-! ## Coverage -/

/-- The cells in use have chunks that the cache counts. -/
def Cache.Covered (c : Cache) : Prop := c.cells.usedMaxP1 ≤ tokensPerChunk * c.nChunksAlloc

/-- The chunks that attention reads are resident, and as large as they were made. -/
def Cache.AttentionBacked (sh : Shape) (c : Cache) : Prop :=
  ∀ l ∈ sh.layers, ∀ ci, ci * tokensPerChunk < c.getNKv sh → c.AtHome l ci

/-- `c'` came of `c` by steps that keep the chunks and their coverage. -/
structure Cache.Follows (sh : Shape) (c c' : Cache) : Prop where
  laid : c.Laid sh → c'.Laid sh
  covered : c.Covered → c'.Covered
  chunks : c.nChunksAlloc ≤ c'.nChunksAlloc

section

variable {sh : Shape} {alloc : Alloc} {c c' c'' : Cache}

theorem Cache.covered_iff :
    c.Covered ↔ ∀ i ∈ c.cells.used, i < tokensPerChunk * c.nChunksAlloc := by
  unfold Cache.Covered Cells.usedMaxP1
  rw [Finset.sup_le_iff]
  exact Iff.rfl

theorem Cache.Follows.refl (c : Cache) : c.Follows sh c := ⟨id, id, le_rfl⟩

theorem Cache.Follows.trans (h : c.Follows sh c') (h' : c'.Follows sh c'') : c.Follows sh c'' :=
  ⟨fun hc => h'.laid (h.laid hc), fun hc => h'.covered (h.covered hc), h.chunks.trans h'.chunks⟩

/-- Steps that touch the cells, the head and the bytes only, and put no new cell into use. -/
theorem Cache.Follows.of_subset (ht : c'.tensors = c.tensors) (hp : c'.ptr = c.ptr)
    (hs : c'.mem.size = c.mem.size) (hn : c'.nChunksAlloc = c.nChunksAlloc)
    (hused : c'.cells.used ⊆ c.cells.used) : c.Follows sh c' := by
  refine ⟨fun h => h.keep ht hp hs hn, fun h => ?_, hn.ge⟩
  rw [Cache.covered_iff] at h ⊢
  rw [hn]
  exact fun i hi => h i (hused hi)

/-- A loop of such steps on the cells. -/
theorem foldl_used {α β : Type*} (cells : α → Cells) {f : α → β → α}
    (hf : ∀ a b, (cells (f a b)).used ⊆ (cells a).used) (bs : List β) :
    ∀ a, (cells (bs.foldl f a)).used ⊆ (cells a).used := by
  induction bs with
  | nil => exact fun _ => subset_rfl
  | cons b bs ih => exact fun a => (ih (f a b)).trans (hf a b)

/-- Attention finds its chunks when the cells in use have theirs. -/
theorem Cache.Laid.attentionBacked (h : c.Laid sh) (hpad : sh.nPad ∣ tokensPerChunk)
    (hcov : c.Covered) : c.AttentionBacked sh := by
  intro l hl ci hci
  have hsome := h.some
  refine h.atHome l hl ci (h.counted l hl ci ?_)
  unfold Cache.Covered at hcov
  obtain ⟨k, hk⟩ := hpad
  -- the padded count does not leave the last chunk
  have hpadded : (c.cells.usedMaxP1 + sh.nPad - 1) / sh.nPad * sh.nPad ≤
      tokensPerChunk * c.nChunksAlloc := by
    have hpos : 0 < sh.nPad := Nat.pos_of_ne_zero fun h0 => by
      rw [h0, Nat.zero_mul] at hk
      exact absurd hk (by decide)
    rw [hk, Nat.mul_assoc, Nat.mul_comm]
    refine Nat.mul_le_mul_left _ (Nat.lt_succ_iff.mp ((Nat.div_lt_iff_lt_mul hpos).mpr ?_))
    rw [hk, Nat.mul_assoc] at hcov
    rw [Nat.succ_mul, Nat.mul_comm (k * c.nChunksAlloc)]
    omega
  have hone : sh.nPad ≤ tokensPerChunk * c.nChunksAlloc := by
    refine (Nat.le_of_dvd (by decide) ⟨k, hk⟩).trans ?_
    exact Nat.le_mul_of_pos_right _ hsome
  have hkv : c.getNKv sh ≤ tokensPerChunk * c.nChunksAlloc :=
    (min_le_right _ _).trans (max_le hone hpadded)
  refine Nat.lt_of_mul_lt_mul_right (a := tokensPerChunk) ?_
  rw [Nat.mul_comm c.nChunksAlloc]
  omega

/-! ## Taking cells out of use -/

theorem seqRmCell_used (seqId p0 p1 : Int) (acc : Cells × Nat) (i : Nat) :
    (seqRmCell seqId p0 p1 acc i).1.used ⊆ acc.1.used := by
  unfold seqRmCell Cells.seqRm Cells.rm
  dsimp only
  split
  · split
    · split
      · split
        · exact Finset.erase_subset _ _
        · exact subset_rfl
      · exact subset_rfl
    · exact Finset.erase_subset _ _
  · exact subset_rfl

theorem follows_seqRm (seqId p0 p1 : Int) (c : Cache) : c.Follows sh (c.seqRm seqId p0 p1) :=
  .of_subset rfl rfl rfl rfl (foldl_used Prod.fst (seqRmCell_used _ _ _) _ _)

theorem follows_clear (c : Cache) : c.Follows sh c.clear :=
  .of_subset rfl rfl rfl rfl (Finset.empty_subset _)

theorem follows_seqCp (src dst : Nat) (p0 p1 : Int) (c : Cache) :
    c.Follows sh (c.seqCp src dst p0 p1) := by
  unfold Cache.seqCp
  split
  · exact .refl c
  · refine .of_subset rfl rfl rfl rfl (foldl_used id (fun a i => ?_) _ _)
    dsimp only [id]
    unfold seqCpCell
    split
    · split <;> exact subset_rfl
    · exact subset_rfl

theorem follows_seqKeep (s : Nat) (c : Cache) : c.Follows sh (c.seqKeep s) := by
  refine .of_subset rfl rfl rfl rfl (foldl_used Prod.fst (fun a i => ?_) _ _)
  unfold seqKeepCell Cells.seqKeep Cells.rm
  dsimp only
  split
  · exact subset_rfl
  · split
    · exact Finset.erase_subset _ _
    · exact subset_rfl

theorem follows_seqAdd (s : Nat) (p0 p1 shift : Int) (c : Cache) :
    c.Follows sh (c.seqAdd s p0 p1 shift) := by
  unfold Cache.seqAdd
  split
  · exact .refl c
  · split
    · exact .refl c
    · refine .of_subset rfl rfl rfl rfl (foldl_used Prod.fst (fun a i => ?_) _ _)
      unfold seqAddCell Cells.posAdd
      dsimp only
      split
      · split
        · split
          · exact Finset.erase_subset _ _
          · exact subset_rfl
        · exact subset_rfl
      · exact subset_rfl

theorem follows_seqDiv (s : Nat) (p0 p1 d : Int) (c : Cache) :
    c.Follows sh (c.seqDiv s p0 p1 d) := by
  unfold Cache.seqDiv
  split
  · exact .refl c
  · split
    · exact .refl c
    · refine .of_subset rfl rfl rfl rfl (foldl_used id (fun a i => ?_) _ _)
      dsimp only [id]
      unfold seqDivCell
      split
      · split <;> exact subset_rfl
      · exact subset_rfl

/-- The targets of a defragmentation lie below the number of cells in use. -/
theorem defragPrepare_target {c : Cells} {nMaxNodes nKv : Nat} {ids : Nat → Nat}
    (h : c.defragPrepare sh nMaxNodes = some (nKv, ids)) (hmoves : nKv ≠ 0) (i : Nat)
    (hi : ids i ≠ nKv ∧ ids i ≠ i) : ids i < c.getUsed := by
  unfold Cells.defragPrepare at h
  obtain ⟨plan, hplan, heq⟩ := Option.map_eq_some_iff.mp h
  split at heq
  · exact absurd (Prod.mk.inj heq).1.symm hmoves
  · obtain ⟨rfl, rfl⟩ := Prod.mk.inj heq
    have hsound := defragFrom_sound _ 0 _ plan (Nat.zero_le _) (defragStart_sound c _) hplan
    exact (hsound.target i hi).2

theorem follows_defrag (nMaxNodes : Nat) (c : Cache) : c.Follows sh (c.defrag sh nMaxNodes) := by
  unfold Cache.defrag
  split
  · exact .refl c
  · rename_i nKv ids hplan
    split
    · exact .refl c
    · rename_i hmoves
      refine ⟨fun h => h.keep rfl rfl rfl rfl, fun h => ?_, le_rfl⟩
      have hbound : c.cells.getUsed ≤ tokensPerChunk * c.nChunksAlloc :=
        (getUsed_le_usedMaxP1 c.cells).trans h
      rw [Cache.covered_iff] at h ⊢
      dsimp only
      have hmove : ∀ (is : List Nat) (a : Cells),
          (∀ i ∈ a.used, i < tokensPerChunk * c.nChunksAlloc) →
          ∀ i ∈ (is.foldl (moveCell nKv ids) a).used, i < tokensPerChunk * c.nChunksAlloc := by
        intro is
        induction is with
        | nil => exact fun _ ha => ha
        | cons k is ih =>
            intro a ha
            refine ih _ ?_
            unfold moveCell
            split
            · exact ha
            · rename_i hmoved
              rw [not_or] at hmoved
              intro i hi
              rcases Finset.mem_insert.mp hi with rfl | hi
              · exact lt_of_lt_of_le (defragPrepare_target hplan hmoves k hmoved) hbound
              · exact ha i (Finset.mem_of_mem_erase hi)
      exact hmove _ _ h

/-! ## Growing and placing -/

theorem growLayerChunk_chunks (l : Layer) (idx : Nat) (c : Cache) :
    (growLayerChunk alloc l idx c).1.nChunksAlloc = c.nChunksAlloc := by
  unfold growLayerChunk
  split
  · rfl
  · split
    · rfl
    · split <;> rfl

theorem growList_chunks (todo : List (Layer × Nat)) : ∀ c : Cache,
    (growList alloc todo c).1.nChunksAlloc = c.nChunksAlloc := by
  induction todo with
  | nil => exact fun _ => rfl
  | cons x todo ih =>
      intro c
      rw [growList]
      split
      · exact (ih _).trans (growLayerChunk_chunks _ _ _)
      · exact growLayerChunk_chunks _ _ _

/-- The count does not fall, covers what was asked for if the growth returned, and is the old one
if it did not. -/
theorem mzGrowChunks_chunks (n : Nat) (c : Cache) :
    c.nChunksAlloc ≤ (mzGrowChunks sh alloc n c).1.nChunksAlloc ∧
      ((mzGrowChunks sh alloc n c).2 = true →
        n ≤ tokensPerChunk * (mzGrowChunks sh alloc n c).1.nChunksAlloc) ∧
      ((mzGrowChunks sh alloc n c).2 = false →
        (mzGrowChunks sh alloc n c).1.nChunksAlloc = c.nChunksAlloc) := by
  have hneed : n ≤ tokensPerChunk * chunksFor n := by
    unfold chunksFor tokensPerChunk
    omega
  unfold mzGrowChunks
  dsimp only
  split
  · rename_i hle
    exact ⟨le_rfl, fun _ => hneed.trans (Nat.mul_le_mul_left _ hle), fun _ => rfl⟩
  · rename_i hmore
    split
    · exact ⟨le_rfl, fun hf => absurd hf Bool.false_ne_true, fun _ => rfl⟩
    · split
      · exact ⟨(not_le.mp hmore).le, fun _ => hneed, fun hf => nomatch hf⟩
      · rename_i hfail
        exact ⟨(growList_chunks _ _).ge, fun hf => absurd hf hfail, fun _ => growList_chunks _ _⟩

theorem follows_mzGrowChunks (n : Nat) (c : Cache) :
    c.Follows sh (mzGrowChunks sh alloc n c).1 := by
  obtain ⟨hchunks, -⟩ := @mzGrowChunks_chunks sh alloc n c
  refine ⟨fun h => (mzGrowChunks_spec h n).1, fun h => ?_, hchunks⟩
  unfold Cache.Covered at h ⊢
  rw [mzGrowChunks_cells]
  exact h.trans (Nat.mul_le_mul_left _ hchunks)

theorem foldl_seqAdd_used (seqIds : List Nat) (i : Nat) : ∀ c : Cells,
    (seqIds.foldl (fun c s => c.seqAdd i s) c).used = c.used := by
  induction seqIds with
  | nil => exact fun _ => rfl
  | cons s seqIds ih => exact fun c => ih (c.seqAdd i s)

theorem placeToken_used (i : Nat) (tok : BatchToken) (acc : Cells × SeqPosMaxRm) :
    (placeToken i tok acc).1.used ⊆ insert i acc.1.used := by
  unfold placeToken
  dsimp only
  rw [foldl_seqAdd_used]
  unfold Cells.posSet
  split
  · exact subset_rfl
  · exact Finset.insert_subset_insert i (Finset.erase_subset _ _)

/-- Only the cells of the slot come into use. -/
theorem placeTokens_used (toks : List BatchToken) : ∀ (head : Nat) (acc : Cells × SeqPosMaxRm),
    ∀ i ∈ (placeTokens head toks acc).1.used, i ∈ acc.1.used ∨ i < head + toks.length := by
  induction toks with
  | nil => exact fun _ _ i hi => .inl hi
  | cons tok toks ih =>
      intro head acc i hi
      rw [List.length_cons]
      rcases ih (head + 1) _ i hi with hin | hlt
      · rcases Finset.mem_insert.mp (placeToken_used head tok acc hin) with rfl | hin
        · exact .inr (by omega)
        · exact .inl hin
      · exact .inr (by omega)

theorem follows_purge (rmMax : SeqPosMaxRm) (seqs : List Nat) : ∀ c : Cache,
    c.Follows sh (seqs.foldl (purgeSeq rmMax) c) := by
  induction seqs with
  | nil => exact fun c => .refl c
  | cons s seqs ih =>
      intro c
      have hone : c.Follows sh (purgeSeq rmMax c s) := by
        unfold purgeSeq
        split
        · exact .refl c
        · split
          · exact follows_seqRm _ _ _ c
          · exact .refl c
      exact hone.trans (ih _)

/-- `apply_ubatch` grows before it writes. -/
theorem follows_applyUbatch (headCur : Nat) (ubatch : List BatchToken) (c : Cache) :
    c.Follows sh (applyUbatch sh alloc headCur ubatch c).1 ∧
      ((applyUbatch sh alloc headCur ubatch c).2 = true → headCur + ubatch.length ≤
        tokensPerChunk * (applyUbatch sh alloc headCur ubatch c).1.nChunksAlloc) := by
  have hgrow := @follows_mzGrowChunks sh alloc (headCur + ubatch.length) c
  obtain ⟨-, hcovers, -⟩ := @mzGrowChunks_chunks sh alloc (headCur + ubatch.length) c
  unfold applyUbatch
  dsimp only
  split
  · rename_i hok
    have hpurge := @follows_purge sh
      (placeTokens headCur ubatch ((mzGrowChunks sh alloc (headCur + ubatch.length) c).1.cells,
        fun _ => -1)).2 (List.range llamaMaxSeq)
      { (mzGrowChunks sh alloc (headCur + ubatch.length) c).1 with
        cells := (placeTokens headCur ubatch
          ((mzGrowChunks sh alloc (headCur + ubatch.length) c).1.cells, fun _ => -1)).1 }
    have hplace : (mzGrowChunks sh alloc (headCur + ubatch.length) c).1.Follows sh
        { (mzGrowChunks sh alloc (headCur + ubatch.length) c).1 with
          cells := (placeTokens headCur ubatch
            ((mzGrowChunks sh alloc (headCur + ubatch.length) c).1.cells, fun _ => -1)).1 } := by
      refine ⟨fun h => h.keep rfl rfl rfl rfl, fun h => ?_, le_rfl⟩
      rw [Cache.covered_iff] at h ⊢
      intro i hi
      rcases placeTokens_used ubatch headCur _ i hi with hin | hlt
      · exact h i hin
      · exact lt_of_lt_of_le hlt (hcovers hok)
    have hall := hgrow.trans (hplace.trans hpurge)
    exact ⟨⟨fun h => (hall.laid h).keep rfl rfl rfl rfl, hall.covered, hall.chunks⟩,
      fun _ => (hcovers hok).trans (Nat.mul_le_mul_left _ hpurge.chunks)⟩
  · rename_i hfail
    exact ⟨hgrow, fun hok => absurd hok hfail⟩

/-! ## Decoding -/

/-- The slots that a trial restores have chunks. -/
def Trial.SavedCovered (t : Trial) : Prop :=
  ∀ saved ∈ t.states,
    saved.headNew + saved.cells.length ≤ tokensPerChunk * t.cache.nChunksAlloc

theorem set_used (other : List (Int × Finset Nat)) : ∀ (i0 : Nat) (c : Cells),
    ∀ i ∈ (Cells.set i0 other c).used, i ∈ c.used ∨ i < i0 + other.length := by
  induction other with
  | nil => exact fun _ _ i hi => .inl hi
  | cons o other ih =>
      intro i0 c i hi
      rw [List.length_cons]
      rcases ih (i0 + 1) _ i hi with hin | hlt
      · have hsub : (c.setCell i0 o).used ⊆ insert i0 c.used := by
          unfold Cells.setCell
          dsimp only
          split <;> (dsimp only; split)
          · exact subset_rfl
          · split
            · exact (Finset.erase_subset _ _).trans (Finset.subset_insert _ _)
            · exact Finset.subset_insert _ _
          · exact subset_rfl
          · split
            · exact (Finset.erase_subset _ _).trans (Finset.subset_insert _ _)
            · exact Finset.subset_insert _ _
        rcases Finset.mem_insert.mp (hsub hin) with rfl | hin
        · exact .inr (by omega)
        · exact .inl hin
      · exact .inr (by omega)

theorem follows_restore (states : List Saved) : ∀ c : Cache,
    (∀ saved ∈ states,
      saved.headNew + saved.cells.length ≤ tokensPerChunk * c.nChunksAlloc) →
    c.Follows sh (states.foldl restoreSlot c) := by
  induction states with
  | nil => exact fun c _ => .refl c
  | cons saved states ih =>
      intro c hstates
      have hone : c.Follows sh (restoreSlot c saved) := by
        refine ⟨fun h => h.keep rfl rfl rfl rfl, fun h => ?_, le_rfl⟩
        rw [Cache.covered_iff] at h ⊢
        intro i hi
        rcases set_used _ _ _ i hi with hin | hlt
        · exact h i hin
        · exact lt_of_lt_of_le hlt (hstates saved List.mem_cons_self)
      exact hone.trans (ih _ fun saved' hmem => hstates saved' (List.mem_cons_of_mem _ hmem))

theorem follows_placeUbatches (ubatches : List (List BatchToken)) : ∀ t : Trial, t.SavedCovered →
    t.cache.Follows sh (placeUbatches sh alloc ubatches t).1.cache ∧
      ((placeUbatches sh alloc ubatches t).2 ≠ .threw →
        (placeUbatches sh alloc ubatches t).1.SavedCovered) := by
  induction ubatches with
  | nil => exact fun t h => ⟨.refl _, fun _ => h⟩
  | cons ubatch ubatches ih =>
      intro t h
      rw [placeUbatches]
      split
      · exact ⟨.refl _, fun _ => h⟩
      · rename_i headNew _
        obtain ⟨hplace, hroom⟩ := @follows_applyUbatch sh alloc headNew ubatch t.cache
        dsimp only
        split
        · rename_i hok
          have hcp : (t.cache.cells.cp headNew ubatch.length).length = ubatch.length := by
            unfold Cells.cp
            simp
          obtain ⟨hrest, hsaved⟩ := ih (placeAt sh alloc headNew ubatch t).1 (by
            intro saved hmem
            rcases List.mem_cons.mp hmem with rfl | hmem
            · dsimp only
              rw [hcp]
              exact hroom hok
            · exact (h saved hmem).trans (Nat.mul_le_mul_left _ hplace.chunks))
          exact ⟨hplace.trans hrest, hsaved⟩
        · exact ⟨hplace, fun hend => absurd rfl hend⟩

theorem follows_prepare (ubatches : List (List BatchToken)) (c : Cache) :
    c.Follows sh (c.prepare sh alloc ubatches).1 := by
  obtain ⟨htrial, hsaved⟩ := @follows_placeUbatches sh alloc ubatches ⟨c, [], []⟩
    fun _ hmem => absurd hmem List.not_mem_nil
  unfold Cache.prepare
  dsimp only
  cases hend : (placeUbatches sh alloc ubatches ⟨c, [], []⟩).2 with
  | threw => exact htrial
  | noSlot => exact htrial.trans (follows_restore _ _ (hsaved (by rw [hend]; decide)))
  | all => exact htrial.trans (follows_restore _ _ (hsaved (by rw [hend]; decide)))

theorem follows_rollback (ubatch : List BatchToken) (c : Cache) :
    c.Follows sh (c.rollback ubatch) := by
  have hloop : ∀ (seqs : List Nat) (e : Cache),
      e.Follows sh (seqs.foldl (rollbackSeq ubatch) e) := by
    intro seqs
    induction seqs with
    | nil => exact fun e => .refl e
    | cons s seqs ih =>
        intro e
        have hone : e.Follows sh (rollbackSeq ubatch e s) := by
          unfold rollbackSeq
          split
          · exact .refl e
          · exact follows_seqRm _ _ _ e
        exact hone.trans (ih _)
  exact hloop _ c

theorem follows_decodeFrom {computes : Nat → Bool} (rest : List (Nat × List BatchToken)) :
    ∀ (k : Nat) (past : List BatchToken) (c : Cache),
      c.Follows sh (decodeFrom sh alloc computes k rest past c).cache := by
  induction rest with
  | nil => exact fun _ _ c => .refl c
  | cons x rest ih =>
      intro k past c
      have hplace := (@follows_applyUbatch sh alloc x.1 x.2 c).1
      rw [decodeFrom]
      split
      · split
        · exact hplace.trans (ih _ _ _)
        · exact hplace.trans (follows_rollback _ _)
      · exact hplace

theorem follows_decode (computes : Nat → Bool) (nUbatch : Nat) (batch : List BatchToken)
    (c : Cache) : c.Follows sh (c.decode sh alloc computes nUbatch batch).cache := by
  have hprep := @follows_prepare sh alloc (splitSimple nUbatch [] batch) c
  unfold Cache.decode
  dsimp only
  split
  · exact hprep
  · exact hprep
  · exact hprep.trans (follows_decodeFrom _ _ _ _)

/-- However a decode ends, the cells in use have their chunks. -/
theorem follows_decodeCall (params : ContextParams) (env : DecodeEnv) (batch : List BatchToken)
    (c : Cache) : c.Follows sh (c.decodeCall sh params env batch).1.cache := by
  have hdue : c.Follows sh (if env.defragDue then c.defrag sh params.nMaxNodes else c) := by
    split
    · exact follows_defrag _ c
    · exact .refl c
  unfold Cache.decodeCall
  dsimp only
  generalize (if env.defragDue then c.defrag sh params.nMaxNodes else c) = d at hdue ⊢
  have hfirst := @follows_decode sh env.alloc env.computes params.nUbatch batch d
  split
  · rename_i c₁ hnone
    rw [hnone] at hfirst
    have hupdate := hdue.trans (hfirst.trans (@follows_defrag sh params.nMaxNodes c₁))
    split
    · exact hupdate.trans (follows_decode _ _ _ _)
    · exact hupdate
  · exact hdue.trans hfirst

end

end MzCache.Unified
