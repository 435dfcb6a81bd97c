import MzCache.Unified.Aligned
import MzCache.Unified.WholeRestore

/-!
# A cache filled from the bottom

One sequence that is only extended and cut at its end fills the cells in the order of its
positions: cell `i` holds position `i` below the length of the sequence and nothing from there on.
The head never passes the end, so without a window `find_slot` climbs to it, and the slot of a
ubatch that continues the sequence is the position of its first token.
-/

namespace MzCache.Unified

open MzCache MzCache.Lib

/-- The first `n` cells hold the positions `0` to `n - 1` of sequence `s`, the others nothing. -/
structure Cells.Filled (c : Cells) (s n : Nat) : Prop where
  indexed : c.Indexed
  room : n ≤ c.size
  cell : ∀ j, c.cell j = if j < n then ((j : Int), {s}) else (-1, ∅)

/-- The same of a cache whose head has not passed the end. -/
structure Cache.Filled (c : Cache) (s n : Nat) : Prop where
  cells : c.cells.Filled s n
  head : c.head ≤ n

section

variable {sh : Shape} {alloc : Alloc} {s n m : Nat} {c : Cells} {d : Cache}

/-! ## What the cells say -/

theorem Cells.Filled.below (h : c.Filled s n) {j : Nat} (hj : j < n) :
    c.pos j = j ∧ c.seq j = {s} := by
  have hcell := h.cell j
  rw [if_pos hj] at hcell
  exact ⟨congrArg Prod.fst hcell, congrArg Prod.snd hcell⟩

theorem Cells.Filled.above (h : c.Filled s n) {j : Nat} (hj : n ≤ j) :
    c.pos j = -1 ∧ c.seq j = ∅ := by
  have hcell := h.cell j
  rw [if_neg (not_lt.mpr hj)] at hcell
  exact ⟨congrArg Prod.fst hcell, congrArg Prod.snd hcell⟩

theorem Cells.Filled.isEmpty_iff (h : c.Filled s n) (j : Nat) : c.isEmpty j = true ↔ n ≤ j := by
  unfold Cells.isEmpty
  rw [decide_eq_true_eq]
  by_cases hj : j < n
  · rw [(h.below hj).1]
    omega
  · rw [(h.above (not_lt.mp hj)).1]
    omega

theorem Cells.Filled.free (h : c.Filled s n) (m : Nat) : FreeSlot c.cell n m := by
  intro j hj _
  rw [h.cell, if_neg (not_lt.mpr hj)]

/-- The sequence goes on at `n`. -/
theorem Cells.Filled.seqPosMax (h : c.Filled s n) : c.seqPosMax s + 1 = n := by
  have htrue := h.indexed.indexTrue
  by_cases hn : n = 0
  · subst hn
    rw [(htrue.absent s fun i _ hs => ?_).2]
    · rfl
    · rw [(h.above (Nat.zero_le i)).2] at hs
      exact Finset.notMem_empty s hs
  · have hroom := h.room
    have hmem : ∀ j < n, s ∈ c.seq j := fun j hj => by
      rw [(h.below hj).2]
      exact Finset.mem_singleton_self s
    obtain ⟨-, ⟨j, hj, hs, hpos⟩, hmax⟩ :=
      htrue.bounds s ⟨0, by omega, hmem 0 (by omega)⟩
    have hlast := hmax ⟨n - 1, by omega, hmem (n - 1) (by omega), rfl⟩
    have hjn : j < n := by
      by_contra hge
      rw [(h.above (not_lt.mp hge)).2] at hs
      exact Finset.notMem_empty s hs
    rw [(h.below (by omega : n - 1 < n)).1] at hlast
    rw [(h.below hjn).1] at hpos
    omega

theorem Cells.Filled.start (n : Nat) : (Cells.resize n).Filled s 0 :=
  ⟨Cells.resize_indexed n, Nat.zero_le _, fun _ => rfl⟩

/-! ## The search -/

theorem Cells.Filled.canUse (hswa : sh.swaType = .none) (h : c.Filled s n) (j : Nat) :
    c.canUse sh j = decide (n ≤ j) := by
  rw [Bool.eq_iff_iff, decide_eq_true_eq, ← h.isEmpty_iff, Cells.canUse_iff]
  unfold Cells.Usable Shape.isMaskedSwa
  rw [hswa]
  simp

/-- A ubatch is placed at the end, if there is room for it. -/
theorem Cache.Filled.findSlot (hswa : sh.swaType = .none) (h : d.Filled s n) (hm : 0 < m) :
    d.findSlot sh m = if n + m ≤ d.cells.size then some n else none := by
  have huse := h.cells.canUse hswa
  have hroom := h.cells.room
  have hhead := h.head
  have hstart : d.searchStart m ≤ n := by
    unfold Cache.searchStart
    split
    · exact Nat.zero_le n
    · exact hhead
  rw [findSlot_eq]
  by_cases hfit : n + m ≤ d.cells.size
  · rw [if_neg (by omega), if_pos hfit]
    refine RunSearch.search_up hm ⟨hfit, fun i _ => ?_⟩ _ _ _ hstart (fun j _ hj => ?_)
      (by omega) (by omega)
    · rw [huse]
      exact decide_eq_true (Nat.le_add_right n i)
    · rw [huse]
      exact decide_eq_false (not_le.mpr hj)
  · rw [if_neg hfit]
    split
    · rfl
    · rename_i hle
      refine (RunSearch.search_spec (hstart.trans hroom) (not_lt.mp hle) (by omega)).2.mpr ?_
      rintro head ⟨hroom', hall⟩
      have hge := hall 0 hm
      rw [huse, decide_eq_true_eq] at hge
      omega

/-! ## Placing at the end -/

/-- The token cells of a batch that goes on at `n`. -/
theorem Consecutive.overlay {batch : List BatchToken} (hcons : Consecutive s n batch)
    (h : c.Filled s n) (j : Nat) : overlay n batch c.cell j =
      if j < n + batch.length then ((j : Int), {s}) else (-1, ∅) := by
  unfold MzCache.Unified.overlay
  by_cases hin : n ≤ j ∧ j < n + batch.length
  · rw [if_pos hin, if_pos hin.2]
    obtain ⟨hpos, hseq⟩ := hcons (j - n) _ (List.getElem?_eq_getElem (by omega))
    unfold tokenCell tokenAt
    rw [List.getD_eq_getElem _ _ (by omega : j - n < batch.length), hpos, hseq]
    refine Prod.ext ?_ ?_
    · show (n : Int) + (j - n : Nat) = j
      omega
    · simp
  · rw [if_neg hin, h.cell]
    refine if_congr ?_ rfl rfl
    omega

theorem Consecutive.pos_ne {batch : List BatchToken} (hcons : Consecutive s n batch) :
    ∀ tok ∈ batch, tok.pos ≠ -1 := by
  intro tok htok
  have := (hcons.mem htok).1
  omega

theorem Cells.Filled.placeSafe {batch : List BatchToken} (h : c.Filled s n)
    (hcons : Consecutive s n batch) (hfit : n + batch.length ≤ c.size) :
    c.PlaceSafe n batch := by
  refine ⟨hfit, hcons.pos_ne, fun i hi t ht => ?_⟩
  rw [(h.above (List.mem_range'_1.mp hi).1).2] at ht
  exact absurd ht (Finset.notMem_empty t)

/-- A ubatch placed at the end extends the sequence; one that does not grow changes nothing. -/
theorem Cache.Filled.applyUbatch {batch : List BatchToken} (h : d.Filled s n)
    (hcons : Consecutive s n batch) (hfit : n + batch.length ≤ d.cells.size) :
    ((applyUbatch sh alloc n batch d).2 = true →
      (applyUbatch sh alloc n batch d).1.Filled s (n + batch.length)) ∧
    ((applyUbatch sh alloc n batch d).2 = false → (applyUbatch sh alloc n batch d).1.Filled s n) := by
  obtain ⟨hindexed, hsize⟩ := @applyUbatch_indexed sh alloc d h.cells.indexed n batch
    (h.cells.placeSafe hcons hfit)
  constructor
  · intro hok
    obtain ⟨hcell, -⟩ := applyUbatch_free (h.cells.free _) hok
    refine ⟨⟨hindexed, hsize ▸ hfit, fun j => ?_⟩, ?_⟩
    · rw [hcell]
      exact hcons.overlay h.cells j
    · unfold MzCache.Unified.applyUbatch at hok ⊢
      dsimp only at hok ⊢
      split at hok
      · rename_i hgrown
        rw [if_pos hgrown]
      · rename_i hgrown
        exact absurd hok hgrown
  · intro hfail
    unfold MzCache.Unified.applyUbatch at hfail ⊢
    dsimp only at hfail ⊢
    split at hfail
    · cases hfail
    · rename_i hgrown
      rw [if_neg hgrown]
      refine ⟨?_, ?_⟩
      · rw [mzGrowChunks_cells]
        exact h.cells
      · rw [mzGrowChunks_head]
        exact h.head

/-- Restoring the slot of a ubatch at the end cuts the sequence again. -/
theorem Cache.Filled.restoreSlot {saved : Saved} {e : Cells} (h : d.Filled s (n + m))
    (he : e.Filled s n) (hhead : saved.headOld ≤ n)
    (hnew : saved.headNew = n) (hcells : saved.cells = e.cp n m) :
    (restoreSlot d saved).Filled s n := by
  have hlen : saved.cells.length = m := by
    rw [hcells]
    unfold Cells.cp
    simp
  have hempty : ∀ j, savedAt saved.headNew saved.cells j = (-1, ∅) := by
    intro j
    unfold savedAt
    rw [hcells, hnew]
    by_cases hj : j - n < m
    · have hcell := h.cells.cell
      rw [List.getD_eq_getElem _ _ (by rw [← hcells, hlen]; exact hj)]
      unfold Cells.cp
      rw [List.getElem_map, List.getElem_range]
      exact Prod.ext (he.above (Nat.le_add_right n _)).1 (he.above (Nat.le_add_right n _)).2
    · rw [List.getD_eq_default _ _ (by rw [← hcells, hlen]; omega)]
  have hroom := h.cells.room
  have hfits : saved.Fits d.cells.size := by
    refine ⟨by omega, fun o ho _ => ?_⟩
    obtain ⟨k, hk, rfl⟩ := List.getElem_of_mem ho
    have := hempty (saved.headNew + k)
    unfold savedAt at this
    rw [Nat.add_sub_cancel_left, List.getD_eq_getElem _ _ hk] at this
    rw [this]
  obtain ⟨hindexed, hsize'⟩ := restoreSlot_indexed_iff h.cells.indexed hfits
  refine ⟨⟨hindexed.mpr fun i hi t ht => ?_, ?_, fun j => ?_⟩, hhead⟩
  · -- nothing that a restored cell held is held in the end
    rintro ⟨j, -, hj, hpos⟩
    exfalso
    unfold Cells.rewritten at hj hpos
    by_cases hmem : j ∈ List.range' saved.headNew saved.cells.length
    · rw [if_pos hmem, hempty] at hj
      exact Finset.notMem_empty t hj
    · rw [if_neg hmem] at hj hpos
      have hbelow : ∀ k, t ∈ d.cells.seq k → d.cells.pos k = k := by
        intro k hk
        by_cases hlt : k < n + m
        · exact (h.cells.below hlt).1
        · rw [(h.cells.above (not_lt.mp hlt)).2] at hk
          exact absurd hk (Finset.notMem_empty t)
      have hji : (j : Int) = i := (hbelow j hj).symm.trans (hpos.trans (hbelow i ht))
      exact hmem (by rw [show j = i by omega]; exact hi)
  · rw [hsize']
    omega
  · rw [restoreSlot_cell, hempty, h.cells.cell]
    by_cases hhas : saved.Has j
    · have hge := hhas.1
      rw [if_pos hhas, if_neg (by omega)]
    · rw [if_neg hhas]
      unfold Saved.Has at hhas
      exact if_congr (by omega) rfl rfl

/-! ## Removing the end -/

/-- The second component is the first cell that was emptied. -/
theorem seqRmCell_freed (s : Nat) (p0 p1 : Int) (acc : Cells × Nat) (k : Nat) :
    (seqRmCell s p0 p1 acc k).2 =
      if Loses s p0 p1 (acc.1.cell k) ∧ acc.1.seq k = {s} ∧ acc.2 = acc.1.size then k
      else acc.2 := by
  unfold seqRmCell Cells.posIn Loses
  dsimp only
  rw [if_pos (Int.natCast_nonneg s), Int.toNat_natCast]
  by_cases hin : p0 ≤ acc.1.pos k ∧ acc.1.pos k < p1
  · by_cases hs : s ∈ acc.1.seq k
    · have hflag : (acc.1.seqRm k s).2 = true ↔ acc.1.seq k = {s} := by
        have hone : (acc.1.seq k).erase s = ∅ ↔ acc.1.seq k = {s} := by
          rw [Finset.erase_eq_empty_iff]
          exact or_iff_right fun hnone => Finset.notMem_empty s (hnone ▸ hs)
        unfold Cells.seqRm
        dsimp only
        rw [← hone]
        split
        · rename_i hnone
          exact iff_of_true rfl hnone
        · rename_i hsome
          exact iff_of_false Bool.false_ne_true hsome
      rw [if_pos (decide_eq_true hin), if_pos hs]
      dsimp only
      by_cases hone : acc.1.seq k = {s}
      · rw [if_pos (hflag.mpr hone)]
        refine if_congr ?_ rfl rfl
        exact ⟨fun h => ⟨⟨hs, hin⟩, hone, h⟩, fun h => h.2.2⟩
      · rw [if_neg (fun h => hone (hflag.mp h)), if_neg fun h => hone h.2.1]
    · rw [if_pos (decide_eq_true hin), if_neg hs, if_neg fun h => hs h.1.1]
  · rw [if_neg (by simpa using hin), if_neg fun h => hin h.1.2]

/-- The head a removal proposes is not past any cell it emptied. -/
theorem seqRm_freed {p0 p1 : Int} {i size : Nat} (hi : i < size) (is : List Nat) :
    ∀ acc : Cells × Nat, acc.1.size = size → is.Pairwise (· < ·) →
      (acc.2 ≤ i ∨ acc.2 = size ∧ i ∈ is ∧ Loses s p0 p1 (acc.1.cell i) ∧ acc.1.seq i = {s}) →
      (is.foldl (seqRmCell s p0 p1) acc).2 ≤ i := by
  induction is with
  | nil =>
      rintro acc - - (hle | ⟨-, hmem, -⟩)
      · exact hle
      · exact absurd hmem List.not_mem_nil
  | cons k is ih =>
      intro acc hsize hsorted h
      obtain ⟨hbelow, hsorted'⟩ := List.pairwise_cons.mp hsorted
      have hsize' : (seqRmCell s p0 p1 acc k).1.size = size := (seqRmCell_size _ _ _ _ _).trans hsize
      refine ih _ hsize' hsorted' ?_
      rw [seqRmCell_freed, hsize]
      rcases h with hle | ⟨hnew, hmem, hloses, hone⟩
      · rw [if_neg (by omega)]
        exact .inl hle
      · rcases List.mem_cons.mp hmem with rfl | hmem
        · rw [if_pos ⟨hloses, hone, hnew⟩]
          exact .inl le_rfl
        · have hlt := hbelow i hmem
          split
          · exact .inl hlt.le
          · have hcell := seqRmCell_cell s p0 p1 acc k i
            rw [if_neg (by omega)] at hcell
            refine .inr ⟨hnew, hmem, ?_, (congrArg Prod.snd hcell).trans hone⟩
            rw [hcell]
            exact hloses

/-- A removal from position `p` on cuts the sequence there. -/
theorem Cache.Filled.seqRm (h : d.Filled s n) (hn : n < 2 ^ 31) (p : Int) :
    (d.seqRm s p (-1)).Filled s (min n (rangeFrom p).toNat) := by
  obtain ⟨hindexed, hsize⟩ := seqRm_indexed h.cells.indexed s p (-1)
  have hp := rangeFrom_nonneg p
  have hto : rangeTo (-1) = 2 ^ 31 - 1 := rfl
  have hroom := h.cells.room
  refine ⟨⟨hindexed, by omega, fun j => ?_⟩, ?_⟩
  · rw [seqRm_cell, h.cells.cell, hto]
    unfold rmSeq
    by_cases hj : j < n
    · rw [if_pos (show j < d.cells.size by omega), if_pos hj]
      by_cases hcut : rangeFrom p ≤ j
      · have hloses : Loses s (rangeFrom p) (2 ^ 31 - 1) ((j : Int), {s}) :=
          ⟨Finset.mem_singleton_self s, hcut, by dsimp only; omega⟩
        rw [if_pos hloses, if_neg (show ¬ j < min n (rangeFrom p).toNat by omega)]
        simp [dropSeq]
      · have hkeeps : ¬ Loses s (rangeFrom p) (2 ^ 31 - 1) ((j : Int), {s}) :=
          fun hl => hcut hl.2.1
        rw [if_neg hkeeps, if_pos (show j < min n (rangeFrom p).toNat by omega)]
    · have hkeeps : ¬ Loses s (rangeFrom p) (2 ^ 31 - 1) (-1, ∅) :=
        fun hl => Finset.notMem_empty s hl.1
      rw [if_neg hj, if_neg hkeeps, ite_self, if_neg (show ¬ j < min n (rangeFrom p).toNat by omega)]
  · have hhead := h.head
    obtain ⟨freed, hfreed⟩ : ∃ freed, freed = ((List.range d.cells.size).foldl
      (seqRmCell s (rangeFrom p) (rangeTo (-1))) (d.cells, d.cells.size)).2 := ⟨_, rfl⟩
    have hnew : (d.seqRm s p (-1)).head =
        if freed ≠ d.cells.size ∧ freed < d.head then freed else d.head := by
      rw [hfreed]
      rfl
    rw [hnew]
    by_cases hcut : (rangeFrom p).toNat < n
    · obtain ⟨hpos, hseq⟩ := h.cells.below hcut
      have hlt : (rangeFrom p).toNat < d.cells.size := by omega
      have hle : freed ≤ (rangeFrom p).toNat := by
        rw [hfreed, hto]
        refine seqRm_freed hlt _ _ rfl List.pairwise_lt_range (.inr ⟨rfl,
          List.mem_range.mpr hlt, ?_, hseq⟩)
        refine ⟨?_, ?_, ?_⟩
        · show s ∈ d.cells.seq _
          rw [hseq]
          exact Finset.mem_singleton_self s
        · show rangeFrom p ≤ d.cells.pos _
          omega
        · show d.cells.pos _ < _
          omega
      split <;> omega
    · split <;> omega

end

end MzCache.Unified
