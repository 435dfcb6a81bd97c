import MzCache.Unified.IndexLoops

/-!
# Steps that rewrite cells and their index

Shifting and dividing rewrite the cells of a sequence in a range of positions, placing a
ubatch and restoring a slot rewrite a run of cells. Each leaves the index exact under the
rule for rewritten cells; growth does not touch the cells at all.
-/

namespace MzCache.Unified

open MzCache MzCache.Lib

/-! ## Shifting and dividing -/

/-- The cells of a sequence in a range of positions. -/
def Cells.inRange (c : Cells) (s : Nat) (p0 p1 : Int) : List Nat :=
  (List.range c.size).filter fun i => c.posIn i p0 p1 && decide (s ∈ c.seq i)

/-- What `seq_add` must find. -/
def Cache.ShiftSafe (c : Cache) (s : Nat) (p0 p1 shift : Int) : Prop :=
  shift = 0 ∨ rangeFrom p0 = rangeTo p1 ∨
    c.cells.RewriteSafe (c.cells.inRange s (rangeFrom p0) (rangeTo p1))
      fun i => shiftedCell shift (c.cells.cell i)

/-- What `seq_div` must find: no cell ends at the position that stands for an empty one. -/
def Cache.DivideSafe (c : Cache) (s : Nat) (p0 p1 d : Int) : Prop :=
  d = 1 ∨ rangeFrom p0 = rangeTo p1 ∨
    (d ≠ 0 ∧ (∀ i ∈ c.cells.inRange s (rangeFrom p0) (rangeTo p1), (c.cells.pos i).tdiv d ≠ -1) ∧
      c.cells.RewriteSafe (c.cells.inRange s (rangeFrom p0) (rangeTo p1))
        fun i => dividedCell d (c.cells.cell i))

instance (c : Cache) (s : Nat) (p0 p1 shift : Int) : Decidable (c.ShiftSafe s p0 p1 shift) := by
  unfold Cache.ShiftSafe
  infer_instance

instance (c : Cache) (s : Nat) (p0 p1 d : Int) : Decidable (c.DivideSafe s p0 p1 d) := by
  unfold Cache.DivideSafe
  infer_instance

theorem Cells.mem_inRange {c : Cells} {s i : Nat} {p0 p1 : Int} :
    i ∈ c.inRange s p0 p1 ↔ i < c.size ∧ c.posIn i p0 p1 = true ∧ s ∈ c.seq i := by
  unfold Cells.inRange
  simp

section

variable {c : Cache}

/-- A loop that rewrites the cells of a sequence in a range. -/
theorem rewriteLoop_indexed_iff {α : Type} (cells : α → Cells) {f : α → Nat → α}
    (h : c.cells.Indexed) {s : Nat} {p0 p1 : Int} (new : Nat → Int × Finset Nat) {a0 : α}
    (h0 : cells a0 = c.cells)
    (hin : ∀ a i, (cells a).Tidy → (cells a).cell i = c.cells.cell i →
      i ∈ c.cells.inRange s p0 p1 →
      (cells a).Touches (cells (f a i)) i (entriesOf (c.cells.cell i)) (entriesOf (new i)))
    (hout : ∀ a i, (cells a).cell i = c.cells.cell i → i < c.cells.size →
      i ∉ c.cells.inRange s p0 p1 → f a i = a) :
    ((cells ((List.range c.cells.size).foldl f a0)).Indexed ↔
      c.cells.RewriteSafe (c.cells.inRange s p0 p1) new) ∧
    (cells ((List.range c.cells.size).foldl f a0)).size = c.cells.size := by
  have hloop : ∀ a, ∀ i ∈ List.range c.cells.size, (cells a).Tidy →
      (cells a).size = c.cells.size → (cells a).cell i = c.cells.cell i →
      (cells a).Touches (cells (f a i)) i
        ((fun i => if i ∈ c.cells.inRange s p0 p1 then entriesOf (c.cells.cell i) else ∅) i)
        ((fun i => if i ∈ c.cells.inRange s p0 p1 then entriesOf (new i) else ∅) i) := by
    intro a i hi ht _ hcell
    dsimp only
    by_cases hmem : i ∈ c.cells.inRange s p0 p1
    · rw [if_pos hmem, if_pos hmem]
      exact hin a i ht hcell hmem
    · rw [if_neg hmem, if_neg hmem, hout a i hcell (List.mem_range.mp hi) hmem]
      exact .refl ht i
  constructor
  · rw [loop_indexed_iff cells List.pairwise_lt_range h h0 hloop]
    refine rewriteSafe_iff h.tidy (fun i hi => ?_) (fun i hi => (Cells.mem_inRange.mp hi).1) new
    exact List.mem_range.mpr (Cells.mem_inRange.mp hi).1
  · exact loop_size cells List.nodup_range h.tidy h0 hloop

/-- Shifting a sequence keeps an exact index exact if and only if it is safe. -/
theorem seqAdd_indexed_iff (h : c.cells.Indexed) (s : Nat) (p0 p1 shift : Int) :
    ((c.seqAdd s p0 p1 shift).cells.Indexed ↔ c.ShiftSafe s p0 p1 shift) ∧
      (c.seqAdd s p0 p1 shift).cells.size = c.cells.size := by
  unfold Cache.seqAdd Cache.ShiftSafe
  split
  · exact ⟨⟨fun _ => Or.inl ‹_›, fun _ => h⟩, rfl⟩
  split
  · exact ⟨⟨fun _ => Or.inr (Or.inl ‹_›), fun _ => h⟩, rfl⟩
  rename_i hshift hrange
  have h0 := rangeFrom_nonneg p0
  obtain ⟨hiff, hsize⟩ := @rewriteLoop_indexed_iff c _ Prod.fst
    (seqAddCell s (rangeFrom p0) (rangeTo p1) shift) h s (rangeFrom p0) (rangeTo p1)
    (fun i => shiftedCell shift (c.cells.cell i)) (c.cells, c.cells.size) rfl
    (by
      intro a i ht hcell hmem
      obtain ⟨-, hin, hs⟩ := Cells.mem_inRange.mp hmem
      have hpos : a.1.pos i = c.cells.pos i := congrArg Prod.fst hcell
      have hseq : a.1.seq i = c.cells.seq i := congrArg Prod.snd hcell
      have hin' : a.1.posIn i (rangeFrom p0) (rangeTo p1) = true := by
        unfold Cells.posIn at hin ⊢
        rw [hpos]
        exact hin
      unfold seqAddCell
      dsimp only
      rw [if_pos hin', if_pos (hseq ▸ hs), ← hcell]
      exact Cells.posAdd_touches ht (Cells.pos_of_posIn h0 hin') shift)
    (by
      intro a i hcell hi hmem
      have hpos : a.1.pos i = c.cells.pos i := congrArg Prod.fst hcell
      have hseq : a.1.seq i = c.cells.seq i := congrArg Prod.snd hcell
      unfold seqAddCell
      dsimp only
      split
      · rename_i hin
        rw [if_neg]
        intro hs
        refine hmem (Cells.mem_inRange.mpr ⟨hi, ?_, hseq ▸ hs⟩)
        unfold Cells.posIn at hin ⊢
        rw [← hpos]
        exact hin
      · rfl)
  refine ⟨hiff.trans ?_, hsize⟩
  simp [hshift, hrange]

/-- Dividing a sequence keeps an exact index exact when it is safe. -/
theorem seqDiv_indexed (h : c.cells.Indexed) {s : Nat} {p0 p1 d : Int}
    (hsafe : c.DivideSafe s p0 p1 d) :
    (c.seqDiv s p0 p1 d).cells.Indexed ∧ (c.seqDiv s p0 p1 d).cells.size = c.cells.size := by
  unfold Cache.seqDiv
  unfold Cache.DivideSafe at hsafe
  split
  · exact ⟨h, rfl⟩
  split
  · exact ⟨h, rfl⟩
  rename_i hd hrange
  obtain ⟨-, hne, hrewrite⟩ := (hsafe.resolve_left hd).resolve_left hrange
  have h0 := rangeFrom_nonneg p0
  obtain ⟨hiff, hsize⟩ := @rewriteLoop_indexed_iff c _ id
    (seqDivCell s (rangeFrom p0) (rangeTo p1) d) h s (rangeFrom p0) (rangeTo p1)
    (fun i => dividedCell d (c.cells.cell i)) c.cells rfl
    (by
      intro a i ht hcell hmem
      obtain ⟨-, hin, hs⟩ := Cells.mem_inRange.mp hmem
      have hpos : a.pos i = c.cells.pos i := congrArg Prod.fst hcell
      have hseq : a.seq i = c.cells.seq i := congrArg Prod.snd hcell
      have hin' : a.posIn i (rangeFrom p0) (rangeTo p1) = true := by
        unfold Cells.posIn at hin ⊢
        rw [hpos]
        exact hin
      have hpos1 : (a.pos i).tdiv d ≠ -1 := by
        rw [hpos]
        exact hne i hmem
      show a.Touches (seqDivCell s (rangeFrom p0) (rangeTo p1) d a i) i _ _
      unfold seqDivCell
      rw [if_pos hin', if_pos (hseq ▸ hs), ← hcell]
      exact Cells.posDiv_touches ht (Cells.pos_of_posIn h0 hin') hpos1)
    (by
      intro a i hcell hi hmem
      have hpos : a.pos i = c.cells.pos i := congrArg Prod.fst hcell
      have hseq : a.seq i = c.cells.seq i := congrArg Prod.snd hcell
      unfold seqDivCell
      split
      · rename_i hin
        rw [if_neg]
        intro hs
        refine hmem (Cells.mem_inRange.mpr ⟨hi, ?_, hseq ▸ hs⟩)
        unfold Cells.posIn at hin ⊢
        rw [← hpos]
        exact hin
      · rfl)
  exact ⟨hiff.mpr hrewrite, hsize⟩

end

/-! ## Runs of cells -/

/-- A loop that rewrites a run of cells. -/
theorem runLoop_indexed_iff {α : Type} (cells : α → Cells) {f : α → Nat → α} {c : Cells}
    (h : c.Indexed) {i0 n : Nat} (hfit : i0 + n ≤ c.size) (new : Nat → Int × Finset Nat) {a0 : α}
    (h0 : cells a0 = c)
    (hf : ∀ a, ∀ i, i0 ≤ i → i < i0 + n → (cells a).Tidy → (cells a).size = c.size →
      (cells a).cell i = c.cell i →
      (cells a).Touches (cells (f a i)) i (entriesOf (c.cell i)) (entriesOf (new i))) :
    ((cells ((List.range' i0 n).foldl f a0)).Indexed ↔ c.RewriteSafe (List.range' i0 n) new) ∧
    (cells ((List.range' i0 n).foldl f a0)).size = c.size := by
  have hmem : ∀ i, i ∈ List.range' i0 n ↔ i0 ≤ i ∧ i < i0 + n := fun i => List.mem_range'_1
  have hloop : ∀ a, ∀ i ∈ List.range' i0 n, (cells a).Tidy → (cells a).size = c.size →
      (cells a).cell i = c.cell i →
      (cells a).Touches (cells (f a i)) i
        ((fun i => if i ∈ List.range' i0 n then entriesOf (c.cell i) else ∅) i)
        ((fun i => if i ∈ List.range' i0 n then entriesOf (new i) else ∅) i) := by
    intro a i hi ht hsize hcell
    dsimp only
    rw [if_pos hi, if_pos hi]
    exact hf a i ((hmem i).mp hi).1 ((hmem i).mp hi).2 ht hsize hcell
  constructor
  · rw [loop_indexed_iff cells List.pairwise_lt_range' h h0 hloop]
    refine rewriteSafe_iff h.tidy (fun i hi => hi) (fun i hi => ?_) new
    have := ((hmem i).mp hi).2
    omega
  · exact loop_size cells List.nodup_range' h.tidy h0 hloop

/-- The token that goes to cell `i` of a slot. -/
def tokenAt (headCur : Nat) (ubatch : List BatchToken) (i : Nat) : BatchToken :=
  ubatch.getD (i - headCur) ⟨0, -1, []⟩

/-- Position and sequences of a token. -/
def tokenCell (tok : BatchToken) : Int × Finset Nat := (tok.pos, tok.seqIds.toFinset)

theorem tokenAt_succ {headCur : Nat} {tok : BatchToken} {toks : List BatchToken} {i : Nat}
    (hi : headCur < i) : tokenAt headCur (tok :: toks) i = tokenAt (headCur + 1) toks i := by
  unfold tokenAt
  obtain ⟨k, rfl⟩ : ∃ k, i = headCur + 1 + k := ⟨i - (headCur + 1), by omega⟩
  rw [show headCur + 1 + k - headCur = k + 1 by omega,
    show headCur + 1 + k - (headCur + 1) = k by omega]
  rfl

theorem placeTokens_eq (toks : List BatchToken) : ∀ (headCur : Nat) (acc : Cells × SeqPosMaxRm),
    placeTokens headCur toks acc = (List.range' headCur toks.length).foldl
      (fun acc i => placeToken i (tokenAt headCur toks i) acc) acc := by
  induction toks with
  | nil => intro headCur acc; rfl
  | cons tok toks ih =>
      intro headCur acc
      have hfirst : tokenAt headCur (tok :: toks) headCur = tok := by
        unfold tokenAt
        rw [Nat.sub_self]
        rfl
      rw [placeTokens, ih, List.length_cons, List.range'_succ, List.foldl_cons, hfirst]
      apply List.foldl_ext
      intro acc i hi
      rw [tokenAt_succ (List.mem_range'_1.mp hi).1]

/-- The cell that is restored at `i`. -/
def savedAt (i0 : Nat) (saved : List (Int × Finset Nat)) (i : Nat) : Int × Finset Nat :=
  saved.getD (i - i0) (-1, ∅)

theorem savedAt_succ {i0 : Nat} {o : Int × Finset Nat} {saved : List (Int × Finset Nat)} {i : Nat}
    (hi : i0 < i) : savedAt i0 (o :: saved) i = savedAt (i0 + 1) saved i := by
  unfold savedAt
  obtain ⟨k, rfl⟩ : ∃ k, i = i0 + 1 + k := ⟨i - (i0 + 1), by omega⟩
  rw [show i0 + 1 + k - i0 = k + 1 by omega, show i0 + 1 + k - (i0 + 1) = k by omega]
  rfl

theorem set_eq (saved : List (Int × Finset Nat)) : ∀ (i0 : Nat) (c : Cells),
    Cells.set i0 saved c = (List.range' i0 saved.length).foldl
      (fun c i => c.setCell i (savedAt i0 saved i)) c := by
  induction saved with
  | nil => intro i0 c; rfl
  | cons o saved ih =>
      intro i0 c
      have hfirst : savedAt i0 (o :: saved) i0 = o := by
        unfold savedAt
        rw [Nat.sub_self]
        rfl
      rw [Cells.set, ih, List.length_cons, List.range'_succ, List.foldl_cons, hfirst]
      apply List.foldl_ext
      intro c i hi
      rw [savedAt_succ (List.mem_range'_1.mp hi).1]

/-! ## Placing a ubatch -/

/-- What `apply_ubatch` must find at its slot: room, positions that are positions, and no entry
to overwrite that is still needed. -/
structure Cells.PlaceSafe (c : Cells) (headCur : Nat) (ubatch : List BatchToken) : Prop where
  room : headCur + ubatch.length ≤ c.size
  pos : ∀ tok ∈ ubatch, tok.pos ≠ -1
  rewrite : c.RewriteSafe (List.range' headCur ubatch.length)
    fun i => tokenCell (tokenAt headCur ubatch i)

theorem tokenAt_mem {headCur : Nat} {ubatch : List BatchToken} {i : Nat} (hge : headCur ≤ i)
    (hlt : i < headCur + ubatch.length) : tokenAt headCur ubatch i ∈ ubatch := by
  unfold tokenAt
  rw [List.getD_eq_getElem _ _ (by omega)]
  exact List.getElem_mem _

section

variable {sh : Shape} {alloc : Alloc} {c : Cache}

theorem growLayerChunk_cells (l : Layer) (idx : Nat) :
    (growLayerChunk alloc l idx c).1.cells = c.cells := by
  unfold growLayerChunk
  split
  · rfl
  split
  · rfl
  split <;> rfl

theorem growList_cells (todo : List (Layer × Nat)) : ∀ c : Cache,
    (growList alloc todo c).1.cells = c.cells := by
  induction todo with
  | nil => intro c; rfl
  | cons x todo ih =>
      intro c
      rw [growList]
      split
      · rw [ih, growLayerChunk_cells]
      · exact growLayerChunk_cells _ _

/-- Growth does not touch the cells. -/
theorem mzGrowChunks_cells (n : Nat) : (mzGrowChunks sh alloc n c).1.cells = c.cells := by
  unfold mzGrowChunks
  dsimp only
  split
  · rfl
  split
  · rfl
  split
  · exact growList_cells _ _
  · exact growList_cells _ _

theorem purge_indexed (rmMax : SeqPosMaxRm) (seqs : List Nat) : ∀ {c : Cache}, c.cells.Indexed →
    (seqs.foldl (purgeSeq rmMax) c).cells.Indexed ∧
      (seqs.foldl (purgeSeq rmMax) c).cells.size = c.cells.size := by
  induction seqs with
  | nil => intro c h; exact ⟨h, rfl⟩
  | cons s seqs ih =>
      intro c h
      have hone : (purgeSeq rmMax c s).cells.Indexed ∧
          (purgeSeq rmMax c s).cells.size = c.cells.size := by
        unfold purgeSeq
        split
        · exact ⟨h, rfl⟩
        split
        · exact seqRm_indexed h _ _ _
        · exact ⟨h, rfl⟩
      obtain ⟨hrest, hsize⟩ := ih hone.1
      exact ⟨hrest, hsize.trans hone.2⟩

/-- A placed ubatch keeps an exact index exact when its slot is safe, and so does one that fails
to grow. -/
theorem applyUbatch_indexed (h : c.cells.Indexed) {headCur : Nat} {ubatch : List BatchToken}
    (hsafe : c.cells.PlaceSafe headCur ubatch) :
    (applyUbatch sh alloc headCur ubatch c).1.cells.Indexed ∧
      (applyUbatch sh alloc headCur ubatch c).1.cells.size = c.cells.size := by
  have hgrow := @mzGrowChunks_cells sh alloc c (headCur + ubatch.length)
  unfold applyUbatch
  dsimp only
  split
  · rw [hgrow]
    obtain ⟨hplace, hsize⟩ := @runLoop_indexed_iff _ Prod.fst
      (fun acc i => placeToken i (tokenAt headCur ubatch i) acc) _ h _ _ hsafe.room
      (fun i => tokenCell (tokenAt headCur ubatch i)) (c.cells, fun _ => -1) rfl
      (by
        intro a i hge hlt ht hsize hcell
        have hroom := hsafe.room
        rw [← hcell]
        exact placeToken_touches ht (by omega) (hsafe.pos _ (tokenAt_mem hge hlt)))
    have hplaced := hplace.mpr hsafe.rewrite
    rw [← placeTokens_eq] at hplaced hsize
    obtain ⟨hpurge, hsize'⟩ := @purge_indexed
      (placeTokens headCur ubatch (c.cells, fun _ => -1)).2 (List.range llamaMaxSeq)
      { (mzGrowChunks sh alloc (headCur + ubatch.length) c).1 with
        cells := (placeTokens headCur ubatch (c.cells, fun _ => -1)).1 } hplaced
    exact ⟨hpurge, hsize'.trans hsize⟩
  · rw [hgrow]
    exact ⟨h, rfl⟩

/-! ## Restoring a slot -/

/-- What a saved slot carries: it fits, and an empty cell has no sequence. -/
structure Saved.Fits (saved : Saved) (size : Nat) : Prop where
  room : saved.headNew + saved.cells.length ≤ size
  empty : ∀ o ∈ saved.cells, o.1 = -1 → o.2 = ∅

/-- What restoring a slot must find. -/
def Cells.RestoreSafe (c : Cells) (saved : Saved) : Prop :=
  c.RewriteSafe (List.range' saved.headNew saved.cells.length)
    (savedAt saved.headNew saved.cells)

theorem Cells.cp_fits {c : Cells} (h : c.Tidy) {headOld headNew n : Nat}
    (hroom : headNew + n ≤ c.size) : (Saved.mk headOld headNew (c.cp headNew n)).Fits c.size := by
  constructor
  · show headNew + (c.cp headNew n).length ≤ c.size
    unfold Cells.cp
    rw [List.length_map, List.length_range]
    exact hroom
  · intro o ho
    have ho' : o ∈ c.cp headNew n := ho
    unfold Cells.cp at ho'
    obtain ⟨j, -, rfl⟩ := List.mem_map.mp ho'
    exact h.empty _

theorem savedAt_empty {saved : Saved} {size : Nat} (hfits : saved.Fits size) (i : Nat) :
    (savedAt saved.headNew saved.cells i).1 = -1 → (savedAt saved.headNew saved.cells i).2 = ∅ := by
  unfold savedAt
  by_cases hlt : i - saved.headNew < saved.cells.length
  · rw [List.getD_eq_getElem _ _ hlt]
    exact hfits.empty _ (List.getElem_mem _)
  · rw [List.getD_eq_default _ _ (not_lt.mp hlt)]
    exact fun _ => rfl

/-- Restoring a slot keeps an exact index exact if and only if it is safe. -/
theorem restoreSlot_indexed_iff (h : c.cells.Indexed) {saved : Saved}
    (hfits : saved.Fits c.cells.size) :
    ((restoreSlot c saved).cells.Indexed ↔ c.cells.RestoreSafe saved) ∧
      (restoreSlot c saved).cells.size = c.cells.size := by
  unfold restoreSlot Cells.RestoreSafe
  dsimp only
  rw [set_eq]
  refine runLoop_indexed_iff id h hfits.room (savedAt saved.headNew saved.cells) rfl ?_
  intro a i _ hlt ht hsize hcell
  have hroom := hfits.room
  have hlt' : i < a.size := by
    have hsize' : a.size = c.cells.size := hsize
    omega
  rw [← hcell]
  exact setCell_touches ht hlt' (savedAt_empty hfits i)

end

end MzCache.Unified
