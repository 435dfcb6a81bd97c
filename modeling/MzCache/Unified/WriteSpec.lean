import MzCache.Unified.StateIo

/-!
# What a save writes

The ranges of `state_write` are the saved cells in increasing order, and `chunk_write`
emits for them what `write_tensor` would emit from the flat tensor that the chunks
hold. So the chunked save is the unchunked one.
-/

namespace MzCache.Unified

open MzCache MzCache.Lib

/-! ## Ranges -/

/-- `cell_ranges` collects exactly the kept cells, in order. Induction on the cells left; an
open range stands for the cells from its begin on. -/
theorem cellRangesFrom_cells (keep : Nat → Bool) (size : Nat) :
    ∀ n i b : Nat, i + n = size → (b = size ∨ (b < i ∧ ∀ j, b ≤ j → j < i → keep j)) →
      rangeCells (cellRangesFrom keep size n i b) =
        (if b = size then [] else List.range' b (i - b)) ++ (List.range' i n).filter keep := by
  intro n
  induction n with
  | zero =>
      intro i b hi hb
      have : i = size := by omega
      subst this
      unfold cellRangesFrom rangeCells
      by_cases hbs : b = i
      · simp [hbs]
      · simp [hbs]
  | succ n ih =>
      intro i b hi hb
      rw [List.range'_succ]
      unfold cellRangesFrom
      by_cases hk : keep i
      · rw [if_pos hk, List.filter_cons_of_pos hk]
        by_cases hbs : b = size
        · rw [if_pos hbs, if_pos hbs, ih (i + 1) i (by omega) (Or.inr ⟨by omega, ?_⟩)]
          · rw [if_neg (by omega), Nat.add_sub_cancel_left]
            rfl
          · intro j h1 h2
            rw [show j = i by omega]
            exact hk
        · have hlt := hb.resolve_left hbs
          rw [if_neg hbs, if_neg hbs, ih (i + 1) b (by omega) (Or.inr ⟨by omega, ?_⟩)]
          · rw [if_neg hbs, show i + 1 - b = i - b + 1 by omega, List.range'_concat,
              List.append_assoc]
            congr 1
            rw [show b + 1 * (i - b) = i by omega]
            rfl
          · intro j h1 h2
            by_cases hj : j = i
            · rw [hj]
              exact hk
            · exact hlt.2 j h1 (by omega)
      · rw [if_neg hk, List.filter_cons_of_neg hk]
        by_cases hbs : b = size
        · rw [if_neg (by omega), if_pos hbs, ih (i + 1) size (by omega) (Or.inl rfl),
            if_pos rfl]
        · rw [if_pos hbs, if_neg hbs]
          show rangeCells ((b, i) :: _) = _
          rw [show rangeCells ((b, i) :: cellRangesFrom keep size n (i + 1) size) =
            List.range' b (i - b) ++ rangeCells (cellRangesFrom keep size n (i + 1) size) from rfl,
            ih (i + 1) size (by omega) (Or.inl rfl), if_pos rfl]
          rfl

/-- Every range is a non-empty range of cells. -/
theorem cellRangesFrom_bounds (keep : Nat → Bool) (size : Nat) :
    ∀ n i b : Nat, i + n = size → (b = size ∨ b < i) →
      ∀ r ∈ cellRangesFrom keep size n i b, r.1 < r.2 ∧ r.2 ≤ size := by
  intro n
  induction n with
  | zero =>
      intro i b hi hb r hr
      unfold cellRangesFrom at hr
      by_cases hbs : b = size
      · simp [hbs] at hr
      · simp only [ne_eq, hbs, not_false_eq_true, if_true, List.mem_singleton] at hr
        rw [hr]
        exact ⟨by dsimp only; omega, le_rfl⟩
  | succ n ih =>
      intro i b hi hb r hr
      unfold cellRangesFrom at hr
      split at hr
      · split at hr
        · exact ih (i + 1) i (by omega) (Or.inr (by omega)) r hr
        · exact ih (i + 1) b (by omega) (Or.inr (by omega)) r hr
      · split at hr
        · rcases List.mem_cons.mp hr with h | h
          · rw [h]
            exact ⟨by dsimp only; omega, by dsimp only; omega⟩
          · exact ih (i + 1) size (by omega) (Or.inl rfl) r h
        · exact ih (i + 1) size (by omega) (Or.inl rfl) r hr

/-- The cells that a save writes, in order. -/
def Cells.savedCells (c : Cells) (seqId : Int) : List Nat :=
  (List.range c.size).filter (c.saved seqId)

section

variable {sh : Shape} {c : Cells} {seqId : Int}

theorem cellRanges_cells : rangeCells (c.cellRanges seqId) = c.savedCells seqId := by
  unfold Cells.cellRanges Cells.savedCells
  rw [cellRangesFrom_cells _ _ _ _ _ (by omega) (Or.inl rfl), if_pos rfl, List.nil_append,
    List.range_eq_range']

theorem cellRanges_bounds : ∀ r ∈ c.cellRanges seqId, r.1 < r.2 ∧ r.2 ≤ c.size :=
  cellRangesFrom_bounds _ _ _ _ _ (by omega) (Or.inl rfl)

/-- A range ends within a bound of the saved cells. -/
theorem cellRanges_le {n : Nat} (hn : ∀ i ∈ c.savedCells seqId, i < n) :
    ∀ r ∈ c.cellRanges seqId, r.1 < r.2 ∧ r.2 ≤ n := by
  intro r hr
  have hlt := (cellRanges_bounds r hr).1
  have hmem : r.2 - 1 ∈ rangeCells (c.cellRanges seqId) := by
    refine List.mem_flatMap.mpr ⟨r, hr, ?_⟩
    rw [List.mem_range'_1]
    omega
  rw [cellRanges_cells] at hmem
  have := hn _ hmem
  exact ⟨hlt, by omega⟩

/-- The assertion of `state_write` holds. -/
theorem cellCount_eq :
    c.cellCount seqId = ((c.cellRanges seqId).map fun r => r.2 - r.1).sum := by
  have hlen : (rangeCells (c.cellRanges seqId)).length =
      ((c.cellRanges seqId).map fun r => r.2 - r.1).sum := by
    unfold rangeCells
    rw [List.length_flatMap]
    congr 1
    apply List.map_congr_left
    intro r _
    exact List.length_range' ..
  rw [← hlen, cellRanges_cells]
  unfold Cells.cellCount Cells.savedCells
  exact List.countP_eq_length_filter ..

theorem cellCount_length : c.cellCount seqId = (c.savedCells seqId).length :=
  List.countP_eq_length_filter ..

end

/-! ## Rows -/

/-- The flat tensor of a slot. -/
def Cache.flat (c : Cache) (slot sizeRow : Nat) : Bytes :=
  flatten (tokensPerChunk * sizeRow) fun ci =>
    match c.ptr slot ci with
    | some p => c.mem.peek p
    | none => fun _ => 0

/-- The chunks of a slot that hold the first `n` rows are there, with room for their rows. -/
def Cache.Resident (c : Cache) (slot sizeRow n : Nat) : Prop :=
  ∀ ci, ci * tokensPerChunk < n →
    ∃ p, c.ptr slot ci = some p ∧ c.mem.Inside p 0 (tokensPerChunk * sizeRow)

theorem tokensPerChunk_pos : 0 < tokensPerChunk := by decide

section

variable {c : Cache} {slot sizeRow : Nat}

/-- The chunks `ci .. last` of a range are one slice of the flat tensor. Induction on the
chunks left. -/
theorem chunkWriteFrom_eq {s e : Nat} (hse : s < e) (hres : c.Resident slot sizeRow e) :
    ∀ n ci : Nat, s / tokensPerChunk ≤ ci → ci + n = (e - 1) / tokensPerChunk →
      chunkWriteFrom c slot sizeRow s e (List.range' ci (n + 1)) =
        some (slice (c.flat slot sizeRow) (lowRow tokensPerChunk s ci * sizeRow)
          ((e - lowRow tokensPerChunk s ci) * sizeRow)) := by
  have ht := tokensPerChunk_pos
  -- one chunk is the slice of its own rows
  have hone : ∀ ci rest, s / tokensPerChunk ≤ ci → ci ≤ (e - 1) / tokensPerChunk →
      chunkWriteFrom c slot sizeRow s e (ci :: rest) =
        (chunkWriteFrom c slot sizeRow s e rest).map fun bs =>
          slice (c.flat slot sizeRow) (lowRow tokensPerChunk s ci * sizeRow)
            ((highRow tokensPerChunk e ci - lowRow tokensPerChunk s ci) * sizeRow) ++ bs := by
    intro ci rest hlow hhigh
    obtain ⟨hle, hci, htop⟩ := lowRow_le_highRow ht hse hlow hhigh
    have hmem : ci * tokensPerChunk < e := by
      have := Nat.div_mul_le_self (e - 1) tokensPerChunk
      have := Nat.mul_le_mul_right tokensPerChunk hhigh
      omega
    obtain ⟨p, hp, hroom⟩ := hres ci hmem
    rw [chunkWriteFrom, span_eq ht hse hlow hhigh]
    dsimp only
    set lo := lowRow tokensPerChunk s ci
    set hi := highRow tokensPerChunk e ci
    by_cases hzero : (hi - lo) * sizeRow = 0
    · rw [if_pos hzero, hzero]
      show _ = Option.map (fun bs => [] ++ bs) _
      simp
    · have hfit : (lo - ci * tokensPerChunk) * sizeRow + (hi - lo) * sizeRow ≤
          tokensPerChunk * sizeRow := by
        rw [← Nat.add_mul]
        exact Nat.mul_le_mul_right _ (by omega)
      have hslice := @slice_flatten ci _ (fun ci =>
        match c.ptr slot ci with
        | some p => c.mem.peek p
        | none => fun _ => 0) _ _ hfit
      have hoff : ci * (tokensPerChunk * sizeRow) + (lo - ci * tokensPerChunk) * sizeRow =
          lo * sizeRow := by
        rw [← Nat.mul_assoc, ← Nat.add_mul, Nat.add_sub_cancel' hci]
      rw [hoff] at hslice
      rw [hp] at hslice
      rw [if_neg hzero, hp]
      dsimp only at hslice ⊢
      rw [if_pos (by unfold Memory.Inside at hroom ⊢; omega), hslice]
      rfl
  intro n
  induction n with
  | zero =>
      intro ci hlow hlast
      rw [show List.range' ci (0 + 1) = [ci] from rfl, hone ci [] hlow (by omega)]
      rw [show highRow tokensPerChunk e ci = e by
        rw [show ci = (e - 1) / tokensPerChunk by omega]
        exact highRow_last ht (by omega)]
      show some (_ ++ []) = _
      rw [List.append_nil]
  | succ n ih =>
      intro ci hlow hlast
      rw [List.range'_succ, hone ci _ hlow (by omega), ih (ci + 1) (by omega) (by omega)]
      obtain ⟨hle, _, _⟩ := lowRow_le_highRow ht hse hlow (by omega : ci ≤ (e - 1) / tokensPerChunk)
      have hnext := lowRow_succ ht hlow (e := e) (by omega)
      have htop : highRow tokensPerChunk e ci ≤ e := Nat.min_le_left ..
      rw [← hnext]
      show some (_ ++ _) = _
      congr 1
      rw [show highRow tokensPerChunk e ci * sizeRow = lowRow tokensPerChunk s ci * sizeRow +
          (highRow tokensPerChunk e ci - lowRow tokensPerChunk s ci) * sizeRow by
        rw [← Nat.add_mul, Nat.add_sub_cancel' hle], ← slice_add, ← Nat.add_mul]
      congr 2
      omega

/-- `chunk_write` emits what `write_tensor` emits from the flat tensor. -/
theorem chunkWrite_eq {n : Nat} (hres : c.Resident slot sizeRow n) (ranges : List (Nat × Nat))
    (hb : ∀ r ∈ ranges, r.1 < r.2 ∧ r.2 ≤ n) :
    chunkWrite c slot sizeRow ranges = some (flatWrite (c.flat slot sizeRow) sizeRow ranges) := by
  induction ranges with
  | nil => rfl
  | cons r ranges ih =>
      obtain ⟨h1, h2⟩ := hb r List.mem_cons_self
      have hrest := ih fun r' hr' => hb r' (List.mem_cons_of_mem _ hr')
      have hdiv : r.1 / tokensPerChunk ≤ (r.2 - 1) / tokensPerChunk :=
        Nat.div_le_div_right (by omega)
      have hone := @chunkWriteFrom_eq c slot sizeRow r.1 r.2 h1
        (fun ci hci => hres ci (by omega))
        ((r.2 - 1) / tokensPerChunk - r.1 / tokensPerChunk) (r.1 / tokensPerChunk) le_rfl
        (by omega)
      rw [lowRow_first, show (r.2 - 1) / tokensPerChunk - r.1 / tokensPerChunk + 1 =
        (r.2 - 1) / tokensPerChunk + 1 - r.1 / tokensPerChunk by omega] at hone
      rw [chunkWrite, if_neg (by omega)]
      unfold chunkIdxs
      rw [hone, hrest]
      rfl

end

/-! ## The stream -/

/-- Row `i` of a flat tensor. -/
def flatRow (flat : Bytes) (sizeRow i : Nat) : List UInt8 := slice flat (i * sizeRow) sizeRow

theorem flatWrite_rows (flat : Bytes) (sizeRow : Nat) (ranges : List (Nat × Nat)) :
    flatWrite flat sizeRow ranges = (rangeCells ranges).flatMap (flatRow flat sizeRow) := by
  have hone : ∀ n a, slice flat (a * sizeRow) (n * sizeRow) =
      (List.range' a n).flatMap (flatRow flat sizeRow) := by
    intro n
    induction n with
    | zero =>
        intro a
        rw [Nat.zero_mul]
        rfl
    | succ n ih =>
        intro a
        rw [Nat.succ_mul, Nat.add_comm, slice_add, List.range'_succ, List.flatMap_cons]
        congr 1
        rw [← ih (a + 1), Nat.succ_mul]
  unfold flatWrite rangeCells
  rw [List.flatMap_assoc]
  apply List.flatMap_congr
  intro r _
  exact hone _ _

/-- The stream for given rows: header, cell records, then layer by layer the K rows and the V
rows of the saved cells. -/
def savedStream (sh : Shape) (c : Cells) (seqId : Int) (k v : Layer → Nat → List UInt8) :
    List UInt8 :=
  toLe 4 (c.cellCount seqId) ++ (c.savedCells seqId).flatMap (c.cellRecord sh seqId) ++
    (toLe 4 0 ++ toLe 4 sh.layers.length ++
      ((sh.layers.flatMap fun l =>
        toI32 l.kType ++ toLe 8 l.kSizeRow ++ (c.savedCells seqId).flatMap (k l)) ++
      (sh.layers.flatMap fun l =>
        toI32 l.vType ++ toLe 8 l.vSizeRow ++ (c.savedCells seqId).flatMap (v l))))

/-- The stream that the unchunked `state_write` emits for flat K and V tensors. -/
def unchunkedStream (sh : Shape) (c : Cells) (seqId : Int) (k v : Layer → Bytes) : List UInt8 :=
  toLe 4 (c.cellCount seqId) ++ stateWriteMeta sh c seqId (c.cellRanges seqId) ++
    (toLe 4 0 ++ toLe 4 sh.layers.length ++
      ((sh.layers.flatMap fun l =>
        toI32 l.kType ++ toLe 8 l.kSizeRow ++ flatWrite (k l) l.kSizeRow (c.cellRanges seqId)) ++
      (sh.layers.flatMap fun l =>
        toI32 l.vType ++ toLe 8 l.vSizeRow ++ flatWrite (v l) l.vSizeRow (c.cellRanges seqId))))

/-- Range by range or row by row, the unchunked stream is one. -/
theorem unchunkedStream_rows (sh : Shape) (c : Cells) (seqId : Int) (k v : Layer → Bytes) :
    unchunkedStream sh c seqId k v =
      savedStream sh c seqId (fun l => flatRow (k l) l.kSizeRow)
        (fun l => flatRow (v l) l.vSizeRow) := by
  unfold unchunkedStream savedStream stateWriteMeta
  simp only [flatWrite_rows, cellRanges_cells]

theorem writeLayers_eq {f : Layer → Option (List UInt8)} {g : Layer → List UInt8}
    (ls : List Layer) (h : ∀ l ∈ ls, f l = some (g l)) :
    writeLayers f ls = some (ls.flatMap g) := by
  induction ls with
  | nil => rfl
  | cons l ls ih =>
      rw [writeLayers, h l List.mem_cons_self, ih fun l' hl' => h l' (List.mem_cons_of_mem _ hl')]
      rfl

/-- Every chunk of every layer is there for the first `n` rows. -/
def Cache.AllResident (sh : Shape) (c : Cache) (n : Nat) : Prop :=
  ∀ l ∈ sh.layers, c.Resident l.kSlot l.kSizeRow n ∧ c.Resident l.vSlot l.vSizeRow n

/-- The chunked save is the unchunked one, when the chunks of the saved cells are there. -/
theorem stateWrite_eq {sh : Shape} {c : Cache} (seqId : Int) (hv : sh.vTrans = false) {n : Nat}
    (hn : ∀ i ∈ c.cells.savedCells seqId, i < n) (hres : c.AllResident sh n) :
    stateWrite sh c seqId = some (unchunkedStream sh c.cells seqId
      (fun l => c.flat l.kSlot l.kSizeRow) (fun l => c.flat l.vSlot l.vSizeRow)) := by
  have hk : ∀ l ∈ sh.layers, writeK c (c.cells.cellRanges seqId) l = some
      (toI32 l.kType ++ toLe 8 l.kSizeRow ++
        flatWrite (c.flat l.kSlot l.kSizeRow) l.kSizeRow (c.cells.cellRanges seqId)) := by
    intro l hl
    unfold writeK
    rw [chunkWrite_eq (hres l hl).1 _ (cellRanges_le hn)]
    rfl
  have hvs : ∀ l ∈ sh.layers, writeV sh c (c.cells.cellRanges seqId) l = some
      (toI32 l.vType ++ toLe 8 l.vSizeRow ++
        flatWrite (c.flat l.vSlot l.vSizeRow) l.vSizeRow (c.cells.cellRanges seqId)) := by
    intro l hl
    unfold writeV
    rw [hv, chunkWrite_eq (hres l hl).2 _ (cellRanges_le hn)]
    rfl
  unfold stateWrite stateWriteData
  dsimp only
  rw [if_pos cellCount_eq, writeLayers_eq _ hk, writeLayers_eq _ hvs, hv]
  rfl

end MzCache.Unified
