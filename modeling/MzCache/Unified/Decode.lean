import MzCache.Unified.PrepareRuns

/-!
# A decode that fails

The loop of `llama_context::decode` over the ubatches of `split_simple`, in one attempt to
prepare them. A ubatch is applied at its head before its graph is built, allocated and computed;
when that fails, `decode` removes what it takes for the positions of the ubatch and returns an
error. Which ubatches compute is an input.
-/

namespace MzCache.Unified

open MzCache MzCache.Lib

/-! ## The model -/

/-- `split_simple` until no token is left; `idxs` is the ubatch under construction. -/
def splitSimple (nUbatch : Nat) : List BatchToken → List BatchToken → List (List BatchToken)
  | idxs, [] => if idxs = [] then [] else [idxs]
  | idxs, tok :: toks =>
      if idxs.length + 1 ≥ nUbatch then (idxs ++ [tok]) :: splitSimple nUbatch [] toks
      else splitSimple nUbatch (idxs ++ [tok]) toks

/-- `std::numeric_limits<llama_pos>::max()`. -/
def posLimit : Int := 2 ^ 31 - 1

/-- `seq_id[i][0]`. -/
def BatchToken.firstSeq (tok : BatchToken) : Nat := tok.seqIds.headD 0

/-- `pos_min[s]` of the clean-up. -/
def rollbackPosMin (ubatch : List BatchToken) (s : Nat) : Int :=
  ubatch.foldl (fun m tok => if tok.firstSeq = s then min m tok.pos else m) posLimit

/-- One sequence of the clean-up. -/
def rollbackSeq (ubatch : List BatchToken) (c : Cache) (s : Nat) : Cache :=
  if rollbackPosMin ubatch s = posLimit then c
  else c.seqRm s (rollbackPosMin ubatch s) (-1)

/-- The clean-up after a failed ubatch. -/
def Cache.rollback (ubatch : List BatchToken) (c : Cache) : Cache :=
  (List.range llamaMaxSeq).foldl (rollbackSeq ubatch) c

/-- How `decode` ends. With an error comes the cache before the failed ubatch, the tokens of the
ubatches before it and the ubatch. -/
inductive Decoded where
  | success (c : Cache)
  | noSlot (c : Cache)
  | threw (c : Cache)
  | error (before : Cache) (past ubatch : List BatchToken) (c : Cache)

/-- The loop over the ubatches from the `k`-th on, each with its head. -/
def decodeFrom (sh : Shape) (alloc : Alloc) (computes : Nat → Bool) :
    Nat → List (Nat × List BatchToken) → List BatchToken → Cache → Decoded
  | _, [], _, c => .success c
  | k, (head, ubatch) :: rest, past, c =>
      let r := applyUbatch sh alloc head ubatch c
      if r.2 then
        if computes k then decodeFrom sh alloc computes (k + 1) rest (past ++ ubatch) r.1
        else .error c past ubatch (r.1.rollback ubatch)
      else .threw r.1

/-- `decode` from `init_batch` on, which is not repeated after a defragmentation. -/
def Cache.decode (sh : Shape) (alloc : Alloc) (computes : Nat → Bool) (nUbatch : Nat)
    (batch : List BatchToken) (c : Cache) : Decoded :=
  let ubatches := splitSimple nUbatch [] batch
  let r := c.prepare sh alloc ubatches
  match r.2 with
  | none => .threw r.1
  | some [] => .noSlot r.1
  | some heads => decodeFrom sh alloc computes 0 (heads.zip ubatches) [] r.1

/-! ## Tokens in free cells -/

/-- Cells with the tokens of a ubatch in the slot at `head`. -/
def overlay (head : Nat) (ubatch : List BatchToken) (f : Nat → Int × Finset Nat) (j : Nat) :
    Int × Finset Nat :=
  if head ≤ j ∧ j < head + ubatch.length then tokenCell (tokenAt head ubatch j) else f j

/-- The cells of a slot for `n` tokens at `head` are empty. -/
def FreeSlot (f : Nat → Int × Finset Nat) (head n : Nat) : Prop :=
  ∀ j, head ≤ j → j < head + n → f j = (-1, ∅)

section

variable {sh : Shape} {alloc : Alloc} {f : Nat → Int × Finset Nat} {i j head : Nat}
  {ubatch : List BatchToken}

theorem splitSimple_mem {nUbatch : Nat} (toks : List BatchToken) : ∀ (idxs : List BatchToken),
    ∀ ubatch ∈ splitSimple nUbatch idxs toks, ∀ tok ∈ ubatch, tok ∈ idxs ++ toks := by
  induction toks with
  | nil =>
      intro idxs ubatch hmem tok htok
      unfold splitSimple at hmem
      split at hmem
      · exact (List.not_mem_nil hmem).elim
      · rw [List.mem_singleton.mp hmem] at htok
        simpa using htok
  | cons tok toks ih =>
      intro idxs ubatch hmem tok' htok'
      unfold splitSimple at hmem
      split at hmem
      · rcases List.mem_cons.mp hmem with rfl | hmem
        · have := List.mem_append_left toks htok'
          simpa using this
        · have := ih [] ubatch hmem tok' htok'
          exact List.mem_append_right _ (List.mem_cons_of_mem _ (by simpa using this))
      · have := ih (idxs ++ [tok]) ubatch hmem tok' htok'
        simpa using this

theorem foldl_seqAdd_cell (seqIds : List Nat) : ∀ c : Cells,
    (seqIds.foldl (fun c s => c.seqAdd i s) c).cell j =
      if j = i then (c.pos i, c.seq i ∪ seqIds.toFinset) else c.cell j := by
  induction seqIds with
  | nil =>
      intro c
      by_cases hj : j = i
      · subst hj
        simp [Cells.cell]
      · simp [hj]
  | cons s seqIds ih =>
      intro c
      rw [List.foldl_cons, ih]
      by_cases hj : j = i
      · simp [hj, Cells.seqAdd, Finset.insert_union]
      · simp [hj, Cells.seqAdd, Cells.cell]

/-- A placed token has its cell to itself. -/
theorem placeToken_cell {acc : Cells × SeqPosMaxRm}
    (hbare : (acc.1.cell i).1 = -1 → (acc.1.cell i).2 = ∅) (tok : BatchToken) (j : Nat) :
    (placeToken i tok acc).1.cell j = if j = i then tokenCell tok else acc.1.cell j := by
  unfold placeToken
  dsimp only
  rw [foldl_seqAdd_cell]
  cases hempty : acc.1.isEmpty i with
  | true =>
      have hseq : acc.1.seq i = ∅ := hbare (of_decide_eq_true hempty)
      rw [if_pos rfl]
      by_cases hj : j = i
      · simp [hj, Cells.posSet, hseq, tokenCell]
      · simp [hj, Cells.posSet, Cells.cell]
  | false =>
      rw [if_neg Bool.false_ne_true]
      by_cases hj : j = i
      · simp [hj, Cells.posSet, Cells.rm, tokenCell]
      · simp [hj, Cells.posSet, Cells.rm, Cells.cell]

/-- An empty cell of the slot has no sequence. -/
def BareSlot (f : Nat → Int × Finset Nat) (head n : Nat) : Prop :=
  ∀ j, head ≤ j → j < head + n → (f j).1 = -1 → (f j).2 = ∅

theorem FreeSlot.bare {n : Nat} (h : FreeSlot f head n) : BareSlot f head n :=
  fun j hge hlt _ => congrArg Prod.snd (h j hge hlt)

/-- So do the tokens of a ubatch, wherever they are placed. -/
theorem placeTokens_cell (toks : List BatchToken) : ∀ (head : Nat) (acc : Cells × SeqPosMaxRm),
    BareSlot acc.1.cell head toks.length →
    ∀ j, (placeTokens head toks acc).1.cell j = overlay head toks acc.1.cell j := by
  induction toks with
  | nil => exact fun head acc _ j => (if_neg fun h => absurd h.2 (not_lt.mpr h.1)).symm
  | cons tok toks ih =>
      intro head acc hbare j
      rw [BareSlot, List.length_cons] at hbare
      have hcell := placeToken_cell (hbare head le_rfl (by omega)) tok
      have hrest : BareSlot (placeToken head tok acc).1.cell (head + 1) toks.length := by
        intro j hge hlt
        rw [hcell, if_neg (by omega)]
        exact hbare j (by omega) (by omega)
      rw [placeTokens, ih (head + 1) _ hrest, overlay, overlay, List.length_cons, hcell]
      by_cases hj : j = head
      · subst hj
        rw [if_neg (by omega), if_pos rfl, if_pos (by omega)]
        simp [tokenAt]
      · rw [if_neg hj]
        by_cases hin : head + 1 ≤ j ∧ j < head + 1 + toks.length
        · rw [if_pos hin, if_pos (by omega), tokenAt_succ (by omega)]
        · rw [if_neg hin, if_neg (by omega)]

/-- In a free slot they overwrite nothing. -/
theorem placeTokens_free (toks : List BatchToken) : ∀ (head : Nat) (acc : Cells × SeqPosMaxRm),
    FreeSlot acc.1.cell head toks.length → (placeTokens head toks acc).2 = acc.2 := by
  induction toks with
  | nil => exact fun _ _ _ => rfl
  | cons tok toks ih =>
      intro head acc hfree
      rw [FreeSlot, List.length_cons] at hfree
      have hhead := hfree head le_rfl (by omega)
      have hcell := placeToken_cell (fun _ => congrArg Prod.snd hhead) tok
      have hempty : acc.1.isEmpty head = true := decide_eq_true (congrArg Prod.fst hhead)
      have hmax : (placeToken head tok acc).2 = acc.2 := by
        unfold placeToken
        dsimp only
        rw [if_pos hempty]
      rw [placeTokens, ih (head + 1) _ fun j hge hlt => ?_, hmax]
      rw [hcell, if_neg (by omega)]
      exact hfree j (by omega) (by omega)

theorem purge_none (seqs : List Nat) (c : Cache) :
    seqs.foldl (purgeSeq fun _ => -1) c = c := by
  induction seqs with
  | nil => rfl
  | cons s seqs ih => exact ih

/-- `apply_ubatch` at a free slot changes its cells only. -/
theorem applyUbatch_free {c : Cache} (hfree : FreeSlot c.cells.cell head ubatch.length)
    (hok : (applyUbatch sh alloc head ubatch c).2 = true) :
    (applyUbatch sh alloc head ubatch c).1.cells.cell = overlay head ubatch c.cells.cell ∧
      (applyUbatch sh alloc head ubatch c).1.cells.size = c.cells.size := by
  have hcells := @mzGrowChunks_cells sh alloc c (head + ubatch.length)
  unfold applyUbatch at hok ⊢
  dsimp only at hok ⊢
  split at hok
  · rename_i hgrown
    have hplaced := placeTokens_cell ubatch head (c.cells, fun _ => -1) hfree.bare
    rw [if_pos hgrown, hcells, placeTokens_free ubatch head _ hfree, purge_none]
    exact ⟨funext hplaced, placeTokens_size _ _ _⟩
  · rename_i hgrown
    exact absurd hok hgrown

end

end MzCache.Unified
