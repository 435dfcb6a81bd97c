import MzCache.Lib.RunSearch
import MzCache.Unified.CacheRuns

/-!
# The search of `find_slot`

`find_slot` is a run search over the cells it can use. The head it starts from never lies
past the cells: every call keeps it there, given that a ubatch is placed inside the cells.
-/

namespace MzCache.Unified

open MzCache MzCache.Lib

section

variable {sh : Shape} {c : Cells} {t : Trial}

/-! ## The search -/

/-- A cell that a ubatch may take: empty, or of one sequence and masked by the window
relative to the largest position of that sequence. -/
def Cells.Usable (sh : Shape) (c : Cells) (i : Nat) : Prop :=
  c.isEmpty i = true ∨
    ∃ s, c.seq i = {s} ∧ sh.isMaskedSwa (c.pos i) (c.seqPosMax s + 1) = true

/-- A slot for `n` tokens: `n` usable cells from `h` on. -/
def Cells.Slot (sh : Shape) (c : Cells) (n h : Nat) : Prop :=
  h + n ≤ c.size ∧ ∀ i < n, c.Usable sh (h + i)

/-- Where `find_slot` starts to search. -/
def Cache.searchStart (c : Cache) (n : Nat) : Nat :=
  if c.head > c.cells.getUsed + 2 * n then 0 else c.head

theorem Cells.seqGet_of_eq {i s : Nat} (h : c.seq i = {s}) : c.seqGet i = s := by
  simp [Cells.seqGet, h]

theorem Cells.canUse_iff (i : Nat) : c.canUse sh i = true ↔ c.Usable sh i := by
  unfold Cells.canUse Cells.Usable
  rw [Bool.or_eq_true, Bool.and_eq_true, decide_eq_true_eq, Finset.card_eq_one]
  refine or_congr_right ⟨?_, ?_⟩
  · rintro ⟨⟨s, hs⟩, hmask⟩
    rw [Cells.seqGet_of_eq hs] at hmask
    exact ⟨s, hs, hmask⟩
  · rintro ⟨s, hs, hmask⟩
    refine ⟨⟨s, hs⟩, ?_⟩
    rw [Cells.seqGet_of_eq hs]
    exact hmask

theorem Cells.free_iff_slot (n h : Nat) :
    RunSearch.Free (c.canUse sh) c.size n h ↔ c.Slot sh n h := by
  unfold RunSearch.Free Cells.Slot
  simp [Cells.canUse_iff]

theorem findSlotFrom_eq (n rounds : Nat) : ∀ headCur nTested : Nat,
    findSlotFrom sh c n rounds headCur nTested =
      RunSearch.search (c.canUse sh) c.size n rounds headCur nTested := by
  induction rounds with
  | zero => exact fun _ _ => rfl
  | succ rounds ih =>
      intro headCur nTested
      rw [findSlotFrom, RunSearch.search]
      simp only [ih]
      rfl

/-- `find_slot` searches the cells if there are enough of them. -/
theorem findSlot_eq (c : Cache) (n : Nat) :
    c.findSlot sh n = if n > c.cells.size then none else
      RunSearch.search (c.cells.canUse sh) c.cells.size n (2 * c.cells.size + 2)
        (c.searchStart n) 0 := by
  unfold Cache.findSlot
  simp only [findSlotFrom_eq]
  rfl

/-- What `find_slot` returns is a slot. -/
theorem findSlot_slot {c : Cache} {n h : Nat} (hfound : c.findSlot sh n = some h) :
    c.cells.Slot sh n h := by
  rw [findSlot_eq] at hfound
  split at hfound
  · cases hfound
  · exact (Cells.free_iff_slot n h).mp (RunSearch.search_free _ _ _ h hfound)

theorem searchStart_le {c : Cache} (hhead : c.head ≤ c.cells.size) (n : Nat) :
    c.searchStart n ≤ c.cells.size := by
  unfold Cache.searchStart
  split
  · exact Nat.zero_le _
  · exact hhead

/-! ## Sizes and heads -/

/-- A loop of which no step resizes the cells does not. -/
theorem foldl_size {α β : Type*} (cells : α → Cells) {f : α → β → α}
    (hf : ∀ a b, (cells (f a b)).size = (cells a).size) (bs : List β) :
    ∀ a, (cells (bs.foldl f a)).size = (cells a).size := by
  induction bs with
  | nil => exact fun _ => rfl
  | cons b bs ih => exact fun a => (ih (f a b)).trans (hf a b)

theorem Cells.seqRm_size (c : Cells) (i s : Nat) : (c.seqRm i s).1.size = c.size := by
  unfold Cells.seqRm
  dsimp only
  split <;> rfl

theorem Cells.seqKeep_size (c : Cells) (i s : Nat) : (c.seqKeep i s).1.size = c.size := by
  unfold Cells.seqKeep
  dsimp only
  split
  · rfl
  · split <;> rfl

theorem Cells.posAdd_size (c : Cells) (i : Nat) (d : Int) : (c.posAdd i d).1.size = c.size := by
  unfold Cells.posAdd
  dsimp only
  split <;> rfl

theorem Cells.setCell_size (c : Cells) (i : Nat) (o : Int × Finset Nat) :
    (c.setCell i o).size = c.size := by
  unfold Cells.setCell
  dsimp only
  split <;> rfl

theorem Cells.set_size (other : List (Int × Finset Nat)) : ∀ (i : Nat) (c : Cells),
    (Cells.set i other c).size = c.size := by
  induction other with
  | nil => exact fun _ _ => rfl
  | cons o other ih => exact fun i c => (ih (i + 1) _).trans (c.setCell_size i o)

theorem placeToken_size (i : Nat) (tok : BatchToken) (acc : Cells × SeqPosMaxRm) :
    (placeToken i tok acc).1.size = acc.1.size := by
  unfold placeToken
  dsimp only
  refine (foldl_size id (f := fun c s => c.seqAdd i s) (fun _ _ => rfl) _ _).trans ?_
  dsimp only [id, Cells.posSet]
  split <;> rfl

theorem placeTokens_size (toks : List BatchToken) : ∀ (i : Nat) (acc : Cells × SeqPosMaxRm),
    (placeTokens i toks acc).1.size = acc.1.size := by
  induction toks with
  | nil => exact fun _ _ => rfl
  | cons tok toks ih => exact fun i acc => (ih (i + 1) _).trans (placeToken_size i tok acc)

theorem seqRmCell_size (seqId p0 p1 : Int) (acc : Cells × Nat) (i : Nat) :
    (seqRmCell seqId p0 p1 acc i).1.size = acc.1.size := by
  unfold seqRmCell
  dsimp only
  split
  · split
    · split
      · exact Cells.seqRm_size _ _ _
      · rfl
    · rfl
  · rfl

theorem Cache.seqRm_size (seqId p0 p1 : Int) (c : Cache) :
    (c.seqRm seqId p0 p1).cells.size = c.cells.size :=
  foldl_size Prod.fst (seqRmCell_size seqId _ _) _ _

/-- What an operation on the cache may do to the head: the cells stay as many, and a head that
lies in them does. -/
structure Cache.HeadKept (c c' : Cache) : Prop where
  size : c'.cells.size = c.cells.size
  head : c.head ≤ c.cells.size → c'.head ≤ c.cells.size

theorem Cache.HeadKept.refl (c : Cache) : c.HeadKept c := ⟨rfl, id⟩

theorem Cache.HeadKept.trans {c₁ c₂ c₃ : Cache} (h : c₁.HeadKept c₂) (h' : c₂.HeadKept c₃) :
    c₁.HeadKept c₃ :=
  ⟨h'.size.trans h.size, fun hhead => by
    have := h'.head (by rw [h.size]; exact h.head hhead)
    rwa [h.size] at this⟩

theorem freed_le {n freed head : Nat} (h : head ≤ n) :
    (if freed ≠ n ∧ freed < head then freed else head) ≤ n := by
  split <;> omega

theorem headKept_seqRm (seqId p0 p1 : Int) (c : Cache) : c.HeadKept (c.seqRm seqId p0 p1) := by
  refine ⟨c.seqRm_size seqId p0 p1, fun hhead => ?_⟩
  unfold Cache.seqRm
  exact freed_le hhead

theorem headKept_seqCp (src dst : Nat) (p0 p1 : Int) (c : Cache) :
    c.HeadKept (c.seqCp src dst p0 p1) := by
  unfold Cache.seqCp
  split
  · exact .refl c
  · refine ⟨foldl_size id (fun a i => ?_) _ _, id⟩
    unfold seqCpCell
    dsimp only [id]
    split
    · split <;> rfl
    · rfl

theorem headKept_seqKeep (s : Nat) (c : Cache) : c.HeadKept (c.seqKeep s) := by
  refine ⟨foldl_size Prod.fst (f := seqKeepCell s) (fun a i => a.1.seqKeep_size i s) _ _,
    fun hhead => ?_⟩
  unfold Cache.seqKeep
  exact freed_le hhead

theorem seqAddCell_size (s : Nat) (p0 p1 shift : Int) (acc : Cells × Nat) (i : Nat) :
    (seqAddCell s p0 p1 shift acc i).1.size = acc.1.size := by
  unfold seqAddCell
  dsimp only
  split
  · split
    · exact Cells.posAdd_size _ _ _
    · rfl
  · rfl

/-- The new head of `seq_add` is a cell of the loop or none. -/
theorem seqAddCells_head {n : Nat} (s : Nat) (p0 p1 shift : Int) (is : List Nat) :
    ∀ acc : Cells × Nat, (∀ i ∈ is, i < n) → acc.2 ≤ n →
      (is.foldl (seqAddCell s p0 p1 shift) acc).2 ≤ n := by
  induction is with
  | nil => exact fun _ _ h => h
  | cons i is ih =>
      intro acc his hacc
      refine ih _ (fun j hj => his j (List.mem_cons_of_mem _ hj)) ?_
      have hi := his i List.mem_cons_self
      unfold seqAddCell
      dsimp only
      split
      · split
        · dsimp only
          split
          · split <;> omega
          · exact hacc
        · exact hacc
      · exact hacc

theorem headKept_seqAdd (s : Nat) (p0 p1 shift : Int) (c : Cache) :
    c.HeadKept (c.seqAdd s p0 p1 shift) := by
  unfold Cache.seqAdd
  split
  · exact .refl c
  · split
    · exact .refl c
    · refine ⟨foldl_size Prod.fst (seqAddCell_size s _ _ shift) _ _, fun _ => ?_⟩
      dsimp only
      split
      · exact seqAddCells_head s _ _ shift _ _ (fun i hi => List.mem_range.mp hi) le_rfl
      · exact Nat.zero_le _

theorem headKept_seqDiv (s : Nat) (p0 p1 d : Int) (c : Cache) :
    c.HeadKept (c.seqDiv s p0 p1 d) := by
  unfold Cache.seqDiv
  split
  · exact .refl c
  · split
    · exact .refl c
    · refine ⟨foldl_size id (fun a i => ?_) _ _, id⟩
      unfold seqDivCell
      dsimp only [id]
      split
      · split <;> rfl
      · rfl

theorem headKept_defrag (nMaxNodes : Nat) (c : Cache) : c.HeadKept (c.defrag sh nMaxNodes) := by
  unfold Cache.defrag
  split
  · exact .refl c
  · split
    · exact .refl c
    · refine ⟨foldl_size id (fun a i => ?_) _ _, fun _ => Nat.zero_le _⟩
      unfold moveCell
      split <;> rfl

/-! ## Growing and placing -/

theorem headKept_growLayerChunk (alloc : Alloc) (l : Layer) (idx : Nat) (c : Cache) :
    c.HeadKept (growLayerChunk alloc l idx c).1 := by
  unfold growLayerChunk
  split
  · exact .refl c
  · split
    · exact .refl c
    · split
      · exact ⟨rfl, id⟩
      · exact .refl c

theorem headKept_growList (alloc : Alloc) (todo : List (Layer × Nat)) : ∀ c : Cache,
    c.HeadKept (growList alloc todo c).1 := by
  induction todo with
  | nil => exact fun c => .refl c
  | cons one todo ih =>
      intro c
      obtain ⟨l, idx⟩ := one
      have hone := headKept_growLayerChunk alloc l idx c
      rw [growList]
      split
      · exact hone.trans (ih _)
      · exact hone

theorem headKept_mzGrowChunks (alloc : Alloc) (n : Nat) (c : Cache) :
    c.HeadKept (mzGrowChunks sh alloc n c).1 := by
  unfold mzGrowChunks
  dsimp only
  split
  · exact .refl c
  · split
    · exact .refl c
    · have hgrow := headKept_growList alloc (sh.layers.flatMap fun l =>
        (List.range' c.nChunksAlloc (chunksFor n - c.nChunksAlloc)).map fun idx => (l, idx)) c
      split
      · exact ⟨hgrow.size, hgrow.head⟩
      · exact hgrow

theorem headKept_purge (rmMax : SeqPosMaxRm) (seqs : List Nat) : ∀ c : Cache,
    c.HeadKept (seqs.foldl (purgeSeq rmMax) c) := by
  induction seqs with
  | nil => exact fun c => .refl c
  | cons s seqs ih =>
      intro c
      have hone : c.HeadKept (purgeSeq rmMax c s) := by
        unfold purgeSeq
        split
        · exact .refl c
        · split
          · exact headKept_seqRm _ _ _ c
          · exact .refl c
      exact hone.trans (ih _)

/-- A ubatch placed inside the cells leaves the head inside. -/
theorem headKept_applyUbatch {alloc : Alloc} {headCur : Nat} {ubatch : List BatchToken} {c : Cache}
    (hroom : headCur + ubatch.length ≤ c.cells.size) :
    c.HeadKept (applyUbatch sh alloc headCur ubatch c).1 := by
  have hgrow := @headKept_mzGrowChunks sh alloc (headCur + ubatch.length) c
  unfold applyUbatch
  dsimp only
  split
  · refine ⟨?_, fun _ => hroom⟩
    refine ((headKept_purge _ _ _).size).trans ?_
    exact (placeTokens_size _ _ _).trans hgrow.size
  · exact hgrow

theorem headKept_restoreSlot {c : Cache} {saved : Saved} (h : saved.headOld ≤ c.cells.size) :
    c.HeadKept (restoreSlot c saved) :=
  ⟨Cells.set_size _ _ _, fun _ => h⟩

/-! ## Runs -/

/-- The head lies in the cells, also the heads that `prepare` has saved. -/
structure Trial.HeadOk (t : Trial) : Prop where
  head : t.cache.head ≤ t.cache.cells.size
  saved : ∀ saved ∈ t.states, saved.headOld ≤ t.cache.cells.size

/-- A ubatch is given cells of the cache. -/
def KvCall.Placed : KvCall → Trial → Prop
  | .applyUbatch _ headCur ubatch, t => headCur + ubatch.length ≤ t.cache.cells.size
  | _, _ => True

def KvCall.PlacedRun (sh : Shape) : List KvCall → Trial → Prop
  | [], _ => True
  | call :: calls, t => call.Placed t ∧ PlacedRun sh calls (call.exec sh t)

theorem Trial.HeadOk.withCache (h : t.HeadOk) {c : Cache} (hc : t.cache.HeadKept c) :
    ({ t with cache := c } : Trial).HeadOk :=
  ⟨(hc.head h.head).trans hc.size.ge, fun saved hs => (h.saved saved hs).trans hc.size.ge⟩

theorem KvCall.exec_headOk (h : t.HeadOk) (call : KvCall) (hplaced : call.Placed t) :
    (call.exec sh t).HeadOk := by
  cases call with
  | clear => exact h.withCache ⟨rfl, fun _ => Nat.zero_le _⟩
  | seqRm seqId p0 p1 => exact h.withCache (headKept_seqRm _ _ _ _)
  | seqCp src dst p0 p1 => exact h.withCache (headKept_seqCp _ _ _ _ _)
  | seqKeep s => exact h.withCache (headKept_seqKeep _ _)
  | seqAdd s p0 p1 shift => exact h.withCache (headKept_seqAdd _ _ _ _ _)
  | seqDiv s p0 p1 d => exact h.withCache (headKept_seqDiv _ _ _ _ _)
  | defrag nMaxNodes => exact h.withCache (headKept_defrag _ _)
  | applyUbatch alloc headCur ubatch => exact h.withCache (headKept_applyUbatch hplaced)
  | prepare => exact ⟨h.head, fun _ hs => (List.not_mem_nil hs).elim⟩
  | place alloc ubatch =>
      rw [KvCall.exec]
      split
      · exact h
      · rename_i headNew hfound
        have hkept := @headKept_applyUbatch sh alloc _ _ _ (findSlot_room hfound)
        have hafter := h.withCache hkept
        refine ⟨hafter.head, fun saved hs => ?_⟩
        rcases List.mem_cons.mp hs with rfl | hs
        · exact h.head.trans hkept.size.ge
        · exact hafter.saved saved hs
  | restore =>
      rw [KvCall.exec]
      split
      · exact h
      · rename_i saved states hstates
        have hafter := h.withCache (headKept_restoreSlot (c := t.cache)
          (h.saved saved (by rw [hstates]; exact List.mem_cons_self)))
        refine ⟨hafter.head, fun other hs => hafter.saved other ?_⟩
        show other ∈ t.states
        rw [hstates]
        exact List.mem_cons_of_mem _ hs

theorem KvCall.run_headOk (calls : List KvCall) : ∀ {t : Trial}, t.HeadOk → PlacedRun sh calls t →
    (KvCall.run sh calls t).HeadOk := by
  induction calls with
  | nil => exact fun h _ => h
  | cons call calls ih => exact fun h hplaced => ih (call.exec_headOk h hplaced.1) hplaced.2

theorem Trial.fresh_headOk (sh : Shape) (kvSize : Nat) : (Trial.fresh sh kvSize).HeadOk :=
  ⟨Nat.zero_le _, fun _ h => (List.not_mem_nil h).elim⟩

end

end MzCache.Unified
