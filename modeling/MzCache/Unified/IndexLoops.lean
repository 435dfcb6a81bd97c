import MzCache.Unified.CellIndex

/-!
# Loops over the cells and their index

Each operation visits the cells in order and rewrites some of them. Removing, copying and
keeping leave the index exact whatever the cells hold; shifting, dividing, placing and
restoring do so exactly when no entry is erased that another cell holds in the end.
-/

namespace MzCache.Unified

open MzCache MzCache.Lib

/-! ## The rule for a loop -/

section

variable {α : Type} (cells : α → Cells) {f : α → Nat → α} {E N : Nat → Set (Nat × Int)}
  {c : Cells}

/-- A loop whose rounds touch one cell each, as it was before the loop. -/
theorem foldl_touches {is : List Nat} (hnodup : is.Nodup) (htidy : c.Tidy) {a0 : α}
    (h0 : cells a0 = c)
    (hf : ∀ a, ∀ i ∈ is, (cells a).Tidy → (cells a).size = c.size → (cells a).cell i = c.cell i →
      (cells a).Touches (cells (f a i)) i (E i) (N i)) :
    (cells (is.foldl f a0)).view = is.foldl (SetIndex.touch E N) c.view ∧
      (cells (is.foldl f a0)).Tidy ∧ (cells (is.foldl f a0)).size = c.size ∧
      ∀ j, j ∉ is → (cells (is.foldl f a0)).cell j = c.cell j := by
  induction is using List.reverseRecOn with
  | nil =>
      show (cells a0).view = c.view ∧ (cells a0).Tidy ∧ (cells a0).size = c.size ∧ _
      rw [h0]
      exact ⟨rfl, htidy, rfl, fun j _ => congrArg (fun d : Cells => d.cell j) h0⟩
  | append_singleton is i ih =>
      obtain ⟨hpre, -, hne⟩ := List.nodup_append.mp hnodup
      have hi : i ∉ is := fun hmem => hne i hmem i (List.mem_singleton_self i) rfl
      obtain ⟨hview, ht, hsize, hother⟩ :=
        ih hpre fun a k hk => hf a k (List.mem_append_left _ hk)
      simp only [List.foldl_append, List.foldl_cons, List.foldl_nil]
      have htouch := hf (is.foldl f a0) i (by simp) ht hsize (hother i hi)
      refine ⟨?_, htouch.tidy, htouch.size.trans hsize, fun j hj => ?_⟩
      · rw [htouch.view, hview]
      · simp only [List.mem_append, List.mem_singleton, not_or] at hj
        exact (htouch.other j hj.2).trans (hother j hj.1)

theorem loop_size {is : List Nat} (hnodup : is.Nodup) (htidy : c.Tidy) {a0 : α}
    (h0 : cells a0 = c)
    (hf : ∀ a, ∀ i ∈ is, (cells a).Tidy → (cells a).size = c.size → (cells a).cell i = c.cell i →
      (cells a).Touches (cells (f a i)) i (E i) (N i)) :
    (cells (is.foldl f a0)).size = c.size :=
  (foldl_touches cells hnodup htidy h0 hf).2.2.1

/-- Such a loop, in order, leaves an exact index exact if and only if it erases nothing that is
held in the end. -/
theorem loop_indexed_iff {is : List Nat} (hsorted : is.Pairwise (· < ·)) (h : c.Indexed) {a0 : α}
    (h0 : cells a0 = c)
    (hf : ∀ a, ∀ i ∈ is, (cells a).Tidy → (cells a).size = c.size → (cells a).cell i = c.cell i →
      (cells a).Touches (cells (f a i)) i (E i) (N i)) :
    (cells (is.foldl f a0)).Indexed ↔
      ∀ i ∈ is, ∀ e ∈ E i, (∃ j, e ∈ SetIndex.heldAfter E N c.view is j) →
        ∃ k ∈ is, i ≤ k ∧ e ∈ N k := by
  have hnodup : is.Nodup := hsorted.imp fun hlt => ne_of_lt hlt
  obtain ⟨hview, ht, -, -⟩ := foldl_touches cells hnodup h.tidy h0 hf
  rw [← SetIndex.exact_foldl_touch_iff h.exact hsorted, ← hview]
  exact ⟨fun hi => hi.exact, fun he => ⟨ht, he⟩⟩

end

/-! ## Cells that are rewritten -/

/-- A cell once the cells `is` have been rewritten to `new`. -/
def Cells.rewritten (c : Cells) (is : List Nat) (new : Nat → Int × Finset Nat) (j : Nat) :
    Int × Finset Nat :=
  if j ∈ is then new j else c.cell j

/-- No entry of a rewritten cell is held by a cell in the end, unless this cell or a later one
of the rewritten ones takes it. -/
def Cells.RewriteSafe (c : Cells) (is : List Nat) (new : Nat → Int × Finset Nat) : Prop :=
  ∀ i ∈ is, ∀ s ∈ c.seq i,
    (∃ j < c.size, s ∈ (c.rewritten is new j).2 ∧ (c.rewritten is new j).1 = c.pos i) →
      ∃ k ∈ is, i ≤ k ∧ s ∈ (new k).2 ∧ (new k).1 = c.pos i

instance (c : Cells) (is : List Nat) (new : Nat → Int × Finset Nat) :
    Decidable (c.RewriteSafe is new) := by
  unfold Cells.RewriteSafe
  infer_instance

section

variable {c : Cells}

/-- What a rewriting loop over `is` gives up and takes, when it rewrites the cells `ts` of it. -/
theorem rewriteSafe_iff (h : c.Tidy) {is ts : List Nat} (hts : ∀ i ∈ ts, i ∈ is)
    (hlt : ∀ i ∈ ts, i < c.size) (new : Nat → Int × Finset Nat) :
    (∀ i ∈ is, ∀ e ∈ (if i ∈ ts then entriesOf (c.cell i) else ∅),
      (∃ j, e ∈ SetIndex.heldAfter (fun i => if i ∈ ts then entriesOf (c.cell i) else ∅)
        (fun i => if i ∈ ts then entriesOf (new i) else ∅) c.view is j) →
      ∃ k ∈ is, i ≤ k ∧ e ∈ (if k ∈ ts then entriesOf (new k) else ∅)) ↔
      c.RewriteSafe ts new := by
  have hafter : ∀ j, SetIndex.heldAfter (fun i => if i ∈ ts then entriesOf (c.cell i) else ∅)
      (fun i => if i ∈ ts then entriesOf (new i) else ∅) c.view is j =
        entriesOf (c.rewritten ts new j) := by
    intro j
    unfold SetIndex.heldAfter Cells.rewritten
    dsimp only
    by_cases hj : j ∈ ts
    · rw [if_pos (hts j hj), if_pos hj, if_pos hj, if_pos hj]
      simp [Cells.view]
    · rw [if_neg hj, if_neg hj, if_neg hj]
      simp [Cells.view]
  simp only [hafter]
  constructor
  · rintro hall i hi s hs ⟨j, -, hj⟩
    obtain ⟨k, -, hle, hk⟩ := hall i (hts i hi) (s, c.pos i)
      (by rw [if_pos hi]; exact ⟨hs, rfl⟩) ⟨j, hj.1, hj.2.symm⟩
    split at hk
    · rename_i hkts
      exact ⟨k, hkts, hle, hk.1, hk.2.symm⟩
    · exact hk.elim
  · rintro hsafe i - e he ⟨j, hj⟩
    split at he
    · rename_i hi
      have hjlt : j < c.size := by
        by_cases hjts : j ∈ ts
        · exact hlt j hjts
        · have hmem := hj.1
          unfold Cells.rewritten at hmem
          rw [if_neg hjts] at hmem
          exact h.lt_size (h.pos_of_mem hmem)
      obtain ⟨k, hk, hle, hks, hkp⟩ := hsafe i hi e.1 he.1
        ⟨j, hjlt, hj.1, hj.2.symm.trans he.2⟩
      refine ⟨k, hts k hk, hle, ?_⟩
      rw [if_pos hk]
      exact ⟨hks, he.2.trans hkp.symm⟩
    · exact he.elim

end

/-! ## Removing, copying and keeping -/

section

variable {c : Cache}

/-- Beyond its end a cache holds nothing, so a cell that holds an entry is in every loop. -/
theorem Cells.Tidy.mem_range {c : Cells} (h : c.Tidy) {j s : Nat} (hs : s ∈ c.seq j) :
    j ∈ List.range c.size := List.mem_range.mpr (h.lt_size (h.pos_of_mem hs))

/-- A cell in a range of positions from zero on is not empty. -/
theorem Cells.pos_of_posIn {c : Cells} {i : Nat} {p0 p1 : Int} (h0 : 0 ≤ p0)
    (hin : c.posIn i p0 p1 = true) : c.pos i ≠ -1 := by
  simp only [Cells.posIn, decide_eq_true_eq] at hin
  omega

theorem rangeFrom_nonneg (p0 : Int) : 0 ≤ rangeFrom p0 := by
  unfold rangeFrom
  split <;> omega

/-- What `seq_rm` erases at a cell. -/
def seqRmErase (seqId p0 p1 : Int) (c : Cells) (i : Nat) : Set (Nat × Int) :=
  if c.posIn i p0 p1 then
    if 0 ≤ seqId then
      if seqId.toNat ∈ c.seq i then {(seqId.toNat, c.pos i)} else ∅
    else entriesOf (c.cell i)
  else ∅

theorem seqRmCell_touches {c : Cells} {seqId p0 p1 : Int} (h0 : 0 ≤ p0) {acc : Cells × Nat}
    {i : Nat} (h : acc.1.Tidy) (hcell : acc.1.cell i = c.cell i) :
    acc.1.Touches (seqRmCell seqId p0 p1 acc i).1 i (seqRmErase seqId p0 p1 c i) ∅ := by
  have hpos : acc.1.pos i = c.pos i := congrArg Prod.fst hcell
  have hseq : acc.1.seq i = c.seq i := congrArg Prod.snd hcell
  have hin : c.posIn i p0 p1 = acc.1.posIn i p0 p1 := by
    unfold Cells.posIn
    rw [hpos]
  unfold seqRmCell seqRmErase
  rw [hin, ← hcell, ← hpos, ← hseq]
  dsimp only
  split
  · rename_i hrange
    split
    · split
      · exact Cells.seqRm_touches h ‹_›
      · exact .refl h i
    · rw [← entriesOf_empty (-1)]
      exact Cells.rm_touches h (h.lt_size (Cells.pos_of_posIn h0 hrange))
  · exact .refl h i

/-- Two cells with an entry in common are both in the range or both out of it. -/
theorem seqRm_indexed (h : c.cells.Indexed) (seqId p0 p1 : Int) :
    (c.seqRm seqId p0 p1).cells.Indexed ∧ (c.seqRm seqId p0 p1).cells.size = c.cells.size := by
  have h0 := rangeFrom_nonneg p0
  have hloop : ∀ acc : Cells × Nat, ∀ i ∈ List.range c.cells.size, acc.1.Tidy →
      acc.1.size = c.cells.size → acc.1.cell i = c.cells.cell i →
      acc.1.Touches (seqRmCell seqId (rangeFrom p0) (rangeTo p1) acc i).1 i
        (seqRmErase seqId (rangeFrom p0) (rangeTo p1) c.cells i) ((fun _ => ∅) i) :=
    fun acc i _ ht _ hcell => seqRmCell_touches h0 ht hcell
  constructor
  · refine (loop_indexed_iff Prod.fst List.pairwise_lt_range h rfl hloop).mpr ?_
    rintro i - e he ⟨j, hj⟩
    exfalso
    have hheld : e ∈ entriesOf (c.cells.cell i) := by
      unfold seqRmErase at he
      split at he
      · split at he
        · split at he
          · rename_i hs
            rw [Set.mem_singleton_iff.mp he]
            exact ⟨hs, rfl⟩
          · exact he.elim
        · exact he
      · exact he.elim
    unfold SetIndex.heldAfter at hj
    split at hj
    · rename_i hjr
      obtain ⟨⟨hjs, hjp⟩, hne⟩ := hj.resolve_right id
      refine hne ?_
      -- the other cell is in the range as well
      have hpos : c.cells.pos j = c.cells.pos i := hjp.symm.trans hheld.2
      unfold seqRmErase Cells.posIn at he ⊢
      rw [hpos]
      split at he
      · rename_i hin
        rw [if_pos hin]
        split at he
        · rename_i hid
          rw [if_pos hid]
          split at he
          · have heq := Set.mem_singleton_iff.mp he
            have hmem : seqId.toNat ∈ c.cells.seq j := by
              rw [heq] at hjs
              exact hjs
            rw [if_pos hmem]
            exact he
          · exact he.elim
        · rename_i hid
          rw [if_neg hid]
          exact ⟨hjs, hjp⟩
      · exact he.elim
    · rename_i hjr
      exact hjr (h.tidy.mem_range hj.1)
  · exact loop_size Prod.fst List.nodup_range h.tidy rfl hloop

theorem seqCp_indexed (h : c.cells.Indexed) (src dst : Nat) (p0 p1 : Int) :
    (c.seqCp src dst p0 p1).cells.Indexed ∧
      (c.seqCp src dst p0 p1).cells.size = c.cells.size := by
  have h0 := rangeFrom_nonneg p0
  unfold Cache.seqCp
  split
  · exact ⟨h, rfl⟩
  · have hloop : ∀ a : Cells, ∀ i ∈ List.range c.cells.size, a.Tidy → a.size = c.cells.size →
        a.cell i = c.cells.cell i →
        a.Touches (seqCpCell src dst (rangeFrom p0) (rangeTo p1) a i) i ((fun _ => ∅) i)
          ((fun i => if c.cells.posIn i (rangeFrom p0) (rangeTo p1) ∧ src ∈ c.cells.seq i then
            {(dst, c.cells.pos i)} else ∅) i) := by
      intro a i _ ht _ hcell
      have hpos : a.pos i = c.cells.pos i := congrArg Prod.fst hcell
      have hseq : a.seq i = c.cells.seq i := congrArg Prod.snd hcell
      have hin : c.cells.posIn i (rangeFrom p0) (rangeTo p1) =
          a.posIn i (rangeFrom p0) (rangeTo p1) := by
        unfold Cells.posIn
        rw [hpos]
      dsimp only
      unfold seqCpCell
      rw [hin, ← hpos, ← hseq]
      by_cases hrange : a.posIn i (rangeFrom p0) (rangeTo p1) = true
      · by_cases hsrc : src ∈ a.seq i
        · rw [if_pos hrange, if_pos hsrc, if_pos ⟨hrange, hsrc⟩]
          exact Cells.seqAdd_touches ht (Cells.pos_of_posIn h0 hrange) dst
        · rw [if_pos hrange, if_neg hsrc, if_neg fun hb => hsrc hb.2]
          exact .refl ht i
      · rw [if_neg hrange, if_neg fun hb => hrange hb.1]
        exact .refl ht i
    constructor
    · refine (loop_indexed_iff id List.pairwise_lt_range h rfl hloop).mpr ?_
      exact fun i _ e he => he.elim
    · exact loop_size id List.nodup_range h.tidy rfl hloop

theorem seqKeep_indexed (h : c.cells.Indexed) (s : Nat) :
    (c.seqKeep s).cells.Indexed ∧ (c.seqKeep s).cells.size = c.cells.size := by
  have hloop : ∀ acc : Cells × Nat, ∀ i ∈ List.range c.cells.size, acc.1.Tidy →
      acc.1.size = c.cells.size → acc.1.cell i = c.cells.cell i →
      acc.1.Touches (seqKeepCell s acc i).1 i ((fun i => entriesOf (c.cells.cell i)) i)
        ((fun i => if s ∈ c.cells.seq i then {(s, c.cells.pos i)} else ∅) i) := by
    intro acc i _ ht _ hcell
    have hpos : acc.1.pos i = c.cells.pos i := congrArg Prod.fst hcell
    have hseq : acc.1.seq i = c.cells.seq i := congrArg Prod.snd hcell
    dsimp only
    rw [← hcell, ← hpos, ← hseq]
    exact Cells.seqKeep_touches ht s
  constructor
  · refine (loop_indexed_iff Prod.fst List.pairwise_lt_range h rfl hloop).mpr ?_
    rintro i hi e he ⟨j, hj⟩
    -- only entries of `s` are left, and the cell itself takes its own again
    have hes : e.1 = s := by
      unfold SetIndex.heldAfter at hj
      split at hj
      · rcases hj with hj | hj
        · exact absurd hj.1 hj.2
        · dsimp only at hj
          split at hj
          · rw [Set.mem_singleton_iff.mp hj]
          · exact hj.elim
      · rename_i hjr
        exact absurd (h.tidy.mem_range hj.1) hjr
    refine ⟨i, hi, le_rfl, ?_⟩
    have hmem : s ∈ c.cells.seq i := hes ▸ he.1
    rw [if_pos hmem, Set.mem_singleton_iff]
    exact Prod.ext hes he.2
  · exact loop_size Prod.fst List.nodup_range h.tidy rfl hloop

end

end MzCache.Unified
