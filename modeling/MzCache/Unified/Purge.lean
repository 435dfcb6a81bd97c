import MzCache.Unified.FindSlot

/-!
# What a purge takes from a cell

Once its tokens are placed, `apply_ubatch` removes older positions of the sequences it
has overwritten, by one `seq_rm` a sequence. A `seq_rm` of one sequence changes no cell
by what another cell holds, and no index but that of its sequence, so the purge acts on
every cell by itself.
-/

namespace MzCache.Unified

open MzCache MzCache.Lib

/-! ## One cell -/

/-- The cell holds `s` at a position in the range. -/
def Loses (s : Nat) (p0 p1 : Int) (x : Int × Finset Nat) : Prop :=
  s ∈ x.2 ∧ p0 ≤ x.1 ∧ x.1 < p1

instance (s : Nat) (p0 p1 : Int) (x : Int × Finset Nat) : Decidable (Loses s p0 p1 x) := by
  unfold Loses
  infer_instance

/-- A cell without `s`. -/
def dropSeq (s : Nat) (x : Int × Finset Nat) : Int × Finset Nat :=
  if x.2.erase s = ∅ then (-1, ∅) else (x.1, x.2.erase s)

/-- A cell after a `seq_rm` of `s`. -/
def rmSeq (s : Nat) (p0 p1 : Int) (x : Int × Finset Nat) : Int × Finset Nat :=
  if Loses s p0 p1 x then dropSeq s x else x

/-- The purge takes `s` from the cell; `c` is the cache it finds. -/
def Cells.Purges (rmMax : SeqPosMaxRm) (c : Cells) (x : Int × Finset Nat) (s : Nat) : Prop :=
  rmMax s ≠ -1 ∧ c.seqPosMin s ≤ rmMax s ∧
    Loses s (rangeFrom (c.seqPosMin s)) (rangeTo (rmMax s + 1)) x

instance (rmMax : SeqPosMaxRm) (c : Cells) (x : Int × Finset Nat) (s : Nat) :
    Decidable (c.Purges rmMax x s) := by
  unfold Cells.Purges
  infer_instance

/-- A cell after the purge of one sequence. -/
def Cells.purgeCell (rmMax : SeqPosMaxRm) (c : Cells) (x : Int × Finset Nat) (s : Nat) :
    Int × Finset Nat :=
  if c.Purges rmMax x s then dropSeq s x else x

section

variable {rmMax : SeqPosMaxRm} {c : Cells} {s t : Nat} {x : Int × Finset Nat}

theorem dropSeq_seq (s : Nat) (x : Int × Finset Nat) : (dropSeq s x).2 = x.2.erase s := by
  unfold dropSeq
  split
  · rename_i hnone
    exact hnone.symm
  · rfl

theorem dropSeq_pos (h : t ∈ (dropSeq s x).2) : (dropSeq s x).1 = x.1 := by
  unfold dropSeq at h ⊢
  split
  · rename_i hnone
    rw [if_pos hnone] at h
    exact (Finset.notMem_empty t h).elim
  · rfl

/-- A cell without `s` if `Q` takes the position of `s` in it. -/
def dropWhere (Q : Nat → Int → Prop) [∀ s p, Decidable (Q s p)] (x : Int × Finset Nat) (s : Nat) :
    Int × Finset Nat :=
  if s ∈ x.2 ∧ Q s x.1 then dropSeq s x else x

section

variable {Q : Nat → Int → Prop} [∀ s p, Decidable (Q s p)]

theorem dropWhere_seq (x : Int × Finset Nat) (s : Nat) :
    t ∈ (dropWhere Q x s).2 ↔ t ∈ x.2 ∧ ¬ (t = s ∧ Q s x.1) := by
  unfold dropWhere
  split
  · rename_i hq
    rw [dropSeq_seq, Finset.mem_erase]
    simp [hq.2, and_comm]
  · rename_i hq
    constructor
    · exact fun ht => ⟨ht, fun h => hq ⟨h.1 ▸ ht, h.2⟩⟩
    · exact fun h => h.1

theorem dropWhere_pos {x : Int × Finset Nat} (h : t ∈ (dropWhere Q x s).2) :
    (dropWhere Q x s).1 = x.1 := by
  unfold dropWhere at h ⊢
  split
  · rename_i hq
    rw [if_pos hq] at h
    exact dropSeq_pos h
  · rfl

/-- Exactly the sequences whose position `Q` takes are dropped, and a cell that keeps one keeps
its position. -/
theorem mem_dropped (seqs : List Nat) : ∀ x : Int × Finset Nat,
    (∀ t, t ∈ (seqs.foldl (dropWhere Q) x).2 ↔ t ∈ x.2 ∧ ¬ (t ∈ seqs ∧ Q t x.1)) ∧
    ∀ t ∈ (seqs.foldl (dropWhere Q) x).2, (seqs.foldl (dropWhere Q) x).1 = x.1 := by
  induction seqs with
  | nil => exact fun x => ⟨fun t => by simp, fun t _ => rfl⟩
  | cons s seqs ih =>
      intro x
      obtain ⟨hseq, hpos⟩ := ih (dropWhere Q x s)
      rw [List.foldl_cons]
      constructor
      · intro t
        rw [hseq]
        -- what is left keeps its position, so a later sequence is taken or not as before
        constructor
        · rintro ⟨ht, hkeep⟩
          rw [dropWhere_pos ht] at hkeep
          obtain ⟨hold, hs⟩ := (dropWhere_seq x s).mp ht
          refine ⟨hold, fun ⟨hmem, hq⟩ => ?_⟩
          rcases List.mem_cons.mp hmem with heq | hmem
          · exact hs ⟨heq, heq ▸ hq⟩
          · exact hkeep ⟨hmem, hq⟩
        · rintro ⟨hold, hkeep⟩
          have ht : t ∈ (dropWhere Q x s).2 := by
            refine (dropWhere_seq x s).mpr ⟨hold, fun ⟨heq, hq⟩ => ?_⟩
            exact hkeep ⟨heq ▸ List.mem_cons_self, heq ▸ hq⟩
          refine ⟨ht, fun ⟨hmem, hq⟩ => hkeep ⟨List.mem_cons_of_mem _ hmem, ?_⟩⟩
          rwa [dropWhere_pos ht] at hq
      · intro t ht
        exact (hpos t ht).trans (dropWhere_pos ((hseq t).mp ht).1)

theorem dropped_same {x : Int × Finset Nat} (seqs : List Nat)
    (h : ∀ s ∈ seqs, ¬ (s ∈ x.2 ∧ Q s x.1)) : seqs.foldl (dropWhere Q) x = x := by
  induction seqs with
  | nil => rfl
  | cons s seqs ih =>
      rw [List.foldl_cons, dropWhere, if_neg (h s List.mem_cons_self)]
      exact ih fun t ht => h t (List.mem_cons_of_mem _ ht)

end

theorem purgeCell_eq : c.purgeCell rmMax = dropWhere fun s p => rmMax s ≠ -1 ∧
    c.seqPosMin s ≤ rmMax s ∧ rangeFrom (c.seqPosMin s) ≤ p ∧ p < rangeTo (rmMax s + 1) := by
  funext x s
  refine if_congr ?_ rfl rfl
  unfold Cells.Purges Loses
  tauto

/-- The purge takes exactly the sequences it finds in their ranges, and a cell that keeps one
keeps its position. -/
theorem mem_purged (seqs : List Nat) (x : Int × Finset Nat) :
    (∀ t, t ∈ (seqs.foldl (c.purgeCell rmMax) x).2 ↔
      t ∈ x.2 ∧ ¬ (t ∈ seqs ∧ c.Purges rmMax x t)) ∧
    ∀ t ∈ (seqs.foldl (c.purgeCell rmMax) x).2, (seqs.foldl (c.purgeCell rmMax) x).1 = x.1 := by
  rw [purgeCell_eq]
  obtain ⟨hseq, hpos⟩ := mem_dropped (Q := fun s p => rmMax s ≠ -1 ∧ c.seqPosMin s ≤ rmMax s ∧
    rangeFrom (c.seqPosMin s) ≤ p ∧ p < rangeTo (rmMax s + 1)) seqs x
  refine ⟨fun t => (hseq t).trans (and_congr_right fun ht => not_congr ?_), hpos⟩
  unfold Cells.Purges Loses
  tauto

theorem purged_same (seqs : List Nat) (h : ∀ s ∈ seqs, ¬ c.Purges rmMax x s) :
    seqs.foldl (c.purgeCell rmMax) x = x := by
  rw [purgeCell_eq]
  refine dropped_same seqs fun s hs hq => h s hs ?_
  unfold Cells.Purges Loses
  tauto

end

/-! ## `seq_rm` -/

/-- A loop whose rounds change one cell each, by what the cell holds. -/
theorem foldl_cell {α : Type} (cells : α → Cells) {f : α → Nat → α}
    {g : Int × Finset Nat → Int × Finset Nat}
    (hf : ∀ a i j, (cells (f a i)).cell j =
      if j = i then g ((cells a).cell j) else (cells a).cell j)
    {is : List Nat} (hnodup : is.Nodup) (j : Nat) : ∀ a,
    (cells (is.foldl f a)).cell j = if j ∈ is then g ((cells a).cell j) else (cells a).cell j := by
  induction is with
  | nil => exact fun a => (if_neg List.not_mem_nil).symm
  | cons i is ih =>
      intro a
      obtain ⟨hi, hrest⟩ := List.nodup_cons.mp hnodup
      rw [List.foldl_cons, ih hrest, hf]
      by_cases hj : j = i
      · subst hj
        rw [if_neg hi, if_pos rfl, if_pos List.mem_cons_self]
      · simp [hj]

theorem seqRmCell_cell (s : Nat) (p0 p1 : Int) (acc : Cells × Nat) (i j : Nat) :
    (seqRmCell s p0 p1 acc i).1.cell j =
      if j = i then rmSeq s p0 p1 (acc.1.cell j) else acc.1.cell j := by
  unfold seqRmCell
  dsimp only
  rw [if_pos (Int.natCast_nonneg s), Int.toNat_natCast]
  by_cases hj : j = i
  · subst hj
    rw [if_pos rfl]
    unfold rmSeq Cells.posIn
    by_cases hin : p0 ≤ acc.1.pos j ∧ acc.1.pos j < p1
    · by_cases hs : s ∈ acc.1.seq j
      · have hloses : Loses s p0 p1 (acc.1.cell j) := ⟨hs, hin⟩
        rw [if_pos (decide_eq_true hin), if_pos hs, if_pos hloses]
        unfold Cells.seqRm dropSeq Cells.cell
        dsimp only
        split
        · rename_i hnone
          simp [hnone]
        · simp
      · have hkeeps : ¬ Loses s p0 p1 (acc.1.cell j) := fun h => hs h.1
        rw [if_pos (decide_eq_true hin), if_neg hs, if_neg hkeeps]
    · have hkeeps : ¬ Loses s p0 p1 (acc.1.cell j) := fun h => hin h.2
      rw [if_neg (by simpa using hin), if_neg hkeeps]
  · rw [if_neg hj]
    have hother : (acc.1.seqRm i s).1.cell j = acc.1.cell j := by
      unfold Cells.seqRm Cells.cell
      dsimp only
      split <;> simp [hj]
    split
    · split
      · exact hother
      · rfl
    · rfl

theorem seqRmCell_seqPos (s : Nat) (p0 p1 : Int) (acc : Cells × Nat) (i : Nat) {t : Nat}
    (ht : t ≠ s) : (seqRmCell s p0 p1 acc i).1.seqPos t = acc.1.seqPos t := by
  have hother : (acc.1.seqRm i s).1.seqPos t = acc.1.seqPos t := by
    unfold Cells.seqRm
    dsimp only
    split <;> simp [ht]
  unfold seqRmCell
  dsimp only
  rw [if_pos (Int.natCast_nonneg s), Int.toNat_natCast]
  split
  · split
    · exact hother
    · rfl
  · rfl

/-- `seq_rm` of one sequence, cell by cell. -/
theorem seqRm_cell (c : Cache) (s : Nat) (p0 p1 : Int) (j : Nat) :
    (c.seqRm s p0 p1).cells.cell j = if j < c.cells.size then
      rmSeq s (rangeFrom p0) (rangeTo p1) (c.cells.cell j) else c.cells.cell j := by
  have h := foldl_cell Prod.fst (seqRmCell_cell s (rangeFrom p0) (rangeTo p1))
    (List.nodup_range (n := c.cells.size)) j (c.cells, c.cells.size)
  simp only [List.mem_range] at h
  exact h

theorem seqRm_seqPos (c : Cache) (s : Nat) (p0 p1 : Int) {t : Nat} (ht : t ≠ s) :
    (c.seqRm s p0 p1).cells.seqPos t = c.cells.seqPos t := by
  have h : ∀ (is : List Nat) (acc : Cells × Nat),
      (is.foldl (seqRmCell s (rangeFrom p0) (rangeTo p1)) acc).1.seqPos t = acc.1.seqPos t := by
    intro is
    induction is with
    | nil => exact fun _ => rfl
    | cons i is ih => exact fun acc => (ih _).trans (seqRmCell_seqPos s _ _ acc i ht)
  exact h _ _

/-! ## The purge -/

section

variable {rmMax : SeqPosMaxRm}

theorem purgeSeq_seqPos (c : Cache) (s : Nat) {t : Nat} (ht : t ≠ s) :
    (purgeSeq rmMax c s).cells.seqPos t = c.cells.seqPos t := by
  unfold purgeSeq
  split
  · rfl
  · split
    · exact seqRm_seqPos c s _ _ ht
    · rfl

theorem purge_seqPos (seqs : List Nat) {t : Nat} (ht : t ∉ seqs) : ∀ c : Cache,
    (seqs.foldl (purgeSeq rmMax) c).cells.seqPos t = c.cells.seqPos t := by
  induction seqs with
  | nil => exact fun _ => rfl
  | cons s seqs ih =>
      intro c
      rw [List.mem_cons, not_or] at ht
      exact (ih ht.2 _).trans (purgeSeq_seqPos c s ht.1)

theorem purgeSeq_cell (c : Cache) (s j : Nat) : (purgeSeq rmMax c s).cells.cell j =
    if j < c.cells.size then c.cells.purgeCell rmMax (c.cells.cell j) s else c.cells.cell j := by
  unfold purgeSeq Cells.purgeCell
  by_cases hnone : rmMax s = -1
  · have hkeeps : ∀ x, ¬ c.cells.Purges rmMax x s := fun x h => h.1 hnone
    rw [if_pos hnone, if_neg (hkeeps _), ite_self]
  · by_cases hmin : c.cells.seqPosMin s ≤ rmMax s
    · rw [if_neg hnone, if_pos hmin, seqRm_cell]
      refine if_congr Iff.rfl (if_congr ?_ rfl rfl) rfl
      exact ⟨fun h => ⟨hnone, hmin, h⟩, fun h => h.2.2⟩
    · have hkeeps : ∀ x, ¬ c.cells.Purges rmMax x s := fun x h => hmin h.2.1
      rw [if_neg hnone, if_neg hmin, if_neg (hkeeps _), ite_self]

/-- The purge acts on every cell by itself, as the index stood when it began. -/
theorem purge_cell {seqs : List Nat} (hnodup : seqs.Nodup) (c : Cache) (j : Nat) :
    (seqs.foldl (purgeSeq rmMax) c).cells.cell j =
      if j < c.cells.size then seqs.foldl (c.cells.purgeCell rmMax) (c.cells.cell j)
      else c.cells.cell j := by
  induction seqs using List.reverseRecOn with
  | nil => simp
  | append_singleton seqs s ih =>
      obtain ⟨hpre, -, hne⟩ := List.nodup_append.mp hnodup
      have hs : s ∉ seqs := fun hmem => hne s hmem s (List.mem_singleton_self s) rfl
      have hsize := (headKept_purge rmMax seqs c).size
      have hindex := @purge_seqPos rmMax seqs s hs c
      simp only [List.foldl_append, List.foldl_cons, List.foldl_nil]
      rw [purgeSeq_cell, ih hpre, hsize]
      split
      · -- the index of `s` is still the one it was
        have hmin : (seqs.foldl (purgeSeq rmMax) c).cells.seqPosMin s = c.cells.seqPosMin s := by
          unfold Cells.seqPosMin
          simp only [hindex]
        refine if_congr ?_ rfl rfl
        unfold Cells.Purges
        rw [hmin]
      · rfl

end

end MzCache.Unified
