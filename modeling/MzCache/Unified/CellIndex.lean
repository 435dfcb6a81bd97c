import MzCache.Lib.SetIndex
import MzCache.Unified.Sequences

/-!
# The index of the cells

`used` and `seq_pos` are kept beside the cells. An entry of a cell is one of its sequences
with its position; `seq_pos` is to be the set of all entries. Every operation is a loop
over cells that rewrites some of them in place, so the rule for an index kept as a set
applies: the loop leaves the index exact if and only if it erases no entry that another
cell still holds in the end.
-/

namespace MzCache.Unified

open MzCache.Lib

/-! ## Entries -/

/-- Position and sequences of a cell. -/
def Cells.cell (c : Cells) (i : Nat) : Int × Finset Nat := (c.pos i, c.seq i)

/-- The entries of a cell, a sequence and a position each. -/
def entriesOf (cell : Int × Finset Nat) : Set (Nat × Int) := {e | e.1 ∈ cell.2 ∧ e.2 = cell.1}

/-- The cells as holders of entries, with `seq_pos` as their index. -/
def Cells.view (c : Cells) : SetIndex Nat (Nat × Int) where
  held i := entriesOf (c.cell i)
  index := {e | e.2 ∈ c.seqPos e.1}

/-- `used` is the set of non-empty cells. -/
def Cells.UsedExact (c : Cells) : Prop := ∀ i, i ∈ c.used ↔ i < c.size ∧ c.pos i ≠ -1

/-- `used` is the set of non-empty cells, and an empty cell has no sequence. -/
structure Cells.Tidy (c : Cells) : Prop where
  used : ∀ i, i ∈ c.used ↔ c.pos i ≠ -1
  empty : ∀ i, c.pos i = -1 → c.seq i = ∅
  beyond : ∀ i, c.size ≤ i → c.pos i = -1

/-- The two indices are exact. -/
structure Cells.Indexed (c : Cells) : Prop where
  tidy : c.Tidy
  exact : c.view.Exact

/-- `used` and `seq_pos` say what the cells hold, and so do `seq_pos_min` and
`seq_pos_max`. -/
structure Cells.IndexTrue (c : Cells) : Prop where
  used : ∀ i, i ∈ c.used ↔ i < c.size ∧ c.pos i ≠ -1
  seqPos : ∀ s p, p ∈ c.seqPos s ↔ ∃ i < c.size, s ∈ c.seq i ∧ c.pos i = p
  bounds : ∀ s, (∃ i < c.size, s ∈ c.seq i) →
    IsLeast {p | ∃ i < c.size, s ∈ c.seq i ∧ c.pos i = p} (c.seqPosMin s) ∧
    IsGreatest {p | ∃ i < c.size, s ∈ c.seq i ∧ c.pos i = p} (c.seqPosMax s)
  absent : ∀ s, (∀ i < c.size, s ∉ c.seq i) → c.seqPosMin s = -1 ∧ c.seqPosMax s = -1

theorem mem_entriesOf {cell : Int × Finset Nat} {s : Nat} {p : Int} :
    (s, p) ∈ entriesOf cell ↔ s ∈ cell.2 ∧ p = cell.1 := Iff.rfl

theorem entriesOf_empty (p : Int) : entriesOf (p, ∅) = ∅ := by
  ext ⟨s, q⟩
  rw [mem_entriesOf]
  simp

section

variable {c c' : Cells} {i : Nat}

theorem mem_seqPosRm {s : Nat} {q : Int} :
    q ∈ c.seqPosRm i s ↔ q ∈ c.seqPos s ∧ ¬ (s ∈ c.seq i ∧ q = c.pos i) := by
  unfold Cells.seqPosRm
  split
  · rename_i hs
    rw [Finset.mem_erase]
    constructor
    · rintro ⟨hne, hq⟩
      exact ⟨hq, fun h => hne h.2⟩
    · rintro ⟨hq, hne⟩
      exact ⟨fun h => hne ⟨hs, h⟩, hq⟩
  · rename_i hs
    exact ⟨fun hq => ⟨hq, fun h => hs h.1⟩, fun h => h.1⟩

theorem mem_seqPosAdd {s : Nat} {q : Int} :
    q ∈ c.seqPosAdd i s ↔ q ∈ c.seqPos s ∨ (s ∈ c.seq i ∧ q = c.pos i) := by
  unfold Cells.seqPosAdd
  split
  · rename_i hs
    rw [Finset.mem_insert]
    constructor
    · rintro (h | h)
      · exact Or.inr ⟨hs, h⟩
      · exact Or.inl h
    · rintro (h | h)
      · exact Or.inr h
      · exact Or.inl h.2
  · rename_i hs
    exact ⟨Or.inl, fun h => h.resolve_right fun h' => hs h'.1⟩

theorem Cells.UsedExact.getUsed_le (h : c.UsedExact) : c.getUsed ≤ c.size := by
  have hsub : c.used ⊆ Finset.range c.size := fun i hi => Finset.mem_range.mpr ((h i).mp hi).1
  have hcard := Finset.card_le_card hsub
  rwa [Finset.card_range] at hcard

theorem Cells.UsedExact.usedMaxP1_le (h : c.UsedExact) : c.usedMaxP1 ≤ c.size :=
  Finset.sup_le fun i hi => ((h i).mp hi).1

theorem Cells.Tidy.lt_size (h : c.Tidy) (hpos : c.pos i ≠ -1) : i < c.size := by
  by_contra hge
  exact hpos (h.beyond i (not_lt.mp hge))

theorem Cells.Tidy.usedExact (h : c.Tidy) : c.UsedExact := fun i =>
  (h.used i).trans ⟨fun hpos => ⟨h.lt_size hpos, hpos⟩, fun hi => hi.2⟩

theorem Cells.Tidy.pos_of_mem (h : c.Tidy) {s : Nat} (hs : s ∈ c.seq i) : c.pos i ≠ -1 := by
  intro hpos
  rw [h.empty i hpos] at hs
  exact Finset.notMem_empty s hs

/-- `seq_pos` says which positions a sequence has. -/
theorem Cells.Indexed.mem_seqPos (h : c.Indexed) {s : Nat} {p : Int} :
    p ∈ c.seqPos s ↔ ∃ i < c.size, s ∈ c.seq i ∧ c.pos i = p := by
  constructor
  · intro hp
    obtain ⟨i, hs, hpos⟩ := (h.exact (s, p)).mp hp
    exact ⟨i, h.tidy.lt_size (h.tidy.pos_of_mem hs), hs, hpos.symm⟩
  · rintro ⟨i, -, hs, hpos⟩
    exact (h.exact (s, p)).mpr ⟨i, hs, hpos.symm⟩

theorem Cells.Indexed.indexTrue {c : Cells} (h : c.Indexed) : c.IndexTrue := by
  have hset : ∀ s, (c.seqPos s : Set Int) = {p | ∃ i < c.size, s ∈ c.seq i ∧ c.pos i = p} := by
    intro s
    ext p
    exact h.mem_seqPos
  refine ⟨fun i => ?_, fun s p => h.mem_seqPos, fun s hs => ?_, fun s hs => ?_⟩
  · rw [h.tidy.used i]
    exact ⟨fun hpos => ⟨h.tidy.lt_size hpos, hpos⟩, fun hi => hi.2⟩
  · obtain ⟨i, hi, hmem⟩ := hs
    have hne : (c.seqPos s).Nonempty := ⟨c.pos i, h.mem_seqPos.mpr ⟨i, hi, hmem, rfl⟩⟩
    unfold Cells.seqPosMin Cells.seqPosMax
    rw [dif_pos hne, dif_pos hne, ← hset s]
    exact ⟨Finset.isLeast_min' _ hne, Finset.isGreatest_max' _ hne⟩
  · have hnone : ¬ (c.seqPos s).Nonempty := by
      rintro ⟨p, hp⟩
      obtain ⟨i, hi, hmem, -⟩ := h.mem_seqPos.mp hp
      exact hs i hi hmem
    unfold Cells.seqPosMin Cells.seqPosMax
    rw [dif_neg hnone, dif_neg hnone]
    exact ⟨rfl, rfl⟩

theorem Cells.resize_indexed (n : Nat) : (Cells.resize n).Indexed := by
  refine ⟨⟨fun i => ?_, fun i _ => rfl, fun i _ => rfl⟩, fun e => ?_⟩
  · exact ⟨fun h => (Finset.notMem_empty i h).elim, fun h => (h rfl).elim⟩
  · constructor
    · exact fun h => (Finset.notMem_empty _ h).elim
    · rintro ⟨i, h, -⟩
      exact (Finset.notMem_empty _ h).elim

/-! ## One cell -/

/-- Cell `i` gives up the entries `E` and takes `N`; every other cell stays. -/
structure Cells.Touches (c c' : Cells) (i : Nat) (E N : Set (Nat × Int)) : Prop where
  size : c'.size = c.size
  other : ∀ j, j ≠ i → c'.cell j = c.cell j
  held : entriesOf (c'.cell i) = (entriesOf (c.cell i) \ E) ∪ N
  index : c'.view.index = (c.view.index \ E) ∪ N
  tidy : c'.Tidy

theorem Cells.Touches.refl (h : c.Tidy) (i : Nat) : c.Touches c i ∅ ∅ :=
  ⟨rfl, fun _ _ => rfl, by simp, by simp, h⟩

theorem Cells.Touches.view {E N : Nat → Set (Nat × Int)} (h : c.Touches c' i (E i) (N i)) :
    c'.view = SetIndex.touch E N c.view i := by
  have hheld : c'.view.held = Function.update c.view.held i ((c.view.held i \ E i) ∪ N i) := by
    funext j
    by_cases hj : j = i
    · rw [hj, Function.update_self]
      exact h.held
    · rw [Function.update_of_ne hj]
      exact congrArg entriesOf (h.other j hj)
  show SetIndex.mk c'.view.held c'.view.index = _
  rw [hheld, h.index]
  rfl

/-- A cell that is rewritten gives up all it had. -/
theorem Cells.Touches.of_rewrite {p : Int} {S : Finset Nat} (h : c.Tidy) (hi : i < c.size)
    (hempty : p = -1 → S = ∅) (hsize : c'.size = c.size)
    (hpos : c'.pos = Function.update c.pos i p) (hseq : c'.seq = Function.update c.seq i S)
    (hused : ∀ j, j ∈ c'.used ↔ (j = i ∧ p ≠ -1) ∨ (j ≠ i ∧ j ∈ c.used))
    (hindex : ∀ s q, q ∈ c'.seqPos s ↔
      (q ∈ c.seqPos s ∧ ¬ (s ∈ c.seq i ∧ q = c.pos i)) ∨ (s ∈ S ∧ q = p)) :
    c.Touches c' i (entriesOf (c.cell i)) (entriesOf (p, S)) := by
  have hcell : c'.cell i = (p, S) := by
    unfold Cells.cell
    rw [hpos, hseq, Function.update_self, Function.update_self]
  have hother : ∀ j, j ≠ i → c'.cell j = c.cell j := by
    intro j hj
    unfold Cells.cell
    rw [hpos, hseq, Function.update_of_ne hj, Function.update_of_ne hj]
  refine ⟨hsize, hother, ?_, ?_, ?_, ?_, ?_⟩
  · rw [hcell]
    simp
  · ext ⟨s, q⟩
    exact hindex s q
  · intro j
    rw [hused, hpos]
    by_cases hj : j = i
    · rw [hj, Function.update_self]
      simp
    · rw [Function.update_of_ne hj, h.used j]
      simp [hj]
  · intro j
    rw [hpos, hseq]
    by_cases hj : j = i
    · rw [hj, Function.update_self, Function.update_self]
      exact hempty
    · rw [Function.update_of_ne hj, Function.update_of_ne hj]
      exact h.empty j
  · intro j hj
    rw [hsize] at hj
    rw [hpos, Function.update_of_ne (by omega)]
    exact h.beyond j hj

theorem Cells.rm_touches (h : c.Tidy) (hi : i < c.size) :
    c.Touches (c.rm i) i (entriesOf (c.cell i)) (entriesOf (-1, ∅)) := by
  refine .of_rewrite h hi (fun _ => rfl) rfl rfl rfl (fun j => ?_) (fun s q => ?_)
  · show j ∈ c.used.erase i ↔ _
    rw [Finset.mem_erase]
    simp
  · show q ∈ c.seqPosRm i s ↔ _
    rw [mem_seqPosRm]
    simp

theorem Cells.seqRm_touches (h : c.Tidy) {s : Nat} (hs : s ∈ c.seq i) :
    c.Touches (c.seqRm i s).1 i {(s, c.pos i)} ∅ := by
  have hpos := h.pos_of_mem hs
  have hindex : ∀ t q, q ∈ Function.update c.seqPos s ((c.seqPos s).erase (c.pos i)) t ↔
      q ∈ c.seqPos t ∧ (t, q) ≠ (s, c.pos i) := by
    intro t q
    by_cases ht : t = s
    · rw [ht, Function.update_self, Finset.mem_erase, and_comm]
      simp
    · rw [Function.update_of_ne ht]
      simp [ht]
  unfold Cells.seqRm
  dsimp only
  split
  · rename_i hnone
    -- the last sequence leaves the cell
    refine ⟨rfl, fun j hj => ?_, ?_, ?_, ?_, ?_, ?_⟩
    · unfold Cells.cell
      dsimp only
      rw [Function.update_of_ne hj, Function.update_of_ne hj]
    · unfold Cells.cell
      dsimp only
      rw [Function.update_self, Function.update_self, hnone, entriesOf_empty]
      ext ⟨t, q⟩
      rw [Set.union_empty]
      constructor
      · exact fun hmem => hmem.elim
      · rintro ⟨⟨ht, hq⟩, hne⟩
        have hts : t ≠ s := fun heq => hne (Prod.ext heq hq)
        have hmem : t ∈ (c.seq i).erase s := Finset.mem_erase.mpr ⟨hts, ht⟩
        rw [hnone] at hmem
        exact (Finset.notMem_empty t hmem).elim
    · ext ⟨t, q⟩
      rw [Set.union_empty]
      exact hindex t q
    · intro j
      dsimp only
      rw [Finset.mem_erase, h.used j]
      by_cases hj : j = i
      · rw [hj, Function.update_self]
        simp
      · rw [Function.update_of_ne hj]
        simp [hj]
    · intro j
      dsimp only
      by_cases hj : j = i
      · rw [hj, Function.update_self, Function.update_self]
        exact fun _ => hnone
      · rw [Function.update_of_ne hj, Function.update_of_ne hj]
        exact h.empty j
    · intro j hj
      have hlt := h.lt_size hpos
      dsimp only at hj ⊢
      rw [Function.update_of_ne (by omega)]
      exact h.beyond j hj
  · refine ⟨rfl, fun j hj => ?_, ?_, ?_, h.used, ?_, h.beyond⟩
    · unfold Cells.cell
      dsimp only
      rw [Function.update_of_ne hj]
    · unfold Cells.cell
      dsimp only
      rw [Function.update_self]
      ext ⟨t, q⟩
      simp only [Set.union_empty, Set.mem_sdiff, mem_entriesOf, Set.mem_singleton_iff,
        Prod.mk.injEq, Finset.mem_erase]
      constructor
      · rintro ⟨⟨hne, ht⟩, hq⟩
        exact ⟨⟨ht, hq⟩, fun h' => hne h'.1⟩
      · rintro ⟨⟨ht, hq⟩, hne⟩
        exact ⟨⟨fun h' => hne ⟨h', hq⟩, ht⟩, hq⟩
    · ext ⟨t, q⟩
      rw [Set.union_empty]
      exact hindex t q
    · intro j hj
      dsimp only at hj ⊢
      by_cases hji : j = i
      · rw [hji] at hj
        exact absurd hj hpos
      · rw [Function.update_of_ne hji]
        exact h.empty j hj

theorem Cells.seqAdd_touches (h : c.Tidy) (hpos : c.pos i ≠ -1) (s : Nat) :
    c.Touches (c.seqAdd i s) i ∅ {(s, c.pos i)} := by
  refine ⟨rfl, fun j hj => ?_, ?_, ?_, h.used, fun j hj => ?_, h.beyond⟩
  · show (c.pos j, Function.update c.seq i (insert s (c.seq i)) j) = _
    rw [Function.update_of_ne hj]
    rfl
  · show entriesOf (c.pos i, Function.update c.seq i (insert s (c.seq i)) i) = _
    rw [Function.update_self]
    ext ⟨t, q⟩
    simp only [mem_entriesOf, Finset.mem_insert, Set.sdiff_empty, Set.union_singleton,
      Set.mem_insert_iff, Prod.mk.injEq]
    constructor
    · rintro ⟨ht | ht, hq⟩
      · exact Or.inl ⟨ht, hq⟩
      · exact Or.inr ⟨ht, hq⟩
    · rintro (⟨ht, hq⟩ | ⟨ht, hq⟩)
      · exact ⟨Or.inl ht, hq⟩
      · exact ⟨Or.inr ht, hq⟩
  · ext ⟨t, q⟩
    show q ∈ Function.update c.seqPos s (insert (c.pos i) (c.seqPos s)) t ↔ _
    simp only [Set.sdiff_empty, Set.union_singleton, Set.mem_insert_iff, Prod.mk.injEq]
    by_cases ht : t = s
    · rw [ht, Function.update_self, Finset.mem_insert]
      simp [Cells.view]
    · rw [Function.update_of_ne ht]
      simp [ht, Cells.view]
  · have hji : j ≠ i := fun heq => hpos (heq ▸ hj)
    show Function.update c.seq i (insert s (c.seq i)) j = ∅
    rw [Function.update_of_ne hji]
    exact h.empty j hj

/-- A kept cell keeps the one sequence only. -/
theorem Cells.seqKeep_touches (h : c.Tidy) (s : Nat) :
    c.Touches (c.seqKeep i s).1 i (entriesOf (c.cell i))
      (if s ∈ c.seq i then {(s, c.pos i)} else ∅) := by
  unfold Cells.seqKeep
  split
  · rename_i hs
    have hpos := h.pos_of_mem hs
    have hnew : entriesOf (c.pos i, {s}) = {(s, c.pos i)} := by
      ext ⟨t, q⟩
      simp [mem_entriesOf]
    rw [← hnew]
    refine .of_rewrite h (h.lt_size hpos) (fun hp => absurd hp hpos) rfl ?_ rfl (fun j => ?_)
      (fun t q => ?_)
    · exact (Function.update_eq_self i c.pos).symm
    · by_cases hj : j = i
      · rw [hj]
        exact ⟨fun _ => Or.inl ⟨rfl, hpos⟩, fun _ => (h.used i).mpr hpos⟩
      · simp [hj]
    · show q ∈ Function.update (c.seqPosRm i) s (insert (c.pos i) (c.seqPosRm i s)) t ↔ _
      by_cases ht : t = s
      · rw [ht, Function.update_self, Finset.mem_insert, mem_seqPosRm, or_comm]
        simp
      · rw [Function.update_of_ne ht, mem_seqPosRm]
        simp [ht]
  · split
    · rename_i hs hne
      have hpos : c.pos i ≠ -1 := fun hp => hne (h.empty i hp)
      rw [← entriesOf_empty (-1)]
      exact Cells.rm_touches h (h.lt_size hpos)
    · rename_i hs hnone
      have hcell : entriesOf (c.cell i) = ∅ := by
        unfold Cells.cell
        rw [not_not.mp hnone]
        exact entriesOf_empty _
      rw [hcell]
      exact .refl h i

/-- Position and sequences after `pos_add`. -/
def shiftedCell (d : Int) (cell : Int × Finset Nat) : Int × Finset Nat :=
  if cell.1 + d < 0 then (-1, ∅) else (cell.1 + d, cell.2)

/-- Position and sequences after `pos_div`. -/
def dividedCell (d : Int) (cell : Int × Finset Nat) : Int × Finset Nat := (cell.1.tdiv d, cell.2)

theorem Cells.posAdd_touches (h : c.Tidy) (hpos : c.pos i ≠ -1) (d : Int) :
    c.Touches (c.posAdd i d).1 i (entriesOf (c.cell i))
      (entriesOf (shiftedCell d (c.cell i))) := by
  have hlt := h.lt_size hpos
  unfold Cells.posAdd shiftedCell Cells.cell
  dsimp only
  split
  · refine .of_rewrite h hlt (fun _ => rfl) rfl rfl rfl (fun j => ?_) (fun s q => ?_)
    · dsimp only
      rw [Finset.mem_erase]
      simp
    · dsimp only
      rw [mem_seqPosRm]
      simp
  · rename_i hd
    refine .of_rewrite h hlt (fun hp => by omega) rfl rfl ?_ (fun j => ?_) (fun s q => ?_)
    · exact (Function.update_eq_self i c.seq).symm
    · by_cases hj : j = i
      · rw [hj]
        exact ⟨fun _ => Or.inl ⟨rfl, by omega⟩, fun _ => (h.used i).mpr hpos⟩
      · simp [hj]
    · dsimp only
      rw [mem_seqPosAdd]
      dsimp only
      rw [mem_seqPosRm, Function.update_self]

theorem Cells.posDiv_touches (h : c.Tidy) (hpos : c.pos i ≠ -1) {d : Int}
    (hd : (c.pos i).tdiv d ≠ -1) :
    c.Touches (c.posDiv i d) i (entriesOf (c.cell i)) (entriesOf (dividedCell d (c.cell i))) := by
  have hlt := h.lt_size hpos
  unfold Cells.posDiv dividedCell Cells.cell
  dsimp only
  refine .of_rewrite h hlt (fun hp => absurd hp hd) rfl rfl ?_ (fun j => ?_) (fun s q => ?_)
  · exact (Function.update_eq_self i c.seq).symm
  · by_cases hj : j = i
    · rw [hj]
      exact ⟨fun _ => Or.inl ⟨rfl, hd⟩, fun _ => (h.used i).mpr hpos⟩
    · simp [hj]
  · dsimp only
    rw [mem_seqPosAdd]
    dsimp only
    rw [mem_seqPosRm, Function.update_self]

/-- A sequence list as a set of sequences. -/
theorem foldl_seqAdd_touches (seqIds : List Nat) : ∀ {c : Cells}, c.Tidy → c.pos i ≠ -1 →
    c.Touches (seqIds.foldl (fun c s => c.seqAdd i s) c) i ∅
      (entriesOf (c.pos i, seqIds.toFinset)) := by
  induction seqIds with
  | nil =>
      intro c h _
      rw [List.toFinset_nil, entriesOf_empty]
      exact .refl h i
  | cons s seqIds ih =>
      intro c h hpos
      have hadd := Cells.seqAdd_touches h hpos s
      have hrest := ih hadd.tidy hpos
      rw [List.foldl_cons]
      refine ⟨hrest.size.trans hadd.size, fun j hj => (hrest.other j hj).trans (hadd.other j hj),
        ?_, ?_, hrest.tidy⟩
      · rw [hrest.held, hadd.held]
        ext ⟨t, q⟩
        simp only [mem_entriesOf, Set.sdiff_empty, Set.mem_union, Set.mem_singleton_iff,
          Prod.mk.injEq, List.toFinset_cons, Finset.mem_insert]
        tauto
      · rw [hrest.index, hadd.index]
        ext ⟨t, q⟩
        simp only [mem_entriesOf, Set.sdiff_empty, Set.mem_union, Set.mem_singleton_iff,
          Prod.mk.injEq, List.toFinset_cons, Finset.mem_insert]
        tauto

/-- A placed token: what the cell had goes, the token comes. -/
theorem placeToken_touches {acc : Cells × SeqPosMaxRm} (h : acc.1.Tidy) (hi : i < acc.1.size)
    {tok : BatchToken} (htok : tok.pos ≠ -1) :
    acc.1.Touches (placeToken i tok acc).1 i (entriesOf (acc.1.cell i))
      (entriesOf (tok.pos, tok.seqIds.toFinset)) := by
  -- the cell once it is free
  obtain ⟨freed, hfreed, htouch, hfree⟩ : ∃ freed : Cells,
      (placeToken i tok acc).1 =
        tok.seqIds.foldl (fun c s => c.seqAdd i s) (freed.posSet i tok.pos) ∧
      acc.1.Touches freed i (entriesOf (acc.1.cell i)) ∅ ∧ freed.pos i = -1 := by
    unfold placeToken
    dsimp only
    cases hempty : acc.1.isEmpty i with
    | true =>
        have hpos : acc.1.pos i = -1 := of_decide_eq_true hempty
        have hcell : entriesOf (acc.1.cell i) = ∅ := by
          unfold Cells.cell
          rw [h.empty i hpos]
          exact entriesOf_empty _
        refine ⟨acc.1, by rw [if_pos rfl], ?_, hpos⟩
        rw [hcell]
        exact .refl h i
    | false =>
        refine ⟨acc.1.rm i, by rw [if_neg Bool.false_ne_true], ?_, Function.update_self i _ _⟩
        rw [← entriesOf_empty (-1)]
        exact Cells.rm_touches h hi
  have hnoseq : freed.seq i = ∅ := htouch.tidy.empty i hfree
  have hset : freed.Touches (freed.posSet i tok.pos) i ∅ ∅ := by
    have hone : freed.Touches (freed.posSet i tok.pos) i (entriesOf (freed.cell i))
        (entriesOf (tok.pos, ∅)) := by
      refine .of_rewrite htouch.tidy (htouch.size ▸ hi) (fun _ => rfl) rfl rfl ?_ (fun j => ?_)
        (fun s q => ?_)
      · rw [← hnoseq, Function.update_eq_self]
        rfl
      · show j ∈ insert i freed.used ↔ _
        rw [Finset.mem_insert]
        by_cases hj : j = i
        · simp [hj, htok]
        · simp [hj]
      · rw [hnoseq]
        simp [Cells.posSet]
    have hcell : entriesOf (freed.cell i) = ∅ := by
      unfold Cells.cell
      rw [hnoseq]
      exact entriesOf_empty _
    rw [hcell, entriesOf_empty] at hone
    exact hone
  have hpos : (freed.posSet i tok.pos).pos i = tok.pos := Function.update_self i _ _
  have hseq := @foldl_seqAdd_touches i tok.seqIds _ hset.tidy (by rw [hpos]; exact htok)
  rw [hpos] at hseq
  rw [hfreed]
  refine ⟨hseq.size.trans (hset.size.trans htouch.size), fun j hj => ?_, ?_, ?_, hseq.tidy⟩
  · exact (hseq.other j hj).trans ((hset.other j hj).trans (htouch.other j hj))
  · rw [hseq.held, hset.held, htouch.held]
    simp
  · rw [hseq.index, hset.index, htouch.index]
    simp

/-- A cell of `set`. -/
theorem setCell_touches (h : c.Tidy) (hi : i < c.size) {other : Int × Finset Nat}
    (hother : other.1 = -1 → other.2 = ∅) :
    c.Touches (c.setCell i other) i (entriesOf (c.cell i)) (entriesOf other) := by
  have hindex : ∀ (s : Nat) (q : Int),
      q ∈ (if c.pos i ≠ -1 then c.seqPosRm i else c.seqPos) s ↔
        q ∈ c.seqPos s ∧ ¬ (s ∈ c.seq i ∧ q = c.pos i) := by
    intro s q
    split
    · exact mem_seqPosRm
    · rename_i hpos
      rw [h.empty i (not_not.mp hpos)]
      simp
  have hused : ∀ j, j ∈ (if c.pos i = -1 ∧ other.1 ≠ -1 then insert i c.used
      else if c.pos i ≠ -1 ∧ other.1 = -1 then c.used.erase i else c.used) ↔
      (j = i ∧ other.1 ≠ -1) ∨ (j ≠ i ∧ j ∈ c.used) := by
    intro j
    have hi := h.used i
    split
    · by_cases hj : j = i <;> simp_all
    · split
      · by_cases hj : j = i <;> simp_all
      · by_cases hj : j = i
        · rw [hj]
          simp only [true_and, ne_eq, not_true_eq_false, false_and, or_false]
          rw [hi]
          tauto
        · simp [hj]
  unfold Cells.setCell
  dsimp only
  split
  · refine .of_rewrite h hi hother rfl rfl rfl hused fun s q => ?_
    rw [mem_seqPosAdd]
    dsimp only
    rw [hindex, Function.update_self, Function.update_self]
  · rename_i hnone
    refine .of_rewrite h hi hother rfl rfl rfl hused fun s q => ?_
    dsimp only
    rw [hindex, hother (not_not.mp hnone)]
    simp

end

end MzCache.Unified
