import MzCache.Unified.IndexSteps

/-!
# Moves of a defragmentation

`defrag_prepare` fills the holes of the used part with cells from behind them. A planned
move goes from a cell in use to an empty one, and no two moves go to the same cell, so the
moves of `update` can be made one after another and the index stays exact.
-/

namespace MzCache.Unified

open MzCache MzCache.Lib

/-! ## One move -/

/-- A move from a cell in use to an empty one. -/
theorem Cells.mv_indexed {c : Cells} (h : c.Indexed) {isrc idst : Nat} (hdst : idst < c.size)
    (hsrc : c.pos isrc ≠ -1) (hempty : c.pos idst = -1) : (c.mv isrc idst).Indexed := by
  have hne : isrc ≠ idst := fun heq => hsrc (heq ▸ hempty)
  have hpos : ∀ i, (c.mv isrc idst).pos i =
      if i = isrc then -1 else if i = idst then c.pos isrc else c.pos i := by
    intro i
    show Function.update (Function.update c.pos idst (c.pos isrc)) isrc (-1) i = _
    rw [Function.update_apply, Function.update_apply]
  have hseq : ∀ i, (c.mv isrc idst).seq i =
      if i = isrc then ∅ else if i = idst then c.seq isrc else c.seq i := by
    intro i
    show Function.update (Function.update c.seq idst (c.seq isrc)) isrc ∅ i = _
    rw [Function.update_apply, Function.update_apply]
  refine ⟨⟨fun i => ?_, fun i => ?_, fun i hi => ?_⟩, fun e => ?_⟩
  · show i ∈ insert idst (c.used.erase isrc) ↔ _
    rw [hpos, Finset.mem_insert, Finset.mem_erase, h.tidy.used i]
    by_cases h1 : i = isrc
    · simp [h1, hne]
    · by_cases h2 : i = idst
      · simp [h2, hne.symm, hsrc]
      · simp [h1, h2]
  · rw [hpos, hseq]
    by_cases h1 : i = isrc
    · rw [if_pos h1, if_pos h1]
      exact fun _ => rfl
    · rw [if_neg h1, if_neg h1]
      by_cases h2 : i = idst
      · rw [if_pos h2, if_pos h2]
        exact h.tidy.empty isrc
      · rw [if_neg h2, if_neg h2]
        exact h.tidy.empty i
  · have hi' : c.size ≤ i := hi
    have hlt := h.tidy.lt_size hsrc
    rw [hpos, if_neg (by omega), if_neg (by omega)]
    exact h.tidy.beyond i hi'
  · -- the target holds what the source held
    have hheld : ∀ i, (c.mv isrc idst).view.held i =
        if i = isrc then ∅ else if i = idst then c.view.held isrc else c.view.held i := by
      intro i
      show entriesOf ((c.mv isrc idst).pos i, (c.mv isrc idst).seq i) = _
      rw [hpos, hseq]
      split
      · exact entriesOf_empty _
      · split <;> rfl
    have hnone : c.view.held idst = ∅ := by
      show entriesOf (c.pos idst, c.seq idst) = ∅
      rw [h.tidy.empty idst hempty]
      exact entriesOf_empty _
    show e ∈ c.view.index ↔ _
    rw [h.exact e]
    constructor
    · rintro ⟨i, hi⟩
      by_cases h1 : i = isrc
      · refine ⟨idst, ?_⟩
        rw [hheld, if_neg hne.symm, if_pos rfl, ← h1]
        exact hi
      · have h2 : i ≠ idst := by
          intro heq
          rw [heq, hnone] at hi
          exact hi
        refine ⟨i, ?_⟩
        rw [hheld, if_neg h1, if_neg h2]
        exact hi
    · rintro ⟨i, hi⟩
      rw [hheld] at hi
      split at hi
      · exact hi.elim
      · split at hi
        · exact ⟨isrc, hi⟩
        · exact ⟨i, hi⟩

/-! ## The plan -/

/-- Cell `i` is to be moved. -/
def DefragPlan.Moved (nKv : Nat) (plan : DefragPlan) (i : Nat) : Prop :=
  plan.ids i ≠ nKv ∧ plan.ids i ≠ i

/-- Moves go from cells in use to empty cells below `b`, each to one of its own. -/
structure DefragPlan.Sound (c : Cells) (nKv b : Nat) (plan : DefragPlan) : Prop where
  source : ∀ i, plan.Moved nKv i → c.pos i ≠ -1
  target : ∀ i, plan.Moved nKv i → c.pos (plan.ids i) = -1 ∧ plan.ids i < b
  inj : ∀ i j, plan.Moved nKv i → plan.Moved nKv j → plan.ids i = plan.ids j → i = j

section

variable {c : Cells} {nKv b b' : Nat} {plan : DefragPlan}

theorem DefragPlan.Sound.mono (h : plan.Sound c nKv b) (hle : b ≤ b') : plan.Sound c nKv b' :=
  ⟨h.source, fun i hi => ⟨(h.target i hi).1, lt_of_lt_of_le (h.target i hi).2 hle⟩, h.inj⟩

/-- A cell in its place is not moved. -/
theorem DefragPlan.Sound.stay (h : plan.Sound c nKv b) (i0 n : Nat) :
    DefragPlan.Sound c nKv b ⟨Function.update plan.ids i0 i0, n⟩ := by
  have hmoved : ∀ i, (DefragPlan.mk (Function.update plan.ids i0 i0) n).Moved nKv i →
      plan.Moved nKv i ∧ Function.update plan.ids i0 i0 i = plan.ids i := by
    rintro i ⟨h1, h2⟩
    dsimp only at h1 h2
    have hne : i ≠ i0 := by
      intro heq
      rw [heq, Function.update_self] at h2
      exact h2 rfl
    rw [Function.update_of_ne hne] at h1 h2 ⊢
    exact ⟨⟨h1, h2⟩, rfl⟩
  refine ⟨fun i hi => h.source i (hmoved i hi).1, fun i hi => ?_, fun i j hi hj heq => ?_⟩
  · show c.pos (Function.update plan.ids i0 i0 i) = -1 ∧ Function.update plan.ids i0 i0 i < b
    rw [(hmoved i hi).2]
    exact h.target i (hmoved i hi).1
  · have heq' : Function.update plan.ids i0 i0 i = Function.update plan.ids i0 i0 j := heq
    rw [(hmoved i hi).2, (hmoved j hj).2] at heq'
    exact h.inj i j (hmoved i hi).1 (hmoved j hj).1 heq'

/-- A cell in use is planned to an empty cell past all targets so far. -/
theorem DefragPlan.Sound.assign (h : plan.Sound c nKv b) {i1 : Nat} (hsrc : c.pos i1 ≠ -1)
    (hempty : c.pos b = -1) (n : Nat) :
    DefragPlan.Sound c nKv (b + 1) ⟨Function.update plan.ids i1 b, n⟩ := by
  have hother : ∀ i, i ≠ i1 → (DefragPlan.mk (Function.update plan.ids i1 b) n).Moved nKv i →
      plan.Moved nKv i ∧ Function.update plan.ids i1 b i = plan.ids i := by
    rintro i hne ⟨h1, h2⟩
    dsimp only at h1 h2
    rw [Function.update_of_ne hne] at h1 h2 ⊢
    exact ⟨⟨h1, h2⟩, rfl⟩
  refine ⟨fun i hi => ?_, fun i hi => ?_, fun i j hi hj heq => ?_⟩
  · by_cases hne : i = i1
    · rw [hne]
      exact hsrc
    · exact h.source i (hother i hne hi).1
  · show c.pos (Function.update plan.ids i1 b i) = -1 ∧ Function.update plan.ids i1 b i < b + 1
    by_cases hne : i = i1
    · rw [hne, Function.update_self]
      exact ⟨hempty, Nat.lt_succ_self b⟩
    · obtain ⟨hm, heq⟩ := hother i hne hi
      rw [heq]
      exact ⟨(h.target i hm).1, Nat.lt_succ_of_lt (h.target i hm).2⟩
  · have heq' : Function.update plan.ids i1 b i = Function.update plan.ids i1 b j := heq
    by_cases hi1 : i = i1
    · by_cases hj1 : j = i1
      · rw [hi1, hj1]
      · obtain ⟨hm, hj'⟩ := hother j hj1 hj
        rw [hi1, Function.update_self, hj'] at heq'
        exact absurd (h.target j hm).2 (by omega)
    · obtain ⟨hm, hi'⟩ := hother i hi1 hi
      by_cases hj1 : j = i1
      · rw [hj1, Function.update_self, hi'] at heq'
        exact absurd (h.target i hm).2 (by omega)
      · obtain ⟨hm', hj'⟩ := hother j hj1 hj
        rw [hi', hj'] at heq'
        exact h.inj i j hm hm' heq'

theorem fillHole_sound {maxMoves i0 nh : Nat} (hole : ∀ k < nh, c.pos (i0 + k) = -1)
    (is : List Nat) : ∀ (nf : Nat) (cont : Bool) (plan : DefragPlan), nf < nh →
      plan.Sound c nKv (i0 + nf) →
      (fillHole c nKv maxMoves i0 nh is nf cont plan).1.Sound c nKv (i0 + nh) := by
  induction is with
  | nil =>
      intro nf cont plan hlt h
      exact h.mono (by omega)
  | cons i1 is ih =>
      intro nf cont plan hlt h
      rw [fillHole]
      split
      · split
        · exact h.mono (by omega)
        · exact ih nf false plan hlt h
      · rename_i hmovable
        have hsrc : c.pos i1 ≠ -1 := by
          intro hpos
          apply hmovable
          unfold Cells.unmovable Cells.isEmpty
          rw [hpos]
          rfl
        have hplan := h.assign hsrc (hole nf hlt) (if cont then plan.nMoves else plan.nMoves + 1)
        dsimp only
        split
        · exact hplan.mono (by omega)
        · exact ih (nf + 1) true _ (by omega) hplan

theorem holeSize_spec {nUsed i0 : Nat} (hempty : c.isEmpty i0 = true) (hlt : i0 < nUsed) :
    (∀ k < c.holeSize nUsed i0, c.pos (i0 + k) = -1) ∧ i0 + c.holeSize nUsed i0 ≤ nUsed ∧
      0 < c.holeSize nUsed i0 := by
  unfold Cells.holeSize
  have hprefix := List.takeWhile_prefix c.isEmpty
    (l := List.range' (i0 + 1) (nUsed - (i0 + 1)))
  have hlen := hprefix.length_le
  rw [List.length_range'] at hlen
  refine ⟨fun k hk => ?_, by omega, by omega⟩
  cases k with
  | zero => exact of_decide_eq_true hempty
  | succ k =>
      have hk' : k < ((List.range' (i0 + 1) (nUsed - (i0 + 1))).takeWhile c.isEmpty).length := by
        omega
      have hget := hprefix.getElem hk'
      rw [List.getElem_range', one_mul] at hget
      have hmem := List.getElem_mem hk'
      have hp := List.mem_takeWhile_imp hmem
      rw [hget] at hp
      rw [show i0 + (k + 1) = i0 + 1 + k by omega]
      exact of_decide_eq_true hp

theorem defragFrom_sound {nUsed maxMoves : Nat} (fuel : Nat) :
    ∀ (i0 : Nat) (plan plan' : DefragPlan), i0 ≤ nUsed → plan.Sound c nKv i0 →
      defragFrom c nKv nUsed maxMoves fuel i0 plan = some plan' → plan'.Sound c nKv nUsed := by
  induction fuel with
  | zero =>
      intro i0 plan plan' hle h heq
      rw [defragFrom] at heq
      cases heq
      exact h.mono hle
  | succ fuel ih =>
      intro i0 plan plan' hle h heq
      rw [defragFrom] at heq
      split at heq
      · rename_i hlt
        split at heq
        · rename_i hempty
          obtain ⟨hhole, hfit, hpos⟩ := holeSize_spec hempty hlt
          dsimp only at heq
          split at heq
          · have hfill := @fillHole_sound c nKv maxMoves i0 _ hhole
              (List.range' (findFromEnd c nKv plan.ids i0 (c.holeSize nUsed i0) (nKv - 1) 0).1
                (nKv - (findFromEnd c nKv plan.ids i0 (c.holeSize nUsed i0) (nKv - 1) 0).1))
              0 false plan hpos h
            split at heq
            · cases heq
              exact hfill.mono hfit
            · exact ih _ _ _ hfit hfill heq
          · cases heq
        · exact ih _ _ _ hlt ((h.stay i0 plan.nMoves).mono (Nat.le_succ i0)) heq
      · cases heq
        exact h.mono hle

/-! ## All moves -/

/-- Of the moves from `n` on, each has its cell in use and its target free. -/
structure Cells.Movable (c : Cells) (nKv : Nat) (ids : Nat → Nat) (n : Nat) : Prop where
  source : ∀ i, n ≤ i → ids i ≠ nKv → ids i ≠ i → c.pos i ≠ -1
  target : ∀ i, n ≤ i → ids i ≠ nKv → ids i ≠ i → c.pos (ids i) = -1 ∧ ids i < c.size

theorem moveCell_indexed {ids : Nat → Nat} {n : Nat} (h : c.Indexed)
    (hinj : ∀ i j, ids i ≠ nKv → ids i ≠ i → ids j ≠ nKv → ids j ≠ j → ids i = ids j → i = j)
    (hm : c.Movable nKv ids n) :
    (moveCell nKv ids c n).Indexed ∧ (moveCell nKv ids c n).size = c.size ∧
      (moveCell nKv ids c n).Movable nKv ids (n + 1) := by
  unfold moveCell
  split
  · exact ⟨h, rfl, fun i hi => hm.source i (by omega), fun i hi => hm.target i (by omega)⟩
  · rename_i hmove
    rw [not_or] at hmove
    have hsrc := hm.source n le_rfl hmove.1 hmove.2
    obtain ⟨hdst, hlt⟩ := hm.target n le_rfl hmove.1 hmove.2
    have hpos : ∀ i, (c.mv n (ids n)).pos i =
        if i = n then -1 else if i = ids n then c.pos n else c.pos i := by
      intro i
      show Function.update (Function.update c.pos (ids n) (c.pos n)) n (-1) i = _
      rw [Function.update_apply, Function.update_apply]
    refine ⟨Cells.mv_indexed h hlt hsrc hdst, rfl, fun i hi h1 h2 => ?_, fun i hi h1 h2 => ?_⟩
    · -- a later source is neither this one nor this target, which was free
      have hused := hm.source i (by omega) h1 h2
      have hne : i ≠ ids n := fun heq => hused (heq ▸ hdst)
      rw [hpos, if_neg (by omega), if_neg hne]
      exact hused
    · obtain ⟨hfree, hlt'⟩ := hm.target i (by omega) h1 h2
      have hne : ids i ≠ ids n := fun heq => by
        have := hinj i n h1 h2 hmove.1 hmove.2 heq
        omega
      refine ⟨?_, hlt'⟩
      rw [hpos, if_neg hne]
      split
      · rfl
      · exact hfree

theorem moveCells_indexed {ids : Nat → Nat}
    (hinj : ∀ i j, ids i ≠ nKv → ids i ≠ i → ids j ≠ nKv → ids j ≠ j → ids i = ids j → i = j)
    (h : c.Indexed) (hm : c.Movable nKv ids 0) (n : Nat) :
    ((List.range n).foldl (moveCell nKv ids) c).Indexed ∧
      ((List.range n).foldl (moveCell nKv ids) c).size = c.size ∧
      ((List.range n).foldl (moveCell nKv ids) c).Movable nKv ids n := by
  induction n with
  | zero => exact ⟨h, rfl, hm⟩
  | succ n ih =>
      obtain ⟨h1, h2, h3⟩ := ih
      rw [List.range_succ, List.foldl_append, List.foldl_cons, List.foldl_nil]
      obtain ⟨h4, h5, h6⟩ := moveCell_indexed h1 hinj h3
      exact ⟨h4, h5.trans h2, h6⟩

end

/-- A defragmentation keeps the index exact. -/
theorem defrag_indexed {c : Cache} (h : c.cells.Indexed) (sh : Shape) (nMaxNodes : Nat) :
    (c.defrag sh nMaxNodes).cells.Indexed ∧
      (c.defrag sh nMaxNodes).cells.size = c.cells.size := by
  unfold Cache.defrag
  split
  · exact ⟨h, rfl⟩
  · rename_i nKv ids hplan
    split
    · exact ⟨h, rfl⟩
    · rename_i hsome
      unfold Cells.defragPrepare at hplan
      obtain ⟨plan, hfrom, heq⟩ := Option.map_eq_some_iff.mp hplan
      split at heq
      · cases heq
        exact absurd rfl hsome
      · cases heq
        have hnone : ∀ i, ¬ (DefragPlan.mk (fun _ => c.cells.usedMaxP1) 0).Moved
            c.cells.usedMaxP1 i := fun i hi => hi.1 rfl
        have hsound := defragFrom_sound _ 0 _ plan (Nat.zero_le _)
          ⟨fun i hi => absurd hi (hnone i), fun i hi => absurd hi (hnone i),
            fun i _ hi => absurd hi (hnone i)⟩ hfrom
        have hle := h.tidy.usedExact.getUsed_le
        obtain ⟨h1, h2, -⟩ := @moveCells_indexed c.cells c.cells.usedMaxP1 plan.ids
          (fun i j hi hi' hj hj' heq => hsound.inj i j ⟨hi, hi'⟩ ⟨hj, hj'⟩ heq) h
          ⟨fun i _ hi hi' => hsound.source i ⟨hi, hi'⟩, fun i _ hi hi' =>
            ⟨(hsound.target i ⟨hi, hi'⟩).1, lt_of_lt_of_le (hsound.target i ⟨hi, hi'⟩).2 hle⟩⟩
          c.cells.usedMaxP1
        exact ⟨h1, h2⟩

end MzCache.Unified
