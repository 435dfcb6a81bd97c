import MzCache.Unified.CacheRuns
import MzCache.Unified.DefragPlan

/-!
# Defragmentation plans

A plan of `defrag_prepare` moves cells in use down onto empty ones, each onto its own, in at most
`max_moves` copies, and makes the cells in use the first ones when that limit is not reached.
-/

namespace MzCache.Theorems

open MzCache MzCache.Unified

/-- `max_moves`, in the arithmetic of `uint32_t`. -/
def maxMoves (sh : Shape) (nMaxNodes : Nat) : Nat :=
  (nMaxNodes + 2 ^ 32 - 2 * sh.layers.length) % 2 ^ 32 / (6 * sh.layers.length)

/-- What a returned plan promises: which cells it moves and where, that every `mv` finds its cell
in use and its target empty, and how many copies it takes. -/
structure PlanCorrect (limit : Nat) (c : Cells) (n : Nat) (ids : Nat → Nat) : Prop where
  source : ∀ i < n, ids i ≠ n → ids i ≠ i → i < c.size ∧ c.pos i ≠ -1
  target : ∀ i < n, ids i ≠ n → ids i ≠ i → ids i < c.size ∧ c.pos (ids i) = -1
  lower : ∀ i < n, ids i ≠ n → ids i ≠ i → ids i < i
  inj : ∀ i < n, ∀ j < n, ids i ≠ n → ids i ≠ i → ids j ≠ n → ids j ≠ j → ids i = ids j → i = j
  disjoint : ∀ i < n, ∀ j < n, ids i ≠ n → ids i ≠ i → ids j ≠ n → ids j ≠ j → ids i ≠ j
  applies : ∀ i < n, ids i ≠ n → ids i ≠ i →
    ((List.range i).foldl (moveCell n ids) c).pos i ≠ -1 ∧
      ((List.range i).foldl (moveCell n ids) c).pos (ids i) = -1
  copies : (defragRuns n ids n 0).length ≤ limit

theorem planCorrect_empty (limit : Nat) (c : Cells) (ids : Nat → Nat) :
    PlanCorrect limit c 0 ids where
  source := fun _ h => absurd h (Nat.not_lt_zero _)
  target := fun _ h => absurd h (Nat.not_lt_zero _)
  lower := fun _ h => absurd h (Nat.not_lt_zero _)
  inj := fun _ h => absurd h (Nat.not_lt_zero _)
  disjoint := fun _ h => absurd h (Nat.not_lt_zero _)
  applies := fun _ h => absurd h (Nat.not_lt_zero _)
  copies := Nat.zero_le _

/-- With `used` exact and room for one move, `defrag_prepare` never fails its assertion and
returns a correct plan; its moves leave no hole unless the limit is reached. -/
theorem defrag_plan_correct (sh : Shape) (nMaxNodes : Nat) (c : Cells) (h : c.UsedExact)
    (hmax : 1 ≤ maxMoves sh nMaxNodes) :
    ∃ plan n, defragFrom c c.usedMaxP1 c.getUsed (maxMoves sh nMaxNodes) c.getUsed 0
        ⟨fun _ => c.usedMaxP1, 0⟩ = some plan ∧
      c.defragPrepare sh nMaxNodes = some (n, plan.ids) ∧
      PlanCorrect (maxMoves sh nMaxNodes) c n plan.ids ∧
      (plan.nMoves < maxMoves sh nMaxNodes → ∀ x < c.size,
        ((List.range n).foldl (moveCell n plan.ids) c).pos x ≠ -1 ↔ x < c.getUsed) := by
  have hle := getUsed_le_usedMaxP1 c
  have hstart : DefragPlan.Upto c c.usedMaxP1 0 c.usedMaxP1 ⟨fun _ => c.usedMaxP1, 0⟩ :=
    ⟨fun i hi hlt => absurd hlt (not_lt.mpr hi), fun _ _ _ => rfl, fun _ _ hm => hm.1 rfl, le_rfl,
      rfl⟩
  have hthrifty : DefragPlan.Thrifty c.usedMaxP1 (maxMoves sh nMaxNodes)
      ⟨fun _ => c.usedMaxP1, 0⟩ := by
    refine ⟨Nat.zero_le _, ?_, fun i hm => absurd rfl hm.1⟩
    rw [Nat.le_zero, Finset.card_eq_zero, runStarts, Finset.filter_eq_empty_iff]
    exact fun i _ hi => hi.1 rfl
  obtain ⟨plan, hfrom, hth, hend⟩ := defragFrom_spec h.usedBelow_end hle c.getUsed 0 _ _
    (Nat.zero_le _) (Nat.zero_add _).ge hstart hthrifty hmax
  have hprep : c.defragPrepare sh nMaxNodes =
      some (if plan.nMoves = 0 then 0 else c.usedMaxP1, plan.ids) := by
    show (defragFrom c c.usedMaxP1 c.getUsed (maxMoves sh nMaxNodes) c.getUsed 0 _).map _ = _
    rw [hfrom, Option.map_some]
    split <;> rfl
  have hsound := defragFrom_sound _ 0 _ plan (Nat.zero_le _) (defragStart_sound c _) hfrom
  have hok := planOk_of_sound h hsound
  refine ⟨plan, _, hfrom, hprep, ?_, fun hlt => ?_⟩
  · by_cases h0 : plan.nMoves = 0
    · rw [if_pos h0]
      exact planCorrect_empty _ c _
    · rw [if_neg h0]
      have hsource : ∀ i < c.usedMaxP1, plan.ids i ≠ c.usedMaxP1 → plan.ids i ≠ i →
          i < c.size ∧ c.pos i ≠ -1 := fun i hi h1 h2 =>
        ⟨hi.trans_le hok.le, hsound.source i ⟨h1, h2⟩⟩
      refine ⟨hsource, fun i _ h1 h2 => (hok.movable.target i (Nat.zero_le i) h1 h2).symm,
        fun i _ h1 h2 => hth.lower i ⟨h1, h2⟩, fun i _ j _ => hok.inj i j,
        fun i _ j hj h1 h2 h3 h4 heq => ?_, fun i _ h1 h2 => ?_,
        (defragRuns_le_starts _ _).trans (hth.starts_le.trans hth.moves_le)⟩
      · have hfree := (hok.movable.target i (Nat.zero_le i) h1 h2).1
        exact (hsource j hj h3 h4).2 (heq ▸ hfree)
      · have hm := moves_movable hok i
        exact ⟨hm.source i le_rfl h1 h2, (hm.target i le_rfl h1 h2).1⟩
  · obtain ⟨e, hup⟩ := hend hlt
    have hcompact := hup.compact h hsound hok
    by_cases h0 : plan.nMoves = 0
    · rw [if_pos h0]
      rwa [foldl_moveCell_still (hth.still h0)] at hcompact
    · rw [if_neg h0]
      exact hcompact

/-- Two cells in use behind two holes. -/
def gappedCells : Cells :=
  ⟨4, fun i => if i = 1 then 0 else if i = 3 then 1 else -1, fun i => if i % 2 = 1 then {0} else ∅,
    {1, 3}, fun s => if s = 0 then {0, 1} else ∅⟩

theorem gappedCells_exact : gappedCells.UsedExact := by
  intro i
  show i ∈ ({1, 3} : Finset Nat) ↔ i < 4 ∧ (if i = 1 then (0 : Int) else if i = 3 then 1 else -1) ≠ -1
  rw [Finset.mem_insert, Finset.mem_singleton]
  split_ifs <;> omega

/-- The cell behind the hole moves into it. -/
theorem defrag_plan_gapped :
    ∃ (plan : DefragPlan) (n : Nat), gappedCells.defragPrepare .single 14 = some (n, plan.ids) ∧
      PlanCorrect (maxMoves .single 14) gappedCells n plan.ids ∧
      ∀ x < 4, ((List.range n).foldl (moveCell n plan.ids) gappedCells).pos x ≠ -1 ↔ x < 2 := by
  obtain ⟨plan, n, hfrom, hprep, hok, hcompact⟩ :=
    defrag_plan_correct .single 14 gappedCells gappedCells_exact (by decide)
  refine ⟨plan, n, hprep, hok, hcompact ?_⟩
  have hmoves : ((defragFrom gappedCells gappedCells.usedMaxP1 gappedCells.getUsed
      (maxMoves .single 14) gappedCells.getUsed 0 ⟨fun _ => gappedCells.usedMaxP1, 0⟩).map
        DefragPlan.nMoves) = some 1 := by decide
  rw [hfrom, Option.map_some, Option.some.injEq] at hmoves
  rw [hmoves]
  decide

end MzCache.Theorems
