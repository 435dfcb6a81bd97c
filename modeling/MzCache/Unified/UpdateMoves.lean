import MzCache.Unified.Update

/-!
# Moves of cells and of data

The copies of a defragmentation, run by run and layer by layer, do to every tensor what
the moves do to the cells one after another: a moved cell is in use and its target is
empty, so no copy overwrites what a later one reads.
-/

namespace MzCache.Unified

open MzCache MzCache.Lib

/-! ## Runs and single moves -/

/-- What a plan of `update` promises: moves go from cells in use to empty cells, each to one of
its own, and the cell after a target still lies in the plan. -/
structure Cells.PlanOk (c : Cells) (n : Nat) (ids : Nat → Nat) : Prop where
  movable : c.Movable n ids 0
  inj : ∀ i j, ids i ≠ n → ids i ≠ i → ids j ≠ n → ids j ≠ j → ids i = ids j → i = j
  next : ∀ i, ids i ≠ n → ids i ≠ i → ids i + 1 < n
  le : n ≤ c.size

/-- One move, as a copy of one cell. -/
def moveOne {M : Type} (copy : MoveRun → M → M) (n : Nat) (ids : Nat → Nat) (m : M) (i : Nat) : M :=
  if ids i = n ∨ ids i = i then m else copy ⟨i, ids i, 1⟩ m

/-- A copy of a run is the copy of its cells one after another, as long as none of them is a
target of the run. -/
def SplitsRuns {M : Type} (n : Nat) (copy : MoveRun → M → M) : Prop :=
  ∀ i id nm m, i + nm < n → (i + nm < id ∨ id + nm ≤ i + nm) →
    copy ⟨i, id, nm + 1⟩ m = copy ⟨i + nm, id + nm, 1⟩ (copy ⟨i, id, nm⟩ m)

section

variable {c : Cells} {n : Nat} {ids : Nat → Nat}

theorem runLength_spec (i : Nat) : (∀ k < runLength n ids i, ids (i + k) = ids i + k) ∧
    (i < n → i + runLength n ids i ≤ n) ∧ 0 < runLength n ids i := by
  unfold runLength
  have hprefix := List.takeWhile_prefix (fun x => decide (ids x = ids i + (x - i)))
    (l := List.range' (i + 1) (n - (i + 1)))
  have hlen := hprefix.length_le
  rw [List.length_range'] at hlen
  refine ⟨fun k hk => ?_, fun hi => by omega, by omega⟩
  cases k with
  | zero => rfl
  | succ k =>
      have hk' : k < ((List.range' (i + 1) (n - (i + 1))).takeWhile
          fun x => decide (ids x = ids i + (x - i))).length := by omega
      have hget := hprefix.getElem hk'
      rw [List.getElem_range', one_mul] at hget
      have hp := List.mem_takeWhile_imp (List.getElem_mem hk')
      rw [hget] at hp
      have heq := of_decide_eq_true hp
      rw [show i + (k + 1) = i + 1 + k by omega, heq]
      omega

/-- The targets of a run, and that its cells are moved. -/
theorem Cells.PlanOk.run (h : c.PlanOk n ids) {i : Nat} (hn : ids i ≠ n) (hi : ids i ≠ i) :
    ∀ k < runLength n ids i, ids (i + k) = ids i + k ∧ ids i + k ≠ n ∧ ids i + k ≠ i + k := by
  intro k hk
  have hids := (@runLength_spec n ids i).1
  refine ⟨hids k hk, ?_, by omega⟩
  induction k with
  | zero => exact hn
  | succ k ih =>
      have hprev := hids k (by omega)
      have hnext := h.next (i + k) (by rw [hprev]; exact ih (by omega)) (by rw [hprev]; omega)
      omega

/-- A source is no target of its run. -/
theorem Cells.PlanOk.apart (h : c.PlanOk n ids) {i : Nat} (hn : ids i ≠ n) (hi : ids i ≠ i)
    {nm : Nat} (hnm : nm < runLength n ids i) : i + nm < ids i ∨ ids i + nm ≤ i + nm := by
  by_contra hin
  rw [not_or] at hin
  obtain ⟨hsrc, hsrc', hsrc''⟩ := h.run hn hi nm hnm
  obtain ⟨htgt, htgt', htgt''⟩ := h.run hn hi (i + nm - ids i) (by omega)
  have hused := h.movable.source (i + nm) (Nat.zero_le _) (hsrc ▸ hsrc') (hsrc ▸ hsrc'')
  have hfree := (h.movable.target (i + (i + nm - ids i)) (Nat.zero_le _) (htgt ▸ htgt')
    (htgt ▸ htgt'')).1
  rw [htgt, show ids i + (i + nm - ids i) = i + nm by omega] at hfree
  exact hused hfree

/-- The copy of a run, cell by cell. -/
theorem Cells.PlanOk.copy_run {M : Type} {copy : MoveRun → M → M} (h : c.PlanOk n ids)
    (hsplit : SplitsRuns n copy) {i : Nat} (hlt : i < n) (hn : ids i ≠ n) (hi : ids i ≠ i) (m : M)
    (nm : Nat) (hnm : nm < runLength n ids i) :
    (List.range' i (nm + 1)).foldl (moveOne copy n ids) m = copy ⟨i, ids i, nm + 1⟩ m := by
  induction nm with
  | zero =>
      show moveOne copy n ids m i = _
      unfold moveOne
      rw [if_neg (not_or.mpr ⟨hn, hi⟩)]
  | succ nm ih =>
      have hend := (@runLength_spec n ids i).2.1 hlt
      obtain ⟨hids, hne, hne'⟩ := h.run hn hi (nm + 1) hnm
      rw [List.range'_concat, List.foldl_append, ih (by omega), List.foldl_cons, List.foldl_nil,
        one_mul]
      unfold moveOne
      rw [hids, if_neg (not_or.mpr ⟨hne, hne'⟩)]
      exact (hsplit i (ids i) (nm + 1) m (by omega) (h.apart hn hi hnm)).symm

/-- The copies of all runs are the moves one after another. -/
theorem Cells.PlanOk.runs_eq {M : Type} {copy : MoveRun → M → M} (h : c.PlanOk n ids)
    (hsplit : SplitsRuns n copy) (fuel : Nat) : ∀ (i : Nat) (m : M), n - i ≤ fuel →
    (defragRuns n ids fuel i).foldl (fun m r => copy r m) m =
      (List.range' i (n - i)).foldl (moveOne copy n ids) m := by
  induction fuel with
  | zero =>
      intro i m hfuel
      rw [show n - i = 0 by omega]
      rfl
  | succ fuel ih =>
      intro i m hfuel
      rw [defragRuns]
      by_cases hlt : i < n
      · rw [if_pos hlt]
        by_cases hstay : i = ids i ∨ ids i = n
        · rw [if_pos hstay, ih (i + 1) m (by omega), show n - i = (n - (i + 1)) + 1 by omega,
            List.range'_succ, List.foldl_cons]
          congr 1
          unfold moveOne
          rw [if_pos (hstay.symm.imp_right Eq.symm)]
        · rw [if_neg hstay, List.foldl_cons]
          rw [not_or] at hstay
          obtain ⟨-, hend, hpos⟩ := @runLength_spec n ids i
          have hend := hend hlt
          obtain ⟨nm, hnm⟩ : ∃ nm, runLength n ids i = nm + 1 := ⟨runLength n ids i - 1, by omega⟩
          have hone := h.copy_run hsplit hlt hstay.2 (Ne.symm hstay.1) m nm (by omega)
          have hsplice : List.range' i (n - i) =
              List.range' i (nm + 1) ++ List.range' (i + (nm + 1)) (n - (i + (nm + 1))) := by
            rw [List.range'_append_1]
            congr 1
            omega
          rw [ih (i + runLength n ids i) _ (by omega), hnm, ← hone, ← List.foldl_append, ← hsplice]
      · rw [if_neg hlt, show n - i = 0 by omega]
        rfl

end

/-! ## Copies -/

theorem row_addr {width x j : Nat} (hj : j < width) :
    (x * width + j) / width = x ∧ (x * width + j) % width = j := by
  have hpos : 0 < width := by omega
  constructor
  · rw [Nat.add_comm, Nat.add_mul_div_right _ _ hpos, Nat.div_eq_of_lt hj, Nat.zero_add]
  · rw [Nat.add_comm, Nat.add_mul_mod_self_right, Nat.mod_eq_of_lt hj]

theorem copyRows_splits {E : Type} (n width : Nat) :
    SplitsRuns n fun r (mem : Nat → E) => copyRows width r.i r.id r.nm mem := by
  intro i id nm mem hlt hapart
  funext a
  dsimp only
  rcases Nat.eq_zero_or_pos width with rfl | hpos
  · simp [copyRows]
  · have haddr : ∀ x, (x * width + a % width) / width = x := fun x =>
      (row_addr (Nat.mod_lt a hpos)).1
    have hmod : ∀ x, (x * width + a % width) % width = a % width := fun x =>
      (row_addr (Nat.mod_lt a hpos)).2
    unfold copyRows
    by_cases hlast : id + nm ≤ a / width ∧ a / width < id + nm + 1
    · rw [if_pos (by omega), if_pos hlast, haddr, if_neg (by omega)]
      congr 3
      omega
    · rw [if_neg hlast]
      by_cases hin : id ≤ a / width ∧ a / width < id + nm
      · rw [if_pos hin, if_pos (by omega)]
      · rw [if_neg hin, if_neg (by omega)]

theorem copyColumns_splits {E : Type} {n stride : Nat} (width : Nat) (hn : n ≤ stride) :
    SplitsRuns n fun r (mem : Nat → E) => copyColumns stride width r.i r.id r.nm mem := by
  intro i id nm mem hlt hapart
  funext a
  dsimp only
  have hcol : i + nm < stride := by omega
  have haddr : (a / stride * stride + (i + nm)) / stride = a / stride ∧
      (a / stride * stride + (i + nm)) % stride = i + nm := row_addr hcol
  unfold copyColumns
  by_cases hwidth : a / stride < width
  · simp only [hwidth, and_true]
    by_cases hlast : id + nm ≤ a % stride ∧ a % stride < id + nm + 1
    · have hzero : a % stride - (id + nm) = 0 := by omega
      rw [if_pos (by omega), if_pos hlast, hzero, Nat.add_zero, haddr.1, haddr.2,
        if_neg (by omega)]
      congr 2
      omega
    · rw [if_neg hlast]
      by_cases hin : id ≤ a % stride ∧ a % stride < id + nm
      · rw [if_pos hin, if_pos (by omega)]
      · rw [if_neg hin, if_neg (by omega)]
  · simp [hwidth]

/-- One row after the copy of one row. -/
theorem copyRows_one {E : Type} {width i id x j : Nat} (mem : Nat → E) (hj : j < width) :
    copyRows width i id 1 mem (x * width + j) =
      if x = id then mem (i * width + j) else mem (x * width + j) := by
  unfold copyRows
  rw [(row_addr hj).1, (row_addr hj).2]
  by_cases hx : x = id
  · subst hx
    rw [if_pos (by omega), if_pos rfl, Nat.sub_self, Nat.add_zero]
  · rw [if_neg (by omega), if_neg hx]

/-- One column after the copy of one column. -/
theorem copyColumns_one {E : Type} {stride width i id x j : Nat} (mem : Nat → E) (hj : j < width)
    (hx : x < stride) :
    copyColumns stride width i id 1 mem (j * stride + x) =
      if x = id then mem (j * stride + i) else mem (j * stride + x) := by
  unfold copyColumns
  rw [(row_addr hx).1, (row_addr hx).2]
  by_cases heq : x = id
  · subst heq
    rw [if_pos (by omega), if_pos rfl, Nat.sub_self, Nat.add_zero]
  · rw [if_neg (by omega), if_neg heq]

end MzCache.Unified
