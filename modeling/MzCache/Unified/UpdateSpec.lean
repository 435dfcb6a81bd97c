import MzCache.Unified.UpdateMoves

/-!
# What an update leaves

After the moves and their copies every cell in use holds, in the cells and in all tensors,
what one cell held before. A K-shift turns the rows of the cells to the positions that
they record.
-/

namespace MzCache.Unified

open MzCache MzCache.Lib

/-! ## The sources of the cells -/

/-- Where the contents of the cells come from, after the moves of the cells below `m`. -/
def sources (n : Nat) (ids : Nat → Nat) (m : Nat) : Nat → Nat :=
  (List.range m).foldl (moveOne (fun r src => Function.update src r.id (src r.i)) n ids) id

section

variable {n m b : Nat} {ids : Nat → Nat}

theorem sources_succ : sources n ids (m + 1) = if ids m = n ∨ ids m = m then sources n ids m
    else Function.update (sources n ids m) (ids m) (sources n ids m m) := by
  unfold sources
  rw [List.range_succ, List.foldl_append, List.foldl_cons, List.foldl_nil]
  rfl

theorem sources_lt (hm : m ≤ b) : ∀ x < b, sources n ids m x < b := by
  induction m with
  | zero => exact fun x hx => hx
  | succ m ih =>
      intro x hx
      rw [sources_succ]
      split
      · exact ih (by omega) x hx
      · by_cases heq : x = ids m
        · rw [heq, Function.update_self]
          exact ih (by omega) m (by omega)
        · rw [Function.update_of_ne heq]
          exact ih (by omega) x hx

/-- Single copies carry what is read of a cell. -/
theorem read_moves {M R : Type} (copy : MoveRun → M → M) (read : M → Nat → R)
    (hread : ∀ i id mem, ∀ x < b, read (copy ⟨i, id, 1⟩ mem) x =
      if x = id then read mem i else read mem x) (mem : M) (hm : m ≤ b) :
    ∀ x < b, read ((List.range m).foldl (moveOne copy n ids) mem) x =
      read mem (sources n ids m x) := by
  induction m with
  | zero => exact fun _ _ => rfl
  | succ m ih =>
      intro x hx
      rw [List.range_succ, List.foldl_append, List.foldl_cons, List.foldl_nil, sources_succ]
      unfold moveOne
      split
      · exact ih (by omega) x hx
      · rw [hread _ _ _ x hx]
        by_cases heq : x = ids m
        · rw [if_pos heq, heq, Function.update_self]
          exact ih (by omega) m (by omega)
        · rw [if_neg heq, Function.update_of_ne heq]
          exact ih (by omega) x hx

end

/-! ## The moves of the cells -/

section

variable {c : ShiftedCells} {n : Nat} {ids : Nat → Nat}

theorem Cells.mv_pos (c : Cells) (isrc idst x : Nat) : (c.mv isrc idst).pos x =
    if x = isrc then -1 else if x = idst then c.pos isrc else c.pos x := by
  show Function.update (Function.update c.pos idst (c.pos isrc)) isrc (-1) x = _
  rw [Function.update_apply, Function.update_apply]

theorem Cells.mv_seq (c : Cells) (isrc idst x : Nat) : (c.mv isrc idst).seq x =
    if x = isrc then ∅ else if x = idst then c.seq isrc else c.seq x := by
  show Function.update (Function.update c.seq idst (c.seq isrc)) isrc ∅ x = _
  rw [Function.update_apply, Function.update_apply]

/-- The cell in use at `x` is the one that was at `src`. -/
structure ShiftedCells.From (c₀ c : ShiftedCells) (x src : Nat) : Prop where
  used : c₀.cells.pos src ≠ -1
  cell : c.cells.cell x = c₀.cells.cell src
  shift : c.shift x = c₀.shift src

/-- One move keeps the later ones possible and carries the cells. -/
theorem moveShifted_carries {c₀ : ShiftedCells} {m : Nat}
    (hinj : ∀ i j, ids i ≠ n → ids i ≠ i → ids j ≠ n → ids j ≠ j → ids i = ids j → i = j)
    (hm : c.cells.Movable n ids m)
    (hfrom : ∀ x, c.cells.pos x ≠ -1 → c₀.From c x (sources n ids m x)) :
    (moveShifted n ids c m).cells.Movable n ids (m + 1) ∧
      ∀ x, (moveShifted n ids c m).cells.pos x ≠ -1 →
        c₀.From (moveShifted n ids c m) x (sources n ids (m + 1) x) := by
  unfold moveShifted
  rw [sources_succ]
  by_cases hstay : ids m = n ∨ ids m = m
  · rw [if_pos hstay, if_pos hstay]
    exact ⟨⟨fun i hi => hm.source i (by omega), fun i hi => hm.target i (by omega)⟩, hfrom⟩
  · rw [if_neg hstay, if_neg hstay]
    rw [not_or] at hstay
    have hsrc := hm.source m le_rfl hstay.1 hstay.2
    obtain ⟨hdst, hlt⟩ := hm.target m le_rfl hstay.1 hstay.2
    have hpos : ∀ x, (c.mv m (ids m)).cells.pos x =
        if x = m then -1 else if x = ids m then c.cells.pos m else c.cells.pos x :=
      fun x => c.cells.mv_pos m (ids m) x
    refine ⟨⟨fun i hi h1 h2 => ?_, fun i hi h1 h2 => ?_⟩, fun x hx => ?_⟩
    · have hused := hm.source i (by omega) h1 h2
      have hne : i ≠ ids m := fun heq => hused (heq ▸ hdst)
      rw [hpos, if_neg (by omega), if_neg hne]
      exact hused
    · obtain ⟨hfree, hlt'⟩ := hm.target i (by omega) h1 h2
      have hne : ids i ≠ ids m := fun heq => by
        have := hinj i m h1 h2 hstay.1 hstay.2 heq
        omega
      refine ⟨?_, hlt'⟩
      rw [hpos, if_neg hne]
      split
      · rfl
      · exact hfree
    · rw [hpos] at hx
      have hxm : x ≠ m := fun heq => hx (if_pos heq)
      rw [if_neg hxm] at hx
      -- the target has what the source had
      have hshift : (c.mv m (ids m)).shift x =
          if x = ids m then c.shift m else c.shift x := by
        show Function.update (Function.update c.shift (ids m) (c.shift m)) m 0 x = _
        rw [Function.update_of_ne hxm, Function.update_apply]
      have hcell : (c.mv m (ids m)).cells.cell x =
          if x = ids m then c.cells.cell m else c.cells.cell x := by
        show ((c.cells.mv m (ids m)).pos x, (c.cells.mv m (ids m)).seq x) = _
        rw [Cells.mv_pos, Cells.mv_seq, if_neg hxm, if_neg hxm]
        split <;> rfl
      by_cases heq : x = ids m
      · have hold := hfrom m hsrc
        rw [heq, Function.update_self]
        rw [if_pos heq, heq] at hshift hcell
        exact ⟨hold.used, hcell.trans hold.cell, hshift.trans hold.shift⟩
      · have hold := hfrom x (by rwa [if_neg heq] at hx)
        rw [Function.update_of_ne heq]
        rw [if_neg heq] at hshift hcell
        exact ⟨hold.used, hcell.trans hold.cell, hshift.trans hold.shift⟩

theorem moves_carry (h : c.cells.PlanOk n ids) (m : Nat) :
    ((List.range m).foldl (moveShifted n ids) c).cells.Movable n ids m ∧
      ∀ x, ((List.range m).foldl (moveShifted n ids) c).cells.pos x ≠ -1 →
        c.From ((List.range m).foldl (moveShifted n ids) c) x (sources n ids m x) := by
  induction m with
  | zero => exact ⟨h.movable, fun x hx => ⟨hx, rfl, rfl⟩⟩
  | succ m ih =>
      rw [List.range_succ, List.foldl_append, List.foldl_cons, List.foldl_nil]
      exact moveShifted_carries h.inj ih.1 ih.2

/-- No cell comes to lie beyond the last. -/
theorem moves_beyond (h : c.cells.PlanOk n ids) (htidy : c.cells.Tidy) (m : Nat) :
    ∀ x, c.cells.size ≤ x → ((List.range m).foldl (moveShifted n ids) c).cells.pos x = -1 := by
  induction m with
  | zero => exact htidy.beyond
  | succ m ih =>
      intro x hx
      rw [List.range_succ, List.foldl_append, List.foldl_cons, List.foldl_nil, moveShifted]
      split
      · exact ih x hx
      · rename_i hstay
        rw [not_or] at hstay
        have htarget := (h.movable.target m (Nat.zero_le m) hstay.1 hstay.2).2
        show (Cells.mv _ m (ids m)).pos x = -1
        rw [Cells.mv_pos, if_neg (by omega : x ≠ ids m), ih x hx, ite_self]

theorem moveShifted_cells (c : ShiftedCells) (i : Nat) :
    (moveShifted n ids c i).cells = moveCell n ids c.cells i := by
  unfold moveShifted moveCell
  split <;> rfl

theorem moves_cells (is : List Nat) : ∀ c : ShiftedCells,
    (is.foldl (moveShifted n ids) c).cells = is.foldl (moveCell n ids) c.cells := by
  induction is with
  | nil => exact fun _ => rfl
  | cons i is ih =>
      intro c
      rw [List.foldl_cons, List.foldl_cons, ih, moveShifted_cells]

theorem moves_size (is : List Nat) : ∀ c : ShiftedCells,
    (is.foldl (moveShifted n ids) c).cells.size = c.cells.size := by
  induction is with
  | nil => exact fun _ => rfl
  | cons i is ih =>
      intro c
      rw [List.foldl_cons, ih]
      unfold moveShifted
      split <;> rfl

end

/-! ## The plan of `defrag_prepare` -/

theorem getUsed_le_usedMaxP1 (c : Cells) : c.getUsed ≤ c.usedMaxP1 := by
  have hsub : c.used ⊆ Finset.range c.usedMaxP1 := by
    intro i hi
    have : i + 1 ≤ c.usedMaxP1 := Finset.le_sup (f := (· + 1)) hi
    exact Finset.mem_range.mpr (by omega)
  have hcard := Finset.card_le_card hsub
  rwa [Finset.card_range] at hcard

theorem planOk_of_sound {c : Cells} {plan : DefragPlan} (h : c.UsedExact)
    (hsound : plan.Sound c c.usedMaxP1 c.getUsed) : c.PlanOk c.usedMaxP1 plan.ids := by
  refine ⟨⟨fun i _ h1 h2 => hsound.source i ⟨h1, h2⟩, fun i _ h1 h2 =>
    ⟨(hsound.target i ⟨h1, h2⟩).1, lt_of_lt_of_le (hsound.target i ⟨h1, h2⟩).2 h.getUsed_le⟩⟩,
    fun i j h1 h2 h3 h4 heq => hsound.inj i j ⟨h1, h2⟩ ⟨h3, h4⟩ heq, fun i h1 h2 => ?_,
    h.usedMaxP1_le⟩
  -- the last cell in use lies behind every target
  obtain ⟨hfree, htarget⟩ := hsound.target i ⟨h1, h2⟩
  have hle := getUsed_le_usedMaxP1 c
  have hused : c.used.Nonempty := Finset.card_pos.mp (Nat.zero_lt_of_lt htarget)
  obtain ⟨u, hu, hlast⟩ := Finset.exists_mem_eq_sup c.used hused (· + 1)
  have hlast' : c.usedMaxP1 = u + 1 := hlast
  have hne : plan.ids i ≠ u := fun heq => ((h u).mp hu).2 (heq ▸ hfree)
  omega

/-- A plan that nothing is planned in yet. -/
theorem defragStart_sound (c : Cells) (nKv : Nat) :
    DefragPlan.Sound c nKv 0 ⟨fun _ => nKv, 0⟩ :=
  ⟨fun _ hm => absurd rfl hm.1, fun _ hm => absurd rfl hm.1, fun _ _ hm => absurd rfl hm.1⟩

theorem planOk_of_defragPrepare {sh : Shape} {nMaxNodes n : Nat} {ids : Nat → Nat} {c : Cells}
    (h : c.UsedExact) (hplan : c.defragPrepare sh nMaxNodes = some (n, ids)) (hn : n ≠ 0) :
    c.PlanOk n ids := by
  unfold Cells.defragPrepare at hplan
  obtain ⟨plan, hfrom, heq⟩ := Option.map_eq_some_iff.mp hplan
  split at heq
  · cases heq
    exact absurd rfl hn
  · cases heq
    exact planOk_of_sound h
      (defragFrom_sound _ 0 _ plan (Nat.zero_le _) (defragStart_sound c _) hfrom)

end MzCache.Unified
