import MzCache.Kv.SplitRestore

/-!
# Two walks over the store regions

`mzcache_load_chunks_profile` walks the store regions once to allocate and once to read.
The two walks differ in the column at which they enter a layer. They visit the same
chunks exactly when these columns agree for every layer they enter: at the first layer
where they do not, one walk visits a chunk that the other never visits.
-/

namespace MzCache

open MzCache.Lib

/-- A walk of `k` chunks leaves layer `layer` behind: fewer are stored up to there, and every
layer entered on the way stores something. -/
def Crosses (bound : Nat → Nat) (n k : Nat) (cur : Cursor) (layer : Nat) : Prop :=
  (∀ i : Nat, cur.row < i → i ≤ layer → bound i < n) ∧
    (beyond bound (fun _ => n) (layer + 1) cur).length < k

section

variable {bound enter : Nat → Nat} {n numLayers k : Nat} {cur : Cursor}

/-! ## The chunks beyond a cursor -/

/-- Inside a layer the next chunk is the one above. -/
theorem beyond_sameRow {m : Nat} (hwf : cur.Wf bound (fun _ => n) numLayers)
    (hcol : cur.col + 1 < n) (hrow : cur.row < m) :
    (cur.row.toNat, (cur.col + 1).toNat) ∈ cells bound (fun _ => n) m ∧
      beyond bound (fun _ => n) m cur = (cur.row.toNat, (cur.col + 1).toNat) ::
        beyond bound (fun _ => n) m ⟨cur.row, cur.col + 1⟩ := by
  have hr := hwf.toNat_row
  obtain ⟨hon1, -⟩ := hwf.onRow cur.row.toNat hr
  have hmem : (cur.row.toNat, (cur.col + 1).toNat) ∈ cells bound (fun _ => n) m :=
    mem_cells.mpr ⟨by dsimp only; omega, by dsimp only; omega, by dsimp only; omega⟩
  have hat : (⟨cur.row, cur.col + 1⟩ : Cursor) = .at (cur.row.toNat, (cur.col + 1).toNat) := by
    unfold Cursor.at
    rw [Cursor.mk.injEq]
    exact ⟨by dsimp only; omega, by dsimp only; omega⟩
  refine ⟨hmem, ?_⟩
  rw [hat]
  refine beyond_eq_cons hmem (Or.inr ⟨hr.symm, by dsimp only; omega⟩) ?_
  intro c _ hb
  unfold Cursor.Before at hb
  unfold CellLt
  dsimp only at hb ⊢
  by_cases h1 : c.1 = cur.row.toNat
  · by_cases h2 : c.2 = (cur.col + 1).toNat
    · exact Or.inl (Prod.ext h1 h2)
    · exact Or.inr (Or.inr ⟨h1.symm, by omega⟩)
  · exact Or.inr (Or.inl (by omega))

/-- At the end of a layer the next chunk is the first one stored of the next layer. -/
theorem beyond_nextRow {m : Nat} (hnn : -1 ≤ cur.row) (hcol : cur.col + 1 = n)
    (hrow : cur.row + 1 < m) (hopen : bound (cur.row + 1).toNat < n) :
    ((cur.row + 1).toNat, bound (cur.row + 1).toNat) ∈ cells bound (fun _ => n) m ∧
      beyond bound (fun _ => n) m cur =
        ((cur.row + 1).toNat, bound (cur.row + 1).toNat) ::
          beyond bound (fun _ => n) m ⟨cur.row + 1, bound (cur.row + 1).toNat⟩ := by
  have hmem : ((cur.row + 1).toNat, bound (cur.row + 1).toNat) ∈ cells bound (fun _ => n) m :=
    mem_cells.mpr ⟨by dsimp only; omega, le_rfl, hopen⟩
  have hat : (⟨cur.row + 1, bound (cur.row + 1).toNat⟩ : Cursor) =
      .at ((cur.row + 1).toNat, bound (cur.row + 1).toNat) := by
    unfold Cursor.at
    rw [Cursor.mk.injEq]
    exact ⟨by dsimp only; omega, rfl⟩
  refine ⟨hmem, ?_⟩
  rw [hat]
  refine beyond_eq_cons hmem (Or.inl (by dsimp only; omega)) ?_
  intro c hc hb
  obtain ⟨-, hc2, hc3⟩ := mem_cells.mp hc
  unfold Cursor.Before at hb
  unfold CellLt
  dsimp only at hb ⊢
  by_cases h1 : c.1 = (cur.row + 1).toNat
  · rw [h1] at hc2
    by_cases h2 : c.2 = bound (cur.row + 1).toNat
    · exact Or.inl (Prod.ext h1 h2)
    · exact Or.inr (Or.inr ⟨h1.symm, by omega⟩)
  · exact Or.inr (Or.inl (by omega))

/-- Nothing of a layer lies beyond its end. -/
theorem beyond_rowEnd (hnn : 0 ≤ cur.row) (hcol : cur.col + 1 = n) :
    beyond bound (fun _ => n) (cur.row.toNat + 1) cur = [] := by
  rw [List.eq_nil_iff_forall_not_mem]
  intro c hc
  obtain ⟨hc, hb⟩ := mem_beyond.mp hc
  obtain ⟨h1, -, h3⟩ := mem_cells.mp hc
  unfold Cursor.Before at hb
  omega

/-- A step inside a layer keeps the cursor on the plan. -/
theorem sameRow_wf (hwf : cur.Wf bound (fun _ => n) numLayers) (hcol : cur.col + 1 < n) :
    (⟨cur.row, cur.col + 1⟩ : Cursor).Wf bound (fun _ => n) numLayers := by
  refine ⟨hwf.nonneg, hwf.lt, ?_⟩
  intro i hi
  obtain ⟨h1, -⟩ := hwf.onRow i hi
  dsimp only
  omega

/-- So does a step onto the next layer's first stored chunk. -/
theorem nextRow_wf (hnn : -1 ≤ cur.row) (hrow : cur.row + 1 < numLayers)
    (hopen : bound (cur.row + 1).toNat < n) :
    (⟨cur.row + 1, bound (cur.row + 1).toNat⟩ : Cursor).Wf bound (fun _ => n) numLayers := by
  refine ⟨by dsimp only; omega, hrow, ?_⟩
  intro i hi
  dsimp only at hi ⊢
  rw [← hi, Int.toNat_natCast] at hopen ⊢
  omega

/-! ## Layers left behind -/

theorem crosses_sameRow (hwf : cur.Wf bound (fun _ => n) numLayers) (hcol : cur.col + 1 < n)
    {layer : Nat} (hrow : cur.row ≤ layer) :
    Crosses bound n (k + 1) cur layer ↔ Crosses bound n k ⟨cur.row, cur.col + 1⟩ layer := by
  have hlen := (beyond_sameRow (m := layer + 1) hwf hcol (by omega)).2
  unfold Crosses
  rw [hlen, List.length_cons]
  exact and_congr_right fun _ => Nat.succ_lt_succ_iff

theorem crosses_rowEnd (hnn : 0 ≤ cur.row) (hcol : cur.col + 1 = n) :
    Crosses bound n (k + 1) cur cur.row.toNat := by
  refine ⟨fun i h1 h2 => ?_, ?_⟩
  · omega
  · rw [beyond_rowEnd hnn hcol]
    exact Nat.succ_pos k

theorem crosses_nextRow (hnn : 0 ≤ cur.row) (hcol : cur.col + 1 = n)
    (hopen : bound (cur.row + 1).toNat < n) {layer : Nat} (hrow : cur.row + 1 ≤ layer) :
    Crosses bound n (k + 1) cur layer ↔
      Crosses bound n k ⟨cur.row + 1, bound (cur.row + 1).toNat⟩ layer := by
  have hlen := (beyond_nextRow (m := layer + 1) (by omega) hcol (by omega) hopen).2
  unfold Crosses
  rw [hlen, List.length_cons, Nat.succ_lt_succ_iff]
  refine and_congr_left fun _ => ⟨?_, ?_⟩
  · intro h i h1 h2
    dsimp only at h1
    exact h i (by omega) h2
  · intro h i h1 h2
    by_cases hi : i = (cur.row + 1).toNat
    · rw [hi]
      exact hopen
    · exact h i (by dsimp only; omega) h2

/-! ## The walks -/

/-- Lists with one first chunk, before all others in both, have the same others. -/
theorem mem_tail_iff {e : Cell} {l l' : List Cell} (hl : ∀ x ∈ l, CellLt e x)
    (hl' : ∀ x ∈ l', CellLt e x) (h : ∀ x, x ∈ e :: l ↔ x ∈ e :: l') (x : Cell) :
    x ∈ l ↔ x ∈ l' := by
  have hx := h x
  rw [List.mem_cons, List.mem_cons] at hx
  constructor
  · intro hm
    rcases hx.mp (Or.inr hm) with rfl | h'
    · exact absurd (hl x hm) (CellLt.irrefl x)
    · exact h'
  · intro hm
    rcases hx.mpr (Or.inr hm) with rfl | h'
    · exact absurd (hl' x hm) (CellLt.irrefl x)
    · exact h'

/-- A walk only visits chunks after its cursor. -/
theorem storeWalk_before (k : Nat) : ∀ cur : Cursor, 0 ≤ cur.row → -1 ≤ cur.col →
    ∀ e ∈ (storeWalk numLayers n enter k cur).cells, cur.Before e := by
  induction k with
  | zero => intro cur _ _ e he; exact absurd he (by simp [storeWalk])
  | succ k ih =>
      intro cur hnn hcol e he
      rw [storeWalk] at he
      dsimp only at he
      split at he
      · split at he
        · exact absurd he (by simp)
        · rcases List.mem_cons.mp he with rfl | he
          · exact Or.inl (by dsimp only; omega)
          · have hb := ih _ (by dsimp only; omega) (by dsimp only; omega) e he
            unfold Cursor.Before at hb ⊢
            dsimp only at hb
            omega
      · rcases List.mem_cons.mp he with rfl | he
        · exact Or.inr ⟨by dsimp only; omega, by dsimp only; omega⟩
        · have hb := ih ⟨cur.row, cur.col + 1⟩ hnn (by dsimp only; omega) e he
          unfold Cursor.Before at hb ⊢
          dsimp only at hb
          omega

/-- Past the end of a layer that stores nothing a walk never enters another one. -/
theorem storeWalk_stuck (enter' : Nat → Nat) (k : Nat) : ∀ cur : Cursor, n ≤ cur.col →
    storeWalk numLayers n enter k cur = storeWalk numLayers n enter' k cur ∧
      (storeWalk numLayers n enter k cur).overrun = false := by
  induction k with
  | zero => intro cur _; exact ⟨rfl, rfl⟩
  | succ k ih =>
      intro cur hcol
      obtain ⟨h1, h2⟩ := ih ⟨cur.row, cur.col + 1⟩ (by dsimp only; omega)
      rw [storeWalk, storeWalk]
      dsimp only
      rw [if_neg (by omega), if_neg (by omega), ← h1]
      exact ⟨rfl, h2⟩

section

variable (hle : ∀ i, bound i ≤ n)
include hle

/-- As long as it is asked for no more than is stored, a walk does not overrun. -/
theorem storeWalk_within (k : Nat) : ∀ cur : Cursor, cur.Wf bound (fun _ => n) numLayers →
    k ≤ (beyond bound (fun _ => n) numLayers cur).length →
    (storeWalk numLayers n bound k cur).overrun = false := by
  induction k with
  | zero => intro cur _ _; rfl
  | succ k ih =>
      intro cur hwf hk
      have hnn := hwf.nonneg
      have hlt := hwf.lt
      obtain ⟨-, hon⟩ := hwf.onRow cur.row.toNat hwf.toNat_row
      dsimp only at hon
      rw [storeWalk]
      dsimp only
      by_cases hcol : cur.col + 1 = n
      · rw [if_pos hcol]
        by_cases hrow : cur.row + 1 ≥ numLayers
        · have hnil := @beyond_rowEnd bound n cur hnn hcol
          rw [show cur.row.toNat + 1 = numLayers by omega] at hnil
          rw [hnil] at hk
          exact absurd hk (by simp)
        · rw [if_neg hrow]
          by_cases hopen : bound (cur.row + 1).toNat < n
          · obtain ⟨hmem, hcons⟩ := beyond_nextRow (m := numLayers) (by omega) hcol (by omega) hopen
            rw [hcons, List.length_cons] at hk
            exact ih _ (nextRow_wf (by omega) (by omega) hopen) (by omega)
          · have := hle (cur.row + 1).toNat
            exact (storeWalk_stuck bound k _ (by dsimp only; omega)).2
      · rw [if_neg hcol]
        obtain ⟨hmem, hcons⟩ := beyond_sameRow (m := numLayers) hwf (by omega) hlt
        rw [hcons, List.length_cons] at hk
        exact ih _ (sameRow_wf hwf (by omega)) (by omega)

/-- Two walks are one walk when they enter every layer they pass into at the same chunk. -/
theorem storeWalk_congr (k : Nat) : ∀ cur : Cursor, cur.Wf bound (fun _ => n) numLayers →
    (∀ layer : Nat, cur.row ≤ layer → layer + 1 < numLayers → Crosses bound n k cur layer →
      enter (layer + 1) = bound (layer + 1)) →
    storeWalk numLayers n enter k cur = storeWalk numLayers n bound k cur := by
  induction k with
  | zero => intro cur _ _; rfl
  | succ k ih =>
      intro cur hwf hent
      have hnn := hwf.nonneg
      have hlt := hwf.lt
      obtain ⟨hon1, hon⟩ := hwf.onRow cur.row.toNat hwf.toNat_row
      dsimp only at hon
      rw [storeWalk, storeWalk]
      dsimp only
      by_cases hcol : cur.col + 1 = n
      · rw [if_pos hcol, if_pos hcol]
        by_cases hrow : cur.row + 1 ≥ numLayers
        · rw [if_pos hrow, if_pos hrow]
        · rw [if_neg hrow, if_neg hrow]
          have hnext : (cur.row + 1).toNat = cur.row.toNat + 1 := by omega
          have heq : enter (cur.row + 1).toNat = bound (cur.row + 1).toNat := by
            rw [hnext]
            exact hent _ (by omega) (by omega) (crosses_rowEnd hnn hcol)
          have hrest : storeWalk numLayers n enter k
                ⟨cur.row + 1, bound (cur.row + 1).toNat⟩ =
              storeWalk numLayers n bound k ⟨cur.row + 1, bound (cur.row + 1).toNat⟩ := by
            by_cases hopen : bound (cur.row + 1).toNat < n
            · refine ih _ (nextRow_wf (by omega) (by omega) hopen) ?_
              intro layer hrow' hlayer hcross
              refine hent layer (by dsimp only at hrow'; omega) hlayer ?_
              exact (crosses_nextRow hnn hcol hopen hrow').mpr hcross
            · have := hle (cur.row + 1).toNat
              exact (storeWalk_stuck bound k _ (by dsimp only; omega)).1
          rw [heq, hrest]
      · rw [if_neg hcol, if_neg hcol]
        have hrest := ih ⟨cur.row, cur.col + 1⟩ (sameRow_wf hwf (by omega)) ?_
        · rw [hrest]
        · intro layer hrow' hlayer hcross
          exact hent layer hrow' hlayer ((crosses_sameRow hwf (by omega) hrow').mpr hcross)

end

/-- Conversely, walks that visit the same chunks enter those layers at the same chunk: at
the first layer where they do not, one visits a chunk before all that the other visits. -/
theorem storeWalk_enter (k : Nat) : ∀ cur : Cursor, cur.Wf bound (fun _ => n) numLayers →
    (∀ e, e ∈ (storeWalk numLayers n enter k cur).cells ↔
      e ∈ (storeWalk numLayers n bound k cur).cells) →
    ∀ layer : Nat, cur.row ≤ layer → layer + 1 < numLayers → Crosses bound n k cur layer →
      enter (layer + 1) = bound (layer + 1) := by
  induction k with
  | zero => intro cur _ _ layer _ _ hcross; exact absurd hcross.2 (Nat.not_lt_zero _)
  | succ k ih =>
      intro cur hwf hsame layer hlayer hlast hcross
      have hnn := hwf.nonneg
      obtain ⟨hon1, hon⟩ := hwf.onRow cur.row.toNat hwf.toNat_row
      dsimp only at hon
      rw [storeWalk, storeWalk] at hsame
      dsimp only at hsame
      by_cases hcol : cur.col + 1 = n
      · rw [if_pos hcol, if_pos hcol, if_neg (by omega), if_neg (by omega)] at hsame
        have hfirst : ∀ f : Nat → Nat, ∀ e ∈ (storeWalk numLayers n f k
            ⟨cur.row + 1, f (cur.row + 1).toNat⟩).cells,
            CellLt ((cur.row + 1).toNat, f (cur.row + 1).toNat) e := by
          intro f e he
          have hb := storeWalk_before k ⟨cur.row + 1, f (cur.row + 1).toNat⟩
            (by dsimp only; omega) (by dsimp only; omega) e he
          unfold Cursor.Before at hb
          unfold CellLt
          dsimp only at hb ⊢
          omega
        have heq : enter (cur.row + 1).toNat = bound (cur.row + 1).toNat := by
          rcases List.mem_cons.mp ((hsame _).mp List.mem_cons_self) with h | h
          · exact congrArg Prod.snd h
          · have h' := hfirst bound _ h
            rcases List.mem_cons.mp ((hsame _).mpr List.mem_cons_self) with g | g
            · exact (congrArg Prod.snd g).symm
            · exact absurd (hfirst enter _ g) h'.asymm
        by_cases hhere : layer = cur.row.toNat
        · rw [hhere, show cur.row.toNat + 1 = (cur.row + 1).toNat by omega]
          exact heq
        · have hopen : bound (cur.row + 1).toNat < n :=
            hcross.1 _ (by omega) (by omega)
          refine ih ⟨cur.row + 1, bound (cur.row + 1).toNat⟩
            (nextRow_wf (by omega) (by omega) hopen) ?_ layer (by dsimp only; omega) hlast
            ((crosses_nextRow hnn hcol hopen (by omega)).mp hcross)
          rw [heq] at hsame
          have hfirst' := hfirst enter
          rw [heq] at hfirst'
          exact mem_tail_iff hfirst' (hfirst bound) hsame
      · rw [if_neg hcol, if_neg hcol] at hsame
        have hfirst : ∀ f : Nat → Nat, ∀ e ∈ (storeWalk numLayers n f k
            ⟨cur.row, cur.col + 1⟩).cells,
            CellLt (cur.row.toNat, (cur.col + 1).toNat) e := by
          intro f e he
          have hb := storeWalk_before k ⟨cur.row, cur.col + 1⟩ hnn
            (by dsimp only; omega) e he
          unfold Cursor.Before at hb
          unfold CellLt
          dsimp only at hb ⊢
          omega
        refine ih ⟨cur.row, cur.col + 1⟩ (sameRow_wf hwf (by omega)) ?_ layer hlayer hlast
          ((crosses_sameRow hwf (by omega) hlayer).mp hcross)
        exact mem_tail_iff (hfirst enter) (hfirst bound) hsame

end

end MzCache
