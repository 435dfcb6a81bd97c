import Mathlib

/-!
# Walking a table of regions with one cursor

A table has `n` rows, and row `i` owns the columns `lo i ≤ c < hi i`. One
cursor `(row, col)` stands for a set of cells without storing it: everything
strictly after the cursor in row-major order (`beyond`). The two facts every
client uses are

* `beyond_eq_cons` — when no cell lies between the cursor and `e`, the cells
  beyond the cursor are `e` followed by the cells beyond `e`, so a walk that
  moves the cursor onto `e` consumes exactly `e`;
* `beyond_congr` — moving the cursor through a stretch that holds no cell
  changes nothing.

`rowBeyond` counts the cells beyond the cursor row by row, and `length_beyond`
says that these counts add up.
-/

namespace MzCache.Lib

/-- A cell of the table: row and column. -/
abbrev Cell := Nat × Nat

instance : LawfulBEq Cell := inferInstance

/-- A cursor. Both components may stand one before the first index. -/
structure Cursor where
  row : Int
  col : Int
deriving DecidableEq, Repr

/-- Row-major order on cells. -/
def CellLt (a b : Cell) : Prop := a.1 < b.1 ∨ (a.1 = b.1 ∧ a.2 < b.2)

/-- The cell lies strictly after the cursor. -/
def Cursor.Before (cur : Cursor) (c : Cell) : Prop :=
  cur.row < c.1 ∨ (cur.row = c.1 ∧ cur.col < c.2)

instance (cur : Cursor) (c : Cell) : Decidable (cur.Before c) :=
  inferInstanceAs (Decidable (_ ∨ _))

/-- The cursor standing on a cell. -/
def Cursor.at (c : Cell) : Cursor := ⟨c.1, c.2⟩

theorem Cursor.at_before (a b : Cell) : (Cursor.at a).Before b ↔ CellLt a b := by
  unfold Cursor.at Cursor.Before CellLt
  constructor <;> intro h <;> simp only at h ⊢ <;> omega

theorem CellLt.irrefl (a : Cell) : ¬ CellLt a a := by
  unfold CellLt
  omega

theorem CellLt.asymm {a b : Cell} (h : CellLt a b) : ¬ CellLt b a := by
  unfold CellLt at *
  omega

theorem Cursor.Before.trans {cur : Cursor} {a b : Cell} (h : cur.Before a)
    (hab : CellLt a b) : cur.Before b := by
  unfold Cursor.Before CellLt at *
  omega

/-- One row of the table. -/
def rowCells (lo hi : Nat → Nat) (i : Nat) : List Cell :=
  (List.range' (lo i) (hi i - lo i)).map (Prod.mk i)

/-- All cells of the first `n` rows, in row-major order. -/
def cells (lo hi : Nat → Nat) (n : Nat) : List Cell :=
  (List.range n).flatMap (rowCells lo hi)

/-- The cells strictly after the cursor. -/
def beyond (lo hi : Nat → Nat) (n : Nat) (cur : Cursor) : List Cell :=
  (cells lo hi n).filter (fun c => decide (cur.Before c))

section

variable {lo hi : Nat → Nat} {n : Nat} {cur : Cursor}

theorem mem_rowCells {i : Nat} {c : Cell} :
    c ∈ rowCells lo hi i ↔ c.1 = i ∧ lo i ≤ c.2 ∧ c.2 < hi i := by
  obtain ⟨r, k⟩ := c
  simp only [rowCells, List.mem_map, List.mem_range'_1, Prod.mk.injEq]
  constructor
  · rintro ⟨a, ha, rfl, rfl⟩
    exact ⟨rfl, by omega, by omega⟩
  · rintro ⟨rfl, h1, h2⟩
    exact ⟨k, by omega, rfl, rfl⟩

theorem mem_cells {c : Cell} :
    c ∈ cells lo hi n ↔ c.1 < n ∧ lo c.1 ≤ c.2 ∧ c.2 < hi c.1 := by
  simp only [cells, List.mem_flatMap, List.mem_range, mem_rowCells]
  constructor
  · rintro ⟨i, hi', rfl, h⟩
    exact ⟨hi', h⟩
  · rintro ⟨h, h'⟩
    exact ⟨c.1, h, rfl, h'⟩

theorem mem_beyond {c : Cell} :
    c ∈ beyond lo hi n cur ↔ c ∈ cells lo hi n ∧ cur.Before c := by
  simp [beyond, List.mem_filter]

theorem cells_sorted : (cells lo hi n).Pairwise CellLt := by
  unfold cells
  rw [List.pairwise_flatMap]
  refine ⟨?_, ?_⟩
  · intro i _
    unfold rowCells
    rw [List.pairwise_map]
    refine List.Pairwise.imp ?_ (List.pairwise_lt_range' (s := lo i) (n := hi i - lo i))
    intro a b hab
    exact Or.inr ⟨rfl, hab⟩
  · refine List.Pairwise.imp ?_ (List.pairwise_lt_range (n := n))
    intro i j hij a ha b hb
    rw [mem_rowCells] at ha hb
    exact Or.inl (by omega)

theorem beyond_sorted : (beyond lo hi n cur).Pairwise CellLt :=
  cells_sorted.filter _

theorem nodup_of_sorted {l : List Cell} (h : l.Pairwise CellLt) : l.Nodup := by
  refine h.imp ?_
  intro a b hab heq
  subst heq
  exact CellLt.irrefl a hab

/-- Sorted lists with the same cells are equal. -/
theorem eq_of_sorted {l l' : List Cell} (h : l.Pairwise CellLt)
    (h' : l'.Pairwise CellLt) (hmem : ∀ c, c ∈ l ↔ c ∈ l') : l = l' := by
  have hperm : l.Perm l' :=
    (List.perm_ext_iff_of_nodup (nodup_of_sorted h) (nodup_of_sorted h')).mpr hmem
  exact hperm.eq_of_pairwise (fun a b _ _ hab hba => absurd hba hab.asymm) h h'

theorem beyond_congr {cur' : Cursor}
    (h : ∀ c ∈ cells lo hi n, cur.Before c ↔ cur'.Before c) :
    beyond lo hi n cur = beyond lo hi n cur' := by
  unfold beyond
  apply List.filter_congr
  intro c hc
  simpa using h c hc

/-- The walk consumes the first cell after the cursor. -/
theorem beyond_eq_cons {e : Cell} (he : e ∈ cells lo hi n) (hcur : cur.Before e)
    (hfirst : ∀ c ∈ cells lo hi n, cur.Before c → c = e ∨ CellLt e c) :
    beyond lo hi n cur = e :: beyond lo hi n (.at e) := by
  apply eq_of_sorted beyond_sorted
  · refine List.Pairwise.cons ?_ beyond_sorted
    intro c hc
    exact (Cursor.at_before e c).mp (mem_beyond.mp hc).2
  · intro c
    rw [List.mem_cons, mem_beyond, mem_beyond, Cursor.at_before]
    constructor
    · rintro ⟨hc, hb⟩
      rcases hfirst c hc hb with rfl | hlt
      · exact Or.inl rfl
      · exact Or.inr ⟨hc, hlt⟩
    · rintro (rfl | ⟨hc, hlt⟩)
      · exact ⟨he, hcur⟩
      · exact ⟨hc, hcur.trans hlt⟩

/-- How many cells of row `i` lie beyond the cursor, from the cursor alone. -/
def rowBeyond (lo hi : Nat → Nat) (cur : Cursor) (i : Nat) : Int :=
  if (i : Int) < cur.row then 0
  else if (i : Int) = cur.row then hi i - (cur.col + 1)
  else hi i - lo i

/-- The cursor column lies on the row's region or one before it. -/
def Cursor.OnRow (lo hi : Nat → Nat) (cur : Cursor) : Prop :=
  ∀ i : Nat, (i : Int) = cur.row → (lo i : Int) - 1 ≤ cur.col ∧ cur.col < hi i

theorem length_filter_range' (a m : Nat) (k : Int) (h1 : (a : Int) - 1 ≤ k)
    (h2 : k < a + m) :
    (((List.range' a m).filter (fun c : Nat => decide (k < (c : Int)))).length : Int) =
      a + m - (k + 1) := by
  induction m generalizing a with
  | zero => simp at h2 ⊢; omega
  | succ m ih =>
      rw [List.range'_succ]
      by_cases hk : k < (a : Int)
      · have hall : (List.range' (a + 1) m).filter (fun c : Nat => decide (k < (c : Int))) =
            List.range' (a + 1) m := by
          rw [List.filter_eq_self]
          intro c hc
          rw [List.mem_range'_1] at hc
          simp only [decide_eq_true_eq]
          omega
        rw [List.filter_cons_of_pos (by simpa using hk), hall]
        simp only [List.length_cons, List.length_range']
        omega
      · rw [List.filter_cons_of_neg (by simpa using hk)]
        have := ih (a + 1) (by omega) (by omega)
        omega

/-- One row's share of the cells beyond the cursor. -/
theorem length_rowCells_filter (hle : ∀ i, lo i ≤ hi i) (hcur : cur.OnRow lo hi) (i : Nat) :
    (((rowCells lo hi i).filter (fun c => decide (cur.Before c))).length : Int) =
      rowBeyond lo hi cur i := by
  have hrow : (rowCells lo hi i).filter (fun c => decide (cur.Before c)) =
      ((List.range' (lo i) (hi i - lo i)).filter
        (fun c => decide (cur.Before (i, c)))).map (Prod.mk i) := by
    unfold rowCells
    rw [List.filter_map]
    rfl
  rw [hrow, List.length_map]
  unfold rowBeyond
  have hli := hle i
  split
  · -- rows before the cursor hold nothing beyond it
    rename_i hlt
    have hnil : (List.range' (lo i) (hi i - lo i)).filter
        (fun c => decide (cur.Before (i, c))) = [] := by
      rw [List.filter_eq_nil_iff]
      intro c _ hb
      rcases of_decide_eq_true hb with h | ⟨h, _⟩ <;> simp only at h <;> omega
    rw [hnil]
    rfl
  · split
    · rename_i heq
      obtain ⟨h1, h2⟩ := hcur i heq
      have hcongr : (List.range' (lo i) (hi i - lo i)).filter
          (fun c => decide (cur.Before (i, c))) =
          (List.range' (lo i) (hi i - lo i)).filter (fun c : Nat => decide (cur.col < (c : Int))) := by
        apply List.filter_congr
        intro c _
        rw [decide_eq_decide]
        unfold Cursor.Before
        simp only
        omega
      rw [hcongr, length_filter_range' _ _ _ h1 (by omega)]
      omega
    · have hall : (List.range' (lo i) (hi i - lo i)).filter
          (fun c => decide (cur.Before (i, c))) = List.range' (lo i) (hi i - lo i) := by
        rw [List.filter_eq_self]
        intro c _
        refine decide_eq_true (Or.inl ?_)
        simp only
        omega
      rw [hall, List.length_range']
      omega

/-- The row counts add up to the number of cells beyond the cursor. -/
theorem length_beyond (hle : ∀ i, lo i ≤ hi i) (hcur : cur.OnRow lo hi) :
    ((beyond lo hi n cur).length : Int) =
      ((List.range n).map (rowBeyond lo hi cur)).sum := by
  unfold beyond cells
  induction n with
  | zero => rfl
  | succ n ih =>
      rw [List.range_succ, List.flatMap_append, List.filter_append, List.length_append,
        List.map_append, List.sum_append, ← ih]
      simp only [List.flatMap_cons, List.flatMap_nil, List.append_nil, List.map_cons,
        List.map_nil, List.sum_cons, List.sum_nil, Nat.cast_add, add_zero]
      rw [length_rowCells_filter hle hcur]

/-- The cells of one row beyond the cursor. -/
theorem count_beyond_row (hle : ∀ i, lo i ≤ hi i) (hcur : cur.OnRow lo hi) (i : Nat) :
    ((beyond lo hi n cur).countP (fun c => c.1 = i) : Int) =
      if i < n then rowBeyond lo hi cur i else 0 := by
  unfold beyond cells
  induction n with
  | zero => rfl
  | succ n ih =>
      have hrow : ∀ c ∈ (rowCells lo hi n).filter (fun c => decide (cur.Before c)), c.1 = n := by
        intro c hc
        obtain ⟨j, -, rfl⟩ := List.mem_map.mp (List.mem_filter.mp hc).1
        rfl
      rw [List.range_succ, List.flatMap_append, List.filter_append, List.countP_append,
        Nat.cast_add, ih]
      simp only [List.flatMap_cons, List.flatMap_nil, List.append_nil]
      by_cases hin : i = n
      · subst hin
        rw [List.countP_eq_length.mpr fun c hc => decide_eq_true (hrow c hc),
          length_rowCells_filter hle hcur, if_neg (lt_irrefl i), if_pos (Nat.lt_succ_self i),
          zero_add]
      · have hzero : ((rowCells lo hi n).filter (fun c => decide (cur.Before c))).countP
            (fun c => c.1 = i) = 0 :=
          List.countP_eq_zero.mpr fun c hc => by
            rw [decide_eq_true_eq, hrow c hc]
            exact fun h => hin h.symm
        rw [hzero]
        by_cases hlt : i < n
        · rw [if_pos hlt, if_pos (by omega)]
          simp
        · rw [if_neg hlt, if_neg (by omega)]
          rfl

/-- Every cell lies beyond a cursor before the first row. -/
theorem beyond_outside {col : Int} : beyond lo hi n ⟨-1, col⟩ = cells lo hi n := by
  unfold beyond
  rw [List.filter_eq_self]
  intro c _
  exact decide_eq_true (Or.inl (by simp only; omega))

/-- The number of cells, row by row. -/
theorem length_cells (hle : ∀ i, lo i ≤ hi i) :
    ((cells lo hi n).length : Int) =
      ((List.range n).map fun i => (hi i : Int) - lo i).sum := by
  have hall : beyond lo hi n ⟨-1, 0⟩ = cells lo hi n := beyond_outside
  have hon : (⟨-1, 0⟩ : Cursor).OnRow lo hi := by
    intro i hrow
    simp only at hrow
    omega
  have hrow : rowBeyond lo hi ⟨-1, 0⟩ = fun i => (hi i : Int) - lo i := by
    funext i
    unfold rowBeyond
    rw [if_neg (by simp only; omega), if_neg (by simp only; omega)]
  rw [← hall, length_beyond hle hon, hrow]

/-! ## Moving down: skip exhausted rows, then step onto the next cell -/

/-- While the cursor stands before its row's region, move to the row above;
`last` gives the column taken there. `fuel` bounds the rows left. -/
def skipDown (lo : Nat → Nat) (last : Int → Int → Int) : Nat → Cursor → Cursor
  | 0, cur => cur
  | fuel + 1, cur =>
      if 0 ≤ cur.row ∧ cur.col < lo cur.row.toNat then
        skipDown lo last fuel ⟨cur.row - 1, last (cur.row - 1) cur.col⟩
      else cur

/-- A cell not beyond the cursor. -/
def Cursor.Leaves (lo hi : Nat → Nat) (n : Nat) (cur : Cursor) : Prop :=
  ∃ c ∈ cells lo hi n, ¬ cur.Before c

/-- With no cell left, every cell lies beyond the cursor. -/
theorem beyond_of_not_leaves (h : ¬ cur.Leaves lo hi n) : beyond lo hi n cur = cells lo hi n := by
  unfold beyond
  rw [List.filter_eq_self]
  intro c hc
  by_contra hnb
  exact h ⟨c, hc, fun hb => hnb (decide_eq_true hb)⟩

/-- A cell is left whenever fewer cells lie beyond the cursor than there are. -/
theorem Cursor.leaves_of_length_lt (h : (beyond lo hi n cur).length < (cells lo hi n).length) :
    cur.Leaves lo hi n := by
  by_contra hnone
  rw [beyond_of_not_leaves hnone] at h
  exact lt_irrefl _ h

/-- The cursor stands inside the first `n` rows, on its row's region or one
before it. -/
structure Cursor.Wf (lo hi : Nat → Nat) (n : Nat) (cur : Cursor) : Prop where
  nonneg : 0 ≤ cur.row
  lt : cur.row < n
  onRow : cur.OnRow lo hi

theorem Cursor.Wf.toNat_row (h : cur.Wf lo hi n) : ((cur.row.toNat : Nat) : Int) = cur.row :=
  Int.toNat_of_nonneg h.nonneg

theorem Cursor.Wf.at {c : Cell} (h : c ∈ cells lo hi n) : (Cursor.at c).Wf lo hi n := by
  obtain ⟨h1, h2, h3⟩ := mem_cells.mp h
  refine ⟨Int.natCast_nonneg _, Int.ofNat_lt.mpr h1, ?_⟩
  intro i hi'
  simp only [Cursor.at] at hi' ⊢
  have hic : i = c.1 := by omega
  subst hic
  omega

/-- Skipping stops on a cell when one is left, and passes over no cell. -/
theorem skipDown_spec (last : Int → Int → Int)
    (hlast : ∀ row col, 0 ≤ row → last row col = (hi row.toNat : Int) - 1)
    (hle : ∀ i, lo i ≤ hi i) :
    ∀ (fuel : Nat) (cur : Cursor), cur.Wf lo hi n → (cur.row + 1).toNat ≤ fuel →
      cur.Leaves lo hi n →
      ∃ c ∈ cells lo hi n, skipDown lo last fuel cur = .at c ∧
        ∀ b ∈ cells lo hi n, cur.Before b ↔ (Cursor.at c).Before b := by
  intro fuel
  induction fuel with
  | zero =>
      intro cur hwf hfuel _
      have := hwf.nonneg
      omega
  | succ fuel ih =>
      intro cur hwf hfuel hleft
      have hr := hwf.toNat_row
      obtain ⟨hon1, hon2⟩ := hwf.onRow cur.row.toNat hr
      unfold skipDown
      by_cases hcol : cur.col < lo cur.row.toNat
      · rw [if_pos ⟨hwf.nonneg, hcol⟩]
        -- a cell left behind the cursor lies in an earlier row, so there is one
        obtain ⟨c, hc, hnb⟩ := hleft
        obtain ⟨hc1, hc2, hc3⟩ := mem_cells.mp hc
        have hcrow : (c.1 : Int) < cur.row := by
          by_contra hge
          apply hnb
          rcases lt_or_eq_of_le (not_lt.mp hge) with h | h
          · exact Or.inl h
          · have hcr : c.1 = cur.row.toNat := by omega
            rw [hcr] at hc2
            exact Or.inr ⟨h, by omega⟩
        set cur' : Cursor := ⟨cur.row - 1, last (cur.row - 1) cur.col⟩ with hcur'
        have hcol' : cur'.col = (hi (cur.row - 1).toNat : Int) - 1 :=
          hlast _ _ (by omega)
        have hpass : ∀ b ∈ cells lo hi n, cur.Before b ↔ cur'.Before b := by
          intro b hb
          obtain ⟨_, hb2, hb3⟩ := mem_cells.mp hb
          unfold Cursor.Before
          rw [hcol']
          simp only [hcur']
          constructor
          · rintro (h | ⟨h, hlt⟩)
            · exact Or.inl (by omega)
            · exact Or.inl (by omega)
          · rintro (h | ⟨h, hlt⟩)
            · by_cases hbr : (b.1 : Int) = cur.row
              · have hbn : b.1 = cur.row.toNat := by omega
                rw [hbn] at hb2
                exact Or.inr ⟨hbr.symm, by omega⟩
              · exact Or.inl (by omega)
            · have hbn : b.1 = (cur.row - 1).toNat := by omega
              rw [hbn] at hb3
              omega
        have hwf' : cur'.Wf lo hi n := by
          refine ⟨by simp only [hcur']; omega, by simp only [hcur']; have := hwf.lt; omega, ?_⟩
          intro i hi'
          simp only [hcur'] at hi'
          have hin : i = (cur.row - 1).toNat := by omega
          rw [hcol', hin]
          have := hle (cur.row - 1).toNat
          omega
        have hleft' : cur'.Leaves lo hi n := ⟨c, hc, fun h => hnb ((hpass c hc).mpr h)⟩
        have hfuel' : (cur'.row + 1).toNat ≤ fuel := by
          simp only [hcur']
          omega
        obtain ⟨e, he, heq, hall⟩ := ih cur' hwf' hfuel' hleft'
        exact ⟨e, he, heq, fun b hb => (hpass b hb).trans (hall b hb)⟩
      · rw [if_neg (fun h => hcol h.2)]
        have hn := hwf.lt
        refine ⟨(cur.row.toNat, cur.col.toNat), ?_, ?_, ?_⟩
        · rw [mem_cells]
          simp only
          omega
        · unfold Cursor.at
          cases cur
          simp only at *
          congr 1 <;> omega
        · intro b _
          unfold Cursor.Before Cursor.at
          simp only
          omega

/-- With every cell beyond the cursor, skipping passes the first row. -/
theorem skipDown_exhausted (last : Int → Int → Int)
    (hlast : ∀ row col, 0 ≤ row → last row col = (hi row.toNat : Int) - 1)
    (hle : ∀ i, lo i ≤ hi i) :
    ∀ (fuel : Nat) (cur : Cursor), cur.Wf lo hi n → (cur.row + 1).toNat ≤ fuel →
      ¬ cur.Leaves lo hi n → ∃ col, skipDown lo last fuel cur = ⟨-1, last (-1) col⟩ := by
  intro fuel
  induction fuel with
  | zero =>
      intro cur hwf hfuel _
      have := hwf.nonneg
      omega
  | succ fuel ih =>
      intro cur hwf hfuel hnone
      have hr := hwf.toNat_row
      have hlt := hwf.lt
      obtain ⟨hon1, hon2⟩ := hwf.onRow cur.row.toNat hr
      -- the cursor is not on a cell, since that cell would be left
      have hcol : cur.col < lo cur.row.toNat := by
        by_contra hge
        refine hnone ⟨(cur.row.toNat, cur.col.toNat), ?_, ?_⟩
        · exact mem_cells.mpr ⟨by simp only; omega, by simp only; omega, by simp only; omega⟩
        · unfold Cursor.Before
          simp only
          omega
      unfold skipDown
      rw [if_pos ⟨hwf.nonneg, hcol⟩]
      by_cases hfirst : cur.row = 0
      · refine ⟨cur.col, ?_⟩
        rw [hfirst, show (0 : Int) - 1 = -1 by omega]
        cases fuel with
        | zero => rfl
        | succ fuel =>
            unfold skipDown
            rw [if_neg (by simp only; omega)]
      · have hcol' := hlast (cur.row - 1) cur.col (by omega)
        have hle' := hle (cur.row - 1).toNat
        refine ih ⟨cur.row - 1, last (cur.row - 1) cur.col⟩ ?_ (by simp only; omega) ?_
        · refine ⟨by simp only; omega, by simp only; omega, ?_⟩
          intro i hrow
          simp only at hrow ⊢
          rw [hcol', show i = (cur.row - 1).toNat by omega]
          omega
        · rintro ⟨c, hc, hnb⟩
          refine hnone ⟨c, hc, fun hb => hnb ?_⟩
          unfold Cursor.Before at hb ⊢
          simp only
          obtain ⟨-, hc2, hc3⟩ := mem_cells.mp hc
          left
          rcases hb with h | ⟨h, -⟩
          · omega
          · omega

/-- Stepping down from a cell makes exactly that cell lie beyond the cursor. -/
theorem beyond_stepDown {c : Cell} (hc : c ∈ cells lo hi n) :
    beyond lo hi n ⟨c.1, (c.2 : Int) - 1⟩ = c :: beyond lo hi n (.at c) := by
  apply beyond_eq_cons hc
  · exact Or.inr ⟨rfl, by simp⟩
  · intro b _ hb
    unfold Cursor.Before at hb
    unfold CellLt
    simp only at hb
    by_cases hbc : b = c
    · exact Or.inl hbc
    · refine Or.inr ?_
      rcases hb with h | ⟨h, hlt⟩
      · exact Or.inl (by omega)
      · refine Or.inr ⟨by omega, ?_⟩
        have : b.2 ≠ c.2 := fun h2 => hbc (Prod.ext (by omega) h2)
        omega

theorem Cursor.Wf.stepDown {c : Cell} (h : c ∈ cells lo hi n) :
    (⟨c.1, (c.2 : Int) - 1⟩ : Cursor).Wf lo hi n := by
  obtain ⟨h1, h2, h3⟩ := mem_cells.mp h
  refine ⟨Int.natCast_nonneg _, Int.ofNat_lt.mpr h1, ?_⟩
  intro i hi'
  simp only at hi' ⊢
  have hic : i = c.1 := by omega
  subst hic
  omega

/-! ## Moving up -/

/-- One step up: the next column, or the first column of the next row. -/
def stepUp (lo hi : Nat → Nat) (cur : Cursor) : Cursor :=
  if cur.col + 1 ≥ hi cur.row.toNat then ⟨cur.row + 1, lo (cur.row + 1).toNat⟩
  else ⟨cur.row, cur.col + 1⟩

/-- No empty row stands between the cursor's row and a later nonempty one. -/
def Cursor.NoGap (lo hi : Nat → Nat) (n : Nat) (cur : Cursor) : Prop :=
  ∀ c ∈ cells lo hi n, cur.row < c.1 →
    lo (cur.row + 1).toNat < hi (cur.row + 1).toNat

/-- Stepping up lands on the first cell beyond the cursor. -/
theorem beyond_stepUp (hwf : cur.Wf lo hi n) (hgap : cur.NoGap lo hi n)
    (hne : beyond lo hi n cur ≠ []) :
    ∃ e ∈ cells lo hi n, stepUp lo hi cur = .at e ∧
      beyond lo hi n cur = e :: beyond lo hi n (.at e) := by
  have hr := hwf.toNat_row
  have hlt := hwf.lt
  obtain ⟨hon1, hon2⟩ := hwf.onRow cur.row.toNat hr
  unfold stepUp
  by_cases hcol : cur.col + 1 ≥ hi cur.row.toNat
  · rw [if_pos hcol]
    obtain ⟨b, hb⟩ := List.exists_mem_of_ne_nil _ hne
    obtain ⟨hbc, hbb⟩ := mem_beyond.mp hb
    obtain ⟨hb1, hb2, hb3⟩ := mem_cells.mp hbc
    have hbrow : cur.row < b.1 := by
      rcases hbb with h | ⟨h, h'⟩
      · exact h
      · have hbn : b.1 = cur.row.toNat := by omega
        rw [hbn] at hb3
        omega
    have hreg := hgap b hbc hbrow
    set r := (cur.row + 1).toNat with hrdef
    have hmem : (r, lo r) ∈ cells lo hi n := mem_cells.mpr ⟨by simp only; omega, le_rfl, hreg⟩
    refine ⟨(r, lo r), hmem, ?_, beyond_eq_cons hmem (Or.inl (by simp only; omega)) ?_⟩
    · unfold Cursor.at
      simp only [Cursor.mk.injEq, and_true]
      omega
    · intro c hc hcb
      obtain ⟨_, hc2, hc3⟩ := mem_cells.mp hc
      unfold CellLt
      simp only
      have hcrow : cur.row < c.1 := by
        rcases hcb with h | ⟨h, h'⟩
        · exact h
        · have hcn : c.1 = cur.row.toNat := by omega
          rw [hcn] at hc3
          omega
      by_cases hcr : c.1 = r
      · rw [hcr] at hc2
        by_cases hcl : c.2 = lo r
        · exact Or.inl (Prod.ext hcr hcl)
        · exact Or.inr (Or.inr ⟨hcr.symm, by omega⟩)
      · exact Or.inr (Or.inl (by omega))
  · rw [if_neg hcol]
    have hmem : (cur.row.toNat, (cur.col + 1).toNat) ∈ cells lo hi n :=
      mem_cells.mpr ⟨by simp only; omega, by simp only; omega, by simp only; omega⟩
    refine ⟨_, hmem, ?_, beyond_eq_cons hmem (Or.inr ⟨hr.symm, by simp only; omega⟩) ?_⟩
    · unfold Cursor.at
      simp only [Cursor.mk.injEq]
      omega
    · intro c _ hcb
      unfold CellLt
      unfold Cursor.Before at hcb
      simp only at hcb ⊢
      by_cases hcr : c.1 = cur.row.toNat
      · by_cases hcl : c.2 = (cur.col + 1).toNat
        · exact Or.inl (Prod.ext hcr hcl)
        · exact Or.inr (Or.inr ⟨hcr.symm, by omega⟩)
      · exact Or.inr (Or.inl (by omega))

end

end MzCache.Lib
