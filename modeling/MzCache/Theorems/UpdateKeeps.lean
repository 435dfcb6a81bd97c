import MzCache.Unified.CacheRuns
import MzCache.Unified.UpdateRows

/-!
# Cells and rows after an update

`update` moves all cells or none and forgets the shifts only when nothing is left to be
applied. With both graphs computed, or the K-shift given up before it began, every cell
has the rows of the token that it records.
-/

namespace MzCache.Theorems

open MzCache MzCache.Lib MzCache.Unified

/-- `update` gets to a defragmentation that has something to do. -/
def moves (ropeNone doShift : Bool) (shiftRun : GraphRun) (n : Nat) : Bool :=
  n ≠ 0 && (!doShift || shiftDone ropeNone shiftRun)

/-- The cells after the K-shift part. -/
def cellsShifted (ropeNone doShift : Bool) (shiftRun : GraphRun) (c : ShiftedCells) :
    ShiftedCells :=
  if doShift && shiftDone ropeNone shiftRun then c.resetShift else c

/-- For every outcome of the graphs, the cells are moved all or not at all, the head is reset with
the moves and the shifts when they are applied or mean nothing. If the K-shift does not fail midway
and the copies of the moves are computed, every cell in use has the rows of its token. -/
theorem update_consistent {T E : Type} (sh : Shape) (rope : Rope E) (rows : Rows T E)
    (ropeNone doShift : Bool) (shiftRun defragRun : GraphRun) (n : Nat) (ids : Nat → Nat)
    (token : Nat → T) (s s' : UpdateState E) (updated : Bool) (htidy : s.cells.cells.Tidy)
    (hplan : n = 0 ∨ ∃ nMaxNodes, s.cells.cells.defragPrepare sh nMaxNodes = some (n, ids))
    (hfixed : ropeNone = true → rows.Fixed) (hrope : ropeNone = false → rows.TurnedBy rope)
    (hheld : rows.Held sh token s)
    (h : update sh rope ropeNone doShift shiftRun defragRun n ids s = some (s', updated)) :
    s'.cells = (if moves ropeNone doShift shiftRun n then
      (List.range n).foldl (moveShifted n ids) (cellsShifted ropeNone doShift shiftRun s.cells)
      else cellsShifted ropeNone doShift shiftRun s.cells) ∧
    s'.head = (if moves ropeNone doShift shiftRun n then 0 else s.head) ∧
    ((doShift = true → ropeNone = false → ∀ ran, shiftRun = .failed ran → ran = 0) →
      (moves ropeNone doShift shiftRun n = true →
        defragRun = .done ∧ (sh.vTrans = true → s.cells.cells.size = tokensPerChunk)) →
      rows.Held sh (if moves ropeNone doShift shiftRun n then token ∘ sources n ids n else token)
        s') := by
  -- the state after the K-shift part
  obtain ⟨s₁, goesOn, updated₁, hfirst, hsecond⟩ : ∃ s₁ goesOn updated₁,
      (if doShift then updateShift sh rope ropeNone shiftRun s else some (s, true, false)) =
        some (s₁, goesOn, updated₁) ∧
      (if goesOn = true then
        if n = 0 then some (s₁, updated₁) else updateDefrag sh rope defragRun n ids updated₁ s₁
      else some (s₁, updated₁)) = some (s', updated) := by
    unfold update at h
    dsimp only at h
    split at h
    · cases h
    · rename_i s₁ goesOn updated₁ hfirst
      exact ⟨s₁, goesOn, updated₁, hfirst, h⟩
  obtain ⟨hgoes, hhead, hcells, hheld₁⟩ :
      goesOn = (!doShift || shiftDone ropeNone shiftRun) ∧ s₁.head = s.head ∧
      s₁.cells = cellsShifted ropeNone doShift shiftRun s.cells ∧
      ((doShift = true → ropeNone = false → ∀ ran, shiftRun = .failed ran → ran = 0) →
        rows.Held sh token s₁) := by
    cases doShift with
    | false =>
        cases hfirst
        exact ⟨rfl, rfl, rfl, fun _ => hheld⟩
    | true =>
        obtain ⟨hgoes, hhead, hcells⟩ := updateShift_spec hfirst
        exact ⟨hgoes, hhead, hcells, fun hrun =>
          hheld.updateShift htidy hfixed hrope (hrun rfl) hfirst⟩
  have hsame : s₁.cells.cells = s.cells.cells := by
    rw [hcells]
    unfold cellsShifted
    split <;> rfl
  rw [← hcells, ← hhead]
  by_cases hmoves : moves ropeNone doShift shiftRun n = true
  · -- all moves
    rw [if_pos hmoves, if_pos hmoves, if_pos hmoves]
    unfold moves at hmoves
    rw [Bool.and_eq_true, decide_eq_true_eq, ← hgoes] at hmoves
    obtain ⟨hn, hgo⟩ := hmoves
    rw [if_pos hgo, if_neg hn] at hsecond
    obtain ⟨hmoved, hzero⟩ := updateDefrag_spec hsecond
    refine ⟨hmoved, hzero, fun hrun hdone => ?_⟩
    obtain ⟨rfl, hsize⟩ := hdone (by simp [moves, hn, ← hgoes, hgo])
    obtain ⟨nMaxNodes, hplan⟩ := hplan.resolve_left hn
    have hok := planOk_of_defragPrepare htidy.usedExact hplan hn
    rw [← hsame] at htidy hok hsize
    exact (hheld₁ hrun).updateDefrag htidy hok hsize hsecond
  · -- none
    rw [if_neg hmoves, if_neg hmoves, if_neg hmoves]
    have hstop : ¬ (goesOn = true ∧ n ≠ 0) := by
      rintro ⟨hgo, hn⟩
      exact hmoves (by simp [moves, hn, ← hgoes, hgo])
    have hs : s₁ = s' := by
      by_cases hgo : goesOn = true
      · have hn : n = 0 := by_contra fun hn => hstop ⟨hgo, hn⟩
        rw [if_pos hgo, if_pos hn] at hsecond
        exact congrArg Prod.fst (Option.some.inj hsecond)
      · rw [if_neg hgo] at hsecond
        exact congrArg Prod.fst (Option.some.inj hsecond)
    subst hs
    exact ⟨rfl, rfl, fun hrun _ => hheld₁ hrun⟩

/-! ## One token behind a hole -/

/-- A layer with two values in a row. -/
def pairLayer (il : Nat) : Layer :=
  ⟨il, 2, 1, 1, 4, 4, 2, 2, typeF16_lt, typeF16_lt, by decide, by decide, by decide⟩

def twoLayers (vTrans : Bool) : Shape :=
  { Shape.single with
    layers := [pairLayer 0, pairLayer 1]
    vTrans := vTrans
    layers_lt := by decide
    layers_nodup := by decide }

/-- Rows whose K values are the position and whose V values name the token. -/
def positionRows : Rows Int Int := ⟨fun t => (t, {0}), fun _ _ p _ => p, fun _ t _ => t⟩

def addShift : Rope Int := fun _ shift row j => row j + shift

/-- Position 5 lies in cell 1, with a shift to apply; the V row is there in either layout. -/
def oneCell (shift : Int) : UpdateState Int where
  cells := ⟨⟨32, fun i => if i = 1 then 5 else -1, fun i => if i = 1 then {0} else ∅, {1},
    fun s => if s = 0 then {5} else ∅⟩, fun i => if i = 1 then shift else 0, shift ≠ 0⟩
  head := 2
  data := ⟨fun _ a => if a / 2 = 1 then 5 - shift else 0,
    fun _ a => if a = 1 ∨ a = 2 ∨ a = 3 ∨ a = 257 then 5 else 0⟩

/-- Cell 1 goes to cell 0. -/
def downPlan : Nat → Nat := Function.update (fun _ => 2) 1 0

theorem positionRows_turned : positionRows.TurnedBy addShift := by
  intro l t p shift row hrow j hj
  exact congrArg (· + shift) (hrow j hj)

theorem oneCell_tidy (shift : Int) : (oneCell shift).cells.cells.Tidy := by
  constructor
  · intro i
    by_cases hi : i = 1 <;> simp [oneCell, hi]
  · intro i hi
    by_cases h1 : i = 1 <;> simp_all [oneCell]
  · intro i hi
    have hge : 32 ≤ i := hi
    exact if_neg (by omega)

theorem oneCell_held (shift : Int) (vTrans : Bool) :
    positionRows.Held (twoLayers vTrans) (fun _ => 5) (oneCell shift) := by
  intro i hi
  have h1 : i = 1 := by
    by_contra hne
    exact hi (if_neg hne)
  subst h1
  refine ⟨rfl, fun l hl => ?_⟩
  obtain ⟨il, rfl⟩ : ∃ il, l = pairLayer il := by
    obtain rfl | rfl : l = pairLayer 0 ∨ l = pairLayer 1 := by simpa [twoLayers] using hl
    · exact ⟨0, rfl⟩
    · exact ⟨1, rfl⟩
  refine ⟨fun j hj => ?_, fun j hj => ?_⟩
  · have hrow : (1 * 2 + j) / 2 = 1 := by
      have : j < 2 := hj
      omega
    show (if (1 * 2 + j) / 2 = 1 then 5 - shift else 0) = 5 - if 1 = 1 then shift else 0
    rw [if_pos hrow, if_pos rfl]
  · obtain rfl | rfl : j = 0 ∨ j = 1 := by
      have : j < 2 := hj
      omega
    · cases vTrans <;>
        simp [Tensors.vAt, twoLayers, oneCell, positionRows, pairLayer, tokensPerChunk]
    · cases vTrans <;>
        simp [Tensors.vAt, twoLayers, oneCell, positionRows, pairLayer, tokensPerChunk]

/-- The token is moved and turned to its position. -/
theorem update_consistent_one : ∃ s' : UpdateState Int,
    update (twoLayers false) addShift false true .done .done 2 downPlan (oneCell 2) =
      some (s', true) ∧
    s'.head = 0 ∧ positionRows.Held (twoLayers false) ((fun _ => 5) ∘ sources 2 downPlan 2) s' := by
  obtain ⟨s', h⟩ : ∃ s', update (twoLayers false) addShift false true .done .done 2 downPlan
      (oneCell 2) = some (s', true) := ⟨_, rfl⟩
  obtain ⟨-, hhead, hheld⟩ := update_consistent (twoLayers false) addShift positionRows false true
    .done .done 2 downPlan (fun _ => 5) (oneCell 2) s' true (oneCell_tidy 2)
    (.inr ⟨64, rfl⟩) Bool.noConfusion (fun _ => positionRows_turned) (oneCell_held 2 false) h
  exact ⟨s', h, hhead, hheld (fun _ _ ran hran => GraphRun.noConfusion hran)
    fun _ => ⟨rfl, Bool.noConfusion⟩⟩

/-- A defragmentation resets the head without a K-shift, and a shift that means nothing is
forgotten. A defragmentation graph that is not built leaves moved cells over unmoved rows, a
K-shift that fails after one layer has turned that layer, and a transposed V is copied by strides
that are not its own. -/
theorem update_inconsistent :
    (∃ s', update (twoLayers false) addShift false false .done .done 2 downPlan (oneCell 0) =
        some (s', true) ∧ s'.head ≠ (oneCell 0).head) ∧
    (∃ s', update (twoLayers false) addShift true true .done .done 0 downPlan (oneCell 2) =
        some (s', false) ∧ s'.cells.hasShift ≠ (oneCell 2).cells.hasShift) ∧
    (∃ s', update (twoLayers false) addShift false false .done .notBuilt 2 downPlan (oneCell 0) =
        some (s', false) ∧ ∀ token, ¬ positionRows.Held (twoLayers false) token s') ∧
    (∃ s', update (twoLayers false) addShift false true (.failed 1) .done 0 downPlan (oneCell 2) =
        some (s', false) ∧ ∀ token, ¬ positionRows.Held (twoLayers false) token s') ∧
    (∃ s', update (twoLayers true) addShift false false .done .done 2 downPlan (oneCell 0) =
        some (s', true) ∧ ∀ token, ¬ positionRows.Held (twoLayers true) token s') := by
  refine ⟨⟨_, rfl, by decide⟩, ⟨_, rfl, by decide⟩, ⟨_, rfl, fun token hheld => ?_⟩,
    ⟨_, rfl, fun token hheld => ?_⟩, ⟨_, rfl, fun token hheld => ?_⟩⟩
  · -- cell 0 records position 5 over a row of zeros
    have hrow := ((hheld 0 (by decide)).2 (pairLayer 0) (List.mem_cons_self ..)).1 0 (by decide)
    have hzero : (0 : Int) = 5 := hrow
    omega
  · -- the row of position 5, where the one of position 3 is expected
    have hrow := ((hheld 1 (by decide)).2 (pairLayer 0) (List.mem_cons_self ..)).1 0 (by decide)
    have hturned : (5 : Int) = 3 := hrow
    omega
  · -- the second value of the row has not come along
    obtain ⟨hcell, hrows⟩ := hheld 0 (by decide)
    have hrow := (hrows (pairLayer 0) (List.mem_cons_self ..)).2 1 (by decide)
    have htoken : (5 : Int) = token 0 := congrArg Prod.fst hcell
    have hread : ∀ d : Tensors Int, d.vAt (twoLayers true) (pairLayer 0) 0 1 = d.v 0 256 :=
      fun _ => rfl
    have hzero : (0 : Int) = token 0 := (hread _).symm.trans hrow
    omega

end MzCache.Theorems
