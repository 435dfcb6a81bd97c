import MzCache.Unified.TrialCells

/-!
# The trial of `prepare`

The recovery stack holds, for every slot, what its cells held when the slot was taken, so
unwinding it puts back what the lowest slot over a cell has saved. A purge that reaches a
cell outside the slots takes entries that no slot has saved; an exception leaves the stack
as it is.
-/

namespace MzCache.Unified

open MzCache MzCache.Lib

/-! ## The condition -/

/-- Cell `i` belongs to the slot. -/
def Saved.Has (saved : Saved) (i : Nat) : Prop :=
  saved.headNew ≤ i ∧ i < saved.headNew + saved.cells.length

instance (saved : Saved) (i : Nat) : Decidable (saved.Has i) := by
  unfold Saved.Has
  infer_instance

/-- A slot of the stack covers cell `i`. -/
def TakenBy (states : List Saved) (i : Nat) : Prop := ∃ saved ∈ states, saved.Has i

instance (states : List Saved) (i : Nat) : Decidable (TakenBy states i) := by
  unfold TakenBy
  infer_instance

/-- The cells that a slot takes over have their entries in the index. -/
def Trial.SlotListed (c₀ : Cells) (headNew n : Nat) (t : Trial) : Prop :=
  ∀ j ∈ List.range' headNew n, ¬ TakenBy t.states j → ∀ s ∈ c₀.seq j, c₀.pos j ∈ c₀.seqPos s

/-- The cells with the tokens of a ubatch placed, and what the purge is told. -/
def Cells.place (headNew : Nat) (ubatch : List BatchToken) (c : Cells) : Cells × SeqPosMaxRm :=
  placeTokens headNew ubatch (c, fun _ => -1)

/-- The purge that follows a ubatch takes nothing from the cells outside the slots. -/
def Trial.PurgeSpares (headNew : Nat) (ubatch : List BatchToken) (t : Trial) : Prop :=
  ∀ j < t.cache.cells.size, ¬ TakenBy t.states j → j ∉ List.range' headNew ubatch.length →
    ∀ s < llamaMaxSeq, ¬ (t.cache.cells.place headNew ubatch).1.Purges
      (t.cache.cells.place headNew ubatch).2 ((t.cache.cells.place headNew ubatch).1.cell j) s

instance (c₀ : Cells) (headNew n : Nat) (t : Trial) : Decidable (t.SlotListed c₀ headNew n) := by
  unfold Trial.SlotListed
  infer_instance

instance (headNew : Nat) (ubatch : List BatchToken) (t : Trial) :
    Decidable (t.PurgeSpares headNew ubatch) := by
  unfold Trial.PurgeSpares
  infer_instance

/-- Every slot is listed, every purge spares the other cells, and growth fails for the first
ubatch only. -/
def Trial.Keeps (sh : Shape) (alloc : Alloc) (c₀ : Cells) : List (List BatchToken) → Trial → Prop
  | [], _ => True
  | ubatch :: ubatches, t => ∀ headNew ∈ t.cache.findSlot sh ubatch.length,
      if (mzGrowChunks sh alloc (headNew + ubatch.length) t.cache).2 = true then
        t.SlotListed c₀ headNew ubatch.length ∧ t.PurgeSpares headNew ubatch ∧
          Keeps sh alloc c₀ ubatches (placeAt sh alloc headNew ubatch t).1
      else t.states = []

/-- The tokens continue their sequences: beyond what the cells hold and the index lists, and
upwards. -/
structure Cells.ContinuedBy (c : Cells) (toks : List BatchToken) : Prop where
  seqs : ∀ tok ∈ toks, tok.seqIds ≠ []
  pos : ∀ tok ∈ toks, 0 ≤ tok.pos
  listed : ∀ tok ∈ toks, ∀ s ∈ tok.seqIds, ∀ p ∈ c.seqPos s, p < tok.pos
  held : ∀ tok ∈ toks, ∀ s ∈ tok.seqIds, ∀ i < c.size, s ∈ c.seq i → c.pos i < tok.pos
  increasing : toks.Pairwise fun tok tok' =>
    ∀ s ∈ tok.seqIds, s ∈ tok'.seqIds → tok.pos < tok'.pos

/-! ## Unwinding -/

/-- What unwinding makes of a cell. -/
def unwind (i : Nat) (states : List Saved) (x : Int × Finset Nat) : Int × Finset Nat :=
  states.foldl (fun x saved => if saved.Has i then savedAt saved.headNew saved.cells i else x) x

/-- What unwinding makes of the head. -/
def unwindHead (states : List Saved) (head : Nat) : Nat :=
  states.foldl (fun _ saved => saved.headOld) head

section

variable {states : List Saved} {saved : Saved} {i : Nat}

theorem takenBy_cons : TakenBy (saved :: states) i ↔ saved.Has i ∨ TakenBy states i := by
  simp [TakenBy]

theorem unwind_cons (x : Int × Finset Nat) : unwind i (saved :: states) x =
    unwind i states (if saved.Has i then savedAt saved.headNew saved.cells i else x) := rfl

theorem unwind_free (h : ¬ TakenBy states i) : ∀ x, unwind i states x = x := by
  induction states with
  | nil => exact fun _ => rfl
  | cons saved states ih =>
      intro x
      rw [takenBy_cons, not_or] at h
      rw [unwind_cons, if_neg h.1]
      exact ih h.2 x

/-- What a taken cell holds now does not matter. -/
theorem unwind_taken (h : TakenBy states i) : ∀ x y, unwind i states x = unwind i states y := by
  induction states with
  | nil =>
      obtain ⟨_, hmem, -⟩ := h
      exact (List.not_mem_nil hmem).elim
  | cons saved states ih =>
      intro x y
      rw [unwind_cons, unwind_cons]
      by_cases hhas : saved.Has i
      · rw [if_pos hhas, if_pos hhas]
      · rw [if_neg hhas, if_neg hhas]
        exact ih ((takenBy_cons.mp h).resolve_left hhas) x y

theorem setCell_cell (c : Cells) (i j : Nat) (o : Int × Finset Nat) :
    (c.setCell i o).cell j = if j = i then o else c.cell j := by
  unfold Cells.setCell Cells.cell
  dsimp only
  by_cases hj : j = i
  · subst hj
    split <;> simp
  · split <;> simp [hj]

theorem set_cell (other : List (Int × Finset Nat)) : ∀ (i0 : Nat) (c : Cells) (j : Nat),
    (Cells.set i0 other c).cell j =
      if i0 ≤ j ∧ j < i0 + other.length then savedAt i0 other j else c.cell j := by
  induction other with
  | nil =>
      intro i0 c j
      rw [if_neg (by simp)]
      rfl
  | cons o other ih =>
      intro i0 c j
      rw [Cells.set, ih, setCell_cell, List.length_cons]
      by_cases hj : j = i0
      · subst hj
        rw [if_neg (by omega), if_pos rfl, if_pos (by omega)]
        unfold savedAt
        rw [Nat.sub_self]
        rfl
      · rw [if_neg hj]
        by_cases hin : i0 + 1 ≤ j ∧ j < i0 + 1 + other.length
        · rw [if_pos hin, if_pos (by omega), savedAt_succ (by omega)]
        · rw [if_neg hin, if_neg (by omega)]

theorem restoreSlot_cell (c : Cache) (saved : Saved) (j : Nat) :
    (restoreSlot c saved).cells.cell j =
      if saved.Has j then savedAt saved.headNew saved.cells j else c.cells.cell j :=
  set_cell saved.cells saved.headNew c.cells j

/-- Restoring the slots unwinds every cell and the head. -/
theorem restore_cell (states : List Saved) (j : Nat) : ∀ c : Cache,
    (states.foldl restoreSlot c).cells.cell j = unwind j states (c.cells.cell j) := by
  induction states with
  | nil => exact fun _ => rfl
  | cons saved states ih =>
      intro c
      rw [List.foldl_cons, ih, restoreSlot_cell, unwind_cons]

theorem restore_head (states : List Saved) : ∀ c : Cache,
    (states.foldl restoreSlot c).head = unwindHead states c.head := by
  induction states with
  | nil => exact fun _ => rfl
  | cons saved states ih => exact fun c => ih (restoreSlot c saved)

end

/-! ## Restoring -/

/-- What is saved for a cell of a lower slot are entries of tokens. -/
def FreshBelow (F : Set (Nat × Int)) : List Saved → Prop
  | [] => True
  | saved :: states =>
      (∀ i, saved.Has i → TakenBy states i →
        entriesOf (savedAt saved.headNew saved.cells i) ⊆ F) ∧ FreshBelow F states

theorem FreshBelow.mono {F F' : Set (Nat × Int)} (hF : F ⊆ F') : ∀ {states : List Saved},
    FreshBelow F states → FreshBelow F' states
  | [], _ => trivial
  | _ :: _, h => ⟨fun i hi ht => (h.1 i hi ht).trans hF, FreshBelow.mono hF h.2⟩

section

variable {c₀ : Cells} {F : Set (Nat × Int)}

/-- What holds when a cell gets entries of tokens, and when it gets its old contents, holds when
a slot is restored. -/
theorem restoreSlot_rule {P : Set Nat → Cells → Prop} {n : Nat}
    (htidy : ∀ {D c}, P D c → c.Tidy ∧ c.size = n)
    (hfresh : ∀ {D c c' i N}, P D c → i ∈ D → N ⊆ F →
      c.Touches c' i (entriesOf (c.cell i)) N → P D c')
    (hback : ∀ {D c c' i}, P D c → i ∈ D →
      c.Touches c' i (entriesOf (c.cell i)) (entriesOf (c₀.cell i)) → c'.cell i = c₀.cell i →
      P (D \ {i}) c') (R : Set Nat) (other : List (Int × Finset Nat)) :
    ∀ (i0 : Nat) {c : Cells}, P (R ∪ slotCells i0 other.length) c → i0 + other.length ≤ n →
      (∀ o ∈ other, o.1 = -1 → o.2 = ∅) →
      (∀ i ∈ slotCells i0 other.length, i ∈ R → entriesOf (savedAt i0 other i) ⊆ F) →
      (∀ i ∈ slotCells i0 other.length, i ∉ R → savedAt i0 other i = c₀.cell i) →
      P R (Cells.set i0 other c) := by
  induction other with
  | nil =>
      intro i0 c h _ _ _ _
      have hR : R ∪ slotCells i0 ([] : List (Int × Finset Nat)).length = R := by
        ext i
        simp [slotCells]
      rwa [hR] at h
  | cons o other ih =>
      intro i0 c h hroom hempty hR hother
      obtain ⟨ht, hsize⟩ := htidy h
      rw [List.length_cons] at h hroom hR hother
      rw [slotCells_succ] at h hR hother
      have hfirst : savedAt i0 (o :: other) i0 = o := by
        unfold savedAt
        rw [Nat.sub_self]
        rfl
      have htouch := setCell_touches ht (i := i0) (by omega) (hempty o List.mem_cons_self)
      have hmem : i0 ∈ R ∪ insert i0 (slotCells (i0 + 1) other.length) :=
        Or.inr (Set.mem_insert _ _)
      -- the first cell, then the rest of the slot
      have hone : P (R ∪ slotCells (i0 + 1) other.length) (c.setCell i0 o) := by
        by_cases hi : i0 ∈ R
        · have hsame : R ∪ insert i0 (slotCells (i0 + 1) other.length) =
              R ∪ slotCells (i0 + 1) other.length := by
            rw [Set.union_insert]
            exact Set.insert_eq_of_mem (Or.inl hi)
          rw [hsame] at h hmem
          refine hfresh h hmem ?_ htouch
          rw [← hfirst]
          exact hR i0 (Set.mem_insert _ _) hi
        · have hold : o = c₀.cell i0 := hfirst.symm.trans (hother i0 (Set.mem_insert _ _) hi)
          have hless : (R ∪ insert i0 (slotCells (i0 + 1) other.length)) \ {i0} =
              R ∪ slotCells (i0 + 1) other.length := by
            ext i
            simp only [Set.mem_sdiff, Set.mem_union, Set.mem_insert_iff, Set.mem_singleton_iff,
              slotCells, Set.mem_ofPred_eq]
            constructor
            · rintro ⟨h | h | h, hne⟩
              · exact .inl h
              · exact absurd h hne
              · exact .inr h
            · rintro (h | h)
              · exact ⟨.inl h, fun heq => hi (heq ▸ h)⟩
              · exact ⟨.inr (.inr h), by omega⟩
          rw [← hless]
          rw [hold] at htouch ⊢
          refine hback h hmem htouch ?_
          rw [setCell_cell, if_pos rfl]
      refine ih (i0 + 1) hone (by omega) (fun o' ho' => hempty o' (List.mem_cons_of_mem _ ho'))
        (fun i hi hiR => ?_) (fun i hi hiR => ?_)
      · have := hR i (Set.mem_insert_of_mem _ hi) hiR
        rwa [savedAt_succ hi.1] at this
      · have := hother i (Set.mem_insert_of_mem _ hi) hiR
        rwa [savedAt_succ hi.1] at this

end

end MzCache.Unified
