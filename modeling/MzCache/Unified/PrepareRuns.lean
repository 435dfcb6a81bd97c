import MzCache.Unified.PrepareTrial

/-!
# Runs of the trial

Every step of the trial keeps its bookkeeping (`Sound`); a step whose purge spares the
other cells keeps the promise that unwinding gives the old cells (`Whole`). Once a
sequence is lost it stays lost, and a cell that a ubatch has taken shows its token, so a
run that breaks the condition leaves other cells than it found.
-/

namespace MzCache.Unified

open MzCache MzCache.Lib

/-- The bookkeeping of a trial that has placed the tokens `past`; `c₀` and `head₀` are what
`prepare` found. -/
structure Trial.Sound (c₀ : Cells) (head₀ : Nat) (past : List BatchToken) (t : Trial) : Prop where
  taken : c₀.Taken (entriesOfTokens past) {i | TakenBy t.states i} t.cache.cells
  head : unwindHead t.states t.cache.head = head₀
  fits : ∀ saved ∈ t.states, saved.Fits c₀.size
  fresh : FreshBelow (entriesOfTokens past) t.states
  dirty : t.states ≠ [] → ∃ j, ¬ entriesOf (t.cache.cells.cell j) ⊆ entriesOf (c₀.cell j)

/-- No entry is lost so far: unwinding gives the old cells. -/
structure Trial.Whole (c₀ : Cells) (past : List BatchToken) (t : Trial) : Prop where
  spared : c₀.Spared (entriesOfTokens past) {i | TakenBy t.states i} t.cache.cells
  unwound : ∀ j, unwind j t.states (t.cache.cells.cell j) = c₀.cell j

/-- A sequence of a cell is lost: unwinding does not give it back. -/
def Trial.Lost (c₀ : Cells) (t : Trial) : Prop :=
  ∃ j, ∃ s ∈ c₀.seq j, s ∉ (unwind j t.states (t.cache.cells.cell j)).2

section

variable {sh : Shape} {alloc : Alloc} {c₀ : Cells} {head₀ : Nat} {past : List BatchToken}
  {t : Trial} {headNew : Nat} {ubatch : List BatchToken}

theorem Trial.Sound.start {c : Cache} (h : c.cells.Tidy) :
    Trial.Sound c.cells c.head [] ⟨c, [], []⟩ := by
  have hnone : ({i | TakenBy [] i} : Set Nat) = ∅ := by
    ext i
    simp [TakenBy]
  have hfresh : entriesOfTokens [] = ∅ := by
    ext e
    simp [entriesOfTokens]
  refine ⟨?_, rfl, fun _ hs => (List.not_mem_nil hs).elim, trivial, fun hne => absurd rfl hne⟩
  show c.cells.Taken (entriesOfTokens []) {i | TakenBy [] i} c.cells
  rw [hnone, hfresh]
  exact .start h

theorem Trial.Whole.start {c : Cache} (h : c.cells.Tidy) :
    Trial.Whole c.cells [] ⟨c, [], []⟩ := by
  have hnone : ({i | TakenBy [] i} : Set Nat) = ∅ := by
    ext i
    simp [TakenBy]
  have hfresh : entriesOfTokens [] = ∅ := by
    ext e
    simp [entriesOfTokens]
  refine ⟨?_, fun _ => rfl⟩
  show c.cells.Spared (entriesOfTokens []) {i | TakenBy [] i} c.cells
  rw [hnone, hfresh]
  exact .start h

/-! ## A placed ubatch -/

/-- The cells once a ubatch has been placed and the sequences it overwrote are purged. -/
def Cells.afterPlacing (headNew : Nat) (ubatch : List BatchToken) (c : Cache) : Cells :=
  ((List.range llamaMaxSeq).foldl (purgeSeq (c.cells.place headNew ubatch).2)
    { c with cells := (c.cells.place headNew ubatch).1 }).cells

theorem purge_cells_congr (rmMax : SeqPosMaxRm) (seqs : List Nat) : ∀ c c' : Cache,
    c.cells = c'.cells → (seqs.foldl (purgeSeq rmMax) c).cells =
      (seqs.foldl (purgeSeq rmMax) c').cells := by
  induction seqs with
  | nil => exact fun _ _ h => h
  | cons s seqs ih =>
      intro c c' h
      refine ih _ _ ?_
      unfold purgeSeq
      rw [h]
      split
      · exact h
      · split
        · unfold Cache.seqRm
          dsimp only
          rw [h]
        · exact h

/-- `placeAt` when the cache has grown. -/
theorem placeAt_grown
    (hgrown : (mzGrowChunks sh alloc (headNew + ubatch.length) t.cache).2 = true) :
    (placeAt sh alloc headNew ubatch t).1.cache.cells =
        Cells.afterPlacing headNew ubatch t.cache ∧
      (placeAt sh alloc headNew ubatch t).1.states =
        ⟨t.cache.head, headNew, t.cache.cells.cp headNew ubatch.length⟩ :: t.states ∧
      (placeAt sh alloc headNew ubatch t).2 = true := by
  have hcells := @mzGrowChunks_cells sh alloc t.cache (headNew + ubatch.length)
  unfold placeAt applyUbatch
  dsimp only
  rw [if_pos hgrown]
  refine ⟨?_, rfl, rfl⟩
  unfold Cells.afterPlacing
  dsimp only
  rw [hcells]
  exact purge_cells_congr _ _ _ _ rfl

theorem growLayerChunk_head (l : Layer) (idx : Nat) (c : Cache) :
    (growLayerChunk alloc l idx c).1.head = c.head := by
  unfold growLayerChunk
  split
  · rfl
  · split
    · rfl
    · split <;> rfl

theorem growList_head (todo : List (Layer × Nat)) : ∀ c : Cache,
    (growList alloc todo c).1.head = c.head := by
  induction todo with
  | nil => exact fun _ => rfl
  | cons x todo ih =>
      intro c
      rw [growList]
      split
      · rw [ih, growLayerChunk_head]
      · exact growLayerChunk_head _ _ _

/-- Growth does not move the head. -/
theorem mzGrowChunks_head (n : Nat) (c : Cache) : (mzGrowChunks sh alloc n c).1.head = c.head := by
  unfold mzGrowChunks
  dsimp only
  split
  · rfl
  · split
    · rfl
    · split
      · exact growList_head _ _
      · exact growList_head _ _

/-- `placeAt` when it has not: the cells and the head stay. -/
theorem placeAt_threw
    (hfailed : ¬ (mzGrowChunks sh alloc (headNew + ubatch.length) t.cache).2 = true) :
    (placeAt sh alloc headNew ubatch t).1.cache.cells = t.cache.cells ∧
      (placeAt sh alloc headNew ubatch t).1.cache.head = t.cache.head ∧
      (placeAt sh alloc headNew ubatch t).2 = false := by
  have hcells := @mzGrowChunks_cells sh alloc t.cache (headNew + ubatch.length)
  have hhead := @mzGrowChunks_head sh alloc (headNew + ubatch.length) t.cache
  unfold placeAt applyUbatch
  dsimp only
  rw [if_neg hfailed]
  exact ⟨hcells, hhead, by simpa using hfailed⟩

theorem saved_has {head : Nat} {c : Cells} {n j : Nat} :
    (Saved.mk head headNew (c.cp headNew n)).Has j ↔ j ∈ slotCells headNew n := by
  simp [Saved.Has, slotCells, Cells.cp]

theorem savedAt_cp {c : Cells} {n j : Nat} (hj : j ∈ slotCells headNew n) :
    savedAt headNew (c.cp headNew n) j = c.cell j := by
  obtain ⟨hge, hlt⟩ : headNew ≤ j ∧ j < headNew + n := hj
  unfold savedAt Cells.cp
  rw [List.getD_eq_getElem _ _ (by rw [List.length_map, List.length_range]; omega),
    List.getElem_map, List.getElem_range]
  unfold Cells.cell
  rw [show headNew + (j - headNew) = j by omega]

/-- The cells outside a slot are as before its tokens were placed. -/
theorem placeTokens_other (toks : List BatchToken) : ∀ (head : Nat) (acc : Cells × SeqPosMaxRm),
    acc.1.Tidy → head + toks.length ≤ acc.1.size → (∀ tok ∈ toks, tok.pos ≠ -1) →
    ∀ j, j ∉ slotCells head toks.length → (placeTokens head toks acc).1.cell j = acc.1.cell j := by
  induction toks with
  | nil => exact fun _ _ _ _ _ _ _ => rfl
  | cons tok toks ih =>
      intro head acc ht hroom hpos j hj
      rw [List.length_cons] at hroom hj
      rw [slotCells_succ, Set.mem_insert_iff, not_or] at hj
      have htouch := placeToken_touches (i := head) ht (by omega) (hpos tok List.mem_cons_self)
      rw [placeTokens, ih (head + 1) _ htouch.tidy (by rw [htouch.size]; omega)
        (fun tok' hmem => hpos tok' (List.mem_cons_of_mem _ hmem)) j hj.2]
      exact htouch.other j hj.1

/-- The first cell of a slot holds the first token. -/
theorem place_first {tok : BatchToken} {toks : List BatchToken} {c : Cells} (ht : c.Tidy)
    (hroom : headNew + (tok :: toks).length ≤ c.size) (hpos : ∀ x ∈ tok :: toks, x.pos ≠ -1) :
    entriesOf ((c.place headNew (tok :: toks)).1.cell headNew) = entriesOf (tokenCell tok) := by
  rw [List.length_cons] at hroom
  have htouch := @placeToken_touches headNew (c, fun _ => -1) ht (by show headNew < c.size; omega)
    tok (hpos tok List.mem_cons_self)
  unfold Cells.place
  rw [placeTokens, placeTokens_other toks (headNew + 1) _ htouch.tidy
    (by rw [htouch.size]; show headNew + 1 + toks.length ≤ c.size; omega)
    (fun tok' hmem => hpos tok' (List.mem_cons_of_mem _ hmem)) headNew]
  · exact htouch.held_all
  · unfold slotCells
    simp

/-- What the purge is told of a sequence: nothing, or the position of a cell that held it. -/
theorem place_rmMax {c : Cells} (ht : c.Tidy) (hroom : headNew + ubatch.length ≤ c.size)
    (hpos : ∀ x ∈ ubatch, x.pos ≠ -1) {s : Nat} (hnone : (c.place headNew ubatch).2 s ≠ -1) :
    0 ≤ (c.place headNew ubatch).2 s ∧ ∃ i ∈ slotCells headNew ubatch.length,
      c.isEmpty i = false ∧ c.seqGet i = s ∧ (c.place headNew ubatch).2 s = c.pos i := by
  obtain ⟨hge, hmax⟩ := placeTokens_rmMax ubatch headNew (c, fun _ => -1) ht hroom hpos s
  have hge' : -1 ≤ (c.place headNew ubatch).2 s := hge
  exact ⟨by omega, hmax.resolve_left hnone⟩

/-- The cells after the purge, one by one. -/
theorem afterPlacing_cell (c : Cache) (j : Nat) :
    (Cells.afterPlacing headNew ubatch c).cell j =
      if j < (c.cells.place headNew ubatch).1.size then
        (List.range llamaMaxSeq).foldl ((c.cells.place headNew ubatch).1.purgeCell
          (c.cells.place headNew ubatch).2) ((c.cells.place headNew ubatch).1.cell j)
      else (c.cells.place headNew ubatch).1.cell j :=
  purge_cell List.nodup_range _ j

theorem place_size (c : Cells) : (c.place headNew ubatch).1.size = c.size :=
  placeTokens_size ubatch headNew (c, fun _ => -1)

/-- A cell that a ubatch overwrites holds an entry that comes before the ubatch. -/
theorem Trial.Sound.overwritten (h : t.Sound c₀ head₀ past)
    (hfound : t.cache.findSlot sh ubatch.length = some headNew)
    (hcont : c₀.ContinuedBy (past ++ ubatch)) {i s : Nat}
    (hi : i ∈ slotCells headNew ubatch.length) (hempty : t.cache.cells.isEmpty i = false)
    (hget : t.cache.cells.seqGet i = s) {tok : BatchToken} (htok : tok ∈ ubatch)
    (hs : s ∈ tok.seqIds) : t.cache.cells.pos i < tok.pos := by
  obtain ⟨hge, hlt⟩ : headNew ≤ i ∧ i < headNew + ubatch.length := hi
  obtain ⟨hroom, husable⟩ := findSlot_slot hfound
  have hheld : (s, t.cache.cells.pos i) ∈ entriesOf (t.cache.cells.cell i) := by
    have huse := husable (i - headNew) (by omega)
    rw [show headNew + (i - headNew) = i by omega] at huse
    rcases huse with hfree | ⟨s', hs', -⟩
    · rw [hfree] at hempty
      cases hempty
    · obtain rfl : s = s' := hget.symm.trans (Cells.seqGet_of_eq hs')
      refine ⟨?_, rfl⟩
      show s ∈ t.cache.cells.seq i
      rw [hs']
      exact Finset.mem_singleton_self s
  by_cases htaken : TakenBy t.states i
  · -- a token of an earlier ubatch
    obtain ⟨old, hold, hs', hp'⟩ := h.taken.inside i htaken hheld
    have heq : t.cache.cells.pos i = old.pos := hp'
    rw [heq]
    exact (List.pairwise_append.mp hcont.increasing).2.2 old hold tok htok s
      (List.mem_toFinset.mp hs') hs
  · -- an entry of the old cells
    obtain ⟨hs', hp'⟩ := h.taken.outside i htaken hheld
    have heq : t.cache.cells.pos i = c₀.pos i := hp'
    have hsize := h.taken.size
    rw [heq]
    exact hcont.held tok (List.mem_append_right _ htok) s hs i (by omega) hs'

/-- The purge does not take the token that came first. -/
theorem Trial.Sound.first_stays (h : t.Sound c₀ head₀ past) {tok : BatchToken}
    {toks : List BatchToken} (hfound : t.cache.findSlot sh (tok :: toks).length = some headNew)
    (hcont : c₀.ContinuedBy (past ++ tok :: toks)) :
    entriesOf (tokenCell tok) ⊆
      entriesOf ((Cells.afterPlacing headNew (tok :: toks) t.cache).cell headNew) := by
  have ht := h.taken.tidy
  have hroom := (findSlot_slot hfound).1
  have hpos : ∀ x ∈ tok :: toks, x.pos ≠ -1 := by
    intro x hx
    have := hcont.pos x (List.mem_append_right _ hx)
    omega
  rintro ⟨s, p⟩ he
  obtain ⟨hs, rfl⟩ : s ∈ tok.seqIds.toFinset ∧ p = tok.pos := he
  obtain ⟨hseq, hplaced⟩ : s ∈ ((t.cache.cells.place headNew (tok :: toks)).1.cell headNew).2 ∧
      tok.pos = ((t.cache.cells.place headNew (tok :: toks)).1.cell headNew).1 := by
    have hmem : (s, tok.pos) ∈ entriesOf (tokenCell tok) := ⟨hs, rfl⟩
    rwa [← place_first ht hroom hpos] at hmem
  rw [afterPlacing_cell, place_size, if_pos (by rw [List.length_cons] at hroom; omega)]
  obtain ⟨hmem, hkeep⟩ := @mem_purged (t.cache.cells.place headNew (tok :: toks)).2
    (t.cache.cells.place headNew (tok :: toks)).1 (List.range llamaMaxSeq)
    ((t.cache.cells.place headNew (tok :: toks)).1.cell headNew)
  have hstays := (hmem s).mpr ⟨hseq, fun ⟨_, hnone, _, hloses⟩ => ?_⟩
  · refine ⟨hstays, ?_⟩
    show tok.pos = _
    rw [hkeep s hstays]
    exact hplaced
  · obtain ⟨hge, i, hi, hempty, hget, hrm⟩ := place_rmMax ht hroom hpos hnone
    have hbefore := h.overwritten hfound hcont hi hempty hget List.mem_cons_self
      (List.mem_toFinset.mp hs)
    have hin := hloses.2.2
    unfold rangeTo at hin
    rw [if_neg (by omega), ← hplaced] at hin
    omega

/-! ## One step of the trial -/

theorem ContinuedBy.ne {toks : List BatchToken} (h : c₀.ContinuedBy (past ++ toks)) :
    ∀ tok ∈ toks, tok.pos ≠ -1 := by
  intro tok htok
  have := h.pos tok (List.mem_append_right _ htok)
  omega

theorem takenBy_place {saved : Saved} {states : List Saved}
    (hhas : ∀ j, saved.Has j ↔ j ∈ slotCells headNew ubatch.length) :
    ({i | TakenBy (saved :: states) i} : Set Nat) =
      {i | TakenBy states i} ∪ slotCells headNew ubatch.length := by
  ext i
  simp only [Set.mem_ofPred_eq, Set.mem_union, takenBy_cons, hhas]
  exact or_comm

theorem Trial.Sound.place (h : t.Sound c₀ head₀ past) (hne : ubatch ≠ [])
    (hfound : t.cache.findSlot sh ubatch.length = some headNew)
    (hgrown : (mzGrowChunks sh alloc (headNew + ubatch.length) t.cache).2 = true)
    (hcont : c₀.ContinuedBy (past ++ ubatch)) :
    (placeAt sh alloc headNew ubatch t).1.Sound c₀ head₀ (past ++ ubatch) := by
  obtain ⟨hcells, hstates, -⟩ := placeAt_grown hgrown
  have hroom := (findSlot_slot hfound).1
  have hroom₀ : headNew + ubatch.length ≤ c₀.size := by
    rw [← h.taken.size]
    exact hroom
  have hsub : entriesOfTokens past ⊆ entriesOfTokens (past ++ ubatch) := by
    rw [entriesOfTokens_append]
    exact Set.subset_union_left
  refine ⟨?_, ?_, ?_, ?_, fun _ => ?_⟩
  · rw [hcells, hstates, takenBy_place fun j => saved_has, entriesOfTokens_append]
    have hplaced := @Cells.Taken.placeTokens c₀ _ _ (t.cache.cells, fun _ => -1) h.taken headNew
      ubatch hroom₀ (ContinuedBy.ne hcont)
    exact Cells.Taken.purge (c := { t.cache with cells := (t.cache.cells.place headNew ubatch).1 })
      _ _ hplaced
  · rw [hstates]
    exact h.head
  · intro saved hs
    rw [hstates] at hs
    rcases List.mem_cons.mp hs with rfl | hs
    · have hfits := @Cells.cp_fits t.cache.cells h.taken.tidy t.cache.head headNew ubatch.length hroom
      rwa [h.taken.size] at hfits
    · exact h.fits saved hs
  · rw [hstates]
    refine ⟨fun i hhas htaken => ?_, h.fresh.mono hsub⟩
    dsimp only
    rw [savedAt_cp (saved_has.mp hhas)]
    exact (h.taken.inside i htaken).trans hsub
  · obtain ⟨tok, toks, rfl⟩ := List.exists_cons_of_ne_nil hne
    refine ⟨headNew, fun hold => ?_⟩
    rw [hcells] at hold
    obtain ⟨s, hs⟩ := List.exists_mem_of_ne_nil _ (hcont.seqs tok (by simp))
    have hmem : (s, tok.pos) ∈ entriesOf (tokenCell tok) := ⟨List.mem_toFinset.mpr hs, rfl⟩
    obtain ⟨hs', hp⟩ := hold (h.first_stays hfound hcont hmem)
    have hlt := hcont.held tok (by simp) s hs headNew
      (by rw [List.length_cons] at hroom₀; omega) hs'
    have heq : tok.pos = c₀.pos headNew := hp
    omega

/-- What unwinding makes of a cell after a step: the same as before, or the cell has not been
taken and is what it is now. -/
theorem unwind_place
    (hgrown : (mzGrowChunks sh alloc (headNew + ubatch.length) t.cache).2 = true) (j : Nat) :
    let r := (placeAt sh alloc headNew ubatch t).1
    unwind j r.states (r.cache.cells.cell j) = unwind j t.states (t.cache.cells.cell j) ∨
      ¬ TakenBy t.states j ∧ j ∉ slotCells headNew ubatch.length ∧
        unwind j r.states (r.cache.cells.cell j) = r.cache.cells.cell j ∧
        unwind j t.states (t.cache.cells.cell j) = t.cache.cells.cell j := by
  intro r
  obtain ⟨-, hstates, -⟩ := placeAt_grown hgrown
  have hr : r.states = _ := hstates
  rw [hr, unwind_cons]
  by_cases hslot : j ∈ slotCells headNew ubatch.length
  · left
    rw [if_pos (saved_has.mpr hslot)]
    dsimp only
    rw [savedAt_cp hslot]
  · rw [if_neg fun hhas => hslot (saved_has.mp hhas)]
    by_cases htaken : TakenBy t.states j
    · exact .inl (unwind_taken htaken _ _)
    · exact .inr ⟨htaken, hslot, unwind_free htaken _, unwind_free htaken _⟩

/-- A cell outside the slots is what the purge leaves of it. -/
theorem afterPlacing_outside (h : t.Sound c₀ head₀ past)
    (hfound : t.cache.findSlot sh ubatch.length = some headNew)
    (hcont : c₀.ContinuedBy (past ++ ubatch)) {j : Nat}
    (hj : j ∉ slotCells headNew ubatch.length) :
    (t.cache.cells.place headNew ubatch).1.cell j = t.cache.cells.cell j :=
  placeTokens_other ubatch headNew _ h.taken.tidy (findSlot_slot hfound).1
    (ContinuedBy.ne hcont) j hj

theorem Trial.Whole.place (h : t.Whole c₀ past) (hsound : t.Sound c₀ head₀ past)
    (hfound : t.cache.findSlot sh ubatch.length = some headNew)
    (hgrown : (mzGrowChunks sh alloc (headNew + ubatch.length) t.cache).2 = true)
    (hcont : c₀.ContinuedBy (past ++ ubatch)) (hspares : t.PurgeSpares headNew ubatch) :
    (placeAt sh alloc headNew ubatch t).1.Whole c₀ (past ++ ubatch) := by
  obtain ⟨hcells, hstates, -⟩ := placeAt_grown hgrown
  have hroom : headNew + ubatch.length ≤ c₀.size := by
    rw [← h.spared.size]
    exact (findSlot_slot hfound).1
  have hplaced := @Cells.Spared.placeTokens c₀ _ _ (t.cache.cells, fun _ => -1) h.spared headNew
    ubatch hroom (ContinuedBy.ne hcont)
  have hspared : c₀.Spared (entriesOfTokens (past ++ ubatch))
      {i | TakenBy (placeAt sh alloc headNew ubatch t).1.states i}
      (placeAt sh alloc headNew ubatch t).1.cache.cells := by
    rw [hcells, hstates, takenBy_place fun j => saved_has, entriesOfTokens_append]
    refine Cells.Spared.purge (c := { t.cache with cells := (t.cache.cells.place headNew ubatch).1 })
      List.nodup_range hplaced fun j hj s hs hpurges => ?_
    rw [Set.mem_union, not_or] at hj
    rw [← hplaced.cell j fun hmem => hmem.elim hj.1 hj.2] at hpurges
    by_cases hlt : j < t.cache.cells.size
    · exact hspares j hlt hj.1 (fun hmem => hj.2 (by simpa [slotCells] using hmem)) s
        (List.mem_range.mp hs) hpurges
    · have hmem : s ∈ (t.cache.cells.place headNew ubatch).1.seq j := hpurges.2.2.1
      have hin := hplaced.tidy.lt_size (hplaced.tidy.pos_of_mem hmem)
      have hsize := @place_size headNew ubatch t.cache.cells
      unfold Cells.place at hsize
      omega
  refine ⟨hspared, fun j => ?_⟩
  rcases unwind_place hgrown j with hsame | ⟨htaken, hslot, hnow, -⟩
  · rw [hsame]
    exact h.unwound j
  · rw [hnow]
    refine hspared.cell j fun hmem => ?_
    rw [hstates, takenBy_place fun j => saved_has] at hmem
    exact hmem.elim htaken hslot

/-- A purge that does not spare loses a sequence. -/
theorem Trial.Whole.lost (h : t.Whole c₀ past) (hsound : t.Sound c₀ head₀ past)
    (hfound : t.cache.findSlot sh ubatch.length = some headNew)
    (hgrown : (mzGrowChunks sh alloc (headNew + ubatch.length) t.cache).2 = true)
    (hcont : c₀.ContinuedBy (past ++ ubatch)) (hreach : ¬ t.PurgeSpares headNew ubatch) :
    (placeAt sh alloc headNew ubatch t).1.Lost c₀ := by
  obtain ⟨hcells, -, -⟩ := placeAt_grown hgrown
  unfold Trial.PurgeSpares at hreach
  push Not at hreach
  obtain ⟨j, hlt, htaken, hslot, s, hs, hpurges⟩ := hreach
  have hslot' : j ∉ slotCells headNew ubatch.length := fun hmem =>
    hslot (by simpa [slotCells] using hmem)
  have hplaced := afterPlacing_outside hsound hfound hcont hslot'
  have hold : t.cache.cells.cell j = c₀.cell j := h.spared.cell j htaken
  refine ⟨j, s, ?_, ?_⟩
  · have hmem := hpurges.2.2.1
    rw [hplaced, hold] at hmem
    exact hmem
  · have hnow : unwind j (placeAt sh alloc headNew ubatch t).1.states
        ((placeAt sh alloc headNew ubatch t).1.cache.cells.cell j) =
          (placeAt sh alloc headNew ubatch t).1.cache.cells.cell j := by
      obtain ⟨-, hstates, -⟩ := placeAt_grown hgrown
      refine unwind_free (fun hmem => ?_) _
      rw [hstates, takenBy_cons] at hmem
      exact hmem.elim (fun hhas => hslot' (saved_has.mp hhas)) htaken
    rw [hnow, hcells, afterPlacing_cell, place_size, if_pos hlt]
    rw [(mem_purged _ _).1]
    exact fun hkept => hkept.2 ⟨List.mem_range.mpr hs, hpurges⟩

/-- A lost sequence stays lost. -/
theorem Trial.Lost.place (h : t.Lost c₀) (hsound : t.Sound c₀ head₀ past)
    (hfound : t.cache.findSlot sh ubatch.length = some headNew)
    (hgrown : (mzGrowChunks sh alloc (headNew + ubatch.length) t.cache).2 = true)
    (hcont : c₀.ContinuedBy (past ++ ubatch)) :
    (placeAt sh alloc headNew ubatch t).1.Lost c₀ := by
  obtain ⟨j, s, hs, hlost⟩ := h
  refine ⟨j, s, hs, fun hback => hlost ?_⟩
  obtain ⟨hcells, -, -⟩ := placeAt_grown hgrown
  rcases unwind_place hgrown j with hsame | ⟨-, hslot, hnow, hbefore⟩
  · rwa [hsame] at hback
  · rw [hbefore]
    rw [hnow, hcells, afterPlacing_cell, afterPlacing_outside hsound hfound hcont hslot] at hback
    split at hback
    · exact (((mem_purged _ _).1 s).mp hback).1
    · exact hback

end

end MzCache.Unified
