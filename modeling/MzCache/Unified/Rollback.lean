import MzCache.Unified.Decode

/-!
# What a failed decode leaves

Without a sliding window every slot is empty, so the ubatches of a batch overwrite nothing, the
trial of `prepare` is undone cell by cell, and the heads it found are free again when the ubatches
are applied. The clean-up acts on every cell by itself.
-/

namespace MzCache.Unified

open MzCache MzCache.Lib

/-- An empty cell has no sequence. -/
def Bare (f : Nat → Int × Finset Nat) : Prop := ∀ j, (f j).1 = -1 → (f j).2 = ∅

/-- Every ubatch has a free slot at its head once those before it are placed. -/
def FreeSlots (size : Nat) : List (Nat × List BatchToken) → (Nat → Int × Finset Nat) → Prop
  | [], _ => True
  | (head, ubatch) :: rest, f => head + ubatch.length ≤ size ∧ FreeSlot f head ubatch.length ∧
      FreeSlots size rest (overlay head ubatch f)

/-- Cells with several ubatches placed. -/
def overlays (placed : List (Nat × List BatchToken)) (f : Nat → Int × Finset Nat) :
    Nat → Int × Finset Nat :=
  placed.foldl (fun f x => overlay x.1 x.2 f) f

/-- The tokens of placed ubatches. -/
def tokensOf (placed : List (Nat × List BatchToken)) : List BatchToken :=
  placed.flatMap Prod.snd

/-! ## Placed ubatches -/

section

variable {f : Nat → Int × Finset Nat} {head j size : Nat} {ubatch : List BatchToken}

theorem overlay_token {tok : BatchToken} (h : tok ∈ ubatch) :
    ∃ j, head ≤ j ∧ j < head + ubatch.length ∧ ∀ f, overlay head ubatch f j = tokenCell tok := by
  obtain ⟨i, hi, rfl⟩ := List.getElem_of_mem h
  refine ⟨head + i, by omega, by omega, fun f => ?_⟩
  rw [overlay, if_pos (by omega), tokenAt, Nat.add_sub_cancel_left, List.getD_eq_getElem _ _ hi]

theorem overlay_other (h : ¬ (head ≤ j ∧ j < head + ubatch.length)) :
    overlay head ubatch f j = f j := if_neg h

/-- A cell that holds something is in no free slot. -/
theorem overlay_held (hfree : FreeSlot f head ubatch.length) (h : (f j).1 ≠ -1) :
    overlay head ubatch f j = f j :=
  overlay_other fun hin => h (congrArg Prod.fst (hfree j hin.1 hin.2))

theorem overlay_cases (f : Nat → Int × Finset Nat) (j : Nat) :
    overlay head ubatch f j = f j ∨ ∃ tok ∈ ubatch, overlay head ubatch f j = tokenCell tok := by
  by_cases hin : head ≤ j ∧ j < head + ubatch.length
  · exact .inr ⟨_, tokenAt_mem hin.1 hin.2, if_pos hin⟩
  · exact .inl (overlay_other hin)

theorem Bare.overlay (h : Bare f) (hpos : ∀ tok ∈ ubatch, tok.pos ≠ -1) :
    Bare (overlay head ubatch f) := by
  intro j hj
  rcases overlay_cases f j with heq | ⟨tok, htok, heq⟩
  · rw [heq] at hj ⊢
    exact h j hj
  · rw [heq] at hj
    exact absurd hj (hpos tok htok)

theorem FreeSlots.prefix {rest : List (Nat × List BatchToken)}
    (pre : List (Nat × List BatchToken)) : ∀ {f : Nat → Int × Finset Nat},
    FreeSlots size (pre ++ rest) f → FreeSlots size pre f ∧ FreeSlots size rest (overlays pre f) := by
  induction pre with
  | nil => exact fun h => ⟨trivial, h⟩
  | cons x pre ih =>
      rintro f ⟨hroom, hfree, hrest⟩
      obtain ⟨hpre, hpost⟩ := ih hrest
      exact ⟨⟨hroom, hfree, hpre⟩, hpost⟩

theorem overlays_held (placed : List (Nat × List BatchToken)) : ∀ {f : Nat → Int × Finset Nat},
    FreeSlots size placed f → (f j).1 ≠ -1 → overlays placed f j = f j := by
  induction placed with
  | nil => exact fun _ _ => rfl
  | cons x placed ih =>
      rintro f ⟨-, hfree, hrest⟩ h
      have hsame := overlay_held hfree h
      exact (ih hrest (by rw [hsame]; exact h)).trans hsame

theorem overlays_cases (placed : List (Nat × List BatchToken)) :
    ∀ f : Nat → Int × Finset Nat, overlays placed f j = f j ∨
      ∃ tok ∈ tokensOf placed, overlays placed f j = tokenCell tok := by
  induction placed with
  | nil => exact fun f => .inl rfl
  | cons x placed ih =>
      intro f
      have hstep : overlays (x :: placed) f = overlays placed (overlay x.1 x.2 f) := rfl
      rw [hstep, tokensOf, List.flatMap_cons]
      rcases ih (overlay x.1 x.2 f) with heq | ⟨tok, htok, heq⟩
      · rw [heq]
        refine (overlay_cases f j).imp_right ?_
        rintro ⟨tok, htok, heq⟩
        exact ⟨tok, List.mem_append_left _ htok, heq⟩
      · exact .inr ⟨tok, List.mem_append_right _ htok, heq⟩

/-- Every token of the placed ubatches is in its cell. -/
theorem overlays_token (placed : List (Nat × List BatchToken)) :
    ∀ {f : Nat → Int × Finset Nat}, FreeSlots size placed f → ∀ tok ∈ tokensOf placed,
      tok.pos ≠ -1 → ∃ j < size, overlays placed f j = tokenCell tok := by
  induction placed with
  | nil => exact fun _ tok htok => (List.not_mem_nil htok).elim
  | cons x placed ih =>
      rintro f ⟨hroom, hfree, hrest⟩ tok htok hpos
      rw [tokensOf, List.flatMap_cons] at htok
      rcases List.mem_append.mp htok with htok | htok
      · obtain ⟨j, -, hlt, hcell⟩ := @overlay_token x.1 x.2 tok htok
        refine ⟨j, by omega, ?_⟩
        have hkeep := overlays_held placed hrest (j := j) (by rw [hcell]; exact hpos)
        exact hkeep.trans (hcell f)
      · exact ih hrest tok htok hpos

end

/-! ## The trial -/

section

variable {sh : Shape} {alloc : Alloc}

/-- Without a window a slot is free. -/
theorem findSlot_free (hswa : sh.swaType = .none) {c : Cache} (hbare : Bare c.cells.cell)
    {n head : Nat} (hfound : c.findSlot sh n = some head) :
    head + n ≤ c.cells.size ∧ FreeSlot c.cells.cell head n := by
  obtain ⟨hroom, husable⟩ := findSlot_slot hfound
  refine ⟨hroom, fun j hge hlt => ?_⟩
  have hempty : c.cells.pos j = -1 := by
    obtain ⟨i, rfl⟩ := Nat.exists_eq_add_of_le hge
    rcases husable i (by omega) with hempty | ⟨s, -, hmasked⟩
    · exact of_decide_eq_true hempty
    · rw [Shape.isMaskedSwa, hswa] at hmasked
      exact absurd hmasked Bool.false_ne_true
  exact Prod.ext hempty (hbare j hempty)

/-- The trial of `prepare` finds a free slot for every ubatch, and unwinding it gives the cells
back. -/
theorem placeUbatches_free (hswa : sh.swaType = .none) (ubatches : List (List BatchToken)) :
    ∀ t : Trial, Bare t.cache.cells.cell → (∀ ubatch ∈ ubatches, ∀ tok ∈ ubatch, tok.pos ≠ -1) →
      (placeUbatches sh alloc ubatches t).2 = .all →
      ∃ heads, (placeUbatches sh alloc ubatches t).1.res = t.res ++ heads ∧
        FreeSlots t.cache.cells.size (heads.zip ubatches) t.cache.cells.cell ∧
        (placeUbatches sh alloc ubatches t).1.cache.cells.size = t.cache.cells.size ∧
        ∀ j, unwind j (placeUbatches sh alloc ubatches t).1.states
          ((placeUbatches sh alloc ubatches t).1.cache.cells.cell j) =
            unwind j t.states (t.cache.cells.cell j) := by
  induction ubatches with
  | nil => exact fun t _ _ _ => ⟨[], (List.append_nil _).symm, trivial, rfl, fun _ => rfl⟩
  | cons ubatch ubatches ih =>
      intro t hbare hpos hall
      unfold placeUbatches at hall ⊢
      cases hfound : t.cache.findSlot sh ubatch.length with
      | none =>
          rw [hfound] at hall
          cases hall
      | some head =>
          simp only [hfound] at hall ⊢
          split at hall
          · rename_i hok
            rw [if_pos hok]
            obtain ⟨hroom, hfree⟩ := findSlot_free hswa hbare hfound
            obtain ⟨hcell, hsize⟩ := applyUbatch_free hfree hok
            have hgrown : (mzGrowChunks sh alloc (head + ubatch.length) t.cache).2 = true := by
              by_contra hfailed
              rw [(placeAt_threw hfailed).2.2] at hok
              cases hok
            have hnext := ih (placeAt sh alloc head ubatch t).1
            have hcell' : (placeAt sh alloc head ubatch t).1.cache.cells.cell =
              overlay head ubatch t.cache.cells.cell := hcell
            have hsize' : (placeAt sh alloc head ubatch t).1.cache.cells.size =
              t.cache.cells.size := hsize
            rw [hcell', hsize'] at hnext
            obtain ⟨heads, hres, hslots, hsizes, hunwind⟩ := hnext
              (hbare.overlay (hpos ubatch List.mem_cons_self))
              (fun u hu => hpos u (List.mem_cons_of_mem _ hu)) hall
            refine ⟨head :: heads, ?_, ⟨hroom, hfree, hslots⟩, hsizes, fun j => ?_⟩
            · rw [hres]
              exact List.append_assoc _ _ _
            · rw [hunwind]
              rcases unwind_place hgrown j with hsame | ⟨-, hout, hnow, hold⟩
              · rw [← hsame, hcell']
              · rw [hold, ← hcell', hnow, hcell']
                exact overlay_other hout
          · cases hall

/-- What a prepared batch finds. -/
theorem prepare_free (hswa : sh.swaType = .none) {c c' : Cache}
    {ubatches : List (List BatchToken)} {heads : List Nat} (hbare : Bare c.cells.cell)
    (hpos : ∀ ubatch ∈ ubatches, ∀ tok ∈ ubatch, tok.pos ≠ -1)
    (hprep : c.prepare sh alloc ubatches = (c', some heads)) (hne : heads ≠ []) :
    c'.cells.cell = c.cells.cell ∧ c'.cells.size = c.cells.size ∧
      FreeSlots c.cells.size (heads.zip ubatches) c.cells.cell := by
  have hfree := @placeUbatches_free sh alloc hswa ubatches ⟨c, [], []⟩ hbare hpos
  unfold Cache.prepare at hprep
  dsimp only at hprep
  cases hend : (placeUbatches sh alloc ubatches ⟨c, [], []⟩).2 with
  | threw =>
      rw [hend] at hprep
      cases (Prod.mk.inj hprep).2
  | noSlot =>
      rw [hend] at hprep
      exact absurd (Option.some.inj (Prod.mk.inj hprep).2).symm hne
  | all =>
      rw [hend] at hprep
      obtain ⟨hcache, hheads⟩ := Prod.mk.inj hprep
      obtain ⟨found, hres, hslots, hsize, hunwind⟩ := hfree hend
      obtain rfl : found = heads := by
        rw [← Option.some.inj hheads, hres]
        rfl
      subst hcache
      refine ⟨funext fun j => ?_, ?_, hslots⟩
      · rw [restore_cell]
        exact hunwind j
      · refine Eq.trans ?_ hsize
        generalize (placeUbatches sh alloc ubatches ⟨c, [], []⟩).1.cache = d
        induction (placeUbatches sh alloc ubatches ⟨c, [], []⟩).1.states generalizing d with
        | nil => rfl
        | cons saved states ih => exact (ih _).trans (Cells.set_size _ _ _)

/-! ## The loop and the clean-up -/

/-- Where the loop fails: at a ubatch of the rest, with the ones before it placed. -/
theorem decodeFrom_error {computes : Nat → Bool} {size : Nat} {before after : Cache}
    {ubatch : List BatchToken} (rest : List (Nat × List BatchToken)) :
    ∀ {k : Nat} {past past' : List BatchToken} {c : Cache}, c.cells.size = size →
      FreeSlots size rest c.cells.cell →
      decodeFrom sh alloc computes k rest past c = .error before past' ubatch after →
      ∃ pre head post, rest = pre ++ (head, ubatch) :: post ∧ past' = past ++ tokensOf pre ∧
        before.cells.size = size ∧ before.cells.cell = overlays pre c.cells.cell ∧
        (applyUbatch sh alloc head ubatch before).2 = true ∧
        after = (applyUbatch sh alloc head ubatch before).1.rollback ubatch := by
  induction rest with
  | nil =>
      intro k past past' c _ _ h
      cases h
  | cons x rest ih =>
      obtain ⟨head, ub⟩ := x
      rintro k past past' c hsize ⟨-, hfree, hrest⟩ h
      unfold decodeFrom at h
      dsimp only at h
      split at h
      · rename_i hok
        obtain ⟨hcell, hsize'⟩ := applyUbatch_free hfree hok
        split at h
        · rw [← hcell] at hrest
          obtain ⟨pre, head', post, rfl, rfl, hbsize, hbcell, hback⟩ :=
            ih (hsize'.trans hsize) hrest h
          refine ⟨(head, ub) :: pre, head', post, rfl, ?_, hbsize, ?_, hback⟩
          · rw [tokensOf, tokensOf, List.flatMap_cons, List.append_assoc]
          · rw [hbcell, hcell]
            rfl
        · cases h
          exact ⟨[], head, rest, rfl, (List.append_nil _).symm, hsize, rfl, hok, rfl⟩
      · cases h

end

/-- What the clean-up takes from a cell: a sequence from its least first position on. -/
def RolledBack (ubatch : List BatchToken) (s : Nat) (p : Int) : Prop :=
  rangeFrom (rollbackPosMin ubatch s) ≤ p ∧ p < posLimit

instance (ubatch : List BatchToken) (s : Nat) (p : Int) : Decidable (RolledBack ubatch s p) := by
  unfold RolledBack
  infer_instance

theorem rollbackSeq_cell (ubatch : List BatchToken) (c : Cache) (s j : Nat) :
    (rollbackSeq ubatch c s).cells.cell j = if j < c.cells.size then
      dropWhere (RolledBack ubatch) (c.cells.cell j) s else c.cells.cell j := by
  unfold rollbackSeq
  by_cases hnone : rollbackPosMin ubatch s = posLimit
  · have hkeep : ¬ (s ∈ (c.cells.cell j).2 ∧ RolledBack ubatch s (c.cells.cell j).1) := by
      rintro ⟨-, hge, hlt⟩
      rw [hnone] at hge
      exact absurd (lt_of_le_of_lt hge hlt) (by decide)
    rw [if_pos hnone, dropWhere, if_neg hkeep, ite_self]
  · rw [if_neg hnone, seqRm_cell]
    refine if_congr Iff.rfl (if_congr ?_ rfl rfl) rfl
    exact Iff.rfl

/-- What the clean-up leaves of a cell. -/
structure CleanedUp (ubatch : List BatchToken) (x y : Int × Finset Nat) : Prop where
  seq : ∀ s, s ∈ y.2 ↔ s ∈ x.2 ∧ ¬ (s < llamaMaxSeq ∧ RolledBack ubatch s x.1)
  pos : ∀ s ∈ y.2, y.1 = x.1
  same : (∀ s ∈ x.2, ¬ RolledBack ubatch s x.1) → y = x

theorem rollbackSeqs_cell (ubatch : List BatchToken) (seqs : List Nat) (j : Nat) : ∀ c : Cache,
    j < c.cells.size → (seqs.foldl (rollbackSeq ubatch) c).cells.cell j =
      seqs.foldl (dropWhere (RolledBack ubatch)) (c.cells.cell j) := by
  induction seqs with
  | nil => exact fun c _ => rfl
  | cons s seqs ih =>
      intro c hj
      have hsize : (rollbackSeq ubatch c s).cells.size = c.cells.size := by
        unfold rollbackSeq
        split
        · rfl
        · exact Cache.seqRm_size _ _ _ _
      rw [List.foldl_cons, List.foldl_cons, ih _ (hsize ▸ hj), rollbackSeq_cell, if_pos hj]

/-- The clean-up acts on every cell by itself. -/
theorem rollback_cell (ubatch : List BatchToken) (c : Cache) {j : Nat} (hj : j < c.cells.size) :
    CleanedUp ubatch (c.cells.cell j) ((c.rollback ubatch).cells.cell j) := by
  have hrange : ∀ s, s ∈ List.range llamaMaxSeq ↔ s < llamaMaxSeq := fun s => List.mem_range
  unfold Cache.rollback
  generalize List.range llamaMaxSeq = seqs at hrange
  rw [rollbackSeqs_cell ubatch seqs j c hj]
  obtain ⟨hseq, hpos⟩ := @mem_dropped (RolledBack ubatch) _ seqs (c.cells.cell j)
  refine ⟨fun s => ?_, hpos, fun hkeep => ?_⟩
  · rw [hseq, hrange]
  · exact dropped_same seqs fun s _ ⟨hs, hback⟩ => hkeep s hs hback

/-- `pos_min[s]` is a bound exactly for the tokens that have `s` first. -/
theorem rollbackPosMin_le (s : Nat) (p : Int) (ubatch : List BatchToken) :
    rollbackPosMin ubatch s ≤ p ↔
      posLimit ≤ p ∨ ∃ tok ∈ ubatch, tok.firstSeq = s ∧ tok.pos ≤ p := by
  unfold rollbackPosMin
  generalize posLimit = m
  induction ubatch generalizing m with
  | nil => simp
  | cons tok ubatch ih =>
      rw [List.foldl_cons, ih]
      split <;> simp_all [or_assoc]

/-- What is known of a decode that returned an error. -/
structure FailedDecode (batch past ubatch : List BatchToken) (c before after : Cache) (head : Nat) :
    Prop where
  tokens : ∀ tok ∈ past ++ ubatch, tok ∈ batch
  room : head + ubatch.length ≤ before.cells.size
  free : FreeSlot before.cells.cell head ubatch.length
  origin : ∀ j, before.cells.cell j = c.cells.cell j ∨
    ∃ tok ∈ past, before.cells.cell j = tokenCell tok
  present : ∀ tok ∈ past, ∃ j < before.cells.size, before.cells.cell j = tokenCell tok
  size : before.cells.size = c.cells.size
  cells : ∀ j < before.cells.size,
    CleanedUp ubatch (overlay head ubatch before.cells.cell j) (after.cells.cell j)

theorem decode_error {sh : Shape} {alloc : Alloc} {computes : Nat → Bool} {nUbatch : Nat}
    {batch past ubatch : List BatchToken} {c before after : Cache} (hswa : sh.swaType = .none)
    (hbare : Bare c.cells.cell) (hpos : ∀ tok ∈ batch, tok.pos ≠ -1)
    (h : c.decode sh alloc computes nUbatch batch = .error before past ubatch after) :
    ∃ head, FailedDecode batch past ubatch c before after head := by
  have hin : ∀ ub ∈ splitSimple nUbatch [] batch, ∀ tok ∈ ub, tok ∈ batch := fun ub hub tok htok =>
    by simpa using splitSimple_mem batch [] ub hub tok htok
  unfold Cache.decode at h
  dsimp only at h
  split at h
  · cases h
  · cases h
  · rename_i heads hne hheads
    obtain ⟨hcell, hsize, hslots⟩ := prepare_free hswa hbare
      (fun ub hub tok htok => hpos tok (hin ub hub tok htok)) (Prod.ext rfl hheads) hne
    rw [← hcell] at hslots
    obtain ⟨pre, head, post, hrest, rfl, hbsize, hbcell, hok, rfl⟩ :=
      decodeFrom_error _ hsize hslots h
    rw [hrest] at hslots
    obtain ⟨hpre, hroom, hfree, -⟩ := hslots.prefix pre
    rw [hcell] at hbcell hpre
    rw [hcell, ← hbcell] at hfree
    have hzip : ∀ x ∈ pre ++ (head, ubatch) :: post, ∀ tok ∈ x.2, tok ∈ batch := by
      rintro ⟨i, ub⟩ hx tok htok
      rw [← hrest] at hx
      exact hin ub (List.of_mem_zip hx).2 tok htok
    have hpast : ∀ tok ∈ tokensOf pre, tok ∈ batch := by
      intro tok htok
      obtain ⟨x, hx, htok⟩ := List.mem_flatMap.mp htok
      exact hzip x (List.mem_append_left _ hx) tok htok
    obtain ⟨hplaced, hplacedSize⟩ := applyUbatch_free hfree hok
    refine ⟨head, ?_, hbsize ▸ hroom, hfree, fun j => ?_, fun tok htok => ?_, hbsize,
      fun j hj => ?_⟩
    · intro tok htok
      rcases List.mem_append.mp htok with htok | htok
      · exact hpast tok htok
      · exact hzip (head, ubatch) (by simp) tok htok
    · rw [hbcell]
      exact overlays_cases pre _
    · rw [hbsize, hbcell]
      exact overlays_token pre hpre tok htok (hpos tok (hpast tok htok))
    · rw [← hplaced]
      exact rollback_cell ubatch _ (hplacedSize ▸ hj)

end MzCache.Unified
