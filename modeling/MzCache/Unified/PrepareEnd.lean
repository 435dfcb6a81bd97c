import MzCache.Unified.PrepareRuns

/-!
# How a trial ends

A trial that keeps to the condition ends with the cells and the head it began with; one
that breaks it ends with other cells.
-/

namespace MzCache.Unified

open MzCache MzCache.Lib

section

variable {sh : Shape} {alloc : Alloc} {c₀ : Cells} {head₀ : Nat} {past : List BatchToken}
  {t : Trial}

/-! ## Restoring all slots -/

theorem restore_rule {P : Set Nat → Cells → Prop} {F : Set (Nat × Int)} {n : Nat}
    (htidy : ∀ {D c}, P D c → c.Tidy ∧ c.size = n)
    (hfresh : ∀ {D c c' i N}, P D c → i ∈ D → N ⊆ F →
      c.Touches c' i (entriesOf (c.cell i)) N → P D c')
    (hback : ∀ {D c c' i}, P D c → i ∈ D →
      c.Touches c' i (entriesOf (c.cell i)) (entriesOf (c₀.cell i)) → c'.cell i = c₀.cell i →
      P (D \ {i}) c') (states : List Saved) : ∀ {c : Cache},
    P {i | TakenBy states i} c.cells → (∀ saved ∈ states, saved.Fits n) → FreshBelow F states →
    (∀ j, unwind j states (c.cells.cell j) = c₀.cell j) →
    P ∅ (states.foldl restoreSlot c).cells := by
  induction states with
  | nil =>
      intro c h _ _ _
      have hnone : ({i | TakenBy [] i} : Set Nat) = ∅ := by
        ext i
        simp [TakenBy]
      rwa [hnone] at h
  | cons saved states ih =>
      intro c h hfits hbelow hunwound
      have hfit := hfits saved List.mem_cons_self
      have hsplit : ({i | TakenBy (saved :: states) i} : Set Nat) =
          {i | TakenBy states i} ∪ slotCells saved.headNew saved.cells.length := by
        ext i
        simp only [Set.mem_ofPred_eq, Set.mem_union, takenBy_cons]
        exact or_comm
      rw [hsplit] at h
      have hone : P {i | TakenBy states i} (restoreSlot c saved).cells := by
        refine restoreSlot_rule htidy hfresh hback _ saved.cells saved.headNew h hfit.room hfit.empty
          (fun i hi htaken => hbelow.1 i hi htaken) (fun i hi hfree => ?_)
        have hi' := hunwound i
        rwa [unwind_cons, if_pos (show saved.Has i from hi), unwind_free hfree] at hi'
      refine ih hone (fun other hs => hfits other (List.mem_cons_of_mem _ hs)) hbelow.2 fun j => ?_
      rw [restoreSlot_cell, ← unwind_cons]
      exact hunwound j

theorem ContinuedBy.not_listed (hcont : c₀.ContinuedBy past) :
    ∀ e ∈ entriesOfTokens past, e ∉ c₀.view.index := by
  rintro ⟨s, p⟩ ⟨tok, htok, hs, hp⟩ hlisted
  have hlt := hcont.listed tok htok s (List.mem_toFinset.mp hs) p hlisted
  have heq : p = tok.pos := hp
  omega

theorem ContinuedBy.not_held (h₀ : c₀.Tidy) (hcont : c₀.ContinuedBy past) (j : Nat) :
    ∀ e ∈ entriesOfTokens past, e ∉ entriesOf (c₀.cell j) := by
  rintro ⟨s, p⟩ ⟨tok, htok, hs, hp⟩ ⟨hs', hp'⟩
  have hlt := hcont.held tok htok s (List.mem_toFinset.mp hs) j
    (h₀.lt_size (h₀.pos_of_mem hs')) hs'
  have heq : p = tok.pos := hp
  have heq' : p = c₀.pos j := hp'
  omega

/-- With all slots listed, restoring gives the old cells and the old head. -/
theorem Trial.Whole.restored (h : t.Whole c₀ past) (hsound : t.Sound c₀ head₀ past)
    (h₀ : c₀.Tidy) (hcont : c₀.ContinuedBy past)
    (hlisted : ∀ j, TakenBy t.states j → entriesOf (c₀.cell j) ⊆ c₀.view.index) :
    (t.states.foldl restoreSlot t.cache).cells = c₀ ∧
      (t.states.foldl restoreSlot t.cache).head = head₀ := by
  have hend := @restore_rule c₀
    (fun D c => c₀.Spared (entriesOfTokens past) D c ∧
      ∀ j ∈ D, entriesOf (c₀.cell j) ⊆ c₀.view.index)
    (entriesOfTokens past) c₀.size (fun hp => ⟨hp.1.tidy, hp.1.size⟩)
    (fun {D c c' i N} hp hi hN ht => ?_) (fun {D c c' i} hp hi ht hcell => ?_) t.states t.cache
    ⟨h.spared, hlisted⟩ hsound.fits hsound.fresh h.unwound
  · refine ⟨hend.1.same h₀ (ContinuedBy.not_listed hcont), ?_⟩
    rw [restore_head]
    exact hsound.head
  · have htake := hp.1.take ht
    rw [Set.union_eq_left.mpr hN, Set.insert_eq_of_mem hi] at htake
    exact ⟨htake, hp.2⟩
  · exact ⟨hp.1.giveBack ht hi hcell (hp.2 i hi), fun j hj => hp.2 j hj.1⟩

/-- Restoring puts the entries of every taken cell into the index. -/
theorem Trial.Whole.relisted (h : t.Whole c₀ past) (hsound : t.Sound c₀ head₀ past)
    (h₀ : c₀.Tidy) (hcont : c₀.ContinuedBy past) {j : Nat} (hj : TakenBy t.states j) :
    entriesOf (c₀.cell j) ⊆ (t.states.foldl restoreSlot t.cache).cells.view.index := by
  have hend := @restore_rule c₀
    (fun D c => c₀.Taken (entriesOfTokens past) D c ∧
      ∀ j, TakenBy t.states j → j ∉ D → entriesOf (c₀.cell j) ⊆ c.view.index)
    (entriesOfTokens past) c₀.size (fun hp => ⟨hp.1.tidy, hp.1.size⟩)
    (fun {D c c' i N} hp hi hN ht => ?_) (fun {D c c' i} hp hi ht hcell => ?_) t.states t.cache
    ⟨h.spared.toTaken, fun j hj hfree => absurd hj hfree⟩ hsound.fits hsound.fresh h.unwound
  · exact hend.2 j hj fun hmem => hmem
  · have htake := hp.1.take ht
    rw [Set.union_eq_left.mpr hN, Set.insert_eq_of_mem hi] at htake
    refine ⟨htake, fun k hk hfree e he => ?_⟩
    rw [ht.index]
    exact Or.inl ⟨hp.2 k hk hfree he, fun hmem =>
      ContinuedBy.not_held h₀ hcont k e (hp.1.inside i hi hmem) he⟩
  · refine ⟨hp.1.giveBack ht, fun k hk hfree e he => ?_⟩
    rw [ht.index]
    by_cases hki : k = i
    · exact Or.inr (hki ▸ he)
    · refine Or.inl ⟨hp.2 k hk (fun hmem => hfree ⟨hmem, hki⟩) he, fun hmem => ?_⟩
      exact ContinuedBy.not_held h₀ hcont k e (hp.1.inside i hi hmem) he

/-! ## Whole trials -/

/-- The cells that a trial with this outcome leaves are not the old ones. -/
def Ruined (c₀ : Cells) (r : Trial × Placed) : Prop :=
  (r.2 = .threw ∧ r.1.cache.cells ≠ c₀) ∨
    (r.2 ≠ .threw ∧ (r.1.states.foldl restoreSlot r.1.cache).cells ≠ c₀)

/-- The trial from `t` with this outcome leaves the old cells and head, or has failed before it
placed anything. -/
def Undone (c₀ : Cells) (head₀ : Nat) (t : Trial) (r : Trial × Placed) : Prop :=
  (r.2 = .threw ∧ t.states = [] ∧ r.1.cache.cells = t.cache.cells ∧
    r.1.cache.head = t.cache.head) ∨
  (r.2 ≠ .threw ∧ (r.1.states.foldl restoreSlot r.1.cache).cells = c₀ ∧
    (r.1.states.foldl restoreSlot r.1.cache).head = head₀)

theorem Trial.Sound.not_same (h : t.Sound c₀ head₀ past) (hne : t.states ≠ []) :
    t.cache.cells ≠ c₀ := by
  obtain ⟨j, hj⟩ := h.dirty hne
  intro heq
  rw [heq] at hj
  exact hj subset_rfl

theorem Trial.Lost.not_same (h : t.Lost c₀) :
    (t.states.foldl restoreSlot t.cache).cells ≠ c₀ := by
  obtain ⟨j, s, hs, hlost⟩ := h
  intro heq
  have hcell := restore_cell t.states j t.cache
  rw [heq] at hcell
  rw [← hcell] at hlost
  exact hlost hs

theorem ContinuedBy.before {toks : List BatchToken} (h : c₀.ContinuedBy (past ++ toks)) :
    c₀.ContinuedBy past :=
  ⟨fun tok htok => h.seqs tok (List.mem_append_left _ htok),
    fun tok htok => h.pos tok (List.mem_append_left _ htok),
    fun tok htok => h.listed tok (List.mem_append_left _ htok),
    fun tok htok => h.held tok (List.mem_append_left _ htok),
    (List.pairwise_append.mp h.increasing).1⟩

theorem ContinuedBy.first {ubatch : List BatchToken} {ubatches : List (List BatchToken)}
    (h : c₀.ContinuedBy (past ++ (ubatch :: ubatches).flatten)) :
    c₀.ContinuedBy (past ++ ubatch) ∧ c₀.ContinuedBy ((past ++ ubatch) ++ ubatches.flatten) := by
  rw [List.flatten_cons, ← List.append_assoc] at h
  exact ⟨ContinuedBy.before h, h⟩

/-- A trial that fails to grow after its first ubatch has shown its tokens. -/
theorem placeUbatches_threw (h : t.Sound c₀ head₀ past) (hne : t.states ≠ [])
    {headNew : Nat} {ubatch : List BatchToken}
    (hfailed : ¬ (mzGrowChunks sh alloc (headNew + ubatch.length) t.cache).2 = true) :
    Ruined c₀ ((placeAt sh alloc headNew ubatch t).1, .threw) := by
  refine .inl ⟨rfl, ?_⟩
  rw [(placeAt_threw hfailed).1]
  exact h.not_same hne

/-- One ubatch of the loop: no slot, a slot it grows into, or an exception. -/
theorem placeUbatches_cases {Q : Trial × Placed → Prop} (ubatch : List BatchToken)
    (ubatches : List (List BatchToken))
    (hnone : t.cache.findSlot sh ubatch.length = none → Q (t, .noSlot))
    (hgrown : ∀ headNew, t.cache.findSlot sh ubatch.length = some headNew →
      (mzGrowChunks sh alloc (headNew + ubatch.length) t.cache).2 = true →
      Q (placeUbatches sh alloc ubatches (placeAt sh alloc headNew ubatch t).1))
    (hfailed : ∀ headNew, t.cache.findSlot sh ubatch.length = some headNew →
      ¬ (mzGrowChunks sh alloc (headNew + ubatch.length) t.cache).2 = true →
      Q ((placeAt sh alloc headNew ubatch t).1, .threw)) :
    Q (placeUbatches sh alloc (ubatch :: ubatches) t) := by
  rw [placeUbatches]
  split
  · rename_i hfound
    exact hnone hfound
  · rename_i headNew hfound
    dsimp only
    by_cases hok : (mzGrowChunks sh alloc (headNew + ubatch.length) t.cache).2 = true
    · rw [if_pos (placeAt_grown hok).2.2]
      exact hgrown headNew hfound hok
    · rw [if_neg (by rw [(placeAt_threw hok).2.2]; exact Bool.false_ne_true)]
      exact hfailed headNew hfound hok

/-- What is lost in a trial is not there in the end. -/
theorem placeUbatches_lost (ubatches : List (List BatchToken)) : ∀ {past : List BatchToken}
    {t : Trial}, t.Sound c₀ head₀ past → t.states ≠ [] → t.Lost c₀ →
    c₀.ContinuedBy (past ++ ubatches.flatten) → (∀ ubatch ∈ ubatches, ubatch ≠ []) →
    Ruined c₀ (placeUbatches sh alloc ubatches t) := by
  induction ubatches with
  | nil => exact fun _ _ hlost _ _ => .inr ⟨nofun, hlost.not_same⟩
  | cons ubatch ubatches ih =>
      intro past t hsound hne hlost hcont hnonempty
      obtain ⟨hfirst, hrest⟩ := ContinuedBy.first hcont
      refine placeUbatches_cases ubatch ubatches (fun _ => .inr ⟨nofun, hlost.not_same⟩)
        (fun headNew hfound hgrown => ?_)
        (fun headNew _ hfailed => placeUbatches_threw hsound hne hfailed)
      refine ih (hsound.place (hnonempty ubatch List.mem_cons_self) hfound hgrown hfirst) ?_
        (hlost.place hsound hfound hgrown hfirst) hrest
        fun u hu => hnonempty u (List.mem_cons_of_mem _ hu)
      rw [(placeAt_grown hgrown).2.1]
      exact List.cons_ne_nil _ _

/-- A taken cell that was not listed is listed in the end. -/
theorem placeUbatches_unlisted (h₀ : c₀.Tidy) {j : Nat} {e : Nat × Int}
    (he : e ∈ entriesOf (c₀.cell j)) (hmissing : e ∉ c₀.view.index)
    (ubatches : List (List BatchToken)) : ∀ {past : List BatchToken}
    {t : Trial}, t.Sound c₀ head₀ past → t.Whole c₀ past → TakenBy t.states j →
    c₀.ContinuedBy (past ++ ubatches.flatten) → (∀ ubatch ∈ ubatches, ubatch ≠ []) →
    Ruined c₀ (placeUbatches sh alloc ubatches t) := by
  have hend : ∀ {past : List BatchToken} {t : Trial}, t.Sound c₀ head₀ past → t.Whole c₀ past →
      TakenBy t.states j → c₀.ContinuedBy past →
      (t.states.foldl restoreSlot t.cache).cells ≠ c₀ := by
    intro past t hsound hwhole htaken hcont heq
    have hin := hwhole.relisted hsound h₀ hcont htaken he
    rw [heq] at hin
    exact hmissing hin
  induction ubatches with
  | nil =>
      intro past t hsound hwhole htaken hcont _
      exact .inr ⟨nofun, hend hsound hwhole htaken (ContinuedBy.before hcont)⟩
  | cons ubatch ubatches ih =>
      intro past t hsound hwhole htaken hcont hnonempty
      obtain ⟨hfirst, hrest⟩ := ContinuedBy.first hcont
      have hne : t.states ≠ [] := by
        obtain ⟨saved, hmem, -⟩ := htaken
        exact List.ne_nil_of_mem hmem
      refine placeUbatches_cases ubatch ubatches
        (fun _ => .inr ⟨nofun, hend hsound hwhole htaken (ContinuedBy.before hcont)⟩)
        (fun headNew hfound hgrown => ?_)
        (fun headNew _ hfailed => placeUbatches_threw hsound hne hfailed)
      have hnext := hsound.place (hnonempty ubatch List.mem_cons_self) hfound hgrown hfirst
      have hlater := fun u hu => hnonempty u (List.mem_cons_of_mem _ hu)
      have hstates := (placeAt_grown hgrown).2.1
      by_cases hspares : t.PurgeSpares headNew ubatch
      · refine ih hnext (hwhole.place hsound hfound hgrown hfirst hspares) ?_ hrest hlater
        rw [hstates, takenBy_cons]
        exact .inr htaken
      · refine placeUbatches_lost ubatches hnext ?_
          (hwhole.lost hsound hfound hgrown hfirst hspares) hrest hlater
        rw [hstates]
        exact List.cons_ne_nil _ _

/-- A trial that breaks the condition leaves other cells. -/
theorem placeUbatches_ruined (h₀ : c₀.Tidy) (ubatches : List (List BatchToken)) :
    ∀ {past : List BatchToken} {t : Trial}, t.Sound c₀ head₀ past → t.Whole c₀ past →
    c₀.ContinuedBy (past ++ ubatches.flatten) → (∀ ubatch ∈ ubatches, ubatch ≠ []) →
    ¬ t.Keeps sh alloc c₀ ubatches → Ruined c₀ (placeUbatches sh alloc ubatches t) := by
  induction ubatches with
  | nil => exact fun _ _ _ _ hbreaks => absurd trivial hbreaks
  | cons ubatch ubatches ih =>
      intro past t hsound hwhole hcont hnonempty hbreaks
      obtain ⟨hfirst, hrest⟩ := ContinuedBy.first hcont
      have hlater := fun u hu => hnonempty u (List.mem_cons_of_mem _ hu)
      rw [Trial.Keeps] at hbreaks
      push Not at hbreaks
      obtain ⟨headNew, hfound, hbreaks⟩ := hbreaks
      have hfound : t.cache.findSlot sh ubatch.length = some headNew := hfound
      refine placeUbatches_cases ubatch ubatches (fun hnone => ?_)
        (fun headNew' hfound' hgrown => ?_) (fun headNew' hfound' hfailed => ?_)
      · rw [hnone] at hfound
        cases hfound
      · obtain rfl : headNew = headNew' := Option.some.inj (hfound.symm.trans hfound')
        rw [if_pos hgrown] at hbreaks
        have hnext := hsound.place (hnonempty ubatch List.mem_cons_self) hfound hgrown hfirst
        have hstates := (placeAt_grown hgrown).2.1
        by_cases hspares : t.PurgeSpares headNew ubatch
        · have hkept := hwhole.place hsound hfound hgrown hfirst hspares
          by_cases hlisted : t.SlotListed c₀ headNew ubatch.length
          · exact ih hnext hkept hrest hlater fun hkeeps => hbreaks ⟨hlisted, hspares, hkeeps⟩
          · unfold Trial.SlotListed at hlisted
            push Not at hlisted
            obtain ⟨j, hj, -, s, hs, hmissing⟩ := hlisted
            refine @placeUbatches_unlisted sh alloc c₀ head₀ h₀ j (s, c₀.pos j) ⟨hs, rfl⟩ hmissing
              ubatches _ _ hnext hkept ?_ hrest hlater
            rw [hstates, takenBy_cons]
            exact .inl (saved_has.mpr (by simpa [slotCells] using hj))
        · refine placeUbatches_lost ubatches hnext ?_
            (hwhole.lost hsound hfound hgrown hfirst hspares) hrest hlater
          rw [hstates]
          exact List.cons_ne_nil _ _
      · obtain rfl : headNew = headNew' := Option.some.inj (hfound.symm.trans hfound')
        rw [if_neg hfailed] at hbreaks
        exact placeUbatches_threw hsound hbreaks hfailed

/-- A trial that keeps to the condition is undone: by restoring the slots, or because nothing was
placed when growth failed. -/
theorem placeUbatches_undone (h₀ : c₀.Tidy) (ubatches : List (List BatchToken)) :
    ∀ {past : List BatchToken} {t : Trial}, t.Sound c₀ head₀ past → t.Whole c₀ past →
    (∀ j, TakenBy t.states j → entriesOf (c₀.cell j) ⊆ c₀.view.index) →
    c₀.ContinuedBy (past ++ ubatches.flatten) → (∀ ubatch ∈ ubatches, ubatch ≠ []) →
    t.Keeps sh alloc c₀ ubatches →
    Undone c₀ head₀ t (placeUbatches sh alloc ubatches t) := by
  induction ubatches with
  | nil =>
      intro past t hsound hwhole hlisted hcont _ _
      exact .inr ⟨nofun, hwhole.restored hsound h₀ (ContinuedBy.before hcont) hlisted⟩
  | cons ubatch ubatches ih =>
      intro past t hsound hwhole hlisted hcont hnonempty hkeeps
      obtain ⟨hfirst, hrest⟩ := ContinuedBy.first hcont
      rw [Trial.Keeps] at hkeeps
      refine placeUbatches_cases ubatch ubatches (fun _ => ?_) (fun headNew hfound hgrown => ?_)
        (fun headNew hfound hfailed => ?_)
      · exact .inr ⟨nofun, hwhole.restored hsound h₀ (ContinuedBy.before hcont) hlisted⟩
      · have hstep := hkeeps headNew hfound
        rw [if_pos hgrown] at hstep
        obtain ⟨hslot, hspares, hlater⟩ := hstep
        have hstates := (placeAt_grown hgrown).2.1
        have hnext := ih (hsound.place (hnonempty ubatch List.mem_cons_self) hfound hgrown hfirst)
          (hwhole.place hsound hfound hgrown hfirst hspares) (fun j hj => ?_) hrest
          (fun u hu => hnonempty u (List.mem_cons_of_mem _ hu)) hlater
        · -- a later ubatch must not fail to grow
          refine hnext.imp_left fun ⟨_, hnil, _⟩ => ?_
          rw [hstates] at hnil
          cases hnil
        · rw [hstates, takenBy_cons] at hj
          by_cases htaken : TakenBy t.states j
          · exact hlisted j htaken
          · rintro ⟨s, p⟩ ⟨hs, hp⟩
            have hin := saved_has.mp (hj.resolve_right htaken)
            have hmem := hslot j (by simpa [slotCells] using hin) htaken s hs
            obtain rfl : p = c₀.pos j := hp
            exact hmem
      · have hstep := hkeeps headNew hfound
        rw [if_neg hfailed] at hstep
        obtain ⟨hcells, hhead, -⟩ := placeAt_threw hfailed
        exact .inl ⟨rfl, hstep, hcells, hhead⟩

end

end MzCache.Unified
