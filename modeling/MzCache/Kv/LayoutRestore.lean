import MzCache.Kv.Layout

/-!
# Restoring and offloading keep the layout

After a decompression the arenas are cut down to what the surviving chunks need. The
survivors are the older part of each layer's stack, so the cut falls exactly behind the
youngest of them. Offloading and reloading move a layer's arenas to its swap file and
back without changing a byte in use.
-/

namespace MzCache

open MzCache.Lib

section

variable {cfg : Config} {s s' : KvState}

/-! ## The last arena in use -/

/-- The fold of `clean_after_decompress` over one layer's chunks. -/
def usedStep (s : KvState) (last : Int × Nat) (e : Cell) : Int × Nat :=
  updateLastUsed (updateLastUsed last (s.kComp e.1 e.2)) (s.vComp e.1 e.2)

/-- The loop over all chunks of a layer visits the compressed ones in order. -/
theorem lastUsed_eq_foldl {l : Nat} {row : List Cell} (hsorted : row.Pairwise CellLt)
    (hrow : ∀ e, e ∈ row ↔ e.1 = l ∧ e.2 < s.numChunksPerTensor ∧ s.states e.1 e.2 = .compressed) :
    lastUsed s l = row.foldl (usedStep s) (-1, 0) := by
  have heq : row = ((List.range s.numChunksPerTensor).filter
      fun c => decide (s.states l c = .compressed)).map (Prod.mk l) := by
    refine eq_of_sorted hsorted ?_ ?_
    · rw [List.pairwise_map]
      exact (List.pairwise_lt_range.filter _).imp fun h => Or.inr ⟨rfl, h⟩
    · intro e
      rw [hrow, List.mem_map]
      constructor
      · rintro ⟨h1, h2, h3⟩
        exact ⟨e.2, by simp [h2, ← h1, h3], by rw [← h1]⟩
      · rintro ⟨c, hc, rfl⟩
        rw [List.mem_filter, List.mem_range, decide_eq_true_eq] at hc
        exact ⟨rfl, hc.1, hc.2⟩
  rw [heq, List.foldl_map, List.foldl_filter]
  unfold lastUsed usedStep
  simp only [decide_eq_true_eq]

/-- Arena and end of a chunk, as the fold keeps them. -/
def KvState.mark (s : KvState) (e : Cell) : Int × Nat := ((s.span e).stack, (s.span e).stop)

/-- The record's end, taken in `size_t`. -/
theorem chunkEnd_of_small (cc : CompressedChunk) (h0 : 0 ≤ cc.offset)
    (hlt : (cc.offset + cc.compSize).toNat < 2 ^ 31) :
    ((cc.offset + cc.compSize) % 2 ^ 64).toNat = (cc.offset + cc.compSize).toNat := by
  rw [Int.emod_eq_of_lt (by omega) (by omega)]

/-- The chunk on top of a stack fixes the last arena in use. -/
theorem usedStep_first {e : Cell} (ha : Adjacent s e) (hlt : (s.span e).stop < 2 ^ 31) :
    usedStep s (-1, 0) e = s.mark e := by
  obtain ⟨hstack, hnn, hnext⟩ := ha
  unfold KvState.mark
  simp only [KvState.span] at hlt ⊢
  have hk := chunkEnd_of_small _ hnn (by omega)
  have hv := chunkEnd_of_small (s.vComp e.1 e.2) (by omega) hlt
  unfold usedStep
  have h1 : updateLastUsed (-1, 0) (s.kComp e.1 e.2) = (((s.kComp e.1 e.2).stackId : Int),
      ((s.kComp e.1 e.2).offset + (s.kComp e.1 e.2).compSize).toNat) := by
    unfold updateLastUsed
    dsimp only
    rw [if_pos (Or.inl (by omega)), hk]
  rw [h1]
  unfold updateLastUsed
  dsimp only
  rw [hv, hstack]
  split
  · rfl
  · rename_i hnot
    rw [Prod.mk.injEq]
    exact ⟨rfl, by omega⟩

/-- Chunks under the top leave it there. -/
theorem usedStep_under {e b : Cell} (ha : Adjacent s b) (hlt : (s.span b).stop < 2 ^ 31)
    (hin : (s.span e).off ≤ (s.span e).stop) (hover : (s.span e).Over (s.span b)) :
    usedStep s (s.mark e) b = s.mark e := by
  obtain ⟨hstack, hnn, hnext⟩ := ha
  have hb : (s.span b).stack = (s.kComp b.1 b.2).stackId := rfl
  have hstop : (s.span b).stop = ((s.vComp b.1 b.2).offset + (s.vComp b.1 b.2).compSize).toNat :=
    rfl
  rw [hstop] at hlt
  have hk := chunkEnd_of_small _ hnn (by omega)
  have hv := chunkEnd_of_small (s.vComp b.1 b.2) (by omega) hlt
  unfold Span.Over at hover
  rw [hb, hstop] at hover
  unfold usedStep
  have hkeep : ∀ cc : CompressedChunk, cc.stackId = (s.kComp b.1 b.2).stackId →
      ((cc.offset + cc.compSize) % 2 ^ 64).toNat ≤
        ((s.vComp b.1 b.2).offset + (s.vComp b.1 b.2).compSize).toNat →
      updateLastUsed (s.mark e) cc = s.mark e := by
    intro cc hst hend
    unfold updateLastUsed KvState.mark
    dsimp only
    rw [if_neg]
    rw [hst]
    omega
  rw [hkeep _ rfl (by rw [hk]; omega), hkeep _ hstack (by rw [hv])]

/-- Over a stack the fold finds the youngest chunk. -/
theorem foldl_usedStep {row : List Cell} {tops : List Nat} {n : Nat}
    (hst : Stacked tops (row.map s.span)) (hadj : ∀ e ∈ row, Adjacent s e)
    (htops : ∀ t ∈ tops, t ≤ n) (hn : n < 2 ^ 31) :
    row.foldl (usedStep s) (-1, 0) = match row with
      | [] => (-1, 0)
      | e :: _ => s.mark e := by
  cases row with
  | nil => rfl
  | cons e rest =>
      have hstop : ∀ b ∈ e :: rest, (s.span b).stop < 2 ^ 31 := by
        intro b hb
        obtain ⟨top, hget, hle⟩ := (hst.inside _ (List.mem_map_of_mem hb)).below
        have := htops top (List.mem_of_getElem? hget)
        omega
      rw [List.foldl_cons, usedStep_first (hadj e List.mem_cons_self) (hstop e List.mem_cons_self)]
      have hin := (hst.inside _ (List.mem_map_of_mem (f := s.span) List.mem_cons_self)).le
      have hover : ∀ b ∈ rest, (s.span e).Over (s.span b) := fun b hb =>
        List.rel_of_pairwise_cons hst.order (List.mem_map_of_mem hb)
      -- nothing below the youngest chunk moves the mark
      have hrest : ∀ l : List Cell, l ⊆ rest →
          l.foldl (usedStep s) (s.mark e) = s.mark e := by
        intro l
        induction l with
        | nil => intro _; rfl
        | cons b l ih =>
            intro hsub
            have hb := hsub List.mem_cons_self
            rw [List.foldl_cons, usedStep_under (hadj b (List.mem_cons_of_mem _ hb))
              (hstop b (List.mem_cons_of_mem _ hb)) hin (hover b hb)]
            exact ih fun x hx => hsub (List.mem_cons_of_mem _ hx)
      exact hrest rest (List.Subset.refl _)

/-! ## Cutting the arenas down -/

/-- `t` is `s` after some chunks were decompressed: `surv` are left, and the arenas of their
layers are untouched. -/
structure Thinned (cfg : Config) (s t : KvState) (surv : List Cell) : Prop where
  rest : t.layout = { s.layout with arenas := t.arenas }
  arenas : ∀ e ∈ surv, t.arenas e.1 = s.arenas e.1
  sub : surv.Sublist (s.compBeyond cfg)
  states : ∀ e : Cell, e.1 < cfg.numLayers →
    (e ∈ surv ↔ e.2 < t.numChunksPerTensor ∧ t.states e.1 e.2 = .compressed)

/-- An arena cut down to `stop`. -/
def Arena.cut (stop : Nat) (a : Arena) : Arena := { a with top := stop }

theorem map_top_modify (as : List Arena) (k stop : Nat) :
    ((as.take (k + 1)).modify k (Arena.cut stop)).map Arena.top =
      ((as.map Arena.top).take (k + 1)).set k stop := by
  apply List.ext_getElem?
  intro i
  rw [List.getElem?_map, List.getElem?_modify, ← List.map_take, List.getElem?_set,
    List.getElem?_map, List.length_map]
  by_cases hk : k = i
  · subst hk
    rw [if_pos rfl]
    cases hget : (as.take (k + 1))[k]? with
    | none =>
        rw [if_neg (by rw [List.getElem?_eq_none_iff] at hget; omega)]
        rfl
    | some a =>
        rw [if_pos (List.getElem?_eq_some_iff.mp hget).1]
        simp [Arena.cut]
  · simp [hk]

theorem mem_modify_cut {as : List Arena} {k stop : Nat} {a : Arena}
    (h : a ∈ as.modify k (Arena.cut stop)) : ∃ b ∈ as, a = b ∨ a = b.cut stop := by
  obtain ⟨i, hi⟩ := List.mem_iff_getElem?.mp h
  rw [List.getElem?_modify] at hi
  obtain ⟨b, hb, rfl⟩ := Option.map_eq_some_iff.mp hi
  refine ⟨b, List.mem_of_getElem? hb, ?_⟩
  split
  · exact Or.inr rfl
  · exact Or.inl rfl

variable {t : KvState} {surv : List Cell}

theorem Thinned.comp (ht : Thinned cfg s t surv) : t.kComp = s.kComp ∧ t.vComp = s.vComp := by
  have h := ht.rest
  simp only [KvState.layout, LayoutView.mk.injEq] at h
  exact ⟨h.2.2.2.2.2.1, h.2.2.2.2.2.2⟩

theorem Thinned.usedStep (ht : Thinned cfg s t surv) : usedStep t = usedStep s := by
  obtain ⟨hk, hv⟩ := ht.comp
  funext last e
  unfold MzCache.usedStep
  rw [hk, hv]

/-- The last arena in use after a decompression. -/
theorem Thinned.lastUsed (ht : Thinned cfg s t surv) (h : Layout cfg s) {l : Nat}
    (hl : l < cfg.numLayers) :
    lastUsed t l = match surv.filter (fun e => decide (e.1 = l)) with
      | [] => (-1, 0)
      | e :: _ => s.mark e := by
  have hst := (h.stacked l hl).sublist ((ht.sub.filter fun e => decide (e.1 = l)).map s.span)
  rw [← foldl_usedStep hst, ← ht.usedStep]
  · refine lastUsed_eq_foldl ((beyond_sorted.sublist ht.sub).filter _) ?_
    intro e
    rw [List.mem_filter, decide_eq_true_eq]
    constructor
    · rintro ⟨hmem, rfl⟩
      obtain ⟨h1, h2⟩ := (ht.states e hl).mp hmem
      exact ⟨rfl, h1, h2⟩
    · rintro ⟨rfl, h1, h2⟩
      exact ⟨(ht.states e hl).mpr ⟨h1, h2⟩, rfl⟩
  · exact fun e he => h.adjacent e (ht.sub.subset (List.mem_filter.mp he).1)
  · intro top htop
    obtain ⟨a, ha, rfl⟩ := List.mem_map.mp htop
    exact (h.caps l hl a ha).2
  · exact h.addressable

/-- A layer without survivors loses its arenas. -/
theorem Thinned.cleanArenas_nil (ht : Thinned cfg s t surv) (h : Layout cfg s) {l : Nat}
    (hl : l < cfg.numLayers) (hrow : surv.filter (fun e => decide (e.1 = l)) = []) :
    cleanArenas t l = [] := by
  have hlast := ht.lastUsed h hl
  rw [hrow] at hlast
  unfold cleanArenas
  dsimp only
  rw [hlast]
  rfl

/-- In a layer with survivors the arenas are cut behind the youngest of them. -/
theorem Thinned.cleanArenas_cons (ht : Thinned cfg s t surv) (h : Layout cfg s)
    (hres : s.Resident cfg) {l : Nat} (hl : l < cfg.numLayers) {e : Cell} {rest : List Cell}
    (hrow : surv.filter (fun e => decide (e.1 = l)) = e :: rest) :
    cleanArenas t l = ((s.arenas l).take ((s.span e).stack + 1)).modify (s.span e).stack
      (Arena.cut (s.span e).stop) := by
  have hlast := ht.lastUsed h hl
  rw [hrow] at hlast
  have he := List.mem_filter.mp (hrow ▸ List.mem_cons_self (a := e) (l := rest))
  have hel : e.1 = l := of_decide_eq_true he.2
  have hst := (h.stacked l hl).inside (s.span e)
    (List.mem_map_of_mem (List.mem_filter.mpr ⟨ht.sub.subset he.1, he.2⟩))
  obtain ⟨top, hget, _⟩ := hst.below
  have hlt : (s.span e).stack < (s.arenas l).length := by
    have := (List.getElem?_eq_some_iff.mp hget).1
    unfold KvState.tops at this
    rwa [List.length_map, hres.pools hl] at this
  unfold cleanArenas
  dsimp only
  rw [hlast, ← hel, ht.arenas e he.1, hel]
  show (if (((s.span e).stack : Nat) : Int) < 0 then [] else _) = _
  rw [if_neg (by omega)]
  simp only [KvState.mark, Int.toNat_natCast]
  rw [show min (s.span e).stack ((s.arenas l).length - 1) = (s.span e).stack by omega]
  rfl

/-- `clean_after_decompress` keeps the layout. -/
theorem Layout.clean (h : Layout cfg s) (hres : s.Resident cfg) (ht : Thinned cfg s t surv)
    (hv : s'.layout = { t.layout with arenas := fun l => cleanArenas t l })
    (hb : s'.compBeyond cfg = surv) : Layout cfg s' := by
  have hrest := ht.rest
  rw [hrest] at hv
  have hspan : s'.span = s.span := by
    simp only [KvState.layout, LayoutView.mk.injEq] at hv
    funext e
    unfold KvState.span
    rw [hv.2.2.2.2.2.1, hv.2.2.2.2.2.2]
  have hadj : ∀ e ∈ surv, Adjacent s' e := by
    intro e he
    have ha := h.adjacent e (ht.sub.subset he)
    simp only [KvState.layout, LayoutView.mk.injEq] at hv
    obtain ⟨_, _, _, _, _, hk, hv⟩ := hv
    exact ⟨by rw [hk, hv]; exact ha.stack, by rw [hk]; exact ha.nonneg,
      by rw [hk, hv]; exact ha.next⟩
  simp only [KvState.layout, LayoutView.mk.injEq] at hv
  obtain ⟨h1, h2, hclean, _, _, _, _⟩ := hv
  have h3 : ∀ l, s'.arenas l = cleanArenas t l := congrFun hclean
  have hres' : s'.Resident cfg := by
    unfold KvState.Resident
    rw [h2]
    exact hres
  have hcaps : ∀ l < cfg.numLayers, ∀ a ∈ s.arenas l, a.cap = s.arenaBytes ∧
      a.top ≤ s.arenaBytes := by
    intro l hl
    rw [← hres.pools hl]
    exact h.caps l hl
  refine ⟨h1 ▸ h.bound, h1 ▸ h.page, h1 ▸ h.addressable, h2 ▸ h.nextLow, h2 ▸ h.nextHigh,
    ?_, ?_, ?_, ?_⟩
  · intro l hl hlt
    unfold KvState.Resident at hres'
    omega
  · intro l hl a ha
    rw [hres'.pools hl, h3] at ha
    rw [h1]
    cases hrow : surv.filter (fun e => decide (e.1 = l)) with
    | nil =>
        rw [ht.cleanArenas_nil h hl hrow] at ha
        cases ha
    | cons e rest =>
        rw [ht.cleanArenas_cons h hres hl hrow] at ha
        obtain ⟨b, hb, hab⟩ := mem_modify_cut ha
        have hbc := hcaps l hl b (List.mem_of_mem_take hb)
        rcases hab with rfl | rfl
        · exact hbc
        · refine ⟨hbc.1, ?_⟩
          have he := List.mem_filter.mp (hrow ▸ List.mem_cons_self (a := e) (l := rest))
          obtain ⟨top, hget, hle⟩ := ((h.stacked l hl).inside (s.span e) (List.mem_map_of_mem
            (List.mem_filter.mpr ⟨ht.sub.subset he.1, he.2⟩))).below
          obtain ⟨c, hc, rfl⟩ := List.mem_map.mp (List.mem_of_getElem? hget)
          exact hle.trans (h.caps l hl c hc).2
  · rw [hb]
    exact hadj
  · intro l hl
    have hsub := (h.stacked l hl).sublist ((ht.sub.filter fun e => decide (e.1 = l)).map s.span)
    unfold KvState.tops at hsub ⊢
    unfold KvState.layerComp
    rw [hb, hspan, hres'.pools hl, h3]
    rw [hres.pools hl] at hsub
    cases hrow : surv.filter (fun e => decide (e.1 = l)) with
    | nil => exact Stacked.nil
    | cons e rest =>
        rw [hrow, List.map_cons] at hsub
        rw [ht.cleanArenas_cons h hres hl hrow, map_top_modify]
        exact hsub.truncate

/-! ## Decompressing -/

/-- No decompression is under way: the per-layer counts of the last cycle are used up. -/
def KvState.Idle (cfg : Config) (s : KvState) : Prop := ∀ l < cfg.numLayers, s.compLeft l ≤ 0

theorem KvState.Idle.decompWorker (h : s.Idle cfg) {e : Cell} (he : e.1 < cfg.numLayers) :
    (kvDecompWorker cfg e.1 e.2 (kvAllocWorker cfg e.1 e.2 s)).Idle cfg ∧
      (kvDecompWorker cfg e.1 e.2 (kvAllocWorker cfg e.1 e.2 s)).layout = s.layout := by
  have hle := h e.1 he
  unfold kvDecompWorker
  rw [if_neg (show ¬ (kvAllocWorker cfg e.1 e.2 s).compLeft e.1 = 1 from fun h1 => by
    rw [show (kvAllocWorker cfg e.1 e.2 s).compLeft = s.compLeft from rfl] at h1
    omega)]
  refine ⟨?_, rfl⟩
  intro l hl
  show Function.update s.compLeft e.1 (s.compLeft e.1 - 1) l ≤ 0
  by_cases hle : l = e.1
  · subst hle
    rw [Function.update_self]
    have := h e.1 he
    omega
  · rw [Function.update_of_ne hle]
    exact h l hl

/-- Outside a swapin the workers release no arena. -/
theorem KvState.Idle.runDecomps (l : List Cell) :
    ∀ {s : KvState}, s.Idle cfg → (∀ e ∈ l, e.1 < cfg.numLayers) →
      (runDecomps cfg l s).Idle cfg ∧ (runDecomps cfg l s).layout = s.layout := by
  induction l with
  | nil => intro s h _; exact ⟨h, rfl⟩
  | cons e l ih =>
      intro s h hl
      obtain ⟨h1, hv1⟩ := h.decompWorker (hl e List.mem_cons_self)
      obtain ⟨h2, hv2⟩ := ih h1 fun x hx => hl x (List.mem_cons_of_mem _ hx)
      exact ⟨h2, hv2.trans hv1⟩

/-- `mzcache_decompress_chunks` keeps the layout. -/
theorem Layout.decompressChunks (hl : Ladder cfg s) (h : Layout cfg s) (hres : s.Resident cfg)
    (hidle : s.Idle cfg) {m : Nat} (hm : (m : Int) ≤ s.nCurCompChunks) :
    Layout cfg (mzcacheDecompressChunks cfg m s) ∧ (mzcacheDecompressChunks cfg m s).Idle cfg := by
  have hlen : m ≤ (s.compBeyond cfg).length := by have := hl.nComp; omega
  have hmoved := hl.decompressChunks hlen
  obtain ⟨comp, hcomp, _, _⟩ :=
    decompWalk_spec (s := s) hl.shape m s.curToCompress hl.compWf hlen
  have hwalk : decompWalk cfg m s =
      ⟨{ s with curToCompress := comp }, (s.compBeyond cfg).take m, false⟩ := hcomp
  have hrows : ∀ e ∈ (s.compBeyond cfg).take m, e.1 < cfg.numLayers := fun e he =>
    (mem_cells.mp (mem_beyond.mp (List.mem_of_mem_take he)).1).1
  obtain ⟨hid, hlay⟩ := @KvState.Idle.runDecomps cfg ((s.compBeyond cfg).take m)
    { s with curToCompress := comp } hidle hrows
  have heq : mzcacheDecompressChunks cfg m s = cleanAfterDecompress m
      (runDecomps cfg ((s.compBeyond cfg).take m) { s with curToCompress := comp }) := by
    unfold mzcacheDecompressChunks
    rw [hwalk]
    rfl
  have hnc := congrArg LadderView.nCurCompChunks
    (runDecomps_view cfg ((s.compBeyond cfg).take m) { s with curToCompress := comp })
  rw [heq] at hmoved ⊢
  set t := runDecomps cfg ((s.compBeyond cfg).take m) { s with curToCompress := comp }
  by_cases hz : m = 0
  · subst hz
    refine ⟨h.of_layout hlay ?_, hid⟩
    exact hmoved.comp
  · have hnc' : t.nCurCompChunks = s.nCurCompChunks := hnc
    have hclean := cleanAfterDecompress_eq (s := t) hz (by rw [hnc']; exact hm)
    have hthin : Thinned cfg s t ((s.compBeyond cfg).drop m) := by
      have harenas : t.arenas = s.arenas := congrArg LayoutView.arenas hlay
      refine ⟨by rw [hlay, harenas]; rfl, fun e _ => congrFun harenas e.1,
        List.drop_sublist _ _, ?_⟩
      · intro e he
        rw [← hmoved.comp, hmoved.ladder.compressed_iff]
        rw [hclean]
        simp only [he, true_and]
    refine ⟨h.clean hres hthin ?_ hmoved.comp, ?_⟩
    · rw [hclean]
      rfl
    · rw [hclean]
      exact hid

end

end MzCache
