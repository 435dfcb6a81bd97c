import MzCache.Core.LayoutSteps

/-!
# Arena layout

Over any sequence of compressions, decompressions, growth, offloads and successful reloads
every compressed chunk lies in the used part of an arena of its layer, no two share a byte,
and the next chunk fits. The `int` offset of a record is what limits this: the pools have
to be smaller than `2 ^ 31` bytes.
-/

namespace MzCache.Theorems

open MzCache MzCache.Lib

/-- The recorded range lies in the used part of an existing arena. -/
def Placed (as : List Arena) (cc : CompressedChunk) : Prop :=
  ∃ a, as[cc.stackId]? = some a ∧ 0 ≤ cc.offset ∧ cc.offset + cc.compSize ≤ a.top ∧ a.top ≤ a.cap

/-- The recorded ranges share no byte. -/
def Apart (a b : CompressedChunk) : Prop :=
  a.stackId ≠ b.stackId ∨ a.offset + a.compSize ≤ b.offset ∨ b.offset + b.compSize ≤ a.offset

/-- The two records of a chunk, K and V. -/
def records (s : KvState) (l j : Nat) : List CompressedChunk := [s.kComp l j, s.vComp l j]

/-- Layer `l`'s compressed chunks are in their arenas, apart from each other, and writing one
more, or clearing a pool's last page for the swap file, stays inside the pool. -/
structure ArenaLayout (cfg : Config) (s : KvState) (l : Nat) : Prop where
  placed : ∀ j < s.numChunksPerTensor, s.states l j = .compressed →
    ∀ cc ∈ records s l j, Placed (s.arenas l) cc
  halves : ∀ j < s.numChunksPerTensor, s.states l j = .compressed →
    Apart (s.kComp l j) (s.vComp l j)
  apart : ∀ j < s.numChunksPerTensor, ∀ j' < s.numChunksPerTensor, j ≠ j' →
    s.states l j = .compressed → s.states l j' = .compressed →
    ∀ cc ∈ records s l j, ∀ cc' ∈ records s l j', Apart cc cc'
  room : ∀ mem : ChunkMem, ∃ cur, (arenasToFill cfg s.arenaBytes (s.arenas l)).getLast? = some cur ∧
    cur.top + (cfg.compSize l true mem.k + cfg.compSize l false mem.v) ≤ cur.cap
  page : ∀ a ∈ s.arenas l, roundUp4k a.top ≤ a.cap

section

variable {cfg : Config}

theorem fits_of_fixedRate (hf : cfg.FixedRate) : cfg.Fits := by
  intro l mem
  unfold Config.compBound Config.compSize Config.chunkBytes tokensPerChunk sizeofFp16
  rcases hf with h | h <;> rw [h] <;> dsimp only <;> omega

theorem arranged_init (n alloc : Nat) (mem : Nat → Nat → Option ChunkMem) (hpos : 0 < n)
    (hle : n ≤ cfg.f32.limit) (hsmall : arenaBytesOf cfg n < 2 ^ 31) :
    Arranged cfg (Core.init cfg n alloc mem).kv := by
  have hL := cfg.numLayers_pos
  obtain ⟨_, hnil, _⟩ := Ladder.derive (s := .fresh cfg n mem) hpos hle rfl rfl
    (fun _ _ _ _ => rfl)
  have hnil' : (Core.init cfg n alloc mem).kv.compBeyond cfg = [] := hnil
  have hbound : cfg.compBound ≤ arenaBytesOf cfg n := by
    unfold arenaBytesOf
    exact (Nat.le_mul_of_pos_left _ hpos).trans (le_roundUp4k _)
  have hpools : ∀ l < cfg.numLayers, (Core.init cfg n alloc mem).kv.pools l = [] := by
    intro l hl
    refine if_pos ?_
    show (l : Int) ≤ (cfg.numLayers : Int) - 1
    omega
  refine ⟨⟨hbound, ?_, hsmall, ?_, ?_, ?_, ?_, ?_, ?_⟩, ?_⟩
  · show roundUp4k (n * cfg.compBound) % 4096 = 0
    unfold roundUp4k
    omega
  · show (-1 : Int) ≤ (cfg.numLayers : Int) - 1
    omega
  · show (cfg.numLayers : Int) - 1 < cfg.numLayers
    omega
  · intro l _ _
    rfl
  · intro l hl a ha
    rw [hpools l hl] at ha
    cases ha
  · intro e he
    rw [hnil'] at he
    cases he
  · intro l _
    unfold KvState.layerComp
    rw [hnil']
    exact Stacked.nil
  · intro l _
    exact le_rfl

/-- What the layout invariant says of one layer whose arenas are in memory. -/
theorem arenaLayout_of_arranged {s : KvState} (hf : cfg.Fits) (hl : Ladder cfg s)
    (h : Layout cfg s) {l : Nat} (hlt : l < cfg.numLayers)
    (hres : (l : Int) ≤ s.nextLayerToOffload) : ArenaLayout cfg s l := by
  have hpools : s.pools l = s.arenas l := if_pos hres
  have hcaps := h.caps l hlt
  rw [hpools] at hcaps
  have hmem : ∀ j < s.numChunksPerTensor, s.states l j = .compressed →
      (l, j) ∈ s.layerComp cfg l := fun j hj hc =>
    List.mem_filter.mpr ⟨(hl.compressed_iff (l, j)).mpr ⟨hlt, hj, hc⟩, by simp⟩
  have hadj : ∀ j < s.numChunksPerTensor, s.states l j = .compressed → Adjacent s (l, j) :=
    fun j hj hc => h.adjacent _ (List.mem_filter.mp (hmem j hj hc)).1
  -- the range of a record is part of the chunk's span
  have hpart : ∀ j, Adjacent s (l, j) → (s.span (l, j)).off ≤ (s.span (l, j)).stop →
      ∀ cc ∈ records s l j, cc.stackId = (s.span (l, j)).stack ∧
        ((s.span (l, j)).off : Int) ≤ cc.offset ∧
        cc.offset + cc.compSize ≤ (s.span (l, j)).stop := by
    intro j ha hle cc hcc
    obtain ⟨hst, hnn, hnext⟩ := ha
    simp only [KvState.span] at hle hst hnn hnext ⊢
    rcases List.mem_cons.mp hcc with rfl | hcc
    · exact ⟨rfl, by omega, by omega⟩
    · rw [List.mem_singleton] at hcc
      subst hcc
      exact ⟨hst, by omega, by omega⟩
  have hstacked := h.stacked l hlt
  refine ⟨?_, ?_, ?_, ?_, ?_⟩
  · intro j hj hc cc hcc
    have hin := hstacked.inside _ (List.mem_map_of_mem (hmem j hj hc))
    obtain ⟨h1, h2, h3⟩ := hpart j (hadj j hj hc) hin.le cc hcc
    obtain ⟨top, hget, htop⟩ := hin.below
    unfold KvState.tops at hget
    rw [hpools, List.getElem?_map] at hget
    obtain ⟨a, ha, rfl⟩ := Option.map_eq_some_iff.mp hget
    have hac := hcaps a (List.mem_of_getElem? ha)
    refine ⟨a, by rw [h1]; exact ha, by omega, by omega, by rw [hac.1]; exact hac.2⟩
  · intro j hj hc
    have ha := hadj j hj hc
    exact Or.inr (Or.inl ha.next.ge)
  · intro j hj j' hj' hne hc hc' cc hcc cc' hcc'
    have hin := hstacked.inside _ (List.mem_map_of_mem (hmem j hj hc))
    have hin' := hstacked.inside _ (List.mem_map_of_mem (hmem j' hj' hc'))
    obtain ⟨h1, h2, h3⟩ := hpart j (hadj j hj hc) hin.le cc hcc
    obtain ⟨h1', h2', h3'⟩ := hpart j' (hadj j' hj' hc') hin'.le cc' hcc'
    have hsym : Std.Symm fun a b : Cell => (s.span a).Disjoint (s.span b) :=
      ⟨fun _ _ h => h.symm⟩
    have hdisj : (s.span (l, j)).Disjoint (s.span (l, j')) :=
      (List.pairwise_map.mp hstacked.disjoint).forall (hmem j hj hc) (hmem j' hj' hc')
        fun heq => hne (congrArg Prod.snd heq)
    unfold Span.Disjoint at hdisj
    unfold Apart
    omega
  · intro mem
    obtain ⟨k, cur, has, hlast, hroom⟩ := arenasToFill_spec h.bound hcaps
    refine ⟨cur, hlast, ?_⟩
    have hcur : cur.cap = s.arenaBytes := by
      have hin := List.mem_of_getLast? hlast
      rw [has, List.mem_append] at hin
      rcases hin with hin | hin
      · exact (hcaps cur hin).1
      · rw [List.eq_of_mem_replicate hin]
        rfl
    have := hf l mem
    omega
  · intro a ha
    have hac := hcaps a ha
    rw [hac.1]
    exact roundUp4k_le hac.2 h.page

end

/-- With pools an `int` can address, the arenas of every layer in memory are laid out, in
every state reached by arena operations whose reloads succeed. -/
theorem arena_layout (cfg : Config) (hf : cfg.FixedRate) (io : Io) (hio : io.Reloads)
    (n alloc : Nat) (mem : Nat → Nat → Option ChunkMem) (hpos : 0 < n) (hle : n ≤ cfg.f32.limit)
    (hsmall : arenaBytesOf cfg n < 2 ^ 31) (c : Core)
    (hrun : ArenaRun cfg io (Core.init cfg n alloc mem) c) (l : Nat) (hl : l < cfg.numLayers)
    (hres : (l : Int) ≤ c.kv.nextLayerToOffload) : ArenaLayout cfg c.kv l := by
  have hfits := fits_of_fixedRate hf
  have hinv : CoreOk cfg c ∧ Arranged cfg c.kv := by
    refine run_preserves (P := fun c => CoreOk cfg c ∧ Arranged cfg c.kv) ?_ ?_ hrun
    · intro c c' h hs
      exact h.2.step hfits hio h.1 hs
    · exact ⟨CoreOk.init n alloc mem hpos hle, arranged_init n alloc mem hpos hle hsmall⟩
  exact arenaLayout_of_arranged hfits hinv.1.ladder hinv.2.layout hl hres

/-- Both layers of the small engine with their compress regions compressed. -/
theorem arena_layout_small :
    (mzcacheCompressChunks .small 2 Core.small.kv).1.states 1 0 = .compressed ∧
      ArenaLayout .small (mzcacheCompressChunks .small 2 Core.small.kv).1 1 := by
  refine ⟨by with_unfolding_all decide, ?_⟩
  exact arena_layout .small (Or.inl rfl) .ok ⟨fun _ => rfl, fun _ => rfl⟩ 2 2 _ (by decide)
    (by decide) (by with_unfolding_all decide) { Core.small with
      kv := (mzcacheCompressChunks .small 2 Core.small.kv).1 }
    (.single (.compress 2 (by with_unfolding_all decide) rfl)) 1 (by decide)
    (by with_unfolding_all decide)

/-- One layer of rows so wide that two compressed chunks pass the range of `int`. -/
def wideConfig : Config where
  numLayers := 1
  kvHiddenDim := 4194240
  backend := .flexgen8bit
  perLayerBalance := 0
  decompLoadRatio := 1
  weightLayerBytes := 1000
  f32 := .exact 256
  f64 := .exact 256
  kernel := .zeros
  uninit := fun _ => 0
  numLayers_pos := Nat.one_pos
  ratio_nonneg := ratio_one_nonneg
  ratio_le_one := ratio_one_le
  ratio_float := exact_fl_one
  limit_ge := exact_limit_ge
  one_double := exact_one_le

/-- The wide engine with three chunks. -/
def wideCore : Core := .init wideConfig 3 3 fun _ _ => some ⟨fun _ => 0, fun _ => 0, true⟩

/-- After two compressions the second chunk's V record has a negative offset, in a pool that
holds it. -/
theorem arena_layout_int_offset :
    ¬ ∀ (cfg : Config), cfg.FixedRate → 64 ∣ cfg.kvHiddenDim → ∀ io : Io, io.Reloads →
      ∀ (n alloc : Nat) (mem : Nat → Nat → Option ChunkMem), 0 < n → n ≤ cfg.f32.limit →
      ∀ c : Core, ArenaRun cfg io (Core.init cfg n alloc mem) c →
      ∀ l < cfg.numLayers, (l : Int) ≤ c.kv.nextLayerToOffload → ArenaLayout cfg c.kv l := by
  intro h
  have hlay := h wideConfig (Or.inr rfl) ⟨65535, by with_unfolding_all decide⟩ .ok
    ⟨fun _ => rfl, fun _ => rfl⟩ 3 3
    (fun _ _ => some ⟨fun _ => 0, fun _ => 0, true⟩) (by decide) (by decide)
    { wideCore with kv := (mzcacheCompressChunks wideConfig 2 wideCore.kv).1 }
    (.single (.compress 2 (by with_unfolding_all decide) rfl)) 0 (by decide)
    (by with_unfolding_all decide)
  have hoff : ((mzcacheCompressChunks wideConfig 2 wideCore.kv).1.vComp 0 1).offset =
      -1073790976 := by with_unfolding_all decide
  obtain ⟨_, _, hnn, _, _⟩ := hlay.placed 1 (by with_unfolding_all decide)
    (by with_unfolding_all decide) _ (List.mem_cons_of_mem _ (List.mem_singleton.mpr rfl))
  rw [hoff] at hnn
  exact absurd hnn (by decide)

end MzCache.Theorems
