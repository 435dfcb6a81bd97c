import MzCache.Core.Accounting

/-!
# Ladder accounting

States, counters, cursors and byte totals agree after any sequence of operations
that ask for no more than there is, for the two fixed-rate backends and for any
outcome of the system calls.
-/

namespace MzCache.Theorems

open MzCache MzCache.Lib

/-- The chunks of the plan in a given state. -/
def inState (cfg : Config) (s : KvState) (st : KVstate) : List Cell :=
  (cells (fun _ => 0) (fun _ => s.numChunksPerTensor) cfg.numLayers).filter
    fun e => s.states e.1 e.2 = st

theorem mem_inState {cfg : Config} {s : KvState} {st : KVstate} {e : Cell} :
    e ∈ inState cfg s st ↔
      e.1 < cfg.numLayers ∧ e.2 < s.numChunksPerTensor ∧ s.states e.1 e.2 = st := by
  unfold inState
  rw [List.mem_filter, mem_cells, decide_eq_true_eq]
  constructor
  · rintro ⟨⟨h1, _, h2⟩, h3⟩
    exact ⟨h1, h2, h3⟩
  · rintro ⟨h1, h2, h3⟩
    exact ⟨⟨h1, Nat.zero_le _, h2⟩, h3⟩

theorem inState_sorted {cfg : Config} {s : KvState} {st : KVstate} :
    (inState cfg s st).Pairwise CellLt := cells_sorted.filter _

/-- The compressed chunks of a ladder are those its compress cursor stands for. -/
theorem inState_compressed {cfg : Config} {s : KvState} (h : Ladder cfg s) :
    inState cfg s .compressed = s.compBeyond cfg :=
  eq_of_sorted inState_sorted beyond_sorted fun e => mem_inState.trans (h.compressed_iff e).symm

theorem inState_stored {cfg : Config} {s : KvState} (h : Ladder cfg s) :
    inState cfg s .stored = s.storeBeyond cfg :=
  eq_of_sorted inState_sorted beyond_sorted fun e => mem_inState.trans (h.stored_iff e).symm

theorem acct_init (cfg : Config) (n alloc : Nat) (mem : Nat → Nat → Option ChunkMem) :
    Acct cfg (Core.init cfg n alloc mem).kv := by
  have hL := cfg.numLayers_pos
  refine ⟨by simp [Core.init, KvState.init, KvState.fresh, deriveSwapoutPlan], ?_, ?_, ?_, ?_⟩
  · intro i j hc
    exact absurd hc (by simp [Core.init, KvState.init, KvState.fresh, deriveSwapoutPlan])
  · simp only [Core.init, KvState.init, KvState.fresh, deriveSwapoutPlan]
    omega
  · simp only [Core.init, KvState.init, KvState.fresh, deriveSwapoutPlan]
    omega
  · simp only [Core.init, KvState.init, KvState.fresh, deriveSwapoutPlan, offloadedBytes]
    unfold layerSum
    simp [paddedBytes]

/-- Counters, states, cursors and byte totals agree in every reachable state. -/
theorem ladder_accounting (cfg : Config) (hf : cfg.FixedRate) (io : Io) (n alloc : Nat)
    (mem : Nat → Nat → Option ChunkMem) (hpos : 0 < n) (hle : n ≤ cfg.f32.limit) (c : Core)
    (hrun : LadderRun cfg io (Core.init cfg n alloc mem) c) :
    c.kv.nCurCompChunks = (inState cfg c.kv .compressed).length ∧
    (∀ e ∈ inState cfg c.kv .compressed, e.2 < c.kv.chunkBound e.1) ∧
    c.kv.nCurStoreChunks = (inState cfg c.kv .stored).length ∧
    (∀ e ∈ inState cfg c.kv .stored, c.kv.chunkBound e.1 ≤ e.2) ∧
    (initializeLayerSync cfg c).2.decompNumChunks = c.kv.nCurCompChunks ∧
    (initializeLayerSync cfg c).2.loadNumChunks = c.kv.nCurStoreChunks ∧
    c.kv.nCurCompSavedBytes = ((inState cfg c.kv .compressed).map (savedBytes cfg c.kv)).sum ∧
    c.kv.nCurArenaOffloadBytes = offloadedBytes cfg c.kv := by
  have hboth : CoreOk cfg c ∧ Acct cfg c.kv :=
    run_preserves (P := fun c => CoreOk cfg c ∧ Acct cfg c.kv)
      (fun _ _ hc hs => ⟨hc.1.step hs, hc.2.step hf hc.1 hs⟩)
      ⟨CoreOk.init n alloc mem hpos hle, acct_init cfg n alloc mem⟩ hrun
  obtain ⟨hok, ha⟩ := hboth
  have hl := hok.ladder
  obtain ⟨hd, hs⟩ := hl.layerSum_init
  rw [inState_compressed hl, inState_stored hl]
  refine ⟨hl.nComp, ?_, hl.nStore, ?_, hd.trans hl.nComp.symm, hs.trans hl.nStore.symm, ?_,
    ha.offload⟩
  · intro e he
    exact (mem_cells.mp (mem_beyond.mp he).1).2.2
  · intro e he
    exact (mem_cells.mp (mem_beyond.mp he).1).2.1
  · -- every compressed chunk saves the same amount
    have hconst : (c.kv.compBeyond cfg).map (savedBytes cfg c.kv) =
        (c.kv.compBeyond cfg).map fun _ => cfg.savedPerChunk := by
      apply List.map_congr_left
      intro e he
      exact ha.sizes e.1 e.2 ((hl.compressed_iff e).mp he).2.2
    rw [hconst, ha.saved, hl.nComp]
    simp [mul_comm]

/-- The small engine after compressing two chunks and decompressing one. -/
theorem ladder_accounting_small :
    let c1 : Core := { Core.small with kv := (mzcacheCompressChunks .small 2 Core.small.kv).1 }
    let c2 : Core := { c1 with kv := mzcacheDecompressChunks .small 1 c1.kv }
    c2.kv.nCurCompChunks = (inState .small c2.kv .compressed).length ∧
      c2.kv.nCurCompSavedBytes = 47104 := by
  intro c1 c2
  have h1 : LadderStep .small .ok Core.small c1 := .compress 2 (by with_unfolding_all decide)
  have h2 : LadderStep .small .ok c1 c2 := .decompress 1 (by with_unfolding_all decide)
    (by with_unfolding_all decide)
  have hrun : LadderRun .small .ok Core.small c2 := (Relation.ReflTransGen.single h1).tail h2
  have h := ladder_accounting .small (Or.inl rfl) .ok 2 2 _ (by decide) (by decide) c2 hrun
  exact ⟨h.1, by with_unfolding_all decide⟩

end MzCache.Theorems
