import MzCache.Core.Engine

/-!
# The restore set is the evicted set

What a swapin enqueues is computed from two cursors, never from the chunk states.
Whatever swapouts, swapins, growth and decodes came before, it is exactly the set of
chunks that are compressed or stored, each once, and the cycle leaves every chunk raw.
-/

namespace MzCache.Theorems

open MzCache MzCache.Lib

/-- Every reachable state restores exactly what it evicted. -/
theorem restore_set_eq_evicted_set (cfg : Config) (c : Core)
    (hreach : (engine cfg .ok).Reachable c) (early late : List Nat) :
    ∃ r, swapinGenerate cfg .ok early late c = some r ∧
      r.tasks.decomp.Nodup ∧
      (∀ e : Cell, e ∈ r.tasks.decomp ↔ e.1 < cfg.numLayers ∧ e.2 < c.kv.numChunksPerTensor ∧
        c.kv.states e.1 e.2 = .compressed) ∧
      r.tasks.read.Nodup ∧
      (∀ e : Cell, e ∈ r.tasks.read ↔ e.1 < cfg.numLayers ∧ e.2 < c.kv.numChunksPerTensor ∧
        c.kv.states e.1 e.2 = .stored) ∧
      r.tasks.decompOverrun = false ∧ r.tasks.readOverrun = false ∧
      (∀ i j, i < cfg.numLayers → j < r.core.kv.numChunksPerTensor →
        r.core.kv.states i j = .raw) ∧
      r.core.kv.nCurCompChunks = 0 ∧ r.core.kv.nCurStoreChunks = 0 ∧
      (initializeLayerSync cfg r.core).2.decompNumChunks = 0 ∧
      (initializeLayerSync cfg r.core).2.loadNumChunks = 0 := by
  obtain ⟨hok, _⟩ := engine_ok c hreach
  obtain ⟨r, hr⟩ := Option.isSome_iff_exists.mp
    (swapinGenerate_isSome .ok (fun _ => rfl) early late c)
  have hs := hok.swapinGenerate hr
  have hnc : r.core.kv.nCurCompChunks = 0 := by rw [hs.ok.ladder.nComp, hs.noComp]; rfl
  have hns : r.core.kv.nCurStoreChunks = 0 := by rw [hs.ok.ladder.nStore, hs.noStore]; rfl
  obtain ⟨hd, hl⟩ := hs.ok.ladder.layerSum_init
  refine ⟨r, hr, ?_, ?_, ?_, ?_, hs.decompOverrun, hs.readOverrun,
    (hs.ok.ladder.raw_of_clean hnc hns).2.2, hnc, hns, ?_, ?_⟩
  · rw [hs.decomp]
    exact c.kv.compBeyond_nodup
  · rw [hs.decomp]
    exact hok.ladder.compressed_iff
  · rw [hs.read]
    exact c.kv.storeBeyond_nodup
  · rw [hs.read]
    exact hok.ladder.stored_iff
  · exact hd.trans (by rw [hs.noComp]; rfl)
  · exact hl.trans (by rw [hs.noStore]; rfl)

/-- The small engine, swapped out completely, restores a compressed and a stored chunk. -/
theorem restore_set_smallOut :
    Core.smallOut.kv.states 0 0 = .compressed ∧ Core.smallOut.kv.states 0 1 = .stored ∧
      ∃ r, swapinGenerate .small .ok [] [] .smallOut = some r ∧
        (0, 0) ∈ r.tasks.decomp ∧ (0, 1) ∈ r.tasks.read ∧ r.core.kv.states 0 0 = .raw := by
  have hc : Core.smallOut.kv.states 0 0 = .compressed := by with_unfolding_all decide
  have hs : Core.smallOut.kv.states 0 1 = .stored := by with_unfolding_all decide
  have hn : Core.smallOut.kv.numChunksPerTensor = 2 := by with_unfolding_all decide
  obtain ⟨r, hr, _, hd, _, hl, _, _, hraw, _⟩ :=
    restore_set_eq_evicted_set .small .smallOut Core.smallOut_reachable [] []
  refine ⟨hc, hs, r, hr, (hd _).mpr ⟨by decide, by rw [hn]; decide, hc⟩,
    (hl _).mpr ⟨by decide, by rw [hn]; decide, hs⟩, hraw 0 0 (by decide) ?_⟩
  have hpos := ((engine_ok r.core (Core.smallOut_reachable.next (.swapin [] [] r hr))).1).ladder
  exact hpos.chunks_pos

end MzCache.Theorems
