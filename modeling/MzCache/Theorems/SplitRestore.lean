import MzCache.Core.Engine
import MzCache.Kv.SplitRestore

/-!
# The split restore is the fused restore

In every state the engine reaches, the calls of the two split restores enqueue together
what `mzcache_enqueue_decomp_load_chunks` enqueues alone, and leave its state. Where a
store file cannot be opened, all of them throw.
-/

namespace MzCache.Theorems

open MzCache MzCache.Lib

/-- The three ways to restore what `initialize_layer_sync` counts agree. -/
theorem split_restore_eq_fused (cfg : Config) (io : Io) (c : Core)
    (hreach : (engine cfg io).Reachable c) (io' : Io) :
    let s := (initializeLayerSync cfg c).1.kv
    let d := (initializeLayerSync cfg c).2.decompNumChunks.toNat
    let l := (initializeLayerSync cfg c).2.loadNumChunks.toNat
    let a := mzcacheEnqueueKvAllocOnly cfg d l s
    let w := mzcacheWaitForKv cfg d l s
    (a.ok = true ∧ w.2 = true ∧ ∀ e ∈ a.waits ++ w.1, e ∈ a.alloc) ∧
      (mzcacheEnqueueDecompLoadChunks cfg io' d l s = none →
        allocThenRestore cfg io' d l s = none ∧ loadThenDecomp cfg io' d l s = none) ∧
      ∀ e, mzcacheEnqueueDecompLoadChunks cfg io' d l s = some e →
        e.readOverrun = false ∧ e.decompOverrun = false ∧
        (∃ t, allocThenRestore cfg io' d l s = some (t, e.state) ∧ t.Same e.tasks) ∧
        ∃ t, loadThenDecomp cfg io' d l s = some (t, e.state) ∧ t.Same e.tasks := by
  obtain ⟨hok, _⟩ := engine_ok c hreach
  intro s d l
  have hlad : Ladder cfg s := hok.ladder.of_view rfl
  obtain ⟨hsd, hsl⟩ := hok.ladder.layerSum_init
  have hd : d ≤ (s.compBeyond cfg).length := by
    have : s.compBeyond cfg = c.kv.compBeyond cfg := rfl
    rw [this]
    show (layerSum cfg (compressInit c.kv)).toNat ≤ _
    omega
  have hl : l ≤ (s.storeBeyond cfg).length := by
    have : s.storeBeyond cfg = c.kv.storeBeyond cfg := rfl
    rw [this]
    show (layerSum cfg (storeInit c.kv)).toNat ≤ _
    omega
  obtain ⟨hwait, halloc⟩ := hlad.allocOnly hd hl
  have hread := hlad.decompReadOnly io' l hd
  -- the two calls of the second split are the two halves of the fused one
  have hload : loadThenDecomp cfg io' d l s =
      (mzcacheEnqueueDecompLoadChunks cfg io' d l s).map fun e => (e.tasks, e.state) := by
    unfold loadThenDecomp mzcacheEnqueueLoadChunks mzcacheEnqueueDecompLoadChunks
    cases openFirstToRead io' s with
    | none => rfl
    | some t =>
        rw [Option.bind_some, Option.bind_some, Option.map_map]
        rfl
  dsimp only
  rw [hload]
  unfold allocThenRestore
  dsimp only
  rw [hread, halloc, hwait]
  refine ⟨⟨rfl, rfl, ?_⟩, ?_, ?_⟩
  · intro e he
    rcases List.mem_append.mp he with h | h
    · exact h
    · exact h
  · intro hnone
    rw [hnone]
    exact ⟨rfl, rfl⟩
  · intro e he
    have hq := hlad.enqueue io' hd hl he
    rw [he]
    refine ⟨hq.readOverrun, hq.decompOverrun, ⟨_, rfl, ?_⟩, ⟨_, rfl, ?_⟩⟩
    · refine ⟨?_, List.Perm.refl _, List.Perm.refl _⟩
      show List.Perm _ (e.read ++ e.decomp)
      rw [hq.read, hq.decomp]
      exact List.perm_append_comm
    · exact ⟨List.Perm.refl _, List.Perm.refl _, List.Perm.refl _⟩

/-- On the small engine, swapped out completely, both splits restore two chunks of each
kind. -/
theorem split_restore_smallOut :
    let s := (initializeLayerSync .small .smallOut).1.kv
    ∃ e, mzcacheEnqueueDecompLoadChunks .small .ok 2 2 s = some e ∧ e.tasks.alloc.length = 4 ∧
      (∃ t, allocThenRestore .small .ok 2 2 s = some (t, e.state) ∧ t.Same e.tasks) ∧
      ∃ t, loadThenDecomp .small .ok 2 2 s = some (t, e.state) ∧ t.Same e.tasks := by
  have h := split_restore_eq_fused .small .ok .smallOut Core.smallOut_reachable .ok
  have hd : (initializeLayerSync .small .smallOut).2.decompNumChunks.toNat = 2 := by
    with_unfolding_all decide
  have hl : (initializeLayerSync .small .smallOut).2.loadNumChunks.toNat = 2 := by
    with_unfolding_all decide
  dsimp only at h
  rw [hd, hl] at h
  obtain ⟨e, he⟩ := Option.isSome_iff_exists.mp (@enqueue_isSome .small .ok (fun _ => rfl) 2 2
    (initializeLayerSync .small .smallOut).1.kv)
  obtain ⟨-, -, h1, h2⟩ := h.2.2 e he
  have hlen : ((mzcacheEnqueueDecompLoadChunks .small .ok 2 2
      (initializeLayerSync .small .smallOut).1.kv).map fun e => e.tasks.alloc.length) = some 4 := by
    with_unfolding_all decide
  rw [he, Option.map_some, Option.some.injEq] at hlen
  exact ⟨e, he, hlen, h1, h2⟩

end MzCache.Theorems
