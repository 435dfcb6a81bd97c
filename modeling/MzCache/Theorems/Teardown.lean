import MzCache.Core.Engine
import MzCache.Kv.Teardown

/-!
# Release of the chunks

The release loop of `~mzcache_kv_state` runs past every table, in any residency, and what it frees
inside them is right only without grown or restored chunks.
-/

namespace MzCache.Theorems

open MzCache.Lib

/-- The loop stays in the tables and frees each live allocation once, by its base pointer. -/
structure TeardownOk (cfg : Config) (s : KvState) (outside : Nat → Nat → Option SvmPtr) : Prop where
  inBounds : ∀ a ∈ teardownAccesses cfg, a.2 < maxChunksPerTensor
  frees : FreesEachOnce cfg s (teardownFreed cfg s outside)

/-- No residency is released as it should be. The accesses inside the tables alone would be enough
for one without chunks of odd index and without a pair that shares its allocation. -/
theorem teardown_never (cfg : Config) (s : KvState) (outside : Nat → Nat → Option SvmPtr) :
    ¬ TeardownOk cfg s outside ∧
      (FreesEachOnce cfg s (freedInside cfg s) ↔
        ∀ l < cfg.numLayers, ∀ j < maxChunksPerTensor, ∀ mem, s.svm l j = some mem →
          mem.contiguous = false ∧ j % 2 = 0) :=
  ⟨fun h => lt_irrefl _ (h.inBounds _ teardown_outside), freesEachOnce_inside_iff⟩

/-- Two layers with two chunks each, every chunk a pair, right after construction: the loop reads
entry 256 of the first table, passes the middle of the pair of chunk 0 to `clSVMFree` and leaves
the pair of chunk 1. -/
theorem teardown_small :
    (engine .small .ok).Reachable .small ∧
      (0, 256) ∈ teardownAccesses .small ∧
      ⟨.pair 0 0, 32768⟩ ∈ freedInside .small Core.small.kv ∧
      Core.small.kv.Live .small (.pair 0 1) ∧
      (∀ p ∈ freedInside .small Core.small.kv, p.alloc ≠ .pair 0 1) ∧
      ¬ TeardownOk .small Core.small.kv fun _ _ => none := by
  have hchunk : ∀ j < 2, Core.small.kv.svm 0 j = some ⟨fun _ => 0, fun _ => 0, true⟩ := by
    intro j hj
    interval_cases j <;> rfl
  refine ⟨Core.small_reachable .ok, teardown_outside, ?_, ?_, ?_, fun h => ?_⟩
  · exact mem_freedInside.mpr ⟨0, by decide, 0, by decide, rfl, true, _, hchunk 0 (by decide), rfl⟩
  · exact ⟨0, by decide, 1, by decide, _, hchunk 1 (by decide), false, rfl⟩
  · intro p hp halloc
    obtain ⟨l, -, j, -, heven, v, mem, -, rfl⟩ := mem_freedInside.mp hp
    have hsame : (halfPtr .small l j v mem).alloc =
        (halfPtr .small 0 1 v ⟨fun _ => 0, fun _ => 0, true⟩).alloc := by simp [halloc]
    have := (halfPtr_alloc hsame).2
    omega
  · exact absurd (h.inBounds _ teardown_outside) (lt_irrefl _)

end MzCache.Theorems
