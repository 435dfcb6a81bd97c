import MzCache.Unified.CacheRuns

/-!
# The index of the KV cells

`used` and `seq_pos` are exact in every state of a run whose calls erase no entry that
another cell holds in the end. `seq_add` itself makes such entries: shifting a run of
positions up by less than its length passes through states where two cells share one.
-/

namespace MzCache.Theorems

open MzCache MzCache.Unified

/-- In every state of a run whose calls are safe the index of the cells is exact; a `prepare`
is a run of its own calls. -/
theorem cell_index_exact (sh : Shape) (kvSize : Nat) (calls : List KvCall)
    (hsafe : KvCall.SafeRun sh calls (.fresh sh kvSize)) :
    (∀ n, (KvCall.run sh (calls.take n) (.fresh sh kvSize)).cache.cells.IndexTrue) ∧
    ∀ alloc ubatches (t : Trial), ∃ trial, (∀ call ∈ trial, call.OfPrepare) ∧
      (KvCall.run sh trial t).cache = (t.cache.prepare sh alloc ubatches).1 := by
  refine ⟨fun n => ?_, fun alloc ubatches t => prepare_run alloc ubatches t⟩
  have hok := KvCall.run_ok (calls.take n) (Trial.fresh_ok sh kvSize) (hsafe.take n)
  exact hok.indexed.indexTrue

/-- Three tokens of sequence 0. -/
def threeTokens : List BatchToken := [⟨1, 0, [0]⟩, ⟨2, 1, [0]⟩, ⟨3, 2, [0]⟩]

/-- Three tokens placed, the first removed and the others shifted down are a safe run. -/
theorem cell_index_single :
    (KvCall.run .single [.applyUbatch (fun _ _ => true) 0 threeTokens, .seqRm 0 0 1,
      .seqAdd 0 1 (-1) (-1)] (.fresh .single 4)).cache.cells.IndexTrue := by
  have hsafe : KvCall.SafeRun .single [.applyUbatch (fun _ _ => true) 0 threeTokens,
      .seqRm 0 0 1, .seqAdd 0 1 (-1) (-1)] (.fresh .single 4) := by
    refine ⟨⟨by decide, by decide, by decide⟩, trivial, ?_, trivial⟩
    show Cache.ShiftSafe _ _ _ _ _
    with_unfolding_all decide
  exact (cell_index_exact .single 4 _ hsafe).1 3

/-- Shifting positions 0, 1, 2 up by one leaves only the last of the new ones in the index. -/
theorem cell_index_wrong :
    ¬ (KvCall.run .single [.applyUbatch (fun _ _ => true) 0 threeTokens, .seqAdd 0 (-1) (-1) 1]
      (.fresh .single 4)).cache.cells.IndexTrue := by
  intro h
  have hmem := (h.seqPos 0 1).mpr ⟨0, by decide, by with_unfolding_all decide,
    by with_unfolding_all decide⟩
  revert hmem
  with_unfolding_all decide

end MzCache.Theorems
