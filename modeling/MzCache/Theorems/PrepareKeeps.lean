import MzCache.Unified.PrepareEnd

/-!
# When `prepare` leaves the cells as they were

`prepare` undoes its trial from copies of the slots. What `apply_ubatch` purges outside the
slots has no copy, and an exception from growth skips the undoing; otherwise the cells and
the head are the old ones.
-/

namespace MzCache.Theorems

open MzCache MzCache.Lib MzCache.Unified

/-- A model with a sliding window of two positions. -/
def windowShape : Shape := { Shape.single with nSwa := 2, swaType := .standard }

/-- Positions 0 to 3 are placed and position 1 is removed again. -/
def windowCalls : List KvCall :=
  [.applyUbatch (fun _ _ => true) 0 [⟨0, 0, [0]⟩, ⟨0, 1, [0]⟩, ⟨0, 2, [0]⟩, ⟨0, 3, [0]⟩],
    .seqRm 0 1 2]

/-- The same in four cells. -/
def windowCache : Cache := (KvCall.run windowShape windowCalls (.fresh windowShape 4)).cache

theorem windowCache_tidy : windowCache.cells.Tidy := by
  have hsafe : KvCall.SafeRun windowShape windowCalls (.fresh windowShape 4) :=
    ⟨⟨by decide, by decide, by decide⟩, trivial, trivial⟩
  exact (KvCall.run_ok windowCalls (Trial.fresh_ok windowShape 4) hsafe).indexed.tidy

end MzCache.Theorems
