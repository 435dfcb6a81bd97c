import MzCache.Unified.FilledRuns

/-!
# Slots are positions

Nothing in the cache says that a cell holds the position of its index. It follows, for one
sequence without a window, from where `find_slot` starts and climbs to, from the heads that
removing, placing and restoring leave, and from the trial of `prepare` being undone. The batch
splitter looks at positions only, and its parts lie in one chunk each because of it.
-/

namespace MzCache.Theorems

open MzCache MzCache.Lib MzCache.Unified

/-- In every session of one sequence whose batches continue it, every slot found is the position of
its ubatch, which both views of its chunk hold; the cells are filled in order from the bottom; and
a `decode_chunk_aligned` passes its tokens to `decode` in order, all of them if it succeeds. -/
theorem slot_is_position (sh : Shape) (hswa : sh.swaType = .none) (params : ContextParams) (s : Nat)
    (hs : s < sh.nSeqMax) (kvSize : Nat) (hsize : kvSize < 2 ^ 31) (calls : List SessionCall)
    (hcont : SessionCall.ContinuedRun sh params s calls (Session.fresh sh kvSize)) :
    (∀ slot ∈ (SessionCall.run sh params s calls (.fresh sh kvSize)).slots,
      AtPosition s slot.1 slot.2) ∧
    (∃ n ≤ kvSize, ∀ i, (SessionCall.run sh params s calls (.fresh sh kvSize)).cache.cells.cell i =
      if i < n then ((i : Int), {s}) else (-1, ∅)) ∧
    ∀ r ∈ (SessionCall.run sh params s calls (.fresh sh kvSize)).decodes,
      r.passed <+: r.batch ∧ (r.ok = true → r.passed = r.batch) := by
  obtain ⟨hcells, ⟨n, hfilled⟩, -, hslots, hdecodes⟩ := SessionCall.run_ok hswa hs hsize calls
    (Session.fresh_ok sh s kvSize) hcont
  exact ⟨hslots, ⟨n, hcells ▸ hfilled.cells.room, hfilled.cells.cell⟩, hdecodes⟩

/-! ## A session -/

/-- Every allocation and every ubatch succeeds. -/
def calmEnv : DecodeEnv := ⟨true, fun _ _ => true, fun _ => true, fun _ _ => true, fun _ => true⟩

/-- Two tokens, the second is taken back and decoded again. -/
def retryCalls : List SessionCall :=
  [.decode (fun _ => calmEnv) [⟨0, 0, [0]⟩, ⟨0, 1, [0]⟩], .truncate 1,
    .decode (fun _ => calmEnv) [⟨0, 1, [0]⟩]]

theorem retry_continues :
    SessionCall.ContinuedRun Shape.single ⟨512, 64⟩ 0 retryCalls (Session.fresh Shape.single 4) := by
  refine ⟨?_, trivial, ?_, trivial⟩
  · exact Consecutive.cons rfl rfl (Consecutive.cons rfl rfl (Consecutive.nil _ _))
  · refine Consecutive.cons ?_ rfl (Consecutive.nil _ _)
    with_unfolding_all decide

theorem slot_is_position_retry :
    Shape.single.swaType = .none ∧
      ∃ n ≤ 4, ∀ i, (SessionCall.run Shape.single ⟨512, 64⟩ 0 retryCalls
        (.fresh Shape.single 4)).cache.cells.cell i = if i < n then ((i : Int), {0}) else (-1, ∅) :=
  ⟨rfl, (slot_is_position Shape.single rfl ⟨512, 64⟩ 0 (by decide) 4 (by decide) retryCalls
    retry_continues).2.1⟩

end MzCache.Theorems
