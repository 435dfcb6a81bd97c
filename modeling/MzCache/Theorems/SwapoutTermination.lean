import MzCache.Core.SwapoutProgress

/-!
# Termination of swapout

`swapout_impl` repeats a failed store-file open and a failed arena offload without a
bound. It returns exactly when its loops never stand at a head from which the repeated
call fails for ever.
-/

namespace MzCache.Theorems

open MzCache MzCache.Lib

/-- Swapout returns if and only if no loop head is stalled. -/
theorem swapout_returns_iff_never_stalled (cfg : Config) (io : Io) (target : ℚ) (c : Core)
    (hreach : (engine cfg io).Reachable c) :
    (∃ ratio c', SwapoutReturns cfg io target c ratio c') ↔
      ∀ k, ¬ Stalled cfg io target ((swapoutStart cfg target c).run cfg io target k) := by
  obtain ⟨hok, hp⟩ := engine_ok c hreach
  obtain ⟨hstart, _⟩ := SwapoutOk.start io target hok hp
  constructor
  · rintro ⟨ratio, c', n, hpc, _⟩ k hs
    -- a stalled head stays stalled, so the machine cannot have returned at step `n`
    obtain ⟨hok', _⟩ := hstart.run io target k
    have hlater := hok'.stalled_run hs n
    rw [← Swapout.run_add, Nat.add_comm, Swapout.run_add,
      Swapout.run_returned hpc] at hlater
    exact hlater.not_returned hpc
  · intro hns
    obtain ⟨k, ratio, hpc⟩ := hstart.returns target hns
    exact ⟨ratio, _, k, hpc, rfl⟩

/-- With every call succeeding no head is stalled, so every swapout returns. -/
theorem swapout_returns_small :
    ∃ ratio c', SwapoutReturns .small .ok 0 .small ratio c' := by
  refine (swapout_returns_iff_never_stalled .small .ok 0 .small
    (Core.small_reachable .ok)).mpr fun k hs => ?_
  rcases hs with hs | hs
  · exact absurd (hs.dead _ le_rfl) (by simp [Io.ok, IoResult.opened])
  · exact absurd (hs.dead 0) (by rw [offloadAttempt_ok]; simp)

/-- When no file can be opened, `swapout(0)` on the small engine never returns. -/
theorem swapout_stuck_when_opens_fail :
    ¬ ∃ ratio c', SwapoutReturns .small (fun _ _ => .error) 0 .small ratio c' := by
  rintro ⟨ratio, c', n, hpc, _⟩
  obtain ⟨hok, hp⟩ := engine_ok Core.small (Core.small_reachable fun _ _ => .error)
  obtain ⟨hstart, _⟩ := SwapoutOk.start (fun _ _ => .error) 0 hok hp
  obtain ⟨hok1, _⟩ := hstart.run (fun _ _ => .error) 0 1
  -- the first iteration compresses everything there is to compress
  have hs : Stalled .small (fun _ _ => .error) 0
      ((swapoutStart .small 0 .small).run .small (fun _ _ => .error) 0 1) := by
    refine Or.inl ⟨?_, ?_, ?_, ?_, ?_, fun _ _ => rfl, ?_⟩
    · with_unfolding_all decide
    · with_unfolding_all decide
    · with_unfolding_all decide
    · with_unfolding_all decide
    · unfold KvState.storeClosed
      with_unfolding_all decide
    · with_unfolding_all decide
  have hlater := hok1.stalled_run hs n
  rw [← Swapout.run_add, Nat.add_comm, Swapout.run_add, Swapout.run_returned hpc] at hlater
  exact hlater.not_returned hpc

end MzCache.Theorems
