import MzCache.Core.SwapoutSinks

/-!
# Path independence of swapout

From a clean ladder the way down does not depend on the targets asked for in between: a
swapout goes on where the one before it stopped, takes nothing back, and misses its target
only once everything is out.
-/

namespace MzCache.Theorems

open MzCache MzCache.Lib

/-- From a clean ladder without growth to fold in, and with every call succeeding: a swapout
returns; one after another ends like the lower one alone; the same target again evicts
nothing; no step takes anything back; a target is missed only with everything out. -/
theorem swapout_path_independent (cfg : Config) (io0 io : Io) (c : Core)
    (hreach : (engine cfg io0).Reachable c) (hclean : c.kv.cleanLadder)
    (hpending : c.kv.pendingChunksTotal ≤ c.kv.numChunksPerTensor) (hio : io.Succeeds) :
    (∀ target, ∃ ratio c', SwapoutReturns cfg io target c ratio c') ∧
    (∀ t1 t2 r1 c1, t2 ≤ t1 → SwapoutReturns cfg io t1 c r1 c1 →
      (∃ r12 c12, SwapoutReturns cfg io t2 c1 r12 c12) ∧
      ∀ r12 c12 r2 c2, SwapoutReturns cfg io t2 c1 r12 c12 → SwapoutReturns cfg io t2 c r2 c2 →
        c2.Alike c12 ∧ r12 = r2) ∧
    (∀ target r1 c1 r2 c2, SwapoutReturns cfg io target c r1 c1 →
      SwapoutReturns cfg io target c1 r2 c2 → c1.Alike c2 ∧ r2 = r1) ∧
    (∀ d, (d = c ∨ ∃ t r, SwapoutReturns cfg io t c r d) → ∀ target,
      NothingBack cfg d (swapoutStart cfg target d).core ∧
      ∀ k, NothingBack cfg ((swapoutStart cfg target d).run cfg io target k).core
        ((swapoutStart cfg target d).run cfg io target (k + 1)).core) ∧
    ∀ target ratio c', SwapoutReturns cfg io target c ratio c' → target < ratio →
      c'.AllEvicted cfg := by
  obtain ⟨⟨hok, hp⟩, htotals⟩ := engine_totals c hreach
  have hshelf := (engine_shelf c hreach).2
  have hrested : c.Rested cfg := ⟨hok, hp, htotals, hclean, hpending⟩
  refine ⟨fun target => hio.returns hok hp target, ?_, ?_, ?_, ?_⟩
  · intro t1 t2 r1 c1 hle h1
    obtain ⟨hok1, hp1, -⟩ := hok.swapout hp h1
    refine ⟨hio.returns hok1 hp1 t2, ?_⟩
    intro r12 c12 r2 c2 h12 h2
    exact hrested.resume hio hle h1 h12 h2
  · intro target r1 c1 r2 c2 h1 h2
    exact hrested.resume hio le_rfl h1 h2 h1
  · intro d hd target
    -- the state the swapout starts from is in order, the first time and every time after
    have hd' : CoreOk cfg d ∧ PhaseOk cfg d.kv ∧ ShelfOk cfg d := by
      rcases hd with rfl | ⟨t, r, h⟩
      · exact ⟨hok, hp, hshelf⟩
      · obtain ⟨hokd, hpd, hrun⟩ := hok.swapout hp h
        exact ⟨hokd, hpd, hrun.shelf hok hshelf⟩
    obtain ⟨hokd, hpd, hshelfd⟩ := hd'
    obtain ⟨hstart, hfold⟩ := SwapoutOk.start io target hokd hpd
    refine ⟨hfold.nothingBack hokd hshelfd, fun k => ?_⟩
    obtain ⟨hm, hrun⟩ := hstart.run io target k
    have hshelfm := hrun.shelf hstart.core (hfold.shelf hokd hshelfd)
    rw [Swapout.run_succ]
    exact (hm.step io target).2.nothingBack hm.core hshelfm
  · rintro target ratio c' ⟨k, hpc, rfl⟩ hlow
    have hdesc := (hrested.descent target).run hio k
    have hempty := ((hdesc.done ratio hpc).2).resolve_left (not_le.mpr hlow)
    have hreturns : SwapoutReturns cfg io target c ratio
        ((swapoutStart cfg target c).run cfg io target k).core := ⟨k, hpc, rfl⟩
    have hrun := (hok.swapout hp hreturns).2.2
    exact hempty.all hdesc.ok.core (hrun.shelf hok hshelf)

/-- The small engine swapped out to a half and then to nothing ends as if asked for nothing
at once: with everything out. -/
theorem swapout_path_independent_small :
    (∃ r1 c1 r12 c12, SwapoutReturns .small .ok (1 / 2) .small r1 c1 ∧
      SwapoutReturns .small .ok 0 c1 r12 c12 ∧ Core.smallOut.Alike c12) ∧
    Core.smallOut.AllEvicted .small := by
  have h := swapout_path_independent .small .ok .ok .small (Core.small_reachable .ok) rfl
    (by decide) fun _ _ => rfl
  obtain ⟨r1, c1, h1⟩ := h.1 (1 / 2)
  have hpath := h.2.1 (1 / 2) 0 r1 c1 (by norm_num) h1
  obtain ⟨r12, c12, h12⟩ := hpath.1
  refine ⟨⟨r1, c1, r12, c12, h1, h12, ?_⟩, ?_⟩
  · exact (hpath.2 r12 c12 _ _ h12 Core.smallOut_returned).1
  · exact h.2.2.2.2 0 _ _ Core.smallOut_returned (by norm_num)

end MzCache.Theorems
