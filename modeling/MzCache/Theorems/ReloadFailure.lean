import MzCache.Core.Engine
import MzCache.Kv.ReloadFailure

/-!
# When a whole reload loses nothing

`mzcache_reload_arenas` keeps what it cannot read back. `mzcache_reload_all_arenas` keeps it
only in the sense that there is nothing to keep: as soon as one open or read fails, a layer
is out of reach of every later reload.
-/

namespace MzCache.Theorems

open MzCache MzCache.Lib

/-- After the reload of `s` into `t`, a layer keeps its file, is still counted, and a later
reload comes to it again. -/
structure StillOffloaded (s t : KvState) (layer : Nat) : Prop where
  file : t.swapFile layer = s.swapFile layer
  snapshot : t.offloadUsedBytes layer = s.offloadUsedBytes layer
  counted : paddedBytes (s.offloadUsedBytes layer) ≤ t.nCurArenaOffloadBytes
  reachable : t.nextLayerToOffload < layer

/-- What a reload that fails should leave. -/
structure LosesNothing (cfg : Config) (io : Io) (s : KvState) : Prop where
  kept : ∀ layer, s.firstOffloaded ≤ layer → layer < cfg.numLayers →
    ¬ LayerReadBack cfg io (s.reloadedUpTo cfg io layer) layer →
    StillOffloaded s (mzcacheReloadAllArenas cfg io s) layer
  closes : ∀ layer, s.firstOffloaded ≤ layer → layer < cfg.numLayers →
    reloadCloses cfg io (s.reloadedUpTo cfg io layer) layer ≤ 1

/-- `mzcache_reload_all_arenas` loses nothing if and only if every open and read it makes
succeeds; `mzcache_reload_arenas` keeps the layer that it fails to read back. -/
theorem reload_all_loses_nothing_iff (cfg : Config) (io : Io) (s : KvState) :
    (LosesNothing cfg io s ↔
      reloadsSucceed io s.arenaBytes ((s.offloadedLayers cfg).map s.offloadUsedBytes) s.tick) ∧
    (s.firstOffloaded < cfg.numLayers → ¬ LayerReadBack cfg io s s.firstOffloaded →
      let t := mzcacheReloadArenas cfg io s
      t.swapFile = s.swapFile ∧ t.offloadUsedBytes = s.offloadUsedBytes ∧
        t.nCurArenaOffloadBytes = s.nCurArenaOffloadBytes ∧
        t.nextLayerToOffload = s.nextLayerToOffload) := by
  refine ⟨?_, fun hlayer hfail => reloadArenas_failed s hlayer hfail⟩
  rw [reloadsSucceed_layers]
  constructor
  · intro h layer hfirst hlast
    by_contra hfail
    have hkept := (h.kept layer hfirst hlast hfail).reachable
    -- the cursor goes back to the last layer, whatever was read
    have hnext : (mzcacheReloadAllArenas cfg io s).nextLayerToOffload =
        (cfg.numLayers : Int) - 1 := by
      unfold mzcacheReloadAllArenas
      dsimp only
      rw [if_neg (by omega)]
    omega
  · intro h
    refine ⟨?_, ?_⟩
    · intro layer hfirst hlast hfail
      exact absurd (h layer hfirst hlast) hfail
    · intro layer hfirst hlast
      exact (h layer hfirst hlast).closes

/-- Reads of swap files fail, everything else succeeds. -/
def Io.readsFail : Io := fun call _ =>
  match call with
  | .reloadRead => .error
  | _ => .full

/-- The small engine, swapped out completely: the first failing read closes its descriptor
twice, and both layers are out of reach and no longer counted. -/
theorem reload_all_loses_layers :
    let s := Core.smallOut.kv
    let t := mzcacheReloadAllArenas .small Io.readsFail s
    0 < s.nCurArenaOffloadBytes ∧ s.nextLayerToOffload = -1 ∧
      reloadCloses .small Io.readsFail s 0 = 2 ∧ t.nCurArenaOffloadBytes = 0 ∧
      t.nextLayerToOffload = 1 ∧ (t.arenas 0).length = 0 ∧ ¬ LosesNothing .small Io.readsFail s := by
  intro s t
  refine ⟨by with_unfolding_all decide, by with_unfolding_all decide,
    by with_unfolding_all decide, by with_unfolding_all decide, by with_unfolding_all decide,
    by with_unfolding_all decide, ?_⟩
  intro h
  have hall := (reload_all_loses_nothing_iff .small Io.readsFail s).1.mp h
  exact absurd hall (by with_unfolding_all decide)

/-- When every call succeeds the whole reload loses nothing, and where reads fail the reload of
one layer leaves the cursor and the count. -/
theorem reload_all_smallOut :
    LosesNothing .small .ok Core.smallOut.kv ∧
      (mzcacheReloadArenas .small Io.readsFail Core.smallOut.kv).nextLayerToOffload = -1 := by
  have hfail : ¬ LayerReadBack .small Io.readsFail Core.smallOut.kv Core.smallOut.kv.firstOffloaded := by
    rw [readBack_iff]
    with_unfolding_all decide
  have hnext : Core.smallOut.kv.nextLayerToOffload = -1 := by with_unfolding_all decide
  refine ⟨(reload_all_loses_nothing_iff .small .ok Core.smallOut.kv).1.mpr
    (by with_unfolding_all decide), ?_⟩
  have h := (reload_all_loses_nothing_iff .small Io.readsFail Core.smallOut.kv).2
    (by with_unfolding_all decide) hfail
  exact h.2.2.2.trans hnext

end MzCache.Theorems
