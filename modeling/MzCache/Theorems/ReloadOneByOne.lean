import MzCache.Core.ReloadOneByOne

/-!
# One reload a layer, or all at once

With file operations that succeed, `mzcache_reload_arenas` called once for each offloaded
layer does what `mzcache_reload_all_arenas` does, if every one of these layers had an arena.
At a layer without one it gives up and the cursor stays.
-/

namespace MzCache.Theorems

open MzCache MzCache.Lib

/-- After any number of offloads, of arenas of any number and contents, the two ways to reload
agree if and only if each of the offloaded layers had an arena. -/
theorem reload_one_by_one_iff (cfg : Config) (io : Io) (hout : io.Offloads) (hback : io.Reloads)
    (s : KvState) (hnext : s.nextLayerToOffload = (cfg.numLayers : Int) - 1)
    (hbytes : s.nCurArenaOffloadBytes = 0) (y : OffloadCycle) (hfits : y.Fits cfg s.arenaBytes) :
    ReloadsAgree cfg io (y.offloaded io s) ↔
      ∀ l < cfg.numLayers, cfg.numLayers ≤ l + y.offloads → y.arenas l ≠ [] := by
  have hpos := cfg.numLayers_pos
  -- the state before the offloads
  have hpools : ∀ l < cfg.numLayers, ({ s with arenas := y.arenas } : KvState).pools l =
      y.arenas l := fun l hl => if_pos (by show (l : Int) ≤ s.nextLayerToOffload; omega)
  have hshelved : Shelved cfg { s with arenas := y.arenas } := by
    refine ⟨?_, ?_, ?_, ?_⟩
    · show -1 ≤ s.nextLayerToOffload
      omega
    · show s.nextLayerToOffload < cfg.numLayers
      omega
    · intro l hl hlt
      have hlt' : s.nextLayerToOffload < l := hlt
      omega
    · intro l hl a ha
      rw [hpools l hl] at ha
      exact hfits l hl a ha
  have hstart : Tallied cfg { s with arenas := y.arenas } := by
    refine ⟨hshelved.nextLow, hshelved.nextHigh, hbytes.trans (offloadedBytes_resident ?_).symm⟩
    show s.nextLayerToOffload + 1 = cfg.numLayers
    omega
  -- what the offloads leave
  have htally : Tallied cfg (y.offloaded io s) := hstart.offloadTimes y.offloads
  obtain ⟨hmoved, hmid, -⟩ := offloadTimes_spec hout hshelved y.offloads
  have hmid' : (y.offloaded io s).nextLayerToOffload =
      max (-1) (s.nextLayerToOffload - y.offloads) := hmid
  have hsh : Shelved cfg (y.offloaded io s) := hmoved.shelved hshelved
  have hsnap : ∀ l < cfg.numLayers, (y.offloaded io s).nextLayerToOffload < l →
      ((y.offloaded io s).offloadUsedBytes l = [] ↔ y.arenas l = []) := by
    intro l hl hlt
    have hsame := hmoved.same l hl
    rw [hpools l hl] at hsame
    have htops := map_top_of_same hsame
    have hused : (y.offloaded io s).tops l = (y.offloaded io s).offloadUsedBytes l := by
      unfold KvState.tops KvState.pools
      rw [if_neg (by omega), swapImage_tops]
    rw [← hused]
    show ((y.offloaded io s).pools l).map Arena.top = [] ↔ _
    rw [show ((y.offloaded io s).pools l).map Arena.top = (y.arenas l).map Arena.top from htops,
      List.map_eq_nil_iff]
  rw [reloadsAgree_iff hback htally fun l hl hlt => hsh.snapshot_le hl hlt]
  constructor
  · intro h l hl hlast hnil
    exact h l hl (by omega) ((hsnap l hl (by omega)).mpr hnil)
  · intro h l hl hlt hnil
    exact h l hl (by omega) ((hsnap l hl hlt).mp hnil)

/-- Layer 1 of two has a full arena, and only that layer is offloaded. -/
theorem reload_one_by_one_full :
    let y : OffloadCycle := ⟨fun l => if l = 1 then [⟨fun _ => 7, 8192, 8192⟩] else [], 1⟩
    let s : KvState := { KvState.init .small 2 (fun _ _ => none) with arenaBytes := 8192 }
    ReloadsAgree .small .ok (y.offloaded .ok s) := by
  intro y s
  have hfits : y.Fits .small s.arenaBytes := by
    intro l hl a ha
    by_cases h1 : l = 1
    · have hone : y.arenas l = [⟨fun _ => 7, 8192, 8192⟩] := if_pos h1
      rw [hone, List.mem_singleton] at ha
      subst ha
      exact ⟨rfl, le_rfl⟩
    · have hnone : y.arenas l = [] := if_neg h1
      rw [hnone] at ha
      exact absurd ha List.not_mem_nil
  refine (reload_one_by_one_iff .small .ok ⟨fun _ => rfl, fun _ => rfl⟩
    ⟨fun _ => rfl, fun _ => rfl⟩ s rfl rfl y hfits).mpr fun l hl hlast => ?_
  have hlast' : 2 ≤ l + 1 := hlast
  have hl' : l < 2 := hl
  obtain rfl : l = 1 := by omega
  exact List.cons_ne_nil _ _

/-! ## A plan that compresses nothing of its last layer -/

/-- Two layers; the balance chunks make up the first, and a quarter of two chunks is none. -/
def frontConfig : Config :=
  { Config.small with
    perLayerBalance := 1
    decompLoadRatio := 1 / 4
    ratio_nonneg := by norm_num
    ratio_le_one := by norm_num
    ratio_float := rfl }

/-- Everything that the plan of `frontConfig` compresses, compressed. -/
def frontCompressed : KvState :=
  (mzcacheCompressChunks frontConfig
    (KvState.init frontConfig 2 fun _ _ => none).maxCompChunks.toNat
    (.init frontConfig 2 fun _ _ => none)).1

/-- Layer 1 has no arena. One call leaves the cursor behind it, where the whole reload sets it
back to the last layer. -/
theorem reload_one_by_one_stuck :
    chunkBounds frontConfig 2 1 = 0 ∧ frontCompressed.arenas 1 = [] ∧
      (reloadOneByOne frontConfig .ok (offloadTimes .ok 1 frontCompressed)).nextLayerToOffload =
        0 ∧
      (mzcacheReloadAllArenas frontConfig .ok
        (offloadTimes .ok 1 frontCompressed)).nextLayerToOffload = 1 ∧
      ¬ ReloadsAgree frontConfig .ok (offloadTimes .ok 1 frontCompressed) := by
  have hbound : chunkBounds frontConfig 2 1 = 0 := by with_unfolding_all decide
  have hone : (reloadOneByOne frontConfig .ok
      (offloadTimes .ok 1 frontCompressed)).nextLayerToOffload = 0 := by with_unfolding_all decide
  have hall : (mzcacheReloadAllArenas frontConfig .ok
      (offloadTimes .ok 1 frontCompressed)).nextLayerToOffload = 1 := by with_unfolding_all decide
  refine ⟨hbound, (compressAll_arenas (by decide) (by decide) (by decide)).mpr hbound, hone, hall,
    fun hagree => ?_⟩
  have hnext := hagree.next
  rw [hone, hall] at hnext
  exact absurd hnext (by decide)

end MzCache.Theorems
