import MzCache.Sync.ReleaseRuns

/-!
# Progressive arena release

A layer's arenas are released once, behind its last decompression, and when a cycle cleans up no
worker holds them any more; what is left of them is what one worker after the other would leave.
-/

namespace MzCache.Theorems

open MzCache MzCache.Lib MzCache.Sync

/-- What holds of the arenas in one state of a cycle. -/
structure ReleaseSafe (numLayers : ℕ) (w : Work) (arenas₀ : ℕ → List Arena) (r : Release) :
    Prop where
  /-- No layer is released twice, from the decision on. -/
  once : r.releases.Nodup
  /-- A release is decided on behind the work of all `DECOMP` tasks of the layer. -/
  after : ∀ e, e.1 ∈ r.releases → ¬ r.sys.Early (.kvDecomp e)
  /-- A task that has yet to decompress finds the arenas that the cycle started with. -/
  reads : ∀ e, r.sys.Early (.kvDecomp e) → r.arenas e.1 = arenas₀ e.1
  /-- Behind `wait_idle_all` every task has finished, those of the `FREE` group included. -/
  drained : r.cleaning = true → (∀ g, r.sys.queue g = []) ∧ r.sys.running = [] ∧
    r.counting = [] ∧ r.handing = [] ∧ r.freeQueue = [] ∧ r.freeRunning = []
  /-- Then a layer's arenas are released, or no worker had to do with them. -/
  cleaned : r.cleaning = true → ∀ i < numLayers,
    r.arenas i = if ∃ e ∈ w.decomp, e.1 = i then [] else arenas₀ i

section

variable {cfg : Config} {io : Io} {early : List ℕ} {v : Variant} {w : Work} {c : Core}
  {arenas₀ : ℕ → List Arena} {r : Release}

/-- A layer with a task that has yet to decompress has not been released. -/
theorem not_released_of_early (h : ReleaseInv v w (presentAt c) (compressInit c.kv) arenas₀ r)
    {e : Cell} (he : r.sys.Early (.kvDecomp e)) : e.1 ∉ r.releases := by
  intro hmem
  have hre : ¬ r.sys.Rebuilding := by
    intro hre
    rw [(h.quiet hre).2.1] at hmem
    cases hmem
  have hlt := h.rows _ hmem
  rw [← h.base.full hre] at hlt
  have hcd := h.counted (Inv.clearSync_done hre) _ hlt
  have hcount := List.count_pos_iff.mpr hmem
  rw [hcd.released] at hcount
  have hpos := he.decompCount_pos fun g hg => (h.groups g _ hg).symm
  have hleft := hcd.left
  rw [Release.pending] at hleft
  split at hcount
  · next hzero => omega
  · omega

theorem drained_of_cleaning (h : ReleaseInv v w (presentAt c) (compressInit c.kv) arenas₀ r)
    (hcl : r.cleaning = true) : (∀ g, r.sys.queue g = []) ∧ r.sys.running = [] ∧
      r.counting = [] ∧ r.handing = [] ∧ r.freeQueue = [] ∧ r.freeRunning = [] := by
  obtain ⟨hprog, hfq, hfr⟩ := h.cleaned hcl
  have hidle : ∀ g, r.sys.queue g = [] ∧ r.sys.runningIn g = 0 :=
    fun g => h.settled g (by simp [hprog])
  have hnone : ∀ e, ¬ (e ∈ r.counting ∨ e ∈ r.handing) := by
    intro e he
    have := h.waitIdle_mem he
    rw [hprog] at this
    cases this
  refine ⟨fun g => (hidle g).1, List.eq_nil_iff_forall_not_mem.mpr fun x hx => ?_,
    List.eq_nil_iff_forall_not_mem.mpr fun e he => hnone e (.inl he),
    List.eq_nil_iff_forall_not_mem.mpr fun e he => hnone e (.inr he), hfq, hfr⟩
  simpa using List.countP_eq_zero.mp (hidle x.1.group).2 x hx

theorem releaseSafe_of_inv (hok : CoreOk cfg c) (hof : WorkOf cfg c w)
    (h : ReleaseInv v w (presentAt c) (compressInit c.kv) arenas₀ r) :
    ReleaseSafe cfg.numLayers w arenas₀ r := by
  have hearly : ∀ e, r.sys.Early (.kvDecomp e) → e.1 ∉ r.releases := fun e =>
    not_released_of_early h
  constructor
  case once =>
    refine List.nodup_iff_count_le_one.mpr fun i => ?_
    by_cases hmem : i ∈ r.releases
    · have hre : ¬ r.sys.Rebuilding := by
        intro hre
        rw [(h.quiet hre).2.1] at hmem
        cases hmem
      have hlt := h.rows i hmem
      rw [← h.base.full hre] at hlt
      rw [(h.counted (Inv.clearSync_done hre) i hlt).released]
      split <;> omega
    · rw [List.count_eq_zero.mpr hmem]
      omega
  case after => exact fun e hmem he => hearly e he hmem
  case reads =>
    intro e he
    rw [h.arenas, if_neg]
    intro hfreed
    exact hearly e he (List.mem_append_right _ hfreed)
  case drained => exact drained_of_cleaning h
  case cleaned =>
    intro hcl i hi
    obtain ⟨hqueue, hrun, hcounting, hhanding, hfq, hfr⟩ := drained_of_cleaning h hcl
    have hprog := (h.cleaned hcl).1
    have hre : ¬ r.sys.Rebuilding := by
      rintro ⟨x, hx, -⟩
      simp [hprog] at hx
    have hlt : i < r.sys.layerSync.length := by
      rw [h.base.full hre, hof.length_totals]
      exact hi
    have hcd := h.counted (Inv.clearSync_done hre) i hlt
    have hzero : r.compLeft i = 0 := by
      rw [hcd.left, Release.pending, Sys.decompCount, hprog, hqueue, hrun, hcounting]
      rfl
    have hfreed : r.releases = r.freed := by
      simp [Release.releases, hhanding, hfq, hfr]
    have hcount := hcd.released
    rw [hzero, hfreed, ← hof.decomp_count hok hi] at hcount
    rw [h.arenas]
    by_cases hex : ∃ e ∈ w.decomp, e.1 = i
    · obtain ⟨e, he, hei⟩ := hex
      have hpos : 0 < w.decomp.countP fun e => decide (e.1 = i) :=
        List.countP_pos_iff.mpr ⟨e, he, by simpa using hei⟩
      rw [if_pos ⟨rfl, by exact_mod_cast hpos⟩] at hcount
      rw [if_pos (List.count_pos_iff.mp (by omega)), if_pos ⟨e, he, hei⟩]
    · have hnone : (w.decomp.countP fun e => decide (e.1 = i)) = 0 := by
        refine List.countP_eq_zero.mpr fun e he => ?_
        simpa using fun hei => hex ⟨e, he, hei⟩
      rw [hnone, if_neg (by simp)] at hcount
      rw [if_neg (List.count_eq_zero.mp hcount), if_neg hex]

/-! ## One worker after the other -/

theorem kvDecompWorker_arenas (cfg : Config) (e : Cell) (s : KvState) (i : ℕ) :
    (kvDecompWorker cfg e.1 e.2 (kvAllocWorker cfg e.1 e.2 s)).arenas i =
        (if e.1 = i ∧ s.compLeft i = 1 then [] else s.arenas i) ∧
      (kvDecompWorker cfg e.1 e.2 (kvAllocWorker cfg e.1 e.2 s)).compLeft i =
        s.compLeft i - if e.1 = i then 1 else 0 := by
  have hleft : (kvAllocWorker cfg e.1 e.2 s).compLeft = s.compLeft := rfl
  have harenas : (kvAllocWorker cfg e.1 e.2 s).arenas = s.arenas := rfl
  unfold kvDecompWorker freeLayerArenas decompressInto
  rw [hleft, harenas]
  by_cases hi : e.1 = i
  · subst hi
    split <;> simp_all
  · split <;> simp [hi, Ne.symm hi]

/-- A layer whose countdown is the number of its chunks is released by the last of them. -/
theorem runDecomps_arenas (cfg : Config) (i : ℕ) (l : List Cell) :
    ∀ s : KvState, s.compLeft i = (l.countP fun e => e.1 = i : ℕ) →
      (runDecomps cfg l s).arenas i = if ∃ e ∈ l, e.1 = i then [] else s.arenas i := by
  induction l with
  | nil =>
      intro s _
      simp [runDecomps]
  | cons e l ih =>
      intro s hs
      obtain ⟨harenas, hleft⟩ := kvDecompWorker_arenas cfg e s i
      rw [List.countP_cons] at hs
      rw [runDecomps, ih _ (by rw [hleft, hs]; split <;> simp_all), harenas]
      by_cases hrest : ∃ d ∈ l, d.1 = i
      · obtain ⟨d, hd, hdi⟩ := hrest
        rw [if_pos ⟨d, hd, hdi⟩, if_pos ⟨d, List.mem_cons_of_mem _ hd, hdi⟩]
      · have hzero : (l.countP fun e => decide (e.1 = i)) = 0 := by
          refine List.countP_eq_zero.mpr fun d hd => ?_
          simpa using fun hdi => hrest ⟨d, hd, hdi⟩
        rw [if_neg hrest]
        by_cases hi : e.1 = i
        · rw [if_pos ⟨hi, by simp [hs, hzero, hi]⟩, if_pos ⟨e, List.mem_cons_self, hi⟩]
        · have hnone : ¬ ∃ d ∈ e :: l, d.1 = i := by
            rintro ⟨d, hd, hdi⟩
            rcases List.mem_cons.mp hd with rfl | hd
            · exact hi hdi
            · exact hrest ⟨d, hd, hdi⟩
          rw [if_neg (fun h => hi h.1), if_neg hnone]

/-! ## The result -/

/-- In every schedule of every variant the arenas of a layer are released at most once, and only
behind all decompressions of the layer; when the cycle cleans up every task has finished, and the
arenas are those that the decompressions would leave one after the other. No schedule goes on
forever, and one of `swapin_generate` that stops has cleaned up. -/
theorem arena_release_safe (hc : (engine cfg io).Reachable c)
    (hw : cycleWork v cfg io early c = some w) (workers : CoreType → ℕ) (freeWorkers : ℕ)
    (arenas₀ : ℕ → List Arena) :
    (releaseCycle cfg.numLayers workers freeWorkers (compressInit c.kv) v w c arenas₀).Invariant
        (fun r => ReleaseSafe cfg.numLayers w arenas₀ r ∧
          ∀ s : KvState, s.arenas = arenas₀ →
            (∀ i < cfg.numLayers, s.compLeft i = compressInit c.kv i) →
            r.cleaning = true → ∀ i < cfg.numLayers,
              r.arenas i = (runDecomps cfg w.decomp s).arenas i) ∧
      (∀ run : ℕ → Release, ReleaseStart v w c arenas₀ (run 0) →
        ¬ ∀ n, (releaseCycle cfg.numLayers workers freeWorkers (compressInit c.kv) v w c
          arenas₀).step (run n) (run (n + 1))) ∧
      (v = .generate → (∀ g, 0 < workers g) → 0 < freeWorkers → ∀ r,
        (releaseCycle cfg.numLayers workers freeWorkers (compressInit c.kv) v w c
          arenas₀).Reachable r →
        (∀ a, releaseAct cfg.numLayers workers freeWorkers (compressInit c.kv) a r = none) →
        r.cleaning = true) := by
  have hok := (engine_ok c hc).1
  have hof := workOf_of_cycleWork hok hw
  refine ⟨fun r hr => ?_, releaseCycle_finite hok hof, ?_⟩
  · have hsafe := releaseSafe_of_inv hok hof (releaseCycle_inv hok hof hr)
    refine ⟨hsafe, fun s harenas hleft hcl i hi => ?_⟩
    rw [hsafe.cleaned hcl i hi, runDecomps_arenas cfg i w.decomp s
      (by rw [hleft i hi, hof.decomp_count hok hi]), harenas]
  · rintro rfl hworkers hfree r hr hstuck
    have hsys := releaseCycle_sys hr
    exact release_stuck (releaseCycle_inv hok hof hr) (cycle_live hok hof hsys) (cycle_begun hsys)
      hstuck hworkers hfree

end

/-- The small engine, swapped out completely, decompresses one chunk of each layer. -/
theorem arena_release_safe_smallOut :
    ∃ w, cycleWork .generate .small .ok [] .smallOut = some w ∧
      w.decomp = [(0, 0), (1, 0)] ∧ ∀ workers freeWorkers arenas₀,
        (releaseCycle 2 workers freeWorkers (compressInit Core.smallOut.kv) .generate w .smallOut
          arenas₀).Invariant (ReleaseSafe 2 w arenas₀) := by
  obtain ⟨w, hw⟩ := Option.isSome_iff_exists.mp
    (cycleWork_isSome .generate .small .ok (fun _ => rfl) [] .smallOut)
  refine ⟨w, hw, ?_, fun workers freeWorkers arenas₀ r hr =>
    ((arena_release_safe Core.smallOut_reachable hw workers freeWorkers arenas₀).1 r hr).1⟩
  rw [(workOf_of_cycleWork (engine_ok _ Core.smallOut_reachable).1 hw).decomp]
  with_unfolding_all decide

end MzCache.Theorems
