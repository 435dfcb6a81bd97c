import MzCache.Core.SwapoutLadder

/-!
# The engine

The system an application drives: `swapout` with any target, `swapin_generate`,
chunk growth, and decodes writing into resident chunks, in any order, from
construction on. In every reachable state the ladder is in order and a swapout may
start.
-/

namespace MzCache

open MzCache.Lib

/-- One call into the engine. -/
inductive EngineStep (cfg : Config) (io : Io) (c : Core) : Core → Prop
  | swapout (target ratio : ℚ) (c' : Core) (h : SwapoutReturns cfg io target c ratio c') :
      EngineStep cfg io c c'
  | swapin (early late : List Nat) (r : Swapin)
      (h : swapinGenerate cfg io early late c = some r) : EngineStep cfg io c r.core
  | grow (need : Nat) : EngineStep cfg io c (mzGrowChunks cfg need c)
  | grown (n : Nat) : EngineStep cfg io c (onKvChunksGrown cfg n c)
  | write (l j : Nat) (mem : ChunkMem) (h : (c.kv.svm l j).isSome) :
      EngineStep cfg io c { c with kv := { c.kv with svm := Table.set c.kv.svm l j (some mem) } }

/-- The engine over an environment. -/
def engine (cfg : Config) (io : Io) : TSys Core where
  init := fun c => ∃ n alloc mem, 0 < n ∧ n ≤ cfg.f32.limit ∧ c = Core.init cfg n alloc mem
  step := EngineStep cfg io

section

variable {cfg : Config} {io : Io}

/-- With nothing evicted a swapout may start. -/
theorem CoreOk.phaseOk_of_empty {c : Core} (h : CoreOk cfg c) (hc : c.kv.compBeyond cfg = [])
    (hs : c.kv.storeBeyond cfg = []) : PhaseOk cfg c.kv :=
  h.ladder.phaseOk_of_clean (by rw [h.ladder.nComp, hc]; rfl) (by rw [h.ladder.nStore, hs]; rfl)

theorem engineStep_ok {c c' : Core} (h : CoreOk cfg c ∧ PhaseOk cfg c.kv)
    (hs : EngineStep cfg io c c') : CoreOk cfg c' ∧ PhaseOk cfg c'.kv := by
  obtain ⟨hok, hp⟩ := h
  cases hs with
  | swapout target ratio c' hs =>
      obtain ⟨h1, h2, _⟩ := hok.swapout hp hs
      exact ⟨h1, h2⟩
  | swapin early late r hs =>
      have hr := hok.swapinGenerate hs
      exact ⟨hr.ok, hr.ok.phaseOk_of_empty hr.noComp hr.noStore⟩
  | grow need =>
      have hg := hok.ladder.mzGrowChunks hok.follow need
      exact ⟨hg.ok hok, hp.regrown hok.ladder hg.kv⟩
  | grown n =>
      have hg := hok.ladder.onKvChunksGrown n
      exact ⟨hg.ok hok, hp.regrown hok.ladder hg.kv⟩
  | write l j mem h => exact ⟨hok.moved (hok.ladder.stay rfl), hp⟩

/-- Every reachable state is a ladder from which a swapout may start. -/
theorem engine_ok : (engine cfg io).Invariant fun c => CoreOk cfg c ∧ PhaseOk cfg c.kv := by
  refine TSys.invariant_of_step ?_ (fun _ _ h hs => engineStep_ok h hs)
  rintro c ⟨n, alloc, mem, hpos, hle, rfl⟩
  have hok := CoreOk.init n alloc mem hpos hle
  exact ⟨hok, hok.ladder.phaseOk_of_clean rfl rfl⟩

/-- So is every reachable state by ladder steps a ladder. -/
theorem ladderRun_ok {n alloc : Nat} {mem : Nat → Nat → Option ChunkMem} (hpos : 0 < n)
    (hle : n ≤ cfg.f32.limit) {c : Core} (hr : LadderRun cfg io (Core.init cfg n alloc mem) c) :
    CoreOk cfg c :=
  (CoreOk.init n alloc mem hpos hle).run hr

end

/-! ## A small engine -/

/-- A kernel for chunks of zeros: every byte, minimum and maximum is zero. -/
def Kernel.zeros : Kernel where
  encode := fun _ _ _ _ => 0
  encodeSize := fun _ _ _ => 0
  side := fun _ _ _ _ => 0
  decode := fun _ _ _ _ _ _ => 0

/-- Two layers, half of each layer's chunks compressed, exact arithmetic. -/
def Config.small : Config where
  numLayers := 2
  kvHiddenDim := 64
  backend := .flexgen
  perLayerBalance := 0
  decompLoadRatio := 1 / 2
  weightLayerBytes := 1000
  f32 := .exact 256
  f64 := .exact 256
  kernel := .zeros
  uninit := fun _ => 0
  numLayers_pos := by decide
  ratio_nonneg := by norm_num
  ratio_le_one := by norm_num
  ratio_float := rfl
  limit_ge := exact_limit_ge
  one_double := exact_one_le

/-- The small engine with two zeroed chunks a layer. -/
def Core.small : Core := .init .small 2 2 fun _ _ => some ⟨fun _ => 0, fun _ => 0, true⟩

theorem Core.small_reachable (io : Io) : (engine .small io).Reachable .small :=
  .start ⟨2, 2, _, by decide, by decide, rfl⟩

/-- The small engine after `swapout(0)`. -/
def Core.smallOut : Core := ((swapoutStart .small 0 .small).run .small .ok 0 7).core

theorem Core.smallOut_returned : SwapoutReturns .small .ok 0 .small (256 / 16509) .smallOut :=
  ⟨7, by with_unfolding_all decide, rfl⟩

theorem Core.smallOut_reachable : (engine .small .ok).Reachable .smallOut :=
  (Core.small_reachable .ok).next (.swapout 0 _ _ Core.smallOut_returned)

end MzCache
