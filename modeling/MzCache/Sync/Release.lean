import MzCache.Sync.Progress

/-!
# The release of the arenas

The `FREE` group beside the protocol of `Model`. The last decompression of a layer hands the
layer's arenas to it: `kv_decomp_worker` counts `comp_left` down after its work and before its
`taskDone`, and whoever takes it from one to zero enqueues `free_layer_arenas`. The counters are
seeded by `initialize_layer_sync`, and `wait_idle_all` comes to the `FREE` group last.
-/

namespace MzCache.Sync

open MzCache MzCache.Lib

/-- A cycle with its releases. The arenas are those that `mzcache_reload_all_arenas` left. -/
structure Release where
  sys : Sys
  compLeft : ℕ → ℤ
  /-- `DECOMP` tasks that are about to count down -/
  counting : List Cell
  /-- `DECOMP` tasks that are about to enqueue the release of their layer -/
  handing : List Cell
  /-- the queue of the `FREE` group, the layers its workers are busy with, and those released -/
  freeQueue : List ℕ
  freeRunning : List ℕ
  freed : List ℕ
  arenas : ℕ → List Arena
  /-- `wait_idle_all` has returned. -/
  cleaning : Bool

/-- Layers whose release has been decided on. -/
def Release.releases (r : Release) : List ℕ :=
  r.handing.map Prod.fst ++ r.freeQueue ++ r.freeRunning ++ r.freed

inductive RAction
  | sys (a : Action)
  | countDown (k : ℕ)
  | handOff (k : ℕ)
  | startFree
  | finishFree (k : ℕ)
  | waitFree
  deriving DecidableEq, Repr

/-- A task calls `taskDone` after it has counted down and handed over. -/
def Release.blocks (r : Release) : Action → Bool
  | .task k =>
      match r.sys.running[k]? with
      | some (.restore (.kvDecomp c), .taskDone) => decide (c ∈ r.counting ∨ c ∈ r.handing)
      | _ => false
  | _ => false

/-- The chunk whose decompression the next micro-step of a task ends. -/
def Sys.decompresses (s : Sys) (k : ℕ) : Option Cell :=
  match s.running[k]? with
  | some (.restore (.kvDecomp c), .work) => some c
  | _ => none

/-- What a step of the protocol does beside it: a layer's countdown is seeded just before its
`LayerSync` is pushed, and a task that has decompressed is about to count down. -/
def Release.beside (seed : ℕ → ℤ) (r : Release) : Action → Release
  | .main =>
      match r.sys.prog with
      | .pushSync _ :: _ =>
          let i := r.sys.layerSync.length
          { r with compLeft := Function.update r.compLeft i (seed i) }
      | _ => r
  | .task k => { r with counting := r.counting ++ (r.sys.decompresses k).toList }
  | _ => r

section

variable (numLayers : ℕ) (workers : CoreType → ℕ) (freeWorkers : ℕ) (seed : ℕ → ℤ)

/-- One step of the schedule. -/
def releaseAct (a : RAction) (r : Release) : Option Release :=
  match a with
  | .sys a =>
      if r.blocks a then none
      else (act numLayers workers a r.sys).map fun s => { r.beside seed a with sys := s }
  | .countDown k =>
      match r.counting[k]? with
      | none => none
      | some c =>
          -- `comp_left[layer].fetch_sub(1) == 1`
          some { r with
            counting := r.counting.eraseIdx k
            compLeft := Function.update r.compLeft c.1 (r.compLeft c.1 - 1)
            handing := if r.compLeft c.1 = 1 then r.handing ++ [c] else r.handing }
  | .handOff k =>
      match r.handing[k]? with
      | none => none
      | some c =>
          some { r with handing := r.handing.eraseIdx k, freeQueue := r.freeQueue ++ [c.1] }
  | .startFree =>
      match r.freeQueue with
      | [] => none
      | l :: rest =>
          if r.freeRunning.length < freeWorkers then
            some { r with freeQueue := rest, freeRunning := r.freeRunning ++ [l] }
          else none
  | .finishFree k =>
      match r.freeRunning[k]? with
      | none => none
      | some l =>
          -- `free_layer_arenas`
          some { r with
            freeRunning := r.freeRunning.eraseIdx k
            freed := r.freed ++ [l]
            arenas := Function.update r.arenas l [] }
  | .waitFree =>
      -- the main thread, behind the waits of the other groups
      if r.sys.prog = [] ∧ r.freeQueue = [] ∧ r.freeRunning = [] ∧ r.cleaning = false then
        some { r with cleaning := true }
      else none

/-- The state in which a cycle starts. The countdowns are what an earlier cycle left. -/
structure ReleaseStart (v : Variant) (w : Work) (c : Core) (arenas₀ : ℕ → List Arena)
    (r : Release) : Prop where
  sys : CycleStart v w c r.sys
  counting : r.counting = []
  handing : r.handing = []
  freeQueue : r.freeQueue = []
  freeRunning : r.freeRunning = []
  freed : r.freed = []
  arenas : r.arenas = arenas₀
  cleaning : r.cleaning = false

/-- All interleavings of one cycle with its releases. -/
def releaseCycle (v : Variant) (w : Work) (c : Core) (arenas₀ : ℕ → List Arena) :
    TSys Release where
  init := ReleaseStart v w c arenas₀
  step := fun r r' => ∃ a, releaseAct numLayers workers freeWorkers seed a r = some r'

end

/-! ## The protocol below -/

section

variable {numLayers : ℕ} {workers : CoreType → ℕ} {freeWorkers : ℕ} {seed : ℕ → ℤ}
  {r r' : Release}

@[simp] theorem Release.beside_sys (seed : ℕ → ℤ) (r : Release) (a : Action) :
    (r.beside seed a).sys = r.sys := by
  unfold Release.beside
  split
  · split <;> rfl
  · rfl
  · rfl

/-- The releases are beside the protocol: a step is a step of the protocol or leaves it alone. -/
theorem releaseAct_sys {a : RAction}
    (h : releaseAct numLayers workers freeWorkers seed a r = some r') :
    (∃ b, a = .sys b ∧ r.blocks b = false ∧ act numLayers workers b r.sys = some r'.sys ∧
      r' = { r.beside seed b with sys := r'.sys }) ∨ r'.sys = r.sys := by
  cases a with
  | sys b =>
      simp only [releaseAct] at h
      split at h
      · cases h
      · next hb =>
          obtain ⟨s, hs, rfl⟩ := Option.map_eq_some_iff.mp h
          exact .inl ⟨b, rfl, by simpa using hb, hs, rfl⟩
  | countDown k | handOff k | finishFree k =>
      simp only [releaseAct] at h
      split at h
      · cases h
      · cases h
        exact .inr rfl
  | startFree =>
      simp only [releaseAct] at h
      split at h
      · cases h
      · split at h <;> cases h
        exact .inr rfl
  | waitFree =>
      simp only [releaseAct] at h
      split at h <;> cases h
      exact .inr rfl

/-- Every schedule with releases is a schedule of the protocol. -/
theorem releaseCycle_sys {v : Variant} {w : Work} {c : Core} {cfg : Config}
    {arenas₀ : ℕ → List Arena}
    (h : (releaseCycle cfg.numLayers workers freeWorkers seed v w c arenas₀).Reachable r) :
    (cycle cfg workers v w c).Reachable r.sys := by
  induction h with
  | start h => exact .start h.sys
  | next _ hs ih =>
      obtain ⟨a, ha⟩ := hs
      rcases releaseAct_sys ha with ⟨b, -, -, hact, -⟩ | hsame
      · exact ih.next ⟨b, hact⟩
      · rwa [hsame]

end

end MzCache.Sync
