import MzCache.Core.Swapin
import MzCache.Lib.TSys

/-!
# The swapin protocol

One swapin cycle as a concurrent system: the main thread works off a list of
instructions, the pool's groups take tasks from their FIFO queues and run up to a given
number of them at a time, and the decode thread signals that its graph is allocated and
then computes. The schedule is a sequence of `Action`s; each names the thread that moves.

The four `swapin_generate` variants differ in the instructions of the main thread only.
Allocations and reads succeed, and the `FREE` group, which only releases arenas, is left
out.
-/

namespace MzCache.Sync

open MzCache MzCache.Lib

/-- The pool groups that take part. -/
inductive CoreType
  | alloc
  | read
  | decomp
  deriving DecidableEq, Repr

/-- What an allocation future is registered for, in `kv_alloc_done` or in
`weight_alloc_done`. -/
inductive Key
  | kv (c : Cell)
  | weight (l : ℕ)
  deriving DecidableEq, Repr

/-- The tasks that bring something back and report to a `LayerSync`. -/
inductive Restore
  | kvRead (c : Cell)
  | kvDecomp (c : Cell)
  | weightRead (l : ℕ)
  deriving DecidableEq, Repr

def Restore.key : Restore → Key
  | kvRead c => .kv c
  | kvDecomp c => .kv c
  | weightRead l => .weight l

def Restore.layer : Restore → ℕ
  | kvRead c => c.1
  | kvDecomp c => c.1
  | weightRead l => l

/-- `kv_alloc_worker` and `weight_alloc_worker`, or a restoring worker. -/
inductive Task
  | alloc (k : Key)
  | restore (r : Restore)
  deriving DecidableEq, Repr

def Task.group : Task → CoreType
  | alloc _ => .alloc
  | restore (.kvDecomp _) => .decomp
  | restore _ => .read

/-- The layer whose `taskDone` the task calls. -/
def Task.layer : Task → Option ℕ
  | alloc _ => none
  | restore r => some r.layer

/-- Where a running task stands: it looks its allocation future up, waits for it, does its
work, decrements the layer's counter, and sets the promise if it was the last. -/
inductive Pc
  | lookup
  | await
  | work
  | taskDone
  | setValue
  deriving DecidableEq, Repr

def Task.start : Task → Pc
  | alloc _ => .work
  | restore _ => .lookup

/-- `LayerSync`: the counter, and how often its promise has been set. -/
structure LayerSync where
  remaining : ℤ
  sets : ℕ
  deriving DecidableEq, Repr

/-- The constructor: nothing to do means ready at once. -/
def LayerSync.new (init : ℤ) : LayerSync := ⟨init, if init = 0 then 1 else 0⟩

/-- Instructions of the main thread. -/
inductive Instr
  | resetGraph
  | clearAllocs
  | clearSync
  | pushSync (init : ℤ)
  | register (k : Key)
  | enqueue (t : Task)
  | startDecode
  | waitGraph
  | joinDecode
  | waitAlloc (k : Key)
  | waitLayer (i : ℕ)
  | waitIdle (g : CoreType)
  deriving DecidableEq, Repr

/-- The decode thread: not started, before its graph is allocated, computing, finished. -/
inductive Decode
  | idle
  | building
  | computing
  | done
  deriving DecidableEq, Repr

structure Sys where
  prog : List Instr
  queue : CoreType → List Task
  running : List (Task × Pc)
  /-- Registered futures, with whether they are fulfilled. -/
  allocDone : Key → Option Bool
  layerSync : List LayerSync
  states : Cell → KVstate
  weightLoaded : ℕ → Bool
  graphSignaled : Bool
  decode : Decode
  /-- A look-up found no future: the task threw and the process aborted. -/
  aborted : Bool

/-- `wait_for_layer_sync(i)` returns: there is no such entry, or its promise is set. -/
def Sys.passes (s : Sys) (i : ℕ) : Bool :=
  match s.layerSync[i]? with
  | none => true
  | some y => decide (0 < y.sets)

def Sys.runningIn (s : Sys) (g : CoreType) : ℕ := s.running.countP fun x => x.1.group = g

/-- The main thread's next instruction, if it does not block. -/
def mainStep (s : Sys) : Option Sys :=
  match s.prog with
  | [] => none
  | i :: rest =>
      let s := { s with prog := rest }
      match i with
      | .resetGraph => some { s with graphSignaled := false }
      | .clearAllocs => some { s with allocDone := fun _ => none }
      | .clearSync => some { s with layerSync := [] }
      | .pushSync n => some { s with layerSync := s.layerSync ++ [.new n] }
      | .register k => some { s with allocDone := Function.update s.allocDone k (some false) }
      | .enqueue t =>
          some { s with queue := Function.update s.queue t.group (s.queue t.group ++ [t]) }
      | .startDecode => some { s with decode := .building }
      | .waitGraph => if s.graphSignaled then some s else none
      | .joinDecode => if s.decode = .done then some s else none
      | .waitAlloc k =>
          match s.allocDone k with
          | none => some { s with aborted := true }
          | some ready => if ready then some s else none
      | .waitLayer i => if s.passes i then some s else none
      | .waitIdle g => if s.queue g = [] ∧ s.runningIn g = 0 then some s else none

/-- A free worker of group `g` takes the oldest task. -/
def startTask (workers : CoreType → ℕ) (g : CoreType) (s : Sys) : Option Sys :=
  match s.queue g with
  | [] => none
  | t :: rest =>
      if s.runningIn g < workers g then
        some { s with
          queue := Function.update s.queue g rest
          running := s.running ++ [(t, t.start)] }
      else none

/-- The task at position `k` is replaced by `new`. -/
def Sys.advance (s : Sys) (k : ℕ) (new : List (Task × Pc)) : Sys :=
  { s with running := s.running.take k ++ new ++ s.running.drop (k + 1) }

/-- What a restoring worker brings back. -/
def Sys.bringBack (s : Sys) : Restore → Sys
  | .kvRead c => { s with states := Function.update s.states c .raw }
  | .kvDecomp c => { s with states := Function.update s.states c .raw }
  | .weightRead l => { s with weightLoaded := Function.update s.weightLoaded l true }

/-- `taskDone` up to the decision whether to set the promise. The workers skip it unless
`layer_sync` has an entry for every layer. -/
def Sys.countDown (numLayers : ℕ) (s : Sys) (k : ℕ) (r : Restore) : Sys :=
  if s.layerSync.length = numLayers then
    let old := ((s.layerSync[r.layer]?).getD ⟨0, 0⟩).remaining
    let s := { s with layerSync :=
      s.layerSync.modify r.layer fun y => { y with remaining := y.remaining - 1 } }
    if old = 1 then s.advance k [(.restore r, .setValue)] else s.advance k []
  else s.advance k []

/-- The next micro-step of the running task at position `k`. -/
def taskStep (numLayers : ℕ) (k : ℕ) (s : Sys) : Option Sys :=
  match s.running[k]? with
  | none => none
  | some (.alloc key, _) =>
      -- the allocation and the fulfilment of its promise
      some ({ s with allocDone :=
        Function.update s.allocDone key ((s.allocDone key).map fun _ => true) }.advance k [])
  | some (.restore r, .lookup) =>
      match s.allocDone r.key with
      | none => some { s with aborted := true }
      | some _ => some (s.advance k [(.restore r, .await)])
  | some (.restore r, .await) =>
      if s.allocDone r.key = some true then some (s.advance k [(.restore r, .work)]) else none
  | some (.restore r, .work) => some ((s.bringBack r).advance k [(.restore r, .taskDone)])
  | some (.restore r, .taskDone) => some (s.countDown numLayers k r)
  | some (.restore r, .setValue) =>
      some ({ s with layerSync :=
        s.layerSync.modify r.layer fun y => { y with sets := y.sets + 1 } }.advance k [])

/-- The thread that moves next. -/
inductive Action
  | main
  | start (g : CoreType)
  | task (k : ℕ)
  | signal
  | finish
  deriving DecidableEq, Repr

/-- One step of the schedule; `none` when the chosen thread cannot move. -/
def act (numLayers : ℕ) (workers : CoreType → ℕ) (a : Action) (s : Sys) : Option Sys :=
  if s.aborted then none
  else
    match a with
    | .main => mainStep s
    | .start g => startTask workers g s
    | .task k => taskStep numLayers k s
    | .signal =>
        if s.decode = .building then some { s with decode := .computing, graphSignaled := true }
        else none
    | .finish => if s.decode = .computing then some { s with decode := .done } else none

/-! ## The instructions of the variants -/

inductive Variant
  | generate
  | noPrefillOverlap
  | noAllocOverlap
  | noOverlap
  deriving DecidableEq, Repr

/-- What a cycle works on: the chunks of the enqueueing walks, those of the walks that only
allocate, the weight layers, and the initial counters. -/
structure Work where
  read : List Cell
  decomp : List Cell
  allocDecomp : List Cell
  allocRead : List Cell
  weights : List ℕ
  totals : List ℤ

namespace Work

variable (w : Work)

/-- `initialize_layer_sync`. -/
def initializeLayerSync : List Instr := .clearAllocs :: .clearSync :: w.totals.map .pushSync

/-- Registration, allocation and restoring task, one item after the other. -/
def restoreAll (rs : List Restore) : List Instr :=
  rs.flatMap fun r => [.register r.key, .enqueue (.alloc r.key), .enqueue (.restore r)]

/-- `mzcache_enqueue_decomp_load_chunks`. -/
def enqueueDecompLoadChunks : List Instr :=
  restoreAll (w.read.map .kvRead) ++ restoreAll (w.decomp.map .kvDecomp)

/-- `mzcache_reload_w_layers`. -/
def reloadWLayers : List Instr := restoreAll (w.weights.map .weightRead)

/-- Registration and allocation only. -/
def allocAll (ks : List Key) : List Instr :=
  ks.flatMap fun k => [.register k, .enqueue (.alloc k)]

def waitAllocs (ks : List Key) : List Instr := ks.map .waitAlloc

def weightKeys : List Key := w.weights.map .weight

def kvKeys : List Key := (w.allocDecomp ++ w.allocRead).map .kv

/-- `mzcache_reload_w_layers_alloc_only`. -/
def reloadWLayersAllocOnly : List Instr := allocAll w.weightKeys ++ waitAllocs w.weightKeys

/-- `mzcache_enqueue_kv_alloc_only`. -/
def enqueueKvAllocOnly : List Instr := allocAll w.kvKeys ++ waitAllocs w.kvKeys

/-- `mzcache_enqueue_kv_decomp_read_only`. -/
def enqueueKvDecompReadOnly : List Instr :=
  (w.decomp.map fun c => .enqueue (.restore (.kvDecomp c))) ++
    w.read.map fun c => .enqueue (.restore (.kvRead c))

/-- `mzcache_reload_w_layers_reload_only`. -/
def reloadWLayersReloadOnly : List Instr :=
  (w.weights.map fun l => .enqueue (.restore (.weightRead l))) ++ [.waitIdle .read]

/-- The wait for every layer. -/
def waitLayers : List Instr := (List.range w.totals.length).map .waitLayer

/-- `finish_swapin_cycle`; what it does after its waits touches no shared state. -/
def finishSwapinCycle : List Instr :=
  w.waitLayers ++ [.waitIdle .alloc, .waitIdle .read, .waitIdle .decomp]

/-- The allocations of the variants without allocation overlap, then the restoring tasks. -/
def allocThenRestore : List Instr :=
  w.reloadWLayersAllocOnly ++ w.enqueueKvAllocOnly ++ waitAllocs w.weightKeys ++
    waitAllocs w.kvKeys ++ w.enqueueKvDecompReadOnly ++ w.reloadWLayersReloadOnly

def swapinGenerate : List Instr :=
  [.resetGraph] ++ w.initializeLayerSync ++ [.startDecode, .waitGraph] ++
    w.enqueueDecompLoadChunks ++ w.reloadWLayers ++ [.joinDecode] ++ w.finishSwapinCycle

/-- The decode runs on the main thread, which is busy until it is done. -/
def swapinGenerateNoPrefillOverlap : List Instr :=
  w.initializeLayerSync ++ w.enqueueDecompLoadChunks ++ w.reloadWLayers ++ w.waitLayers ++
    [.startDecode, .joinDecode] ++ w.finishSwapinCycle

/-- The decode thread is started before `initialize_layer_sync`. -/
def swapinGenerateNoAllocOverlap : List Instr :=
  [.resetGraph, .startDecode, .waitGraph] ++ w.initializeLayerSync ++ w.allocThenRestore ++
    [.joinDecode] ++ w.finishSwapinCycle

def swapinGenerateNoOverlap : List Instr :=
  w.initializeLayerSync ++ w.allocThenRestore ++ w.waitLayers ++ [.startDecode, .joinDecode] ++
    w.finishSwapinCycle

def program : Variant → List Instr
  | .generate => w.swapinGenerate
  | .noPrefillOverlap => w.swapinGenerateNoPrefillOverlap
  | .noAllocOverlap => w.swapinGenerateNoAllocOverlap
  | .noOverlap => w.swapinGenerateNoOverlap

end Work

/-! ## Cycles of the engine -/

/-- The walk of `mzcache_enqueue_kv_decomp_read_only`; `none` when a file cannot be opened. -/
def mzcacheEnqueueKvDecompReadOnly (cfg : Config) (io : Io) (decompNumChunks loadNumChunks : ℕ)
    (s : KvState) : Option Enqueued :=
  let d := decompWalk cfg decompNumChunks s
  (openFirstToRead io d.state).bind fun s1 =>
    (loadWalk cfg io loadNumChunks s1).map fun l =>
      ⟨l.state, l.cells, d.cells, l.overrun, d.overrun⟩

/-- The chunks that the local cursors of `mzcache_enqueue_kv_alloc_only` run over on the store
side: the steps of the load walk, with no file to open. -/
def localStoreCells (cfg : Config) (loadNumChunks : ℕ) (s : KvState) : List Cell :=
  ((loadWalk cfg .ok loadNumChunks s).map Walk.cells).getD []

/-- What a cycle of the engine works on. `early` are the growth requests of the decode's
first ubatch. -/
def cycleWork (v : Variant) (cfg : Config) (io : Io) (early : List ℕ) (c : Core) : Option Work :=
  let sync := (MzCache.initializeLayerSync cfg c).2
  let decomp := sync.decompNumChunks.toNat
  let load := sync.loadNumChunks.toNat
  let kv := (swapinPrepare cfg io early c).kv
  let walk :=
    match v with
    | .generate | .noPrefillOverlap => mzcacheEnqueueDecompLoadChunks cfg io decomp load kv
    | .noAllocOverlap | .noOverlap => mzcacheEnqueueKvDecompReadOnly cfg io decomp load kv
  walk.map fun e =>
    { read := e.read
      decomp := e.decomp
      allocDecomp := (decompWalk cfg decomp kv).cells
      allocRead := localStoreCells cfg load kv
      weights := (List.range cfg.numLayers).filter fun l => c.curLayerIdxToUnload < (l : ℤ)
      totals := sync.remaining }

/-- The state in which a cycle starts: an idle pool, the chunk states and weights of the
core, and whatever an earlier cycle left in the tables and in `layer_sync`. -/
structure CycleStart (v : Variant) (w : Work) (c : Core) (s : Sys) : Prop where
  prog : s.prog = w.program v
  queue : s.queue = fun _ => []
  running : s.running = []
  states : s.states = fun e => c.kv.states e.1 e.2
  weightLoaded : s.weightLoaded = c.weightLoaded
  decode : s.decode = .idle
  aborted : s.aborted = false

/-- All interleavings of one cycle. -/
def cycle (cfg : Config) (workers : CoreType → ℕ) (v : Variant) (w : Work) (c : Core) :
    TSys Sys where
  init := CycleStart v w c
  step := fun s s' => ∃ a, act cfg.numLayers workers a s = some s'

end MzCache.Sync
