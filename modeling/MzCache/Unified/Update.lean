import MzCache.Unified.DefragMoves

/-!
# `update`

The K-shift and the defragmentation of `llama_kv_cache_unified::update`: what happens to
the cells, to the head and to the base tensors of the layers. A graph is the list of its
nodes; it may not be built or not be allocated, and its computation may fail after any of
the nodes. A view that does not fit its tensor is a failed assertion of ggml. What `rope`
does to a row is a parameter.
-/

namespace MzCache.Unified

/-! ## Data -/

/-- The cells with `shift` and `has_shift`. -/
structure ShiftedCells where
  cells : Cells
  shift : Nat → Int
  hasShift : Bool

/-- `reset_shift()`. -/
def ShiftedCells.resetShift (c : ShiftedCells) : ShiftedCells :=
  { c with shift := fun _ => 0, hasShift := false }

/-- `mv(isrc, idst)`. -/
def ShiftedCells.mv (isrc idst : Nat) (c : ShiftedCells) : ShiftedCells :=
  { c with
    cells := c.cells.mv isrc idst
    shift := Function.update (Function.update c.shift idst (c.shift isrc)) isrc 0 }

/-- The base tensors of the layers, element by element. -/
structure Tensors (E : Type) where
  k : Nat → Nat → E
  v : Nat → Nat → E

structure UpdateState (E : Type) where
  cells : ShiftedCells
  head : Nat
  data : Tensors E

/-- What `rope` makes of a K row of a layer, for a shift of the position. -/
abbrev Rope (E : Type) := Layer → Int → (Nat → E) → Nat → E

/-! ## Nodes -/

/-- A copy of `nm` rows of `width` elements, from row `i` to row `id`. -/
def copyRows {E : Type} (width i id nm : Nat) (mem : Nat → E) (a : Nat) : E :=
  if id ≤ a / width ∧ a / width < id + nm then mem ((i + (a / width - id)) * width + a % width)
  else mem a

/-- The same in a transposed tensor: columns of `width` elements, `stride` apart. -/
def copyColumns {E : Type} (stride width i id nm : Nat) (mem : Nat → E) (a : Nat) : E :=
  if (id ≤ a % stride ∧ a % stride < id + nm) ∧ a / stride < width then
    mem (a / stride * stride + (i + (a % stride - id)))
  else mem a

/-- The rotation of the first `size` rows, each by its shift. -/
def ropeRows {E : Type} (rope : Rope E) (l : Layer) (size : Nat) (kShift : Nat → Int)
    (mem : Nat → E) (a : Nat) : E :=
  if a / l.nEmbdKGqa < size then
    rope l (kShift (a / l.nEmbdKGqa)) (fun j => mem (a / l.nEmbdKGqa * l.nEmbdKGqa + j))
      (a % l.nEmbdKGqa)
  else mem a

/-- `nm` cells from `i` on that go to the cells from `id` on. -/
structure MoveRun where
  i : Nat
  id : Nat
  nm : Nat
deriving DecidableEq, Repr

inductive Node where
  | ropeK (l : Layer)
  | copyK (l : Layer) (r : MoveRun)
  | copyV (l : Layer) (r : MoveRun)

/-- A node of the K-shift or of the defragmentation, for a cache of `size` cells. -/
def Node.run {E : Type} (sh : Shape) (rope : Rope E) (size : Nat) (kShift : Nat → Int)
    (d : Tensors E) : Node → Tensors E
  | .ropeK l => { d with
      k := Function.update d.k l.il (ropeRows rope l size kShift (d.k l.il)) }
  | .copyK l r => { d with
      k := Function.update d.k l.il (copyRows l.nEmbdKGqa r.i r.id r.nm (d.k l.il)) }
  | .copyV l r => { d with
      v := Function.update d.v l.il
        (if sh.vTrans then copyColumns size l.nEmbdVGqa r.i r.id r.nm (d.v l.il)
        else copyRows l.nEmbdVGqa r.i r.id r.nm (d.v l.il)) }

/-! ## Graphs -/

/-- A view of `n` elements at offset `off` lies in a base tensor of rows of `width` elements. -/
def viewFits (width n off : Nat) : Bool := n + off ≤ tokensPerChunk * width

/-- `build_graph_shift`; `none` is a view that does not fit. -/
def buildGraphShift (sh : Shape) (size : Nat) : Option (List Node) :=
  if sh.layers.all fun l => viewFits l.nEmbdKGqa (l.nEmbdKGqa * size) 0 then
    some (sh.layers.map .ropeK)
  else none

/-- `nm`: the length of the run that starts at `i`. -/
def runLength (n : Nat) (ids : Nat → Nat) (i : Nat) : Nat :=
  1 + ((List.range' (i + 1) (n - (i + 1))).takeWhile fun x => ids x = ids i + (x - i)).length

/-- The loop of `build_graph_defrag` over the plan `ids` of size `n`. Every round goes on by at
least one cell. -/
def defragRuns (n : Nat) (ids : Nat → Nat) : Nat → Nat → List MoveRun
  | 0, _ => []
  | fuel + 1, i =>
      if i < n then
        if i = ids i ∨ ids i = n then defragRuns n ids fuel (i + 1)
        else
          ⟨i, ids i, runLength n ids i⟩ :: defragRuns n ids fuel (i + runLength n ids i)
      else []

/-- The four views of a run and a layer. -/
def MoveRun.viewsFit (sh : Shape) (r : MoveRun) (l : Layer) : Bool :=
  viewFits l.nEmbdKGqa (l.nEmbdKGqa * r.nm) (l.nEmbdKGqa * r.i) &&
  viewFits l.nEmbdKGqa (l.nEmbdKGqa * r.nm) (l.nEmbdKGqa * r.id) &&
  if sh.vTrans then
    viewFits l.nEmbdVGqa (r.nm * l.nEmbdVGqa) r.i && viewFits l.nEmbdVGqa (r.nm * l.nEmbdVGqa) r.id
  else
    viewFits l.nEmbdVGqa (l.nEmbdVGqa * r.nm) (l.nEmbdVGqa * r.i) &&
    viewFits l.nEmbdVGqa (l.nEmbdVGqa * r.nm) (l.nEmbdVGqa * r.id)

/-- `build_graph_defrag`; `none` is a view that does not fit. -/
def buildGraphDefrag (sh : Shape) (n : Nat) (ids : Nat → Nat) : Option (List Node) :=
  let runs := defragRuns n ids n 0
  if runs.all fun r => sh.layers.all fun l => r.viewsFit sh l then
    some (runs.flatMap fun r => sh.layers.flatMap fun l => [.copyK l r, .copyV l r])
  else none

/-- How a graph ends: not built, not allocated, its computation failed after `ran` nodes, or
done. -/
inductive GraphRun where
  | notBuilt
  | notAllocated
  | failed (ran : Nat)
  | done
deriving DecidableEq, Repr

/-- The nodes that were run. -/
def GraphRun.ran (nodes : List Node) : GraphRun → List Node
  | .notBuilt | .notAllocated => []
  | .failed ran => nodes.take ran
  | .done => nodes

/-! ## The update -/

section

variable {E : Type} (sh : Shape) (rope : Rope E)

/-- The K-shift part of `update`: the state, whether it goes on, and `updated`. -/
def updateShift (ropeNone : Bool) (run : GraphRun) (s : UpdateState E) :
    Option (UpdateState E × Bool × Bool) :=
  if ropeNone then some ({ s with cells := s.cells.resetShift }, true, false)
  else
    let size := s.cells.cells.size
    match buildGraphShift sh size with
    | none => none
    | some nodes =>
        let kShift := fun i => if s.cells.cells.isEmpty i then 0 else s.cells.shift i
        let data := (run.ran nodes).foldl (Node.run sh rope size kShift) s.data
        if run = .done then some ({ s with cells := s.cells.resetShift, data := data }, true, true)
        else some ({ s with data := data }, false, false)

/-- One move of `update`. -/
def moveShifted (n : Nat) (ids : Nat → Nat) (c : ShiftedCells) (i : Nat) : ShiftedCells :=
  if ids i = n ∨ ids i = i then c else c.mv i (ids i)

/-- The defragmentation part of `update`, for a plan that is not empty. The cells are moved
before the graph is built. -/
def updateDefrag (run : GraphRun) (n : Nat) (ids : Nat → Nat) (updated : Bool)
    (s : UpdateState E) : Option (UpdateState E × Bool) :=
  let s := { s with cells := (List.range n).foldl (moveShifted n ids) s.cells, head := 0 }
  match buildGraphDefrag sh n ids with
  | none => none
  | some nodes =>
      let data := (run.ran nodes).foldl (Node.run sh rope s.cells.cells.size fun _ => 0) s.data
      some ({ s with data := data }, if run = .done then true else updated)

/-- `update(do_shift, dinfo)`, where `dinfo.ids` is `ids` of size `n`: the state it leaves and what
it returns. -/
def update (ropeNone doShift : Bool) (shiftRun defragRun : GraphRun) (n : Nat) (ids : Nat → Nat)
    (s : UpdateState E) : Option (UpdateState E × Bool) :=
  let shifted := if doShift then updateShift sh rope ropeNone shiftRun s
    else some (s, true, false)
  match shifted with
  | none => none
  | some (s, goesOn, updated) =>
      if goesOn then
        if n = 0 then some (s, updated) else updateDefrag sh rope defragRun n ids updated s
      else some (s, updated)

end

end MzCache.Unified
