import MzCache.Unified.Cache

/-!
# Operations on sequences

The public operations of `llama_kv_cache_unified` beside `clear`, `seq_rm` and
`apply_ubatch`: copying, keeping, shifting and dividing sequences, the trial of `prepare`
and the cell moves of a defragmentation. Sums of positions are taken without overflow,
which the source leaves undefined.
-/

namespace MzCache.Unified

/-! ## Ranges of positions -/

/-- `p0` with the negative values read as the start. -/
def rangeFrom (p0 : Int) : Int := if p0 < 0 then 0 else p0

/-- `p1` with the negative values read as the end. -/
def rangeTo (p1 : Int) : Int := if p1 < 0 then 2 ^ 31 - 1 else p1

/-- One cell of `seq_cp`. -/
def seqCpCell (src dst : Nat) (p0 p1 : Int) (c : Cells) (i : Nat) : Cells :=
  if c.posIn i p0 p1 then if src ∈ c.seq i then c.seqAdd i dst else c else c

/-- `seq_cp(seq_id_src, seq_id_dst, p0, p1)`. -/
def Cache.seqCp (src dst : Nat) (p0 p1 : Int) (c : Cache) : Cache :=
  if src = dst then c
  else
    { c with
      cells := (List.range c.cells.size).foldl (seqCpCell src dst (rangeFrom p0) (rangeTo p1))
        c.cells }

/-- One cell of `seq_keep`; the second component is `new_head`. -/
def seqKeepCell (s : Nat) (acc : Cells × Nat) (i : Nat) : Cells × Nat :=
  let freed := if acc.2 = acc.1.size then i else acc.2
  let r := acc.1.seqKeep i s
  (r.1, if r.2 then freed else acc.2)

/-- `seq_keep(seq_id)`. -/
def Cache.seqKeep (s : Nat) (c : Cache) : Cache :=
  let r := (List.range c.cells.size).foldl (seqKeepCell s) (c.cells, c.cells.size)
  { c with
    cells := r.1
    head := if r.2 ≠ c.cells.size ∧ r.2 < c.head then r.2 else c.head }

/-- One cell of `seq_add`; the second component is `new_head`. -/
def seqAddCell (s : Nat) (p0 p1 shift : Int) (acc : Cells × Nat) (i : Nat) : Cells × Nat :=
  let freed := if acc.2 = acc.1.size then i else acc.2
  if acc.1.posIn i p0 p1 then
    if s ∈ acc.1.seq i then
      let r := acc.1.posAdd i shift
      (r.1, if r.2 then freed else acc.2)
    else acc
  else acc

/-- `seq_add(seq_id, p0, p1, shift)`. -/
def Cache.seqAdd (s : Nat) (p0 p1 shift : Int) (c : Cache) : Cache :=
  if shift = 0 then c
  else if rangeFrom p0 = rangeTo p1 then c
  else
    let r := (List.range c.cells.size).foldl (seqAddCell s (rangeFrom p0) (rangeTo p1) shift)
      (c.cells, c.cells.size)
    { c with
      cells := r.1
      head := if r.2 ≠ c.cells.size then r.2 else 0 }

/-- One cell of `seq_div`. -/
def seqDivCell (s : Nat) (p0 p1 d : Int) (c : Cells) (i : Nat) : Cells :=
  if c.posIn i p0 p1 then if s ∈ c.seq i then c.posDiv i d else c else c

/-- `seq_div(seq_id, p0, p1, d)`. -/
def Cache.seqDiv (s : Nat) (p0 p1 d : Int) (c : Cache) : Cache :=
  if d = 1 then c
  else if rangeFrom p0 = rangeTo p1 then c
  else
    { c with
      cells := (List.range c.cells.size).foldl (seqDivCell s (rangeFrom p0) (rangeTo p1) d)
        c.cells }

/-! ## The trial of `prepare` -/

/-- `state` of `prepare`: the head before and after, and the cells a ubatch goes to. -/
structure Saved where
  headOld : Nat
  headNew : Nat
  cells : List (Int × Finset Nat)

/-- `prepare` at work: the cache, the recovery stack and the heads found so far. -/
structure Trial where
  cache : Cache
  states : List Saved
  res : List Nat

/-- How `prepare`'s loop over the ubatches ends. -/
inductive Placed where
  | all
  | noSlot
  | threw
deriving DecidableEq, Repr

/-- `prepare` at the slot found for a ubatch: save it and place the ubatch. -/
def placeAt (sh : Shape) (alloc : Alloc) (headNew : Nat) (ubatch : List BatchToken) (t : Trial) :
    Trial × Bool :=
  let saved := ⟨t.cache.head, headNew, t.cache.cells.cp headNew ubatch.length⟩
  let r := applyUbatch sh alloc headNew ubatch t.cache
  (⟨r.1, saved :: t.states, t.res ++ [headNew]⟩, r.2)

/-- The loop of `prepare` over the ubatches. -/
def placeUbatches (sh : Shape) (alloc : Alloc) : List (List BatchToken) → Trial → Trial × Placed
  | [], t => (t, .all)
  | ubatch :: ubatches, t =>
      match t.cache.findSlot sh ubatch.length with
      | none => (t, .noSlot)
      | some headNew =>
          let r := placeAt sh alloc headNew ubatch t
          if r.2 then placeUbatches sh alloc ubatches r.1 else (r.1, .threw)

/-- One iteration of the restoring loop. -/
def restoreSlot (c : Cache) (saved : Saved) : Cache :=
  { c with cells := Cells.set saved.headNew saved.cells c.cells, head := saved.headOld }

/-- `prepare`. An exception leaves the cache as it is; otherwise the slots are restored and the
heads returned, none if a ubatch found no slot. -/
def Cache.prepare (sh : Shape) (alloc : Alloc) (ubatches : List (List BatchToken)) (c : Cache) :
    Cache × Option (List Nat) :=
  let r := placeUbatches sh alloc ubatches ⟨c, [], []⟩
  match r.2 with
  | .threw => (r.1.cache, none)
  | .noSlot => (r.1.states.foldl restoreSlot r.1.cache, some [])
  | .all => (r.1.states.foldl restoreSlot r.1.cache, some r.1.res)

/-! ## Defragmentation -/

/-- The plan under construction: `ids`, with `n_kv` for a cell that is not planned yet, and
`n_moves`. -/
structure DefragPlan where
  ids : Nat → Nat
  nMoves : Nat

/-- A cell that cannot be moved: empty, or planned already. -/
def Cells.unmovable (c : Cells) (nKv : Nat) (ids : Nat → Nat) (i : Nat) : Bool :=
  c.isEmpty i || ids i ≠ nKv

/-- Size of the hole that starts at `i0`. -/
def Cells.holeSize (c : Cells) (nUsed i0 : Nat) : Nat :=
  1 + ((List.range' (i0 + 1) (nUsed - (i0 + 1))).takeWhile c.isEmpty).length

/-- Backwards from the end to the `nh`-th movable cell after `i0`: its index and how many were
found. -/
def findFromEnd (c : Cells) (nKv : Nat) (ids : Nat → Nat) (i0 nh : Nat) : Nat → Nat → Nat × Nat
  | 0, nf => (0, nf)
  | is + 1, nf =>
      if is + 1 > i0 then
        if c.unmovable nKv ids (is + 1) then findFromEnd c nKv ids i0 nh is nf
        else if nf + 1 = nh then (is + 1, nf + 1)
        else findFromEnd c nKv ids i0 nh is (nf + 1)
      else (is + 1, nf)

/-- Forwards again: movable cells are planned into the hole. `cont` says that the cell before
was planned as well; the flag returned is `stop`. -/
def fillHole (c : Cells) (nKv maxMoves i0 nh : Nat) :
    List Nat → Nat → Bool → DefragPlan → DefragPlan × Bool
  | [], _, _, plan => (plan, false)
  | i1 :: rest, nf, cont, plan =>
      if c.unmovable nKv plan.ids i1 then
        if plan.nMoves = maxMoves then (plan, true)
        else fillHole c nKv maxMoves i0 nh rest nf false plan
      else
        let plan' : DefragPlan :=
          ⟨Function.update plan.ids i1 (i0 + nf), if cont then plan.nMoves else plan.nMoves + 1⟩
        if nf + 1 = nh then (plan', false)
        else fillHole c nKv maxMoves i0 nh rest (nf + 1) true plan'

/-- The loop of `defrag_prepare` over the used part; `none` is a failed assertion. Every round
goes on by at least one cell. -/
def defragFrom (c : Cells) (nKv nUsed maxMoves : Nat) :
    Nat → Nat → DefragPlan → Option DefragPlan
  | 0, _, plan => some plan
  | fuel + 1, i0, plan =>
      if i0 < nUsed then
        if c.isEmpty i0 then
          let nh := c.holeSize nUsed i0
          let found := findFromEnd c nKv plan.ids i0 nh (nKv - 1) 0
          if found.2 = nh then
            let r := fillHole c nKv maxMoves i0 nh (List.range' found.1 (nKv - found.1)) 0 false plan
            if r.2 ∨ r.1.nMoves = maxMoves then some r.1
            else defragFrom c nKv nUsed maxMoves fuel (i0 + nh) r.1
          else none
        else defragFrom c nKv nUsed maxMoves fuel (i0 + 1)
          { plan with ids := Function.update plan.ids i0 i0 }
      else some plan

/-- `defrag_prepare(n_max_nodes)`: the size of `ids` and `ids`, of size 0 when nothing moves. -/
def Cells.defragPrepare (sh : Shape) (nMaxNodes : Nat) (c : Cells) : Option (Nat × (Nat → Nat)) :=
  let nLayer := sh.layers.length
  let maxMoves := (nMaxNodes + 2 ^ 32 - 2 * nLayer) % 2 ^ 32 / (6 * nLayer)
  let nKv := c.usedMaxP1
  (defragFrom c nKv c.getUsed maxMoves c.getUsed 0 ⟨fun _ => nKv, 0⟩).map fun plan =>
    if plan.nMoves = 0 then (0, plan.ids) else (nKv, plan.ids)

/-- One move of `update`. -/
def moveCell (nKv : Nat) (ids : Nat → Nat) (c : Cells) (i : Nat) : Cells :=
  if ids i = nKv ∨ ids i = i then c else c.mv i (ids i)

/-- The moves that `update` makes for `defrag_prepare`'s plan, when there are any. -/
def Cache.defrag (sh : Shape) (nMaxNodes : Nat) (c : Cache) : Cache :=
  match c.cells.defragPrepare sh nMaxNodes with
  | none => c
  | some (nKv, ids) =>
      if nKv = 0 then c
      else { c with cells := (List.range nKv).foldl (moveCell nKv ids) c.cells, head := 0 }

end MzCache.Unified
