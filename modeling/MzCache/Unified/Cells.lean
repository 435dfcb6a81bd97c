import Mathlib

/-!
# KV cells

`llama_kv_cells_unified`: for every cell a position and the set of sequences in it, and
beside the two arrays the set of used cells and, for every sequence, the set of its
positions. The last two are kept by the operations and never recomputed; a restored
stream may even put `-1` into a cell, which is then empty and used at once. The shifts
that `pos_add` and `pos_div` queue for the K-shift graph are not modelled.
-/

namespace MzCache.Unified

/-- `llama_kv_cells_unified`. A cell is empty when its position is `-1`. -/
structure Cells where
  size : Nat
  pos : Nat → Int
  seq : Nat → Finset Nat
  used : Finset Nat
  seqPos : Nat → Finset Int

namespace Cells

/-- `resize(n)`: `n` empty cells. -/
def resize (n : Nat) : Cells := ⟨n, fun _ => -1, fun _ => ∅, ∅, fun _ => ∅⟩

/-- `reset()`. -/
def reset (c : Cells) : Cells := resize c.size

variable (c : Cells)

/-- `is_empty(i)`. -/
def isEmpty (i : Nat) : Bool := c.pos i = -1

/-- `get_used()`. -/
def getUsed : Nat := c.used.card

/-- `used_max_p1()`: one past the last used cell. -/
def usedMaxP1 : Nat := c.used.sup (· + 1)

/-- `seq_pos_min(s)`. -/
def seqPosMin (s : Nat) : Int := if h : (c.seqPos s).Nonempty then (c.seqPos s).min' h else -1

/-- `seq_pos_max(s)`. -/
def seqPosMax (s : Nat) : Int := if h : (c.seqPos s).Nonempty then (c.seqPos s).max' h else -1

/-- `pos_in(i, p0, p1)`. -/
def posIn (i : Nat) (p0 p1 : Int) : Bool := p0 ≤ c.pos i ∧ c.pos i < p1

/-- `pos_set(i, p)`. -/
def posSet (i : Nat) (p : Int) : Cells :=
  { c with pos := Function.update c.pos i p, used := insert i c.used }

/-- `seq_add(i, s)`. -/
def seqAdd (i s : Nat) : Cells :=
  { c with
    seq := Function.update c.seq i (insert s (c.seq i))
    seqPos := Function.update c.seqPos s (insert (c.pos i) (c.seqPos s)) }

/-- `seq_pos_rm(i)`: the position of cell `i` leaves the sets of its sequences. -/
def seqPosRm (i : Nat) : Nat → Finset Int :=
  fun s => if s ∈ c.seq i then (c.seqPos s).erase (c.pos i) else c.seqPos s

/-- `seq_pos_add(i)`. -/
def seqPosAdd (i : Nat) : Nat → Finset Int :=
  fun s => if s ∈ c.seq i then insert (c.pos i) (c.seqPos s) else c.seqPos s

/-- `rm(i)`. -/
def rm (i : Nat) : Cells :=
  { c with
    pos := Function.update c.pos i (-1)
    seq := Function.update c.seq i ∅
    used := c.used.erase i
    seqPos := c.seqPosRm i }

/-- `seq_rm(i, s)`: whether the cell became empty. -/
def seqRm (i s : Nat) : Cells × Bool :=
  let seq := (c.seq i).erase s
  let c' := { c with
    seq := Function.update c.seq i seq
    seqPos := Function.update c.seqPos s ((c.seqPos s).erase (c.pos i)) }
  if seq = ∅ then
    ({ c' with pos := Function.update c.pos i (-1), used := c.used.erase i }, true)
  else (c', false)

/-- `seq_keep(i, s)`: whether the cell became empty. -/
def seqKeep (i s : Nat) : Cells × Bool :=
  if s ∈ c.seq i then
    let c' := { c with seq := Function.update c.seq i {s}, seqPos := c.seqPosRm i }
    ({ c' with seqPos := Function.update c'.seqPos s (insert (c.pos i) (c'.seqPos s)) }, false)
  else if c.seq i ≠ ∅ then (c.rm i, true)
  else (c, false)

/-- `pos_add(i, d)`: whether the cell became empty. -/
def posAdd (i : Nat) (d : Int) : Cells × Bool :=
  let c' := { c with pos := Function.update c.pos i (c.pos i + d), seqPos := c.seqPosRm i }
  if c.pos i + d < 0 then
    ({ c' with
      pos := Function.update c.pos i (-1)
      seq := Function.update c.seq i ∅
      used := c.used.erase i }, true)
  else ({ c' with seqPos := c'.seqPosAdd i }, false)

/-- `pos_div(i, d)`, rounding to zero. -/
def posDiv (i : Nat) (d : Int) : Cells :=
  let c' := { c with pos := Function.update c.pos i ((c.pos i).tdiv d), seqPos := c.seqPosRm i }
  { c' with seqPos := c'.seqPosAdd i }

/-- `mv(isrc, idst)`. -/
def mv (isrc idst : Nat) : Cells :=
  { c with
    pos := Function.update (Function.update c.pos idst (c.pos isrc)) isrc (-1)
    seq := Function.update (Function.update c.seq idst (c.seq isrc)) isrc ∅
    used := insert idst (c.used.erase isrc) }

/-- `cp(i, n)`: the positions and sequences of `n` cells. -/
def cp (i n : Nat) : List (Int × Finset Nat) :=
  (List.range n).map fun j => (c.pos (i + j), c.seq (i + j))

/-- One iteration of `set`. -/
def setCell (i : Nat) (other : Int × Finset Nat) : Cells :=
  let used :=
    if c.pos i = -1 ∧ other.1 ≠ -1 then insert i c.used
    else if c.pos i ≠ -1 ∧ other.1 = -1 then c.used.erase i
    else c.used
  let c' := { c with
    pos := Function.update c.pos i other.1
    seq := Function.update c.seq i other.2
    used := used
    seqPos := if c.pos i ≠ -1 then c.seqPosRm i else c.seqPos }
  if other.1 ≠ -1 then { c' with seqPos := c'.seqPosAdd i } else c'

/-- `set(i, other)`. -/
def set (i : Nat) : List (Int × Finset Nat) → Cells → Cells
  | [], c => c
  | o :: other, c => set (i + 1) other (c.setCell i o)

end Cells

end MzCache.Unified
