import MzCache.Kv.State
import MzCache.Unified.Cells

/-!
# The unified KV cache

`llama_kv_cache_unified` in the chunked build: cells, the search head, the table of
chunk pointers and the memory behind it. Slot `2 * il` of the pointer table is the K
table of layer `il`, slot `2 * il + 1` its V table. Chunk 0 of a slot is a tensor of
its own; every later chunk is one allocation for a K and a V half, sized by the K
width of the layer at two bytes an element, whatever the types of the cache are.

What the decode graph computes is not modelled. An allocation asks an environment
whether it succeeds, a write outside its allocation is a fault.
-/

namespace MzCache.Unified

open MzCache MzCache.Lib

/-! ## Data -/

/-- One KV layer: its index in the model, its K width, and type and row size of K and V. -/
structure Layer where
  il : Nat
  nEmbdKGqa : Nat
  kType : Nat
  vType : Nat
  kSizeRow : Nat
  vSizeRow : Nat
  vSizeEl : Nat
  nEmbdVGqa : Nat
  kType_lt : kType < 2 ^ 31
  vType_lt : vType < 2 ^ 31
  kSizeRow_lt : kSizeRow < 2 ^ 64
  vSizeRow_lt : vSizeRow < 2 ^ 64
  vSizeRow_pos : 0 < vSizeRow

theorem typeF16_lt : 1 < 2 ^ 31 := by decide

inductive SwaType where
  | none
  | standard
  | chunked
deriving DecidableEq, Repr

/-- What stays fixed after construction. -/
structure Shape where
  layers : List Layer
  nSeqMax : Nat
  nPad : Nat
  vTrans : Bool
  nSwa : Nat
  swaType : SwaType
  layers_lt : layers.length < 2 ^ 32
  layers_nodup : (layers.map Layer.il).Nodup
  nSeqMax_lt : nSeqMax < 2 ^ 31

/-- An allocation: the tensor of a slot's chunk 0, the pair of a grown chunk, or any other. -/
inductive Block where
  | base (slot : Nat)
  | grown (il idx : Nat)
  | other (n : Nat)
deriving DecidableEq, Repr

/-- Where a chunk starts. -/
structure Ptr where
  block : Block
  off : Nat
deriving DecidableEq, Repr

structure Memory where
  bytes : Block → Nat → UInt8
  size : Block → Nat

/-- Byte `o` behind a pointer. -/
def Memory.peek (m : Memory) (p : Ptr) : Bytes := fun o => m.bytes p.block (p.off + o)

/-- `n` bytes at offset `o` behind a pointer lie inside the allocation. -/
def Memory.Inside (m : Memory) (p : Ptr) (o n : Nat) : Prop := p.off + o + n ≤ m.size p.block

instance (m : Memory) (p : Ptr) (o n : Nat) : Decidable (m.Inside p o n) := by
  unfold Memory.Inside
  infer_instance

/-- `memcpy` of `data` to offset `o` behind a pointer. -/
def Memory.poke (m : Memory) (p : Ptr) (o : Nat) (data : List UInt8) : Memory :=
  { m with
    bytes := fun b x =>
      if b = p.block ∧ p.off + o ≤ x ∧ x < p.off + o + data.length then
        data.getD (x - (p.off + o)) 0
      else m.bytes b x }

/-- `llama_kv_cache_unified`. `tensors` says which chunk tensors exist, `ptr` is
`g_svm_chunk_ptrs`. -/
structure Cache where
  cells : Cells
  head : Nat
  nChunksAlloc : Nat
  tensors : Nat → Nat → Bool
  ptr : Nat → Nat → Option Ptr
  mem : Memory

/-- Slot of a layer's K table. -/
def Layer.kSlot (l : Layer) : Nat := 2 * l.il

/-- Slot of a layer's V table. -/
def Layer.vSlot (l : Layer) : Nat := 2 * l.il + 1

/-- `chunk_bytes` of a grown chunk. -/
def Layer.chunkBytes (l : Layer) : Nat := tokensPerChunk * l.nEmbdKGqa * sizeofFp16

/-- Row size of a slot's tensor. -/
def Shape.sizeRow (sh : Shape) (slot : Nat) : Nat :=
  match sh.layers.find? fun l => l.il = slot / 2 with
  | some l => if slot % 2 = 0 then l.kSizeRow else l.vSizeRow
  | none => 0

/-- The cache as constructed for `kvSize` cells: chunk 0 of every layer, zeroed. -/
def Cache.fresh (sh : Shape) (kvSize : Nat) : Cache where
  cells := .resize kvSize
  head := 0
  nChunksAlloc := 1
  tensors := fun il idx => (sh.layers.any fun l => l.il = il) && idx = 0
  ptr := fun slot idx =>
    if (sh.layers.any fun l => l.il = slot / 2) && idx = 0 then some ⟨.base slot, 0⟩ else none
  mem := {
    bytes := fun _ _ => 0
    size := fun
      | .base slot => tokensPerChunk * sh.sizeRow slot
      | _ => 0 }

/-! ## Removing cells -/

/-- `clear(true)`: the cells and the memory of the buffer, which holds chunk 0 only. -/
def Cache.clear (c : Cache) : Cache :=
  { c with
    cells := c.cells.reset
    head := 0
    mem := { c.mem with
      bytes := fun
        | .base _, _ => 0
        | b, x => c.mem.bytes b x } }

/-- One cell of `seq_rm`; the second component is `new_head`. -/
def seqRmCell (seqId : Int) (p0 p1 : Int) (acc : Cells × Nat) (i : Nat) : Cells × Nat :=
  let freed := if acc.2 = acc.1.size then i else acc.2
  if acc.1.posIn i p0 p1 then
    if 0 ≤ seqId then
      if seqId.toNat ∈ acc.1.seq i then
        let r := acc.1.seqRm i seqId.toNat
        (r.1, if r.2 then freed else acc.2)
      else acc
    else (acc.1.rm i, freed)
  else acc

/-- `seq_rm(seq_id, p0, p1)`. -/
def Cache.seqRm (seqId p0 p1 : Int) (c : Cache) : Cache :=
  let p0 := if p0 < 0 then 0 else p0
  let p1 := if p1 < 0 then 2 ^ 31 - 1 else p1
  let r := (List.range c.cells.size).foldl (seqRmCell seqId p0 p1) (c.cells, c.cells.size)
  { c with
    cells := r.1
    head := if r.2 ≠ c.cells.size ∧ r.2 < c.head then r.2 else c.head }

/-! ## Growth -/

/-- Which allocations succeed, by layer and chunk. -/
abbrev Alloc := Nat → Nat → Bool

/-- `grow_layer_chunk`; the flag says that it returned. -/
def growLayerChunk (alloc : Alloc) (l : Layer) (idx : Nat) (c : Cache) : Cache × Bool :=
  if idx = 0 ∨ idx ≥ maxChunksPerTensor then (c, false)
  else if c.tensors l.il idx then (c, true)
  else if alloc l.il idx then
    ({ c with
      tensors := Table.set c.tensors l.il idx true
      ptr := Table.set (Table.set c.ptr l.kSlot idx (some ⟨.grown l.il idx, 0⟩))
        l.vSlot idx (some ⟨.grown l.il idx, l.chunkBytes⟩)
      mem := {
        bytes := Function.update c.mem.bytes (.grown l.il idx) fun _ => 0
        size := Function.update c.mem.size (.grown l.il idx) (l.chunkBytes * 2) } }, true)
  else (c, false)

/-- The nested loops of `mz_grow_chunks`; the first failure ends them. -/
def growList (alloc : Alloc) : List (Layer × Nat) → Cache → Cache × Bool
  | [], c => (c, true)
  | (l, idx) :: rest, c =>
      let r := growLayerChunk alloc l idx c
      if r.2 then growList alloc rest r.1 else r

/-- Chunks that the first `n` cells need. -/
def chunksFor (n : Nat) : Nat := (n + tokensPerChunk - 1) / tokensPerChunk

/-- `mz_grow_chunks`; the flag says that it returned. -/
def mzGrowChunks (sh : Shape) (alloc : Alloc) (nTokensNeeded : Nat) (c : Cache) : Cache × Bool :=
  let need := chunksFor nTokensNeeded
  if need ≤ c.nChunksAlloc then (c, true)
  else if need > maxChunksPerTensor then (c, false)
  else
    let r := growList alloc
      (sh.layers.flatMap fun l =>
        (List.range' c.nChunksAlloc (need - c.nChunksAlloc)).map fun idx => (l, idx)) c
    if r.2 then ({ r.1 with nChunksAlloc := need }, true) else r

/-! ## Slots -/

/-- `is_masked_swa`. -/
def Shape.isMaskedSwa (sh : Shape) (p0 p1 : Int) : Bool :=
  match sh.swaType with
  | .none => false
  | .standard => p1 - p0 ≥ sh.nSwa
  | .chunked => p0 < p1 / sh.nSwa * sh.nSwa

/-- `seq_get`: the first sequence of a cell. -/
def Cells.seqGet (c : Cells) (i : Nat) : Nat :=
  if h : (c.seq i).Nonempty then (c.seq i).min' h else 0

/-- `can_use` of `find_slot`. -/
def Cells.canUse (sh : Shape) (c : Cells) (i : Nat) : Bool :=
  c.isEmpty i || ((c.seq i).card = 1 &&
    sh.isMaskedSwa (c.pos i) (c.seqPosMax (c.seqGet i) + 1))

/-- The first of `n` cells from `head` on that cannot be used, as an offset. -/
def Cells.firstBlocked (sh : Shape) (c : Cells) (head n : Nat) : Option Nat :=
  (List.range n).find? fun i => !c.canUse sh (head + i)

/-- The search loop of `find_slot`. Every round but a wrap-around tests a cell, and the one
after a wrap-around does, so twice the size is fuel enough. -/
def findSlotFrom (sh : Shape) (c : Cells) (n : Nat) : Nat → Nat → Nat → Option Nat
  | 0, _, _ => none
  | fuel + 1, headCur, nTested =>
      if headCur + n > c.size then findSlotFrom sh c n fuel 0 (nTested + (c.size - headCur))
      else
        match c.firstBlocked sh headCur n with
        | none => some headCur
        | some i =>
            if nTested + (i + 1) ≥ c.size then none
            else findSlotFrom sh c n fuel (headCur + (i + 1)) (nTested + (i + 1))

/-- `find_slot` for `n` tokens; `none` stands for `-1`. -/
def Cache.findSlot (sh : Shape) (c : Cache) (n : Nat) : Option Nat :=
  let headCur := if c.head > c.cells.getUsed + 2 * n then 0 else c.head
  if n > c.cells.size then none
  else findSlotFrom sh c.cells n (2 * c.cells.size + 2) headCur 0

/-- One token of a batch, with its position and sequences. -/
structure BatchToken where
  token : Int
  pos : Int
  seqIds : List Nat
deriving DecidableEq, Repr

/-- `seq_pos_max_rm`, `-1` for a sequence that loses nothing. -/
abbrev SeqPosMaxRm := Nat → Int

/-- The body of `apply_ubatch`'s loop for one token and its cell. -/
def placeToken (i : Nat) (tok : BatchToken) (acc : Cells × SeqPosMaxRm) : Cells × SeqPosMaxRm :=
  let freed :=
    if acc.1.isEmpty i then acc
    else
      let s := acc.1.seqGet i
      (acc.1.rm i, Function.update acc.2 s (max (acc.2 s) (acc.1.pos i)))
  (tok.seqIds.foldl (fun c s => c.seqAdd i s) (freed.1.posSet i tok.pos), freed.2)

/-- The loop of `apply_ubatch` over the tokens. -/
def placeTokens : Nat → List BatchToken → Cells × SeqPosMaxRm → Cells × SeqPosMaxRm
  | _, [], acc => acc
  | i, tok :: toks, acc => placeTokens (i + 1) toks (placeToken i tok acc)

/-- `LLAMA_MAX_SEQ`. -/
def llamaMaxSeq : Nat := 64

/-- One sequence of the purge loop of `apply_ubatch`. -/
def purgeSeq (rmMax : SeqPosMaxRm) (c : Cache) (s : Nat) : Cache :=
  if rmMax s = -1 then c
  else if c.cells.seqPosMin s ≤ rmMax s then c.seqRm s (c.cells.seqPosMin s) (rmMax s + 1)
  else c

/-- `apply_ubatch`; the flag says that it returned. -/
def applyUbatch (sh : Shape) (alloc : Alloc) (headCur : Nat) (ubatch : List BatchToken)
    (c : Cache) : Cache × Bool :=
  let g := mzGrowChunks sh alloc (headCur + ubatch.length) c
  if g.2 then
    let p := placeTokens headCur ubatch (g.1.cells, fun _ => -1)
    let c := (List.range llamaMaxSeq).foldl (purgeSeq p.2) { g.1 with cells := p.1 }
    ({ c with head := headCur + ubatch.length }, true)
  else g

/-- `get_n_kv`. -/
def Cache.getNKv (sh : Shape) (c : Cache) : Nat :=
  min c.cells.size (max sh.nPad ((c.cells.usedMaxP1 + sh.nPad - 1) / sh.nPad * sh.nPad))

end MzCache.Unified
