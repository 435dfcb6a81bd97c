import MzCache.Lib.Chunked
import MzCache.Unified.Cache

/-!
# Saving and restoring the cache

`state_write` and `state_read`. A saved state is the number of cells, a record for
each of them (position, number of sequences, sequences), and for every layer a header
and the K rows, then the same for V. The rows of a cell are reached chunk by chunk
through the pointer table.

A write ends early only in a crash. A read is a program over the cache and the rest of
the stream that can stop in three ways: by returning `false` (`refused`), by an
exception of the reader, of the growth or of `chunk_read` (`thrown`), and by a crash.
Each of them leaves the cache as it is then.
-/

namespace MzCache.Unified

open MzCache MzCache.Lib

/-! ## Writing -/

/-- The loop that collects `cell_ranges`, with `n` cells left from cell `i` on. A `begin` of
`size` says that no range is open. -/
def cellRangesFrom (keep : Nat → Bool) (size : Nat) : Nat → Nat → Nat → List (Nat × Nat)
  | 0, _, b => if b ≠ size then [(b, size)] else []
  | n + 1, i, b =>
      if keep i then cellRangesFrom keep size n (i + 1) (if b = size then i else b)
      else if b ≠ size then (b, i) :: cellRangesFrom keep size n (i + 1) size
      else cellRangesFrom keep size n (i + 1) size

/-- The cells that `state_write(seq_id)` saves. -/
def Cells.saved (c : Cells) (seqId : Int) (i : Nat) : Bool :=
  !c.isEmpty i && (seqId = -1 || seqId.toNat ∈ c.seq i)

/-- `cell_ranges`. -/
def Cells.cellRanges (c : Cells) (seqId : Int) : List (Nat × Nat) :=
  cellRangesFrom (c.saved seqId) c.size c.size 0 c.size

/-- `cell_count`. -/
def Cells.cellCount (c : Cells) (seqId : Int) : Nat :=
  (List.range c.size).countP (c.saved seqId)

/-- The sequences that `state_write_meta` writes for a cell. -/
def Cells.seqIds (sh : Shape) (c : Cells) (seqId : Int) (i : Nat) : List Nat :=
  (List.range sh.nSeqMax).filter fun cur => ((cur : Int) = seqId || seqId = -1) && cur ∈ c.seq i

/-- The record of one cell. -/
def Cells.cellRecord (sh : Shape) (c : Cells) (seqId : Int) (i : Nat) : List UInt8 :=
  toI32 (c.pos i) ++ toLe 4 (c.seqIds sh seqId i).length ++
    (c.seqIds sh seqId i).flatMap fun (s : Nat) => toI32 s

/-- The cells of some ranges, in the order the loops visit them. -/
def rangeCells (ranges : List (Nat × Nat)) : List Nat :=
  ranges.flatMap fun r => List.range' r.1 (r.2 - r.1)

/-- `state_write_meta`. -/
def stateWriteMeta (sh : Shape) (c : Cells) (seqId : Int) (ranges : List (Nat × Nat)) :
    List UInt8 :=
  (rangeCells ranges).flatMap (c.cellRecord sh seqId)

/-- The chunk loop of `chunk_write` for one range. -/
def chunkWriteFrom (c : Cache) (slot sizeRow s e : Nat) : List Nat → Option (List UInt8)
  | [] => some []
  | ci :: rest =>
      let sp := span tokensPerChunk sizeRow s e ci
      if sp.2 = 0 then chunkWriteFrom c slot sizeRow s e rest
      else
        match c.ptr slot ci with
        | none => none
        | some p =>
            if c.mem.Inside p sp.1 sp.2 then
              (chunkWriteFrom c slot sizeRow s e rest).map
                fun bs => slice (c.mem.peek p) sp.1 sp.2 ++ bs
            else none

/-- The chunks from the one of row `s` to the one of row `e - 1`. -/
def chunkIdxs (s e : Nat) : List Nat :=
  List.range' (s / tokensPerChunk) ((e - 1) / tokensPerChunk + 1 - s / tokensPerChunk)

/-- `chunk_write`. -/
def chunkWrite (c : Cache) (slot sizeRow : Nat) : List (Nat × Nat) → Option (List UInt8)
  | [] => some []
  | r :: ranges =>
      if r.1 ≥ r.2 then chunkWrite c slot sizeRow ranges
      else do
        let bs ← chunkWriteFrom c slot sizeRow r.1 r.2 (chunkIdxs r.1 r.2)
        let rest ← chunkWrite c slot sizeRow ranges
        return bs ++ rest

/-- The unchunked path: `write_tensor` of every range from a flat tensor. -/
def flatWrite (flat : Bytes) (sizeRow : Nat) (ranges : List (Nat × Nat)) : List UInt8 :=
  ranges.flatMap fun r => slice flat (r.1 * sizeRow) ((r.2 - r.1) * sizeRow)

/-- `write_tensor` from the transposed V tensor of a layer, whose memory is chunk 0 only. -/
def writeTransposed (c : Cache) (l : Layer) (ranges : List (Nat × Nat)) : Option (List UInt8) :=
  match c.ptr l.vSlot 0 with
  | none => none
  | some p =>
      (List.range l.nEmbdVGqa).flatMapM fun j =>
        ranges.flatMapM fun r =>
          let off := (r.1 + j * c.cells.size) * l.vSizeEl
          let n := (r.2 - r.1) * l.vSizeEl
          if off + n ≤ tokensPerChunk * l.vSizeRow then some (slice (c.mem.peek p) off n) else none

/-- Header and rows of one layer's K. -/
def writeK (c : Cache) (ranges : List (Nat × Nat)) (l : Layer) : Option (List UInt8) :=
  (chunkWrite c l.kSlot l.kSizeRow ranges).map
    fun rows => toI32 l.kType ++ toLe 8 l.kSizeRow ++ rows

/-- Header and rows of one layer's V. -/
def writeV (sh : Shape) (c : Cache) (ranges : List (Nat × Nat)) (l : Layer) :
    Option (List UInt8) :=
  if sh.vTrans then
    (writeTransposed c l ranges).map
      fun rows => toI32 l.vType ++ toLe 4 l.vSizeEl ++ toLe 4 l.nEmbdVGqa ++ rows
  else
    (chunkWrite c l.vSlot l.vSizeRow ranges).map
      fun rows => toI32 l.vType ++ toLe 8 l.vSizeRow ++ rows

/-- The layers one after the other. -/
def writeLayers (f : Layer → Option (List UInt8)) : List Layer → Option (List UInt8)
  | [] => some []
  | l :: ls => do
      let bs ← f l
      let rest ← writeLayers f ls
      return bs ++ rest

/-- `state_write_data`. -/
def stateWriteData (sh : Shape) (c : Cache) (ranges : List (Nat × Nat)) :
    Option (List UInt8) := do
  let k ← writeLayers (writeK c ranges) sh.layers
  let v ← writeLayers (writeV sh c ranges) sh.layers
  return toLe 4 (if sh.vTrans then 1 else 0) ++ toLe 4 sh.layers.length ++ (k ++ v)

/-- `state_write`; `none` is a crash. -/
def stateWrite (sh : Shape) (c : Cache) (seqId : Int) : Option (List UInt8) :=
  let ranges := c.cells.cellRanges seqId
  let cellCount := c.cells.cellCount seqId
  if cellCount = (ranges.map fun r => r.2 - r.1).sum then
    (stateWriteData sh c ranges).map fun data =>
      toLe 4 cellCount ++ stateWriteMeta sh c.cells seqId ranges ++ data
  else none

/-! ## Reading -/

/-- Why a read stopped. -/
inductive Stop where
  | refused
  | thrown
  | crashed
deriving DecidableEq, Repr

/-- The cache and the rest of the stream. -/
structure Restore where
  cache : Cache
  input : List UInt8

/-- Programs that read a stream into the cache. -/
abbrev Read := EStateM Stop Restore

/-- `io.read(size)`, which throws past the end. -/
def readBytes (size : Nat) : Read (List UInt8) := fun s =>
  if size ≤ s.input.length then
    .ok (s.input.take size) { s with input := s.input.drop size }
  else .error .thrown s

def readU32 : Read Nat := do return ofLe (← readBytes 4)

def readU64 : Read Nat := do return ofLe (← readBytes 8)

def readI32 : Read Int := do return ofI32 (← readBytes 4)

/-- A step on the cache alone. -/
def onCache (f : Cache → Cache) : Read Unit := fun s => .ok () { s with cache := f s.cache }

def onCells (f : Cells → Cells) : Read Unit := onCache fun c => { c with cells := f c.cells }

/-- `return false` unless the condition holds. -/
def require (p : Prop) [Decidable p] : Read Unit := fun s =>
  if p then .ok () s else .error .refused s

/-- The sequences of one cell's record. -/
def readSeqIds (sh : Shape) (i : Nat) : Nat → Read Unit
  | 0 => pure ()
  | n + 1 => do
      let s ← readI32
      require (0 ≤ s ∧ s < sh.nSeqMax)
      onCells fun c => c.seqAdd i s.toNat
      readSeqIds sh i n

/-- The records of `n` cells from cell `i` on. -/
def readCells (sh : Shape) : Nat → Nat → Read Unit
  | 0, _ => pure ()
  | n + 1, i => do
      let pos ← readI32
      let nSeqId ← readU32
      onCells fun c => c.posSet i pos
      readSeqIds sh i nSeqId
      readCells sh n (i + 1)

/-- The records of `n` cells of one sequence, as an ubatch of sequence `dest`. -/
def readUbatch (dest : Nat) : Nat → Read (List BatchToken)
  | 0 => pure []
  | n + 1 => do
      let pos ← readI32
      let nSeqId ← readU32
      require (nSeqId = 1)
      let _ ← readI32
      let rest ← readUbatch dest n
      return ⟨0, pos, [dest]⟩ :: rest

/-- Growth as part of a read. -/
def growFor (sh : Shape) (alloc : Alloc) (n : Nat → Nat) : Read Unit := fun s =>
  let r := mzGrowChunks sh alloc (n s.cache.head) s.cache
  if r.2 then .ok () { s with cache := r.1 } else .error .thrown { s with cache := r.1 }

/-- `find_slot` and `apply_ubatch` of a single-sequence restore, with the checks after them. -/
def placeUbatch (sh : Shape) (alloc : Alloc) (dest : Nat) (ubatch : List BatchToken) :
    Read Unit := fun s =>
  match s.cache.findSlot sh ubatch.length with
  | none => .error .refused s
  | some headCur =>
      let r := applyUbatch sh alloc headCur ubatch s.cache
      if r.2 then
        let c : Cache := { r.1 with head := headCur }
        let last := headCur + ubatch.length - 1
        if headCur + ubatch.length ≤ c.cells.size ∧
            (ubatch.head?.map BatchToken.pos) = some (c.cells.pos headCur) ∧
            (ubatch.getLast?.map BatchToken.pos) = some (c.cells.pos last) ∧
            dest ∈ c.cells.seq headCur ∧ dest ∈ c.cells.seq last then
          .ok () { s with cache := c }
        else .error .crashed { s with cache := c }
      else .error .thrown { s with cache := r.1 }

/-- `state_read_meta`. -/
def stateReadMeta (sh : Shape) (alloc : Alloc) (cellCount : Nat) (destSeqId : Int) :
    Read Unit := do
  if destSeqId ≠ -1 then
    onCache fun c => c.seqRm destSeqId (-1) (-1)
    let ubatch ← readUbatch destSeqId.toNat cellCount
    placeUbatch sh alloc destSeqId.toNat ubatch
  else
    let s ← get
    require (cellCount ≤ s.cache.cells.size)
    onCache Cache.clear
    readCells sh cellCount 0
    onCache fun c => { c with head := 0 }

/-- `memcpy` of bytes just read to offset `off` of a chunk. -/
def copyTo (slot ci off : Nat) (data : List UInt8) : Read Unit := fun s =>
  match s.cache.ptr slot ci with
  | none => .error .crashed s
  | some p =>
      if s.cache.mem.Inside p off data.length then
        .ok () { s with cache := { s.cache with mem := s.cache.mem.poke p off data } }
      else .error .crashed s

/-- `chunk_read` throws on a chunk that is not resident. -/
def residentOrThrow (slot ci : Nat) : Read Unit := fun s =>
  if (s.cache.ptr slot ci).isSome then .ok () s else .error .thrown s

/-- The chunk loop of `chunk_read`. -/
def chunkReadFrom (slot sizeRow s e : Nat) : List Nat → Read Unit
  | [] => pure ()
  | ci :: rest => do
      let sp := span tokensPerChunk sizeRow s e ci
      residentOrThrow slot ci
      let data ← readBytes sp.2
      copyTo slot ci sp.1 data
      chunkReadFrom slot sizeRow s e rest

/-- `chunk_read`. -/
def chunkRead (slot sizeRow cellCount head : Nat) : Read Unit :=
  chunkReadFrom slot sizeRow head (head + cellCount) (chunkIdxs head (head + cellCount))

/-- Header and rows of one layer's K. -/
def readK (cellCount : Nat) (l : Layer) : Read Unit := do
  let kTypeRef ← readI32
  require (kTypeRef = l.kType)
  let kSizeRowRef ← readU64
  require (kSizeRowRef = l.kSizeRow)
  let s ← get
  if cellCount ≠ 0 then chunkRead l.kSlot l.kSizeRow cellCount s.cache.head

/-- The rows of a transposed V: one strip of chunk 0 an element. -/
def readTransposed (cellCount : Nat) (l : Layer) : List Nat → Read Unit
  | [] => pure ()
  | j :: rest => do
      let s ← get
      let data ← readBytes (cellCount * l.vSizeEl)
      copyTo l.vSlot 0 ((s.cache.head + j * s.cache.cells.size) * l.vSizeEl) data
      readTransposed cellCount l rest

/-- Header and rows of one layer's V. -/
def readV (sh : Shape) (cellCount : Nat) (l : Layer) : Read Unit := do
  let vTypeRef ← readI32
  require (vTypeRef = l.vType)
  if sh.vTrans then
    let vSizeElRef ← readU32
    require (vSizeElRef = l.vSizeEl)
    let nEmbdVGqaRef ← readU32
    require (nEmbdVGqaRef = l.nEmbdVGqa)
    if cellCount ≠ 0 then readTransposed cellCount l (List.range l.nEmbdVGqa)
  else
    let vSizeRowRef ← readU64
    require (vSizeRowRef = l.vSizeRow)
    let s ← get
    if cellCount ≠ 0 then chunkRead l.vSlot l.vSizeRow cellCount s.cache.head

/-- The layers one after the other. -/
def readLayers (f : Layer → Read Unit) : List Layer → Read Unit
  | [] => pure ()
  | l :: ls => do
      f l
      readLayers f ls

/-- `state_read_data`. -/
def stateReadData (sh : Shape) (alloc : Alloc) (cellCount : Nat) : Read Unit := do
  let vTrans ← readU32
  let nLayer ← readU32
  require (nLayer = sh.layers.length)
  let s ← get
  require (cellCount ≤ s.cache.cells.size)
  require (sh.vTrans = (vTrans != 0))
  growFor sh alloc fun head => head + cellCount
  readLayers (readK cellCount) sh.layers
  readLayers (readV sh cellCount) sh.layers

/-- `state_read` up to its clean-up. -/
def stateReadBody (sh : Shape) (alloc : Alloc) (seqId : Int) : Read Unit := do
  let cellCount ← readU32
  stateReadMeta sh alloc cellCount seqId
  stateReadData sh alloc cellCount

/-- `state_read`. A refused stream clears the cache, or removes the sequence, and throws. -/
def stateRead (sh : Shape) (alloc : Alloc) (seqId : Int) : Read Unit := fun s =>
  match stateReadBody sh alloc seqId s with
  | .error .refused s' =>
      .error .refused { s' with
        cache := if seqId = -1 then s'.cache.clear else s'.cache.seqRm seqId (-1) (-1) }
  | r => r

end MzCache.Unified
