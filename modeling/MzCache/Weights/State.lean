import MzCache.Lib.SlotTable
import MzCache.Lib.Table

/-!
# Weight layers

The weights of the repeating layers live in one ggml context whose tensors are the
children of a multi-buffer. `unloadBuffers` frees the children of a layer's tensors,
`allocWeightLayer` brings the layer back as one child that all its tensors share,
`readWeightLayer` fills that child from the layer's dump file, and
`saveWeightsInLayerToFile` writes that file. A tensor is its position in the context. A
buffer is named by a number, and its bytes are indexed from the start of the buffer.
-/

namespace MzCache.Weights

open MzCache.Lib

/-- What `load_tensors` leaves behind about the weight context: `ggml_nbytes` of its tensors in
creation order, and the layer globals. -/
structure WeightModel where
  sizes : List Nat
  layer0TensorIdx : Nat
  numTensorsPerLayer : Nat
  layerFirstTensor : Nat → Option Nat
  numBytesPerLayer : Nat
  alignment : Nat

/-- `padded_num_bytes_per_layer` -/
def WeightModel.paddedNumBytesPerLayer (m : WeightModel) : Nat :=
  (m.numBytesPerLayer + 4095) / 4096 * 4096

def WeightModel.nbytes (m : WeightModel) (t : Nat) : Nat := m.sizes.getD t 0

/-- `GGML_PAD`: `x` rounded up to a multiple of the alignment. -/
def ggmlPad (x n : Nat) : Nat := (x + n - 1) / n * n

/-- `ggml_backend_multi_buffer_context` -/
structure MultiBuffer where
  buffers : List (Option Nat)
  curNBuffers : Nat
deriving DecidableEq

/-- The fields of a weight tensor that unloading and reloading touch. `data` is the offset from
the base of the tensor's buffer. -/
structure Tensor where
  buffer : Option Nat
  data : Option Nat
  isWeight : Bool
deriving DecidableEq

/-- A tensor without memory. -/
def Tensor.unset : Tensor := ⟨none, none, false⟩

structure Weights where
  multi : MultiBuffer
  tensors : Nat → Tensor
  /-- bytes of a buffer -/
  size : Nat → Nat
  /-- whether a buffer came from `alloc_svm_buffer` -/
  svm : Nat → Bool
  mem : Nat → Bytes

/-! ## The multi-buffer -/

/-- `ggml_backend_multi_buffer_unload_child_buffer` -/
def MultiBuffer.unloadChildBuffer (mb : MultiBuffer) (child : Nat) : Option MultiBuffer :=
  (SlotTable.release mb.buffers child).map fun buffers => ⟨buffers, mb.curNBuffers - 1⟩

/-- `ggml_backend_multi_buffer_concat_buffer` -/
def MultiBuffer.concatBuffer (mb : MultiBuffer) (buffers : List Nat) : Option MultiBuffer :=
  if mb.buffers.count none < buffers.length then none
  else some ⟨SlotTable.fill mb.buffers buffers, mb.curNBuffers + buffers.length⟩

/-- The loop of `unload_buffers` over the buffers to free: it stops at the first failure. -/
def MultiBuffer.unloadAll (mb : MultiBuffer) : List Nat → Bool × MultiBuffer
  | [] => (true, mb)
  | b :: bs =>
      match mb.unloadChildBuffer b with
      | none => (false, mb)
      | some mb => mb.unloadAll bs

/-! ## Unloading a layer -/

/-- One turn of the collecting loop: the tensor's buffer, if it has one that was not met yet. -/
def collectBuffer (tensors : Nat → Tensor) (acc : List Nat) (t : Nat) : List Nat :=
  match (tensors t).buffer with
  | some b => if b ∈ acc then acc else acc ++ [b]
  | none => acc

/-- The buffers of the tensors `ts`, each once, in order of first use. -/
def uniqueBuffers (tensors : Nat → Tensor) (ts : List Nat) : List Nat :=
  ts.foldl (collectBuffer tensors) []

/-- The positions `unload_buffers` visits for a layer. -/
def WeightModel.unloadRange (m : WeightModel) (layer : Nat) : List Nat :=
  (List.range' (m.layer0TensorIdx + m.numTensorsPerLayer * layer) m.numTensorsPerLayer).filter
    (· < m.sizes.length)

/-- `unload_buffers` -/
def unloadBuffers (m : WeightModel) (w : Weights) (layer : Nat) : Bool × Weights :=
  let ts := m.unloadRange layer
  match w.multi.unloadAll (uniqueBuffers w.tensors ts) with
  | (false, multi) => (false, { w with multi := multi })
  | (true, multi) =>
      (true, { w with
        multi := multi
        tensors := fun t => if t ∈ ts then ⟨none, none, true⟩ else w.tensors t })

/-! ## Allocating tensors in a buffer -/

/-- `aligned_offset(base, 0, alignment)`: where a `ggml_tallocr` starts in a buffer at `base`. -/
def alignedStart (base alignment : Nat) : Nat := (alignment - base % alignment) % alignment

/-- The loop of `alloc_tensor_range` over `ts` in buffer `b` of `size` bytes, from `offset` on:
`ggml_tallocr_alloc` for every tensor without data. `none`: the process aborts, because the
buffer is too small or the tensor still has a buffer. -/
def allocTensorRange (m : WeightModel) (b size : Nat) (svm : Bool) :
    List Nat → Nat → (Nat → Tensor) → Option (Nat → Tensor)
  | [], _, tensors => some tensors
  | t :: ts, offset, tensors =>
      if (tensors t).data.isSome then allocTensorRange m b size svm ts offset tensors
      else if size < offset + ggmlPad (m.nbytes t) m.alignment then none
      else if (tensors t).buffer.isSome then none
      else
        -- `init_tensor` keeps the address of a tensor marked as weight and moves every other one
        -- to the base of an SVM buffer
        allocTensorRange m b size svm ts (offset + ggmlPad (m.nbytes t) m.alignment)
          (Function.update tensors t
            { tensors t with
              buffer := some b
              data := some (if svm && !(tensors t).isWeight then 0 else offset) })

/-- The tensors from `first` up to `last`, or to the end of the context. -/
def WeightModel.tensorRange (m : WeightModel) (first last : Option Nat) : List Nat :=
  match first with
  | none => []
  | some f => List.range' f (last.getD m.sizes.length - f)

/-- The size of the buffer `alloc_tensor_range` asks for when it allocates weights. -/
def weightBufferSize (size : Nat) : Nat :=
  if size < 4096 then 4096 else (size + 4096 - 1) / 4096 * 4096

/-- `alloc_weight_layer`, when the allocator returns buffer `b` at address `base`. `none`: the
process aborts; `false`: the new buffer found no free slot. -/
def allocWeightLayer (m : WeightModel) (w : Weights) (layer b base : Nat) :
    Option (Bool × Weights) :=
  let size := weightBufferSize m.numBytesPerLayer
  let ts := m.tensorRange (m.layerFirstTensor layer) (m.layerFirstTensor (layer + 1))
  match allocTensorRange m b size true ts (alignedStart base m.alignment) w.tensors with
  | none => none
  | some tensors =>
      match w.multi.concatBuffer [b] with
      | none => some (false, { w with tensors := tensors })
      | some multi =>
          some (true, { w with
            multi := multi
            tensors := tensors
            size := Function.update w.size b size
            svm := Function.update w.svm b true })

/-! ## Dump files -/

/-- `read_weight_layer`. `none`: an exception, because the file is shorter than a padded layer or
the layer has no memory, or a read that runs over the end of the buffer. -/
def readWeightLayer (m : WeightModel) (w : Weights) (layer : Nat) (file : List UInt8) :
    Option (Bool × Weights) :=
  let bytes := m.paddedNumBytesPerLayer
  if bytes % 4096 ≠ 0 then some (false, w)
  else
    match m.layerFirstTensor layer with
    | none => none
    | some t =>
        match (w.tensors t).buffer, (w.tensors t).data with
        | some b, some off =>
            if file.length < bytes ∨ w.size b < off + bytes then none
            else
              some (true, { w with
                mem := Function.update w.mem b
                  (blit (w.mem b) off (fun i => file.getD i 0) bytes) })
        | _, _ => none

/-- `ggml_backend_tensor_get` of the whole tensor. A tensor in an SVM buffer is read from the base
of that buffer. `none`: the tensor has no memory. -/
def tensorGet (m : WeightModel) (w : Weights) (t : Nat) : Option (List UInt8) :=
  match (w.tensors t).buffer, (w.tensors t).data with
  | some b, some off =>
      some ((List.range (m.nbytes t)).map fun i => w.mem b ((if w.svm b then 0 else off) + i))
  | _, _ => none

/-- The loop of `save_weights_in_layer_to_file`. -/
def saveTensors (m : WeightModel) (w : Weights) :
    Nat → Nat → List UInt8 → Option (List UInt8)
  | 0, _, out => some out
  | n + 1, t, out =>
      if m.sizes.length ≤ t then none
      else
        match tensorGet m w t with
        | none => none
        | some bytes => saveTensors m w n (t + 1) (out ++ bytes)

/-- `save_weights_in_layer_to_file`: the contents of the file. `none`: an exception. -/
def saveWeightsInLayerToFile (m : WeightModel) (w : Weights) (layer : Nat) :
    Option (List UInt8) :=
  match m.layerFirstTensor layer with
  | none => none
  | some t =>
      (saveTensors m w m.numTensorsPerLayer t []).map fun out =>
        out ++ List.replicate ((4096 - out.length % 4096) % 4096) 0

/-! ## Loading -/

/-- The ranges `ggml_backend_alloc_ctx_tensors_from_buft` allocates, with `max_size` zero: from
position `t`, with the padded sizes still to come, the open range starting at `first` and
filling `cur` bytes. -/
def ctxRanges : List Nat → Nat → Nat → Nat → List (Nat × Nat)
  | [], t, first, cur => if 0 < cur then [(first, t)] else []
  | size :: sizes, t, first, cur =>
      if 0 < cur ∧ 0 < cur + size then (first, t) :: ctxRanges sizes (t + 1) t size
      else ctxRanges sizes (t + 1) first (cur + size)

/-- Each range allocated in a buffer of its own; buffer `b` takes the first. -/
def allocRanges (m : WeightModel) : List (Nat × Nat) → Nat → Weights → Option Weights
  | [], _, w => some w
  | (first, last) :: rs, b, w =>
      let ts := m.tensorRange (some first) (some last)
      let size := (ts.map fun t => ggmlPad (m.nbytes t) m.alignment).sum
      match allocTensorRange m b size false ts 0 w.tensors with
      | none => none
      | some tensors =>
          allocRanges m rs (b + 1)
            { w with
              multi := ⟨w.multi.buffers ++ [some b], w.multi.curNBuffers + 1⟩
              tensors := tensors
              size := Function.update w.size b size }

/-- `ggml_backend_tensor_set` of the whole tensor. -/
def tensorSet (m : WeightModel) (w : Weights) (t : Nat) (bytes : Bytes) : Weights :=
  match (w.tensors t).buffer, (w.tensors t).data with
  | some b, some off =>
      { w with
        mem := Function.update w.mem b
          (blit (w.mem b) (if w.svm b then 0 else off) bytes (m.nbytes t)) }
  | _, _ => w

/-- The weights before anything is allocated. -/
def Weights.empty : Weights where
  multi := ⟨[], 0⟩
  tensors := fun _ => Tensor.unset
  size := fun _ => 0
  svm := fun _ => false
  mem := fun _ _ => 0

/-- The weights after loading: `ggml_backend_alloc_ctx_tensors_from_buft`, then the bytes the
model file has for each tensor. `none`: an allocation aborts, or there are fewer than two buffers
and none of them becomes a multi-buffer. -/
def loadWeights (m : WeightModel) (contents : Nat → Bytes) : Option Weights :=
  let ranges := ctxRanges (m.sizes.map (ggmlPad · m.alignment)) 0 0 0
  if ranges.length < 2 then none
  else
    (allocRanges m ranges 0 Weights.empty).map fun w =>
      (List.range m.sizes.length).foldl (fun w t => tensorSet m w t (contents t)) w

end MzCache.Weights
