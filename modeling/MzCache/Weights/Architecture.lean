import MzCache.Weights.Contents

/-!
# Which tensors are where

`load_tensors` creates the tensors of a model in two contexts, one on the CPU and one on
the GPU, and keeps a list of names beside them whose length at layer 0 becomes
`layer_0_tensor_idx`. The list counts the tensors of both contexts and leaves out a
duplicated output, so whether it is also a position in the GPU context depends on the
model file.
-/

namespace MzCache.Weights

/-- The architectures with weight bookkeeping. -/
inductive Arch
  | llama
  | exaone4
  | qwen3
  | gemma3
deriving DecidableEq

inductive LayerTensor
  | attnNorm | wq | wk | wv | wo | attnPostNorm | attnQNorm | attnKNorm
  | ffnNorm | ffnGate | ffnDown | ffnUp | ffnPostNorm
deriving DecidableEq

inductive TensorName
  | tokEmbd
  | outputNorm
  | output
  | ropeFreqs
  | layer (i : Nat) (t : LayerTensor)
deriving DecidableEq

/-- A model file and where its output goes. -/
structure ModelFile where
  arch : Arch
  nLayer : Nat
  /-- the file has a separate output tensor -/
  hasOutput : Bool
  hasRopeFreqs : Bool
  /-- `dev_output` is the GPU -/
  outputOnGpu : Bool
  nbytes : TensorName → Nat
  alignment : Nat

/-- The tensors of a layer in the order in which they are created and pushed. -/
def Arch.layerTensors : Arch → List LayerTensor
  | .llama => [.attnNorm, .wq, .wk, .wv, .wo, .ffnNorm, .ffnGate, .ffnDown, .ffnUp]
  | .exaone4 =>
      [.wq, .wk, .wv, .wo, .attnPostNorm, .attnQNorm, .attnKNorm, .ffnGate, .ffnDown, .ffnUp,
        .ffnPostNorm]
  | .qwen3 =>
      [.attnNorm, .wq, .wk, .wv, .wo, .attnKNorm, .attnQNorm, .ffnNorm, .ffnGate, .ffnDown,
        .ffnUp]
  | .gemma3 =>
      [.attnNorm, .wq, .wk, .wv, .wo, .attnPostNorm, .attnKNorm, .attnQNorm, .ffnNorm, .ffnGate,
        .ffnUp, .ffnDown, .ffnPostNorm]

/-- The constant each branch stores in `num_tensors_per_layer`. -/
def Arch.numTensorsPerLayer : Arch → Nat
  | .llama => 9
  | .exaone4 => 11
  | .qwen3 => 11
  | .gemma3 => 13

/-- Whether the branch creates the shared `rope_freqs`. -/
def Arch.createsRopeFreqs : Arch → Bool
  | .llama | .exaone4 => true
  | .qwen3 | .gemma3 => false

/-- `load_tensors` on its way: the tensors of the two contexts, `tensor_name_and_idx`, and the
globals it sets. -/
structure Loader where
  cpu : List TensorName
  gpu : List TensorName
  tensorNameAndIdx : List (String × Int)
  layer0TensorIdx : Nat
  numTensorsPerLayer : Nat
  layerFirstTensor : Nat → Option Nat
  numBytesPerLayer : Nat

def Loader.empty : Loader where
  cpu := []
  gpu := []
  tensorNameAndIdx := []
  layer0TensorIdx := 0
  numTensorsPerLayer := 0
  layerFirstTensor := fun _ => none
  numBytesPerLayer := 0

/-- `create_tensor` of a tensor the file has. -/
def Loader.createTensor (l : Loader) (name : TensorName) (onGpu : Bool) : Loader :=
  if onGpu then { l with gpu := l.gpu ++ [name] } else { l with cpu := l.cpu ++ [name] }

/-- `create_tensor` with `TENSOR_DUPLICATED`: nothing new where the context has the name. -/
def Loader.createDuplicated (l : Loader) (name : TensorName) (onGpu : Bool) : Loader :=
  if name ∈ (if onGpu then l.gpu else l.cpu) then l else l.createTensor name onGpu

/-- `push_tensor_name_and_idx` of a tensor that is not null. -/
def Loader.push (l : Loader) (name : String) (idx : Int) : Loader :=
  { l with tensorNameAndIdx := l.tensorNameAndIdx ++ [(name, idx)] }

/-- The loop body of `load_tensors`. -/
def Loader.loadLayer (f : ModelFile) (l : Loader) (i : Nat) : Loader :=
  let ts := f.arch.layerTensors
  let first := l.gpu.length
  let l := ts.foldl (fun l t => l.createTensor (.layer i t) true) l
  let l := { l with layerFirstTensor := Function.update l.layerFirstTensor i (some first) }
  let l := ts.foldl (fun l _ => l.push "layer" i) l
  if i = 0 then { l with numBytesPerLayer := (ts.map fun t => f.nbytes (.layer i t)).sum } else l

/-- `load_tensors` up to the repeating layers. -/
def loadHead (f : ModelFile) : Loader :=
  let l := (Loader.empty.createTensor .tokEmbd false).push "embed" (-1)
  let l := (l.createTensor .outputNorm f.outputOnGpu).push "output" (-1)
  let l :=
    if f.hasOutput then (l.createTensor .output f.outputOnGpu).push "output" (-1)
    else l.createDuplicated .tokEmbd f.outputOnGpu
  let l :=
    if f.arch.createsRopeFreqs && f.hasRopeFreqs then
      (l.createTensor .ropeFreqs true).push "rope_freqs" (-1)
    else l
  { l with
    layer0TensorIdx := l.tensorNameAndIdx.length
    numTensorsPerLayer := f.arch.numTensorsPerLayer }

/-- `load_tensors` -/
def loadTensors (f : ModelFile) : Loader :=
  (List.range f.nLayer).foldl (Loader.loadLayer f) (loadHead f)

/-- The weight context, which is the GPU's, and the globals after `load_tensors`. -/
def ModelFile.weightModel (f : ModelFile) : WeightModel :=
  let l := loadTensors f
  { sizes := l.gpu.map f.nbytes
    layer0TensorIdx := l.layer0TensorIdx
    numTensorsPerLayer := l.numTensorsPerLayer
    layerFirstTensor := l.layerFirstTensor
    numBytesPerLayer := l.numBytesPerLayer
    alignment := f.alignment }

/-- The positions `save_weights_in_layer_to_file` visits for a layer. -/
def WeightModel.dumpRange (m : WeightModel) (layer : Nat) : List Nat :=
  match m.layerFirstTensor layer with
  | none => []
  | some t => List.range' t m.numTensorsPerLayer

/-- Where layer 0 begins in the GPU context. -/
def ModelFile.layer0Position (f : ModelFile) : Nat :=
  (if f.outputOnGpu then 2 else 0) +
    (if f.arch.createsRopeFreqs && f.hasRopeFreqs then 1 else 0)

theorem layerTensors_length (a : Arch) : a.layerTensors.length = a.numTensorsPerLayer := by
  cases a <;> rfl

theorem loadHead_gpu (f : ModelFile) : (loadHead f).gpu.length = f.layer0Position := by
  unfold loadHead ModelFile.layer0Position
  cases f.outputOnGpu <;> cases f.hasOutput <;>
    cases f.arch.createsRopeFreqs && f.hasRopeFreqs <;> rfl

theorem loadHead_idx (f : ModelFile) :
    (loadHead f).layer0TensorIdx =
      2 + (if f.hasOutput then 1 else 0) +
        (if f.arch.createsRopeFreqs && f.hasRopeFreqs then 1 else 0) := by
  unfold loadHead
  cases f.outputOnGpu <;> cases f.hasOutput <;>
    cases f.arch.createsRopeFreqs && f.hasRopeFreqs <;> rfl

/-- The list of names is also a position exactly when the output is the token embedding, copied
to the GPU. -/
theorem loadHead_idx_eq_iff (f : ModelFile) :
    (loadHead f).layer0TensorIdx = f.layer0Position ↔
      f.hasOutput = false ∧ f.outputOnGpu = true := by
  rw [loadHead_idx]
  unfold ModelFile.layer0Position
  cases f.hasOutput <;> cases f.outputOnGpu <;> simp

/-! ## The layers -/

theorem foldl_createTensor (i : Nat) (ts : List LayerTensor) (l : Loader) :
    ts.foldl (fun l t => l.createTensor (.layer i t) true) l =
      { l with gpu := l.gpu ++ ts.map (.layer i) } := by
  induction ts generalizing l with
  | nil => simp
  | cons t ts ih =>
      rw [List.foldl_cons, ih]
      simp [Loader.createTensor]

theorem foldl_push (i : Int) (ts : List LayerTensor) (l : Loader) :
    ts.foldl (fun l _ => l.push "layer" i) l =
      { l with tensorNameAndIdx := l.tensorNameAndIdx ++ ts.map fun _ => ("layer", i) } := by
  induction ts generalizing l with
  | nil => simp
  | cons t ts ih =>
      rw [List.foldl_cons, ih]
      simp [Loader.push]

/-- What `n` layers add to the loader. -/
structure Layers (f : ModelFile) (n : Nat) (l : Loader) : Prop where
  gpu : l.gpu = (loadHead f).gpu ++
    (List.range n).flatMap fun i => f.arch.layerTensors.map (.layer i)
  idx : l.layer0TensorIdx = (loadHead f).layer0TensorIdx
  num : l.numTensorsPerLayer = f.arch.numTensorsPerLayer
  first : ∀ i, l.layerFirstTensor i =
    if i < n then some (f.layer0Position + f.arch.numTensorsPerLayer * i) else none
  bytes : l.numBytesPerLayer =
    if 0 < n then (f.arch.layerTensors.map fun t => f.nbytes (.layer 0 t)).sum else 0

theorem layers_length (f : ModelFile) (n : Nat) :
    ((List.range n).flatMap fun i => f.arch.layerTensors.map (TensorName.layer i)).length =
      f.arch.numTensorsPerLayer * n := by
  rw [List.length_flatMap]
  simp [layerTensors_length, Nat.mul_comm]

theorem loadLayer_layers {f : ModelFile} {n : Nat} {l : Loader} (h : Layers f n l) :
    Layers f (n + 1) (l.loadLayer f n) := by
  have hgpu : l.gpu.length = f.layer0Position + f.arch.numTensorsPerLayer * n := by
    rw [h.gpu, List.length_append, loadHead_gpu, layers_length]
  have hfirst : ∀ i, Function.update l.layerFirstTensor n (some l.gpu.length) i =
      if i < n + 1 then some (f.layer0Position + f.arch.numTensorsPerLayer * i) else none := by
    intro i
    by_cases hin : i = n
    · subst hin
      rw [Function.update_self, if_pos (Nat.lt_succ_self i), hgpu]
    · rw [Function.update_of_ne hin, h.first i]
      by_cases hlt : i < n
      · rw [if_pos hlt, if_pos (by omega)]
      · rw [if_neg hlt, if_neg (by omega)]
  have hlist : l.gpu ++ f.arch.layerTensors.map (.layer n) = (loadHead f).gpu ++
      (List.range (n + 1)).flatMap fun i => f.arch.layerTensors.map (.layer i) := by
    rw [h.gpu, List.append_assoc, List.range_succ, List.flatMap_append, List.flatMap_singleton]
  unfold Loader.loadLayer
  simp only [foldl_createTensor, foldl_push]
  split
  · next hn =>
      subst hn
      exact ⟨hlist, h.idx, h.num, hfirst, (if_pos Nat.one_pos).symm⟩
  · next hn =>
      refine ⟨hlist, h.idx, h.num, hfirst, ?_⟩
      show l.numBytesPerLayer = _
      rw [h.bytes, if_pos (Nat.pos_of_ne_zero hn), if_pos (Nat.succ_pos n)]

theorem loadTensors_layers (f : ModelFile) : Layers f f.nLayer (loadTensors f) := by
  unfold loadTensors
  induction f.nLayer with
  | zero =>
      refine ⟨by simp, rfl, rfl, fun i => ?_, ?_⟩
      · rw [if_neg (Nat.not_lt_zero i)]
        unfold loadHead
        cases f.outputOnGpu <;> cases f.hasOutput <;>
          cases f.arch.createsRopeFreqs && f.hasRopeFreqs <;> rfl
      · rw [if_neg (Nat.lt_irrefl 0)]
        unfold loadHead
        cases f.outputOnGpu <;> cases f.hasOutput <;>
          cases f.arch.createsRopeFreqs && f.hasRopeFreqs <;> rfl
  | succ n ih =>
      rw [List.range_succ, List.foldl_append, List.foldl_cons, List.foldl_nil]
      exact loadLayer_layers ih

/-! ## The weight context -/

section

variable (f : ModelFile)

theorem weightModel_first {i : Nat} (hi : i < f.nLayer) :
    f.weightModel.layerFirstTensor i =
      some (f.layer0Position + f.arch.numTensorsPerLayer * i) :=
  ((loadTensors_layers f).first i).trans (if_pos hi)

theorem weightModel_last : f.weightModel.layerFirstTensor f.nLayer = none :=
  ((loadTensors_layers f).first f.nLayer).trans (if_neg (Nat.lt_irrefl _))

theorem weightModel_num : f.weightModel.numTensorsPerLayer = f.arch.numTensorsPerLayer :=
  (loadTensors_layers f).num

theorem weightModel_idx : f.weightModel.layer0TensorIdx = (loadHead f).layer0TensorIdx :=
  (loadTensors_layers f).idx

theorem weightModel_length :
    f.weightModel.sizes.length = f.layer0Position + f.arch.numTensorsPerLayer * f.nLayer := by
  show ((loadTensors f).gpu.map f.nbytes).length = _
  rw [List.length_map, (loadTensors_layers f).gpu, List.length_append, loadHead_gpu,
    layers_length]

theorem numTensorsPerLayer_pos (a : Arch) : 0 < a.numTensorsPerLayer := by
  cases a <;> decide

theorem dumpRange_eq {i : Nat} (hi : i < f.nLayer) :
    f.weightModel.dumpRange i =
      List.range' (f.layer0Position + f.arch.numTensorsPerLayer * i)
        f.arch.numTensorsPerLayer := by
  unfold WeightModel.dumpRange
  rw [weightModel_first f hi, weightModel_num]

/-- The reload covers what the dump has, up to the end of the context for the last layer. -/
theorem tensorRange_eq_dumpRange {i : Nat} (hi : i < f.nLayer) :
    f.weightModel.tensorRange (f.weightModel.layerFirstTensor i)
        (f.weightModel.layerFirstTensor (i + 1)) = f.weightModel.dumpRange i := by
  have hlast : (f.weightModel.layerFirstTensor (i + 1)).getD f.weightModel.sizes.length =
      f.layer0Position + f.arch.numTensorsPerLayer * (i + 1) := by
    rcases Nat.lt_or_eq_of_le (Nat.succ_le_of_lt hi) with h | h
    · rw [weightModel_first f h]
      rfl
    · rw [show i + 1 = f.nLayer from h, weightModel_last, weightModel_length]
      rfl
  rw [dumpRange_eq f hi]
  unfold WeightModel.tensorRange
  rw [weightModel_first f hi]
  show List.range' _ ((f.weightModel.layerFirstTensor (i + 1)).getD _ - _) = _
  rw [hlast]
  congr 1
  rw [Nat.mul_succ]
  omega

theorem unloadRange_eq_dumpRange_iff {i : Nat} (hi : i < f.nLayer) :
    f.weightModel.unloadRange i = f.weightModel.dumpRange i ↔
      f.hasOutput = false ∧ f.outputOnGpu = true := by
  have hP := numTensorsPerLayer_pos f.arch
  have hend : f.arch.numTensorsPerLayer * i + f.arch.numTensorsPerLayer ≤
      f.arch.numTensorsPerLayer * f.nLayer :=
    (Nat.mul_succ _ _).symm.le.trans (Nat.mul_le_mul_left _ hi)
  rw [← loadHead_idx_eq_iff, dumpRange_eq f hi]
  unfold WeightModel.unloadRange
  rw [weightModel_idx, weightModel_num, weightModel_length]
  constructor
  · intro h
    -- the dump has the first tensor of the layer, and unloading starts no earlier
    have hmem : f.layer0Position + f.arch.numTensorsPerLayer * i ∈
        List.range' (f.layer0Position + f.arch.numTensorsPerLayer * i)
          f.arch.numTensorsPerLayer := List.mem_range'_1.mpr ⟨le_rfl, by omega⟩
    rw [← h, List.mem_filter, List.mem_range'_1] at hmem
    have hle : f.layer0Position ≤ (loadHead f).layer0TensorIdx := by
      rw [loadHead_idx]
      unfold ModelFile.layer0Position
      cases f.outputOnGpu <;> simp
    omega
  · intro h
    rw [h]
    refine List.filter_eq_self.mpr fun t ht => ?_
    rw [List.mem_range'_1] at ht
    exact decide_eq_true (by omega)

theorem weightModel_start (i : Nat) :
    f.weightModel.start i =
      (loadHead f).layer0TensorIdx + f.arch.numTensorsPerLayer * i := by
  unfold WeightModel.start
  rw [weightModel_idx, weightModel_num]

theorem sum_range_getD (l : List Nat) (n : Nat) :
    ∑ i ∈ Finset.range n, l.getD i 0 = (l.take n).sum := by
  induction n generalizing l with
  | zero => rfl
  | succ n ih =>
      cases l with
      | nil => simp
      | cons a l =>
          rw [Finset.sum_range_succ']
          simp only [List.getD_cons_succ, List.getD_cons_zero, List.take_succ_cons,
            List.sum_cons, ih]
          exact Nat.add_comm _ _

/-- `num_bytes_per_layer` is the size of the tensors at the position of layer 0. -/
theorem weightModel_bytes :
    f.weightModel.numBytesPerLayer =
      f.weightModel.byteSum f.layer0Position f.arch.numTensorsPerLayer := by
  have h := loadTensors_layers f
  have hsizes : f.weightModel.sizes.drop f.layer0Position =
      ((List.range f.nLayer).flatMap fun i =>
        f.arch.layerTensors.map (TensorName.layer i)).map f.nbytes := by
    show ((loadTensors f).gpu.map f.nbytes).drop _ = _
    rw [h.gpu, List.map_append, List.drop_left']
    rw [List.length_map, loadHead_gpu]
  have hsum : f.weightModel.byteSum f.layer0Position f.arch.numTensorsPerLayer =
      ((f.weightModel.sizes.drop f.layer0Position).take f.arch.numTensorsPerLayer).sum := by
    rw [← sum_range_getD]
    refine Finset.sum_congr rfl fun k _ => ?_
    show f.weightModel.sizes.getD _ 0 = _
    simp [List.getD_eq_getElem?_getD, List.getElem?_drop]
  rw [hsum, hsizes]
  show (loadTensors f).numBytesPerLayer = _
  rw [h.bytes]
  cases hn : f.nLayer with
  | zero => simp
  | succ n =>
      rw [if_pos (Nat.succ_pos n), List.range_succ_eq_map, List.flatMap_cons, List.map_append,
        List.take_left', List.map_map]
      · rfl
      · rw [List.length_map, List.length_map, layerTensors_length]

/-- The layer globals describe the GPU context if and only if the output is tied and on the
GPU. -/
theorem weightModel_matched_iff (hpos : ∀ name, 0 < f.nbytes name) (ha : 0 < f.alignment) :
    Matched f.weightModel f.nLayer ↔ f.hasOutput = false ∧ f.outputOnGpu = true := by
  rw [← loadHead_idx_eq_iff]
  constructor
  · intro h
    have hlen := h.length
    rw [weightModel_length, weightModel_start] at hlen
    exact (Nat.add_right_cancel hlen).symm
  · intro h
    have hstart : ∀ i, f.weightModel.start i =
        f.layer0Position + f.arch.numTensorsPerLayer * i := by
      intro i
      rw [weightModel_start, h]
    have htwo : 2 ≤ f.layer0Position := by
      rw [← h, loadHead_idx]
      omega
    refine ⟨?_, fun i hi => ?_, weightModel_last f, ?_, ?_, ?_, ?_, ha⟩
    · rw [weightModel_length, hstart]
    · rw [weightModel_first f hi, hstart]
    · rw [weightModel_num]
      exact numTensorsPerLayer_pos f.arch
    · rw [weightModel_length]
      omega
    · intro s hs
      obtain ⟨name, -, rfl⟩ := List.mem_map.mp hs
      exact hpos name
    · rw [weightModel_bytes, hstart, weightModel_num]
      rfl

end

end MzCache.Weights
