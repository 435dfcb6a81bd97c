import MzCache.Weights.Architecture

/-!
# The tensors of a layer

`unload_buffers` finds the tensors of a layer by counting from `layer_0_tensor_idx`, the
dump and the reload by starting at `layer_first_tensor`. The two agree if and only if the
model has no output tensor of its own and the output is on the GPU: then the bookkeeping
entry of the token embedding, which is in the CPU context, stands for the copy of it in the
GPU context. With a separate output, or an output on the CPU, unloading a layer frees
tensors of the next one.
-/

namespace MzCache.Theorems

open MzCache.Weights

/-- What is dumped is what is reloaded, and it is what is unloaded exactly for a tied output on
the GPU, whatever the layer; and that is when the layer globals describe the context. -/
theorem tensor_sets_agree_iff (f : ModelFile) (hpos : ∀ name, 0 < f.nbytes name)
    (ha : 0 < f.alignment) :
    (∀ i < f.nLayer,
      f.weightModel.tensorRange (f.weightModel.layerFirstTensor i)
          (f.weightModel.layerFirstTensor (i + 1)) = f.weightModel.dumpRange i ∧
        (f.weightModel.unloadRange i = f.weightModel.dumpRange i ↔
          f.hasOutput = false ∧ f.outputOnGpu = true)) ∧
      (Matched f.weightModel f.nLayer ↔ f.hasOutput = false ∧ f.outputOnGpu = true) :=
  ⟨fun _ hi => ⟨tensorRange_eq_dumpRange f hi, unloadRange_eq_dumpRange_iff f hi⟩,
    weightModel_matched_iff f hpos ha⟩

/-- A llama file with two layers, tensors of one kilobyte, and an output tensor of its own. -/
def untiedLlama : ModelFile where
  arch := .llama
  nLayer := 2
  hasOutput := true
  hasRopeFreqs := false
  outputOnGpu := true
  nbytes := fun _ => 1024
  alignment := 128

theorem untiedLlama_pos : ∀ name, 0 < untiedLlama.nbytes name := fun _ => Nat.succ_pos 1023

/-- Unloading layer 0 of it leaves the layer's first tensor and frees the first one of layer 1. -/
theorem tensor_sets_agree_untied :
    ¬ Matched untiedLlama.weightModel 2 ∧
      untiedLlama.weightModel.dumpRange 0 = [2, 3, 4, 5, 6, 7, 8, 9, 10] ∧
      untiedLlama.weightModel.unloadRange 0 = [3, 4, 5, 6, 7, 8, 9, 10, 11] :=
  ⟨fun h => absurd
      ((tensor_sets_agree_iff untiedLlama untiedLlama_pos (by decide)).2.mp h).1 (by decide),
    by decide, by decide⟩

end MzCache.Theorems
