import MzCache.Weights.Architecture

/-!
# Weights survive unloading

The dump writes the tensors of a layer back to back and pads the end, the reload pads every
tensor, and the size of every layer is taken from layer 0. Weights come back unchanged in
every run if and only if these agree for each layer: the alignment divides the size of every
tensor but the last, the padded tensors fit in a padded layer 0, and the dump is as long as
a padded layer 0.
-/

namespace MzCache.Theorems

open MzCache.Lib MzCache.Weights

/-- Whatever the weights are, every run of unloads and reloads from their dumps keeps the bytes
of resident tensors and never gets stuck, if and only if each layer's dump layout is its reload
layout. -/
theorem weights_survive_iff {m : WeightModel} {nLayer : Nat} (hm : Matched m nLayer) :
    (∀ contents files, Dumped m nLayer contents files →
      (weightRuns m nLayer (alignedBases m) contents files).Invariant
        (Intact m nLayer (alignedBases m) contents files)) ↔
      ∀ i < nLayer, LayerLayout m i :=
  ⟨fun h _ hi => layout_of_intact hm h hi, fun h _ _ hdump => intact_of_layout hm hdump h⟩

/-- A gemma3 file with a tied output whose key norms have 96 bytes, three quarters of the
alignment. -/
def gemmaOddNorms : ModelFile where
  arch := .gemma3
  nLayer := 2
  hasOutput := false
  hasRopeFreqs := false
  outputOnGpu := true
  nbytes
    | .layer _ .attnKNorm => 96
    | _ => 1024
  alignment := 128

theorem gemmaOddNorms_pos (name : TensorName) : 0 < gemmaOddNorms.nbytes name := by
  unfold gemmaOddNorms
  dsimp only
  split <;> decide

theorem gemmaOddNorms_matched : Matched gemmaOddNorms.weightModel 2 :=
  (weightModel_matched_iff gemmaOddNorms gemmaOddNorms_pos (by decide)).mpr ⟨rfl, rfl⟩

/-- The alignment does not divide a key norm, and some weights do not survive some run. -/
theorem weights_survive_gemmaOddNorms :
    ¬ gemmaOddNorms.alignment ∣ gemmaOddNorms.nbytes (.layer 0 .attnKNorm) ∧
    ¬ ∀ contents files, Dumped gemmaOddNorms.weightModel 2 contents files →
      (weightRuns gemmaOddNorms.weightModel 2 (alignedBases gemmaOddNorms.weightModel)
        contents files).Invariant (Intact gemmaOddNorms.weightModel 2
          (alignedBases gemmaOddNorms.weightModel) contents files) :=
  ⟨by decide, fun h =>
    absurd (((weights_survive_iff gemmaOddNorms_matched).mp h 0 (by decide)).aligned 6 (by decide))
      (by decide)⟩

end MzCache.Theorems
