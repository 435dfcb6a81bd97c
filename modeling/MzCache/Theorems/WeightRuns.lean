import MzCache.Weights.Architecture

/-!
# The multi-buffer over runs of unloads and reloads

A layer starts as one child for each tensor and comes back as one child for all of them, in
whatever slots other layers left empty. Through any such run the count of children is
right, every tensor that should have memory has it in exactly one child, unloading succeeds
and a reload finds a slot.
-/

namespace MzCache.Theorems

open MzCache.Lib MzCache.Weights

/-- In every state of every run of unloads, allocations and reads: `cur_n_buffers` is the number
of children that are not null; a tensor outside evicted layers has memory in exactly one child,
and a tensor of an evicted layer has none; unloading any layer succeeds; and allocating an evicted
layer never lacks a slot. -/
theorem unload_reload_keeps_children {m : WeightModel} {nLayer : Nat} (hm : Matched m nLayer)
    (bases : Set Nat) (contents : Nat → Bytes) (files : Nat → List UInt8) :
    (weightRuns m nLayer bases contents files).Invariant fun s =>
      s.weights.multi.curNBuffers = (s.weights.multi.buffers.filter Option.isSome).length ∧
      (∀ t < m.sizes.length, ¬ s.Gone m nLayer t →
        ∃ b off, (s.weights.tensors t).buffer = some b ∧ (s.weights.tensors t).data = some off ∧
          s.weights.multi.buffers.count (some b) = 1) ∧
      (∀ t, s.Gone m nLayer t → s.weights.tensors t = ⟨none, none, true⟩) ∧
      (∀ i < nLayer, (unloadBuffers m s.weights i).1 = true) ∧
      ∀ i < nLayer, s.phase i = .evicted → ∀ b base w,
        allocWeightLayer m s.weights i b base ≠ some (false, w) := by
  intro s hs
  have howned := owned_of_run hm bases contents files s hs
  refine ⟨?_, howned.held, howned.gone, fun i hi => ?_, fun i hi hp b base w h => ?_⟩
  · have hsplit : (s.weights.multi.buffers.filter Option.isSome).length +
        s.weights.multi.buffers.count none = s.weights.multi.buffers.length := by
      rw [List.length_eq_length_filter_add (l := s.weights.multi.buffers) Option.isSome,
        List.count_eq_length_filter]
      congr 2
      refine List.filter_congr fun o _ => ?_
      cases o <;> rfl
    have := howned.count
    rw [howned.length] at hsplit
    omega
  · obtain ⟨multi, hrun, -⟩ := howned.unload hm hi
    rw [hrun]
  · rw [howned.alloc_eq hm hi hp] at h
    split at h
    · exact absurd (Prod.mk.inj (Option.some.inj h)).1 (by decide)
    · exact nomatch h

/-- A qwen3 file with three layers and a tied output. -/
def tiedQwen : ModelFile where
  arch := .qwen3
  nLayer := 3
  hasOutput := false
  hasRopeFreqs := false
  outputOnGpu := true
  nbytes := fun _ => 1024
  alignment := 128

theorem tiedQwen_matched : Matched tiedQwen.weightModel 3 :=
  (weightModel_matched_iff tiedQwen (fun _ => Nat.succ_pos 1023) (by decide)).mpr ⟨rfl, rfl⟩

theorem unload_reload_keeps_tiedQwen :
    Matched tiedQwen.weightModel 3 ∧
      (weightRuns tiedQwen.weightModel 3 Set.univ (fun _ _ => 0) fun _ => []).Invariant fun s =>
        s.weights.multi.curNBuffers = (s.weights.multi.buffers.filter Option.isSome).length :=
  ⟨tiedQwen_matched, fun s hs =>
    (unload_reload_keeps_children tiedQwen_matched Set.univ (fun _ _ => 0) (fun _ => []) s hs).1⟩

end MzCache.Theorems
