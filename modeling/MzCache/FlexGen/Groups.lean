import MzCache.FlexGen.Kernel

/-!
# What the quantizer does to a group

The reduction finds the minimum and the maximum, the blocks of a group are one store each way,
and the groups of all tasks are the groups of the chunk, each once.
-/

namespace MzCache.FlexGen

open MzCache.Lib MzCache.Lib.Lanes

/-! ## The reduction -/

/-- The lanes after the eight vectors were folded. -/
theorem foldLanes_iff {𝕜 : Type*} {op : 𝕜 → 𝕜 → 𝕜} {P : 𝕜 → Prop}
    (hop : ∀ a b, P (op a b) ↔ P a ∧ P b) (src : Nat → 𝕜) (i n : Nat) :
    P ((List.range' 1 n).foldl (fun v k i => op (v i) (load src (8 * k) i)) (load src 0) i) ↔
      ∀ k ≤ n, P (src (8 * k + i)) := by
  induction n with
  | zero => simp [load]
  | succ n ih =>
      rw [List.range'_1_concat, List.foldl_append, List.foldl_cons, List.foldl_nil, hop, ih]
      constructor
      · rintro ⟨hlt, hlast⟩ k hk
        rcases Nat.lt_or_ge k (n + 1) with h | h
        · exact hlt k (by omega)
        · obtain rfl : k = 1 + n := by omega
          exact hlast
      · intro h
        exact ⟨fun k hk => h k (by omega), h (1 + n) (by omega)⟩

/-- A property that an operation passes on exactly when both operands have it holds of the
reduction when it holds of the 64 values. -/
theorem groupReduce_iff {𝕜 : Type*} {op : 𝕜 → 𝕜 → 𝕜} {P : 𝕜 → Prop}
    (hop : ∀ a b, P (op a b) ↔ P a ∧ P b) (src : Nat → 𝕜) :
    P (groupReduce op src) ↔ ∀ i < groupSz, P (src i) := by
  have hlanes : P (groupReduce op src) ↔ ∀ i < 8,
      P ((List.range' 1 7).foldl (fun v k i => op (v i) (load src (8 * k) i)) (load src 0) i) := by
    unfold groupReduce pairwise combine high
    simp only [Nat.forall_lt_succ_right]
    simp [hop, and_assoc]
  rw [hlanes]
  simp only [foldLanes_iff hop]
  constructor
  · intro h i hi
    have := h (i % 8) (Nat.mod_lt i (by omega)) (i / 8) (by unfold groupSz at hi; omega)
    rwa [Nat.div_add_mod] at this
  · intro h i hi k hk
    exact h _ (by unfold groupSz; omega)

section

variable {𝕜 : Type*} [LinearOrder 𝕜]

/-- The values of a group. -/
def groupValues (input : Nat → 𝕜) (g : Nat) : Set 𝕜 := {x | ∃ i < groupSz, x = input (g * groupSz + i)}

theorem groupReduce_min (input : Nat → 𝕜) (g : Nat) :
    IsLeast (groupValues input g) (groupReduce min (load input (g * groupSz))) := by
  constructor
  · by_contra hnone
    refine lt_irrefl (groupReduce min (load input (g * groupSz))) ?_
    apply (groupReduce_iff (fun a b => lt_min_iff) _).mpr
    intro i hi
    refine lt_of_le_of_ne ?_ (fun heq => hnone ⟨i, hi, heq⟩)
    exact (groupReduce_iff (fun a b => le_min_iff) _).mp le_rfl i hi
  · rintro x ⟨i, hi, rfl⟩
    exact (groupReduce_iff (fun a b => le_min_iff) _).mp le_rfl i hi

theorem groupReduce_max (input : Nat → 𝕜) (g : Nat) :
    IsGreatest (groupValues input g) (groupReduce max (load input (g * groupSz))) := by
  have hle : ∀ i < groupSz, input (g * groupSz + i) ≤
      groupReduce max (load input (g * groupSz)) :=
    (groupReduce_iff (P := fun x : 𝕜 => x ≤ groupReduce max (load input (g * groupSz)))
      (fun _ _ => max_le_iff) (load input (g * groupSz))).mp le_rfl
  constructor
  · by_contra hnone
    refine lt_irrefl (groupReduce max (load input (g * groupSz))) ?_
    apply (groupReduce_iff (P := fun x : 𝕜 => x < groupReduce max (load input (g * groupSz)))
      (fun _ _ => max_lt_iff) (load input (g * groupSz))).mpr
    intro i hi
    exact lt_of_le_of_ne (hle i hi) (fun heq => hnone ⟨i, hi, heq.symm⟩)
  · rintro x ⟨i, hi, rfl⟩
    exact hle i hi

end

/-! ## The ranges of the workers -/

/-- The ranges of the first tasks are the first groups. -/
theorem workerRanges_flatMap (n per threads : Nat) :
    (((List.range threads).filterMap fun t =>
      if t * per < min (t * per + per) n then some (t * per, min (t * per + per) n) else none).flatMap
        fun r => List.range' r.1 (r.2 - r.1)) = List.range (min (threads * per) n) := by
  induction threads with
  | zero => simp
  | succ t ih =>
      rw [List.range_succ, List.filterMap_append, List.flatMap_append, ih, Nat.succ_mul]
      by_cases hrun : t * per < min (t * per + per) n
      · rw [show min (t * per) n = t * per by omega]
        simp only [List.filterMap_cons, if_pos hrun, List.filterMap_nil, List.flatMap_cons,
          List.flatMap_nil, List.append_nil]
        rw [List.range_eq_range', List.range_eq_range',
          show min (t * per + per) n = t * per + (min (t * per + per) n - t * per) by omega,
          ← List.range'_append_1, Nat.zero_add, Nat.add_sub_cancel_left]
      · simp only [List.filterMap_cons, if_neg hrun, List.filterMap_nil, List.flatMap_nil,
          List.append_nil]
        congr 1
        omega

/-- Together the tasks have the groups of the chunk, each once and in order. -/
theorem workerGroups_eq (n : Nat) {threads : Nat} (hthreads : 0 < threads) :
    workerGroups n threads = List.range n := by
  unfold workerGroups workerRanges
  rw [workerRanges_flatMap]
  congr 1
  refine Nat.min_eq_right ?_
  have hdiv := Nat.div_add_mod (n + threads - 1) threads
  have hmod := Nat.mod_lt (n + threads - 1) hthreads
  omega

end MzCache.FlexGen
