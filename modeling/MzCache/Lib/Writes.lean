import Mathlib.Data.List.Nodup
import Mathlib.Logic.Function.Basic

/-!
# Writes to a memory

A memory is a function of addresses, and a list of writes changes it one address at a time. The
last write to an address stands, so every written value stands when no address is written twice.
-/

namespace MzCache.Lib

variable {α β : Type*} [DecidableEq α]

/-- The memory after the writes, in order. -/
def writeAll (ws : List (α × β)) (m : α → β) : α → β :=
  ws.foldl (fun m w => Function.update m w.1 w.2) m

@[simp] theorem writeAll_nil (m : α → β) : writeAll [] m = m := rfl

theorem writeAll_cons (w : α × β) (ws : List (α × β)) (m : α → β) :
    writeAll (w :: ws) m = writeAll ws (Function.update m w.1 w.2) := rfl

theorem writeAll_append (ws ws' : List (α × β)) (m : α → β) :
    writeAll (ws ++ ws') m = writeAll ws' (writeAll ws m) := List.foldl_append

/-- An address that is not written keeps its value. -/
theorem writeAll_other {a : α} {ws : List (α × β)} (h : a ∉ ws.map Prod.fst) (m : α → β) :
    writeAll ws m a = m a := by
  induction ws generalizing m with
  | nil => rfl
  | cons w ws ih =>
      rw [List.map_cons, List.mem_cons, not_or] at h
      rw [writeAll_cons, ih h.2, Function.update_of_ne h.1]

/-- An address to which every write writes `b` holds `b`. -/
theorem writeAll_agree {a : α} {b : β} {ws : List (α × β)} (hall : ∀ w ∈ ws, w.1 = a → w.2 = b)
    (hmem : ∃ w ∈ ws, w.1 = a) (m : α → β) : writeAll ws m a = b := by
  induction ws generalizing m with
  | nil =>
      obtain ⟨w, hw, -⟩ := hmem
      exact absurd hw List.not_mem_nil
  | cons w ws ih =>
      have hrest : ∀ w' ∈ ws, w'.1 = a → w'.2 = b :=
        fun w' hw' => hall w' (List.mem_cons_of_mem w hw')
      rw [writeAll_cons]
      by_cases hlater : ∃ w' ∈ ws, w'.1 = a
      · exact ih hrest hlater _
      · obtain ⟨w', hw', hwa⟩ := hmem
        rcases List.mem_cons.mp hw' with rfl | hw'
        · rw [writeAll_other, hwa, Function.update_self]
          · exact hall w' List.mem_cons_self hwa
          · rintro hmem
            obtain ⟨v, hv, hva⟩ := List.mem_map.mp hmem
            exact hlater ⟨v, hv, hva⟩
        · exact absurd ⟨w', hw', hwa⟩ hlater

/-- An address that is written once holds what was written. -/
theorem writeAll_mem {w : α × β} {ws : List (α × β)} (hnodup : (ws.map Prod.fst).Nodup)
    (hmem : w ∈ ws) (m : α → β) : writeAll ws m w.1 = w.2 := by
  induction ws generalizing m with
  | nil => exact (List.not_mem_nil hmem).elim
  | cons w' ws ih =>
      obtain ⟨hnot, hrest⟩ := List.nodup_cons.mp hnodup
      rw [writeAll_cons]
      rcases List.mem_cons.mp hmem with rfl | hmem
      · rw [writeAll_other hnot, Function.update_self]
      · exact ih hrest hmem _

/-- Distinct addresses hold the values that were written to them. -/
theorem map_writeAll_zip {as : List α} {bs : List β} (hlen : as.length = bs.length)
    (hnodup : as.Nodup) (m : α → β) : as.map (writeAll (as.zip bs) m) = bs := by
  apply List.ext_getElem (by rw [List.length_map, hlen])
  intro i hi hi'
  rw [List.getElem_map]
  have hzip : i < (as.zip bs).length := by
    rw [List.length_zip]
    omega
  have hmem : ((as.zip bs)[i]) ∈ as.zip bs := List.getElem_mem hzip
  have hfst : ((as.zip bs).map Prod.fst).Nodup := by
    rw [List.map_fst_zip (Nat.le_of_eq hlen)]
    exact hnodup
  have h := writeAll_mem hfst hmem m
  rwa [List.getElem_zip] at h

theorem getElem_of_map_eq {γ σ : Type*} {f : α → γ} {g : σ → γ} {xs : List α} {ys : List σ}
    (h : xs.map f = ys.map g) (i : Nat) (hi : i < xs.length) (hi' : i < ys.length) :
    f xs[i] = g ys[i] := by
  have hget := congrArg (fun l => l[i]?) h
  simpa [hi, hi'] using hget

/-- Addresses that can hold what distinct sources hold, whatever that is, are distinct. -/
theorem nodup_of_map_eq {σ : Type*} [DecidableEq σ] {as : List α} {src : List σ} {b b' : β}
    (hne : b ≠ b') (hsrc : src.Nodup) (hall : ∀ f : σ → β, ∃ m : α → β, as.map m = src.map f) :
    as.Nodup := by
  obtain ⟨m, hm⟩ := hall fun _ => b
  have hlen := congrArg List.length hm
  rw [List.length_map, List.length_map] at hlen
  rw [List.nodup_iff_injective_getElem]
  rintro ⟨i, hi⟩ ⟨j, hj⟩ hij
  by_contra hdiff
  have hdiff' : j ≠ i := fun h => hdiff (Fin.ext h.symm)
  have hi' : i < src.length := by omega
  have hj' : j < src.length := by omega
  -- the source that holds `b` at `i` alone
  obtain ⟨m, hm⟩ := hall fun q => if q = src[i] then b else b'
  have hmi := getElem_of_map_eq hm i hi hi'
  have hmj := getElem_of_map_eq hm j hj hj'
  rw [if_pos rfl] at hmi
  rw [if_neg fun h => hdiff' ((List.Nodup.getElem_inj_iff hsrc).mp h)] at hmj
  dsimp only at hij
  rw [hij, hmj] at hmi
  exact hne hmi.symm

end MzCache.Lib
