import Mathlib

/-!
# An index kept as a set

Holders hold sets of entries, and beside them stands an index that ought to be their
union. A loop visits holders one at a time: what a holder gives up is erased from the
index, what it takes is inserted. Since the index is a set and does not count, an entry
that two holders share is gone after one of them gives it up. The rule below says when a
whole loop leaves the index exact.
-/

namespace MzCache.Lib

structure SetIndex (ι κ : Type*) where
  held : ι → Set κ
  index : Set κ

namespace SetIndex

variable {ι κ : Type*}

/-- The index is the union of what is held. -/
def Exact (x : SetIndex ι κ) : Prop := ∀ e, e ∈ x.index ↔ ∃ i, e ∈ x.held i

section

variable [DecidableEq ι]

/-- Holder `i` gives up `erase i` and takes `insert i`. -/
def touch (erase insert : ι → Set κ) (x : SetIndex ι κ) (i : ι) : SetIndex ι κ where
  held := Function.update x.held i ((x.held i \ erase i) ∪ insert i)
  index := (x.index \ erase i) ∪ insert i

/-- What `j` holds once all of `is` have been visited. -/
def heldAfter (erase insert : ι → Set κ) (x : SetIndex ι κ) (is : List ι) (j : ι) : Set κ :=
  if j ∈ is then (x.held j \ erase j) ∪ insert j else x.held j

variable {erase insert : ι → Set κ} {x : SetIndex ι κ}

theorem foldl_touch_held {is : List ι} (hnodup : is.Nodup) :
    (is.foldl (touch erase insert) x).held = heldAfter erase insert x is := by
  induction is using List.reverseRecOn with
  | nil =>
      funext j
      exact (if_neg List.not_mem_nil).symm
  | append_singleton is i ih =>
      obtain ⟨hpre, -, hne⟩ := List.nodup_append.mp hnodup
      have hi : i ∉ is := fun hmem => hne i hmem i (List.mem_singleton_self i) rfl
      rw [List.foldl_append, List.foldl_cons, List.foldl_nil]
      funext j
      show Function.update _ i _ j = _
      rw [ih hpre]
      by_cases hj : j = i
      · rw [hj, Function.update_self]
        unfold heldAfter
        rw [if_neg hi, if_pos (List.mem_append_right _ (List.mem_singleton_self i))]
      · rw [Function.update_of_ne hj]
        unfold heldAfter
        simp only [List.mem_append, List.mem_singleton, hj, or_false]

/-- An entry is in the index if the last visit that touched it inserted it, or if it was there
and no visit touched it. -/
theorem mem_foldl_touch {is : List ι} {e : κ} :
    e ∈ (is.foldl (touch erase insert) x).index ↔
      (∃ pre k post, is = pre ++ k :: post ∧ e ∈ insert k ∧ ∀ m ∈ post, e ∉ erase m) ∨
      (e ∈ x.index ∧ ∀ m ∈ is, e ∉ erase m) := by
  induction is using List.reverseRecOn with
  | nil =>
      constructor
      · exact fun h => Or.inr ⟨h, fun m hm => (List.not_mem_nil hm).elim⟩
      · rintro (⟨pre, k, post, h, -⟩ | ⟨h, -⟩)
        · simp at h
        · exact h
  | append_singleton is i ih =>
      rw [List.foldl_append, List.foldl_cons, List.foldl_nil]
      show (e ∈ (is.foldl (touch erase insert) x).index ∧ e ∉ erase i) ∨ e ∈ insert i ↔ _
      rw [ih]
      constructor
      · rintro (⟨⟨pre, k, post, rfl, hk, hpost⟩ | ⟨hx, hpost⟩, hi⟩ | hi)
        · refine Or.inl ⟨pre, k, post ++ [i], by simp, hk, fun m hm => ?_⟩
          rcases List.mem_append.mp hm with hm | hm
          · exact hpost m hm
          · exact List.mem_singleton.mp hm ▸ hi
        · refine Or.inr ⟨hx, fun m hm => ?_⟩
          rcases List.mem_append.mp hm with hm | hm
          · exact hpost m hm
          · exact List.mem_singleton.mp hm ▸ hi
        · exact Or.inl ⟨is, i, [], rfl, hi, fun m hm => (List.not_mem_nil hm).elim⟩
      · rintro (⟨pre, k, post, heq, hk, hpost⟩ | ⟨hx, hall⟩)
        · -- the inserting visit is the last one or an earlier one
          rcases List.eq_nil_or_concat post with rfl | ⟨post', last, rfl⟩
          · obtain ⟨-, hlast⟩ := List.append_inj' heq rfl
            cases hlast
            exact Or.inr hk
          · have hsplit : is ++ [i] = (pre ++ k :: post') ++ [last] := by
              rw [heq]
              simp
            obtain ⟨hpre, hlast⟩ := List.append_inj' hsplit rfl
            cases hlast
            refine Or.inl ⟨Or.inl ⟨pre, k, post', hpre, hk, fun m hm => ?_⟩, ?_⟩
            · exact hpost m (by simp [hm])
            · exact hpost i (by simp)
        · refine Or.inl ⟨Or.inr ⟨hx, fun m hm => hall m (List.mem_append_left _ hm)⟩, ?_⟩
          exact hall i (List.mem_append_right _ (List.mem_singleton_self i))

end

variable [LinearOrder ι] {erase insert : ι → Set κ} {x : SetIndex ι κ} {is : List ι}

/-- A loop in order leaves an exact index exact if and only if no visit erases an entry that is
held in the end, unless that visit or a later one inserts it again. -/
theorem exact_foldl_touch_iff (hx : x.Exact) (hsorted : is.Pairwise (· < ·)) :
    (is.foldl (touch erase insert) x).Exact ↔
      ∀ i ∈ is, ∀ e ∈ erase i, (∃ j, e ∈ heldAfter erase insert x is j) →
        ∃ k ∈ is, i ≤ k ∧ e ∈ insert k := by
  have hnodup : is.Nodup := hsorted.imp fun h => ne_of_lt h
  constructor
  · intro hexact i hi e he hj
    rw [← foldl_touch_held hnodup] at hj
    rcases mem_foldl_touch.mp ((hexact e).mpr hj) with ⟨pre, k, post, rfl, hk, hpost⟩ | ⟨-, hall⟩
    · refine ⟨k, by simp, ?_, hk⟩
      rcases List.mem_append.mp hi with hpre | hi
      · exact le_of_lt ((List.pairwise_append.mp hsorted).2.2 i hpre k (by simp))
      · rcases List.mem_cons.mp hi with rfl | hpost'
        · exact le_rfl
        · exact absurd he (hpost i hpost')
    · exact absurd he (hall i hi)
  · intro hsafe e
    rw [foldl_touch_held hnodup]
    constructor
    · intro he
      rcases mem_foldl_touch.mp he with ⟨pre, k, post, rfl, hk, -⟩ | ⟨he, hall⟩
      · refine ⟨k, ?_⟩
        unfold heldAfter
        rw [if_pos (by simp)]
        exact Or.inr hk
      · obtain ⟨j, hj⟩ := (hx e).mp he
        refine ⟨j, ?_⟩
        unfold heldAfter
        split
        · rename_i hmem
          exact Or.inl ⟨hj, hall j hmem⟩
        · exact hj
    · rintro ⟨j, hj⟩
      rw [mem_foldl_touch]
      by_cases hins : ∃ k ∈ is, e ∈ insert k
      · -- the last visit that inserts it is not followed by one that erases it
        left
        obtain ⟨k, hk, hlast⟩ : ∃ k ∈ is, e ∈ insert k ∧ ∀ m ∈ is, e ∈ insert m → m ≤ k := by
          classical
          obtain ⟨k, hk, hmax⟩ := (is.toFinset.filter fun k => e ∈ insert k).exists_max_image id
            (by
              obtain ⟨k, hk, hek⟩ := hins
              exact ⟨k, by simp [hk, hek]⟩)
          simp only [Finset.mem_filter, List.mem_toFinset, id, and_imp] at hk hmax
          exact ⟨k, hk.1, hk.2, hmax⟩
        obtain ⟨pre, post, rfl⟩ := List.append_of_mem hk
        refine ⟨pre, k, post, rfl, hlast.1, fun m hm hem => ?_⟩
        have hlt : k < m := (List.pairwise_cons.mp (List.pairwise_append.mp hsorted).2.1).1 m hm
        obtain ⟨k', hk', hle, hek'⟩ := hsafe m (by simp [hm]) e hem ⟨j, hj⟩
        exact absurd (hlast.2 k' hk' hek') (not_le.mpr (lt_of_lt_of_le hlt hle))
      · right
        have hheld : e ∈ x.held j := by
          unfold heldAfter at hj
          split at hj
          · rename_i hmem
            rcases hj with hj | hj
            · exact hj.1
            · exact absurd ⟨j, hmem, hj⟩ hins
          · exact hj
        refine ⟨(hx e).mpr ⟨j, hheld⟩, fun m hm hem => ?_⟩
        obtain ⟨k, hk, -, hek⟩ := hsafe m hm e hem ⟨j, hj⟩
        exact hins ⟨k, hk, hek⟩

end SetIndex

end MzCache.Lib
