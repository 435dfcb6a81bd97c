import Mathlib

/-!
# Tables of slots

A table has a fixed number of slots, each empty or holding a value. `release` empties the
first slot that holds a value, `fill` puts values into the empty slots in order. What the
table holds is described by counting: the slots of a value and the empty slots. When the
values have owners, an owner that lost its value vouches for an empty slot.
-/

namespace MzCache.Lib.SlotTable

variable {α : Type*} [DecidableEq α]

/-- The table with the first slot that holds `a` emptied; `none` when no slot does. -/
def release : List (Option α) → α → Option (List (Option α))
  | [], _ => none
  | o :: s, a => if o = some a then some (none :: s) else (release s a).map (o :: ·)

/-- The table with `as` put into its empty slots, in order. -/
def fill : List (Option α) → List α → List (Option α)
  | s, [] => s
  | [], _ :: _ => []
  | none :: s, a :: as => some a :: fill s as
  | some b :: s, a :: as => some b :: fill s (a :: as)

/-- Every value of `as` released in turn; `none` when one of them is not in the table. -/
def releaseAll (s : List (Option α)) : List α → Option (List (Option α))
  | [] => some s
  | a :: as => (release s a).bind (releaseAll · as)

variable {s s' : List (Option α)} {a b : α} {as : List α}

theorem release_of_mem (h : some a ∈ s) : ∃ s', release s a = some s' := by
  induction s with
  | nil => exact (List.not_mem_nil h).elim
  | cons o s ih =>
      by_cases ho : o = some a
      · exact ⟨_, if_pos ho⟩
      · obtain ⟨s', hs'⟩ := ih ((List.mem_cons.mp h).resolve_left (Ne.symm ho))
        exact ⟨o :: s', by simp [release, ho, hs']⟩

/-- A release takes one slot from its value and gives it to the empty ones. -/
theorem release_spec (h : release s a = some s') :
    s'.length = s.length ∧ s'.count none = s.count none + 1 ∧
      ∀ b, s'.count (some b) + (if b = a then 1 else 0) = s.count (some b) := by
  induction s generalizing s' with
  | nil => exact nomatch h
  | cons o s ih =>
      unfold release at h
      by_cases ho : o = some a
      · rw [if_pos ho] at h
        obtain rfl := Option.some.inj h
        subst ho
        refine ⟨rfl, ?_, fun b => ?_⟩
        · simp
        · simp only [List.count_cons, beq_iff_eq, reduceCtorEq, if_false, Option.some.injEq]
          simp only [eq_comm (a := a), Nat.add_zero]
      · rw [if_neg ho] at h
        obtain ⟨t, ht, rfl⟩ := Option.map_eq_some_iff.mp h
        obtain ⟨hlen, hfree, hcount⟩ := ih ht
        refine ⟨by simp [hlen], ?_, fun b => ?_⟩
        · simp only [List.count_cons, hfree]
          omega
        · have := hcount b
          simp only [List.count_cons]
          omega

theorem releaseAll_spec (hnodup : as.Nodup) (hin : ∀ a ∈ as, s.count (some a) = 1) :
    ∃ s', releaseAll s as = some s' ∧ s'.length = s.length ∧
      s'.count none = s.count none + as.length ∧
      ∀ b, s'.count (some b) = if b ∈ as then 0 else s.count (some b) := by
  induction as generalizing s with
  | nil => exact ⟨s, rfl, rfl, rfl, fun b => by simp⟩
  | cons a as ih =>
      obtain ⟨ha, hnodup⟩ := List.nodup_cons.mp hnodup
      have hmem : some a ∈ s :=
        List.count_pos_iff.mp (by rw [hin a List.mem_cons_self]; exact Nat.one_pos)
      obtain ⟨t, ht⟩ := release_of_mem hmem
      obtain ⟨hlen, hfree, hcount⟩ := release_spec ht
      have hne : ∀ b ∈ as, b ≠ a := fun b hb hba => ha (hba ▸ hb)
      have hin' : ∀ b ∈ as, t.count (some b) = 1 := by
        intro b hb
        have := hcount b
        rw [if_neg (hne b hb), hin b (List.mem_cons_of_mem a hb)] at this
        exact this
      obtain ⟨s', hs', hlen', hfree', hcount'⟩ := ih hnodup hin'
      refine ⟨s', by simp [releaseAll, ht, hs'], hlen'.trans hlen, ?_, fun b => ?_⟩
      · rw [hfree', hfree, List.length_cons]
        omega
      · rw [hcount' b]
        have hb := hcount b
        by_cases hba : b = a
        · subst hba
          rw [if_pos rfl, hin b List.mem_cons_self] at hb
          rw [if_neg ha, if_pos List.mem_cons_self]
          omega
        · rw [if_neg hba, Nat.add_zero] at hb
          rw [hb]
          simp [hba]

/-- Filling takes the empty slots it needs and adds one slot to each value it is given. -/
theorem fill_spec (h : as.length ≤ s.count none) :
    (fill s as).length = s.length ∧ (fill s as).count none + as.length = s.count none ∧
      ∀ b, (fill s as).count (some b) = s.count (some b) + as.count b := by
  fun_induction fill s as with
  | case1 s => simp
  | case2 a as => simp at h
  | case3 s a as ih =>
      simp only [List.length_cons, List.count_cons_self] at h
      obtain ⟨hlen, hfree, hcount⟩ := ih (by omega)
      refine ⟨by simp [hlen], ?_, fun b => ?_⟩
      · simp only [List.count_cons, beq_iff_eq, reduceCtorEq, if_false, List.length_cons, if_true]
        omega
      · have := hcount b
        simp only [List.count_cons, beq_iff_eq, reduceCtorEq, if_false, Option.some.injEq]
        omega
  | case4 c s a as ih =>
      have h' : (a :: as).length ≤ s.count none := by simpa [List.count_cons] using h
      obtain ⟨hlen, hfree, hcount⟩ := ih h'
      refine ⟨by simp [hlen], ?_, fun b => ?_⟩
      · simp only [List.count_cons, beq_iff_eq, reduceCtorEq, if_false, Nat.add_zero]
        exact hfree
      · have := hcount b
        simp only [List.count_cons] at this ⊢
        omega

/-- Values with at most one slot each, all of them owned: an owner without a value leaves a slot
empty. -/
theorem free_slot {n : ℕ} {owner : ℕ → Option α} (hlen : n ≤ s.length)
    (hone : ∀ a, s.count (some a) ≤ 1) (howned : ∀ a, some a ∈ s → ∃ i < n, owner i = some a)
    (hnone : ∃ i < n, owner i = none) : 0 < s.count none := by
  by_contra hfull
  have hfree : s.count none = 0 := Nat.eq_zero_of_not_pos hfull
  have hnodup : s.Nodup := by
    refine List.nodup_iff_count_le_one.mpr fun o => ?_
    cases o with
    | none => omega
    | some a => exact hone a
  have hsub : insert none s.toFinset ⊆ (Finset.range n).image owner := by
    intro o ho
    rw [Finset.mem_image]
    rcases Finset.mem_insert.mp ho with rfl | ho
    · obtain ⟨i, hi, h⟩ := hnone
      exact ⟨i, Finset.mem_range.mpr hi, h⟩
    · cases o with
      | none => exact absurd (List.mem_toFinset.mp ho) (List.count_eq_zero.mp hfree)
      | some a =>
          obtain ⟨i, hi, h⟩ := howned a (List.mem_toFinset.mp ho)
          exact ⟨i, Finset.mem_range.mpr hi, h⟩
  have hcard := Finset.card_le_card hsub
  have himage : ((Finset.range n).image owner).card ≤ n :=
    Finset.card_image_le.trans (Finset.card_range n).le
  rw [Finset.card_insert_of_notMem, List.toFinset_card_of_nodup hnodup] at hcard
  · omega
  · exact fun h => List.count_eq_zero.mp hfree (List.mem_toFinset.mp h)

end MzCache.Lib.SlotTable
