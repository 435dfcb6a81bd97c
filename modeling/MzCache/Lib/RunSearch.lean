import Mathlib.Data.List.Range

/-!
# Searching a run of usable places

`size` places, of which `use` says which can be used, and a search for `n` of them in a
row. The search begins anywhere, goes up, continues once at the bottom, skips past the
first place it cannot use, and gives up when it has counted `size` places; the count is
looked at after a failed probe only.
-/

namespace MzCache.Lib.RunSearch

section

variable (use : Nat → Bool) (size n : Nat)

/-- `n` usable places from `h` on. -/
def Free (h : Nat) : Prop := h + n ≤ size ∧ ∀ i < n, use (h + i) = true

/-- The first of `n` places from `cur` on that cannot be used, as an offset. -/
def firstBlocked (cur : Nat) : Option Nat := (List.range n).find? fun i => !use (cur + i)

/-- The search with a bound on its rounds. -/
def search : Nat → Nat → Nat → Option Nat
  | 0, _, _ => none
  | rounds + 1, cur, tested =>
      if cur + n > size then search rounds 0 (tested + (size - cur))
      else
        match firstBlocked use n cur with
        | none => some cur
        | some i =>
            if tested + (i + 1) ≥ size then none
            else search rounds (cur + (i + 1)) (tested + (i + 1))

/-- The search without a bound: from `cur`, with `tested` places counted, it ends with a
result. -/
inductive Ends : Nat → Nat → Option Nat → Prop
  | wrap {cur tested : Nat} {r : Option Nat} : size < cur + n →
      Ends 0 (tested + (size - cur)) r → Ends cur tested r
  | found {cur tested : Nat} : cur + n ≤ size → firstBlocked use n cur = none →
      Ends cur tested (some cur)
  | failed {cur tested i : Nat} : cur + n ≤ size → firstBlocked use n cur = some i →
      size ≤ tested + (i + 1) → Ends cur tested none
  | next {cur tested i : Nat} {r : Option Nat} : cur + n ≤ size →
      firstBlocked use n cur = some i → tested + (i + 1) < size →
      Ends (cur + (i + 1)) (tested + (i + 1)) r → Ends cur tested r

/-- Where a search from `start` stands: on its way up, at the bottom again, or back there a
second time with nothing left. `rounds` is a bound on the rounds to come. -/
inductive Phase (start : Nat) : Nat → Nat → Nat → Prop
  | up {rounds cur : Nat} : start ≤ cur → cur ≤ size →
      (∀ h, start ≤ h → h < cur → ¬ Free use size n h) → size - cur + start + 2 ≤ rounds →
      Phase start rounds cur (cur - start)
  | again {rounds cur : Nat} : cur < start ∨ cur = 0 →
      (∀ h, start ≤ h ∨ h < cur → ¬ Free use size n h) → start - cur + 1 ≤ rounds →
      Phase start rounds cur (size - start + cur)
  | exhausted {rounds tested : Nat} : size ≤ tested → (∀ h, ¬ Free use size n h) → 1 ≤ rounds →
      Phase start rounds 0 tested

end

variable {use : Nat → Bool} {size n start rounds cur tested i : Nat}

theorem firstBlocked_eq_none :
    firstBlocked use n cur = none ↔ ∀ i < n, use (cur + i) = true := by
  simp [firstBlocked]

theorem firstBlocked_eq_some (h : firstBlocked use n cur = some i) :
    i < n ∧ use (cur + i) = false := by
  unfold firstBlocked at h
  have hmem := List.mem_of_find?_eq_some h
  have huse := List.find?_some h
  simp only [List.mem_range] at hmem
  exact ⟨hmem, by simpa using huse⟩

/-- A place that cannot be used rules out every run it lies in. -/
theorem not_free_of_blocked (h : firstBlocked use n cur = some i) {h' : Nat} (hlow : cur ≤ h')
    (hhigh : h' < cur + (i + 1)) : ¬ Free use size n h' := by
  obtain ⟨hi, huse⟩ := firstBlocked_eq_some h
  rintro ⟨-, hfree⟩
  have hin := hfree (cur + i - h') (by omega)
  rw [show h' + (cur + i - h') = cur + i by omega, huse] at hin
  cases hin

theorem not_free_of_short (hshort : size < cur + n) {h : Nat} (hlow : cur ≤ h) :
    ¬ Free use size n h := by
  rintro ⟨hfit, -⟩
  omega

/-- A search that ends with a place has found a run. -/
theorem Ends.free {r : Option Nat} (h : Ends use size n cur tested r) :
    ∀ found ∈ r, Free use size n found := by
  induction h with
  | wrap _ _ ih => exact ih
  | found hfit hnone =>
      intro found hmem
      cases hmem
      exact ⟨hfit, firstBlocked_eq_none.mp hnone⟩
  | failed => exact fun _ hmem => nomatch hmem
  | next _ _ _ _ ih => exact ih

/-- What the search returns is a run, however many rounds it has. -/
theorem search_free (rounds : Nat) : ∀ (cur tested : Nat), ∀ h ∈ search use size n rounds cur tested,
    Free use size n h := by
  induction rounds with
  | zero => exact fun _ _ h hmem => nomatch hmem
  | succ rounds ih =>
      intro cur tested h hmem
      rw [search] at hmem
      split at hmem
      · exact ih _ _ h hmem
      · rename_i hfit
        split at hmem
        · rename_i hnone
          cases hmem
          exact ⟨not_lt.mp hfit, firstBlocked_eq_none.mp hnone⟩
        · split at hmem
          · cases hmem
          · exact ih _ _ h hmem

/-! ## One round -/

theorem Phase.start_of (hstart : start ≤ size) (hrounds : size + 2 ≤ rounds) :
    Phase use size n start rounds start 0 := by
  have h := @Phase.up use size n start rounds start le_rfl hstart
    (fun h hlow hhigh => by omega) (by omega)
  rwa [Nat.sub_self] at h

theorem Phase.pos (h : Phase use size n start rounds cur tested) : 0 < rounds := by
  cases h <;> omega

/-- Going on at the bottom. -/
theorem Phase.wrap (h : Phase use size n start (rounds + 1) cur tested) (hstart : start ≤ size)
    (hn : n ≤ size) (hshort : size < cur + n) :
    Phase use size n start rounds 0 (tested + (size - cur)) := by
  cases h with
  | up hlow hhigh hout hrounds =>
      have hall : ∀ h, start ≤ h ∨ h < 0 → ¬ Free use size n h := by
        intro h hh
        by_cases hcur : h < cur
        · exact hout h (by omega) hcur
        · exact not_free_of_short hshort (not_lt.mp hcur)
      have hagain := @Phase.again use size n start rounds 0 (.inr rfl) hall (by omega)
      rwa [show cur - start + (size - cur) = size - start + 0 by omega]
  | again hcur hout hrounds =>
      refine .exhausted (by omega) (fun h => ?_) (by omega)
      by_cases hh : start ≤ h ∨ h < cur
      · exact hout h hh
      · exact not_free_of_short hshort (by omega)
  | exhausted _ _ _ => omega

/-- Going on past a place that cannot be used, unless all are counted: then there is no run. -/
theorem Phase.blocked (h : Phase use size n start (rounds + 1) cur tested)
    (hfit : cur + n ≤ size) (hstart : start ≤ size) (hblocked : firstBlocked use n cur = some i) :
    (size ≤ tested + (i + 1) → ∀ h, ¬ Free use size n h) ∧
      (tested + (i + 1) < size →
        Phase use size n start rounds (cur + (i + 1)) (tested + (i + 1))) := by
  have hi := (firstBlocked_eq_some hblocked).1
  cases h with
  | up hlow hhigh hout hrounds =>
      have hout' : ∀ h, start ≤ h → h < cur + (i + 1) → ¬ Free use size n h := by
        intro h hs hh
        by_cases hcur : h < cur
        · exact hout h hs hcur
        · exact not_free_of_blocked hblocked (not_lt.mp hcur) hh
      constructor
      · intro hall h hfree
        have hroom := hfree.1
        exact hout' h (by omega) (by omega) hfree
      · intro _
        have hup := @Phase.up use size n start rounds _ (show start ≤ cur + (i + 1) by omega)
          (show cur + (i + 1) ≤ size by omega) hout' (by omega)
        rwa [show cur - start + (i + 1) = cur + (i + 1) - start by omega]
  | again hcur hout hrounds =>
      have hout' : ∀ h, start ≤ h ∨ h < cur + (i + 1) → ¬ Free use size n h := by
        intro h hh
        by_cases hold : start ≤ h ∨ h < cur
        · exact hout h hold
        · exact not_free_of_blocked hblocked (by omega) (by omega)
      constructor
      · intro hall h
        exact hout' h (by omega)
      · intro hmore
        have hagain := @Phase.again use size n start rounds _
          (show cur + (i + 1) < start ∨ cur + (i + 1) = 0 by omega) hout' (by omega)
        rwa [show size - start + cur + (i + 1) = size - start + (cur + (i + 1)) by omega]
  | exhausted hall hout _ => exact ⟨fun _ => hout, fun hmore => by omega⟩

/-! ## The whole search -/

/-- Within its rounds the search ends, and ends with nothing only if there is no run. -/
theorem Phase.search_spec (hstart : start ≤ size) (hn : n ≤ size) (rounds : Nat) :
    ∀ cur tested, Phase use size n start rounds cur tested →
      Ends use size n cur tested (search use size n rounds cur tested) ∧
      (search use size n rounds cur tested = none → ∀ h, ¬ Free use size n h) := by
  induction rounds with
  | zero => intro cur tested h; exact absurd h.pos (lt_irrefl 0)
  | succ rounds ih =>
      intro cur tested h
      rw [search]
      by_cases hshort : cur + n > size
      · rw [if_pos hshort]
        obtain ⟨hends, hnone⟩ := ih _ _ (h.wrap hstart hn hshort)
        exact ⟨.wrap hshort hends, hnone⟩
      · rw [if_neg hshort]
        have hfit : cur + n ≤ size := not_lt.mp hshort
        cases hb : firstBlocked use n cur with
        | none => exact ⟨.found hfit hb, fun hnone => nomatch hnone⟩
        | some i =>
            obtain ⟨hover, hnext⟩ := h.blocked hfit hstart hb
            dsimp only
            by_cases hall : tested + (i + 1) ≥ size
            · rw [if_pos hall]
              exact ⟨.failed hfit hb hall, fun _ => hover hall⟩
            · rw [if_neg hall]
              obtain ⟨hends, hnone⟩ := ih _ _ (hnext (not_le.mp hall))
              exact ⟨.next hfit hb (not_le.mp hall) hends, hnone⟩

/-- The search from any place ends, and ends with nothing exactly when there is no run. -/
theorem search_spec (hstart : start ≤ size) (hn : n ≤ size) (hrounds : size + 2 ≤ rounds) :
    Ends use size n start 0 (search use size n rounds start 0) ∧
      (search use size n rounds start 0 = none ↔ ∀ h, ¬ Free use size n h) := by
  obtain ⟨hends, hnone⟩ := Phase.search_spec hstart hn rounds start 0
    (.start_of hstart hrounds)
  refine ⟨hends, hnone, fun hout => ?_⟩
  rw [Option.eq_none_iff_forall_not_mem]
  exact fun found hmem => hout found (hends.free found hmem)

/-- Below the first free run every place is used: the search goes up to the run. -/
theorem search_up {h : Nat} (hn : 0 < n) (hfree : Free use size n h) (rounds : Nat) :
    ∀ cur tested, cur ≤ h → (∀ j, cur ≤ j → j < h → use j = false) → h - cur < rounds →
      tested + (h - cur) < size → search use size n rounds cur tested = some h := by
  induction rounds with
  | zero => exact fun cur tested _ _ hrounds _ => absurd hrounds (Nat.not_lt_zero _)
  | succ rounds ih =>
      intro cur tested hle hused hrounds htested
      have hroom := hfree.1
      rw [search, if_neg (by omega)]
      by_cases heq : cur = h
      · subst heq
        rw [firstBlocked_eq_none.mpr hfree.2]
      · have hlt : cur < h := by omega
        have hblocked : firstBlocked use n cur = some 0 := by
          obtain ⟨m, rfl⟩ := Nat.exists_eq_add_one.mpr hn
          unfold firstBlocked
          rw [List.range_succ_eq_map, List.find?_cons, Nat.add_zero, hused cur le_rfl hlt]
          rfl
        rw [hblocked]
        dsimp only
        rw [if_neg (by omega)]
        exact ih _ _ hlt (fun j hj => hused j (by omega)) (by omega) (by omega)

end MzCache.Lib.RunSearch
