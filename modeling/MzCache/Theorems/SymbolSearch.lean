import MzCache.CacheGen.CoderSpec

/-!
# Symbol search

For the last symbol `binsearch_symbol` compares with an upper end that was truncated to zero, so
its loop never returns that symbol: it runs past it, and the exit behind the loop returns it.
-/

namespace MzCache.Theorems

open MzCache MzCache.Lib MzCache.CacheGen

/-- The loop of `binsearch_symbol` ends within `fuel` rounds. -/
def SearchEnds (row : ℕ → UInt16) (maxSymbol : ℤ) (count : ℕ) : ℕ → ℤ → ℤ → Prop
  | 0, _, _ => False
  | fuel + 1, lo, hi =>
      lo ≤ hi →
        let mid := (lo + hi) / 2
        let cLo := (row mid.toNat).toNat
        let cHi := if mid = maxSymbol then 0x10000 % 2 ^ 16 else (row (mid.toNat + 1)).toNat
        (count < cLo → SearchEnds row maxSymbol count fuel lo (mid - 1)) ∧
          (¬ count < cLo → count ≥ cHi → SearchEnds row maxSymbol count fuel (mid + 1) hi)

/-- Every round leaves out the middle of the interval. -/
theorem searchEnds (row : ℕ → UInt16) (maxSymbol : ℤ) (count fuel : ℕ) (lo hi : ℤ)
    (hfuel : hi - lo + 1 < fuel) (hlo : lo ≤ hi + 1) :
    SearchEnds row maxSymbol count fuel lo hi := by
  induction fuel generalizing lo hi with
  | zero =>
      push_cast at hfuel
      omega
  | succ fuel ih =>
      intro hle
      push_cast at hfuel
      constructor
      · intro _
        apply ih <;> omega
      · intro _ _
        apply ih <;> omega

/-- `s` is the symbol whose interval holds `count`. -/
def IsSymbol (row : ℕ → UInt16) (binsP1 count s : ℕ) : Prop :=
  s ≤ binsP1 - 2 ∧ (row s).toNat ≤ count ∧ (s = binsP1 - 2 ∨ count < (row (s + 1)).toNat)

theorem isSymbol_iff {row : ℕ → UInt16} {binsP1 count s : ℕ} (hcount : count < 2 ^ 16) :
    IsSymbol row binsP1 count s ↔ CdfRow.Covers row (binsP1 - 2) count s := by
  unfold IsSymbol CdfRow.Covers cdfHigh
  refine and_congr_right fun _ => and_congr_right fun _ => ?_
  by_cases hs : s = binsP1 - 2
  · rw [if_pos hs]
    exact iff_of_true (Or.inl hs) hcount
  · rw [if_neg hs, or_iff_right hs]

/-- On a row that starts at zero and increases, the search ends and returns the one symbol whose
interval holds the count. -/
theorem binsearch_symbol_exact (binsP1 : ℕ) (hbins : 2 ≤ binsP1) (row : ℕ → UInt16)
    (hrow : CdfRow row (binsP1 - 2)) (count : ℕ) (hcount : count < 2 ^ 16) :
    SearchEnds row (binsP1 - 2) count binsP1 0 (binsP1 - 2) ∧
      IsSymbol row binsP1 count (binsearchSymbol row binsP1 count) ∧
      ∀ s, IsSymbol row binsP1 count s → s = binsearchSymbol row binsP1 count := by
  have hfound := CdfRow.binsearchSymbol_covers hbins hrow hcount
  refine ⟨searchEnds _ _ _ _ _ _ (by omega) (by omega), (isSymbol_iff hcount).mpr hfound,
    fun s hs => ?_⟩
  -- each of two covering symbols is not behind the other
  have hcov := (isSymbol_iff hcount).mp hs
  apply le_antisymm
  · exact CdfRow.Covers.not_lt hrow hfound hcov.1 hcov.2.1
  · exact CdfRow.Covers.not_lt hrow hcov hfound.1 hfound.2.1

/-- Two symbols with the bounds 0 and 7: a count of 9 belongs to the last one. -/
theorem binsearch_symbol_last :
    IsSymbol (fun s => if s = 0 then 0 else 7) 3 9 (binsearchSymbol (fun s => if s = 0 then 0 else 7)
      3 9) := by
  refine (binsearch_symbol_exact 3 (by decide) (fun s => if s = 0 then 0 else 7) ⟨rfl, ?_⟩ 9
    (by decide)).2.1
  intro s hs
  obtain rfl : s = 0 := by omega
  decide

end MzCache.Theorems
