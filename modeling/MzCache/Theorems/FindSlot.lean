import MzCache.Unified.FindSlot

/-!
# `find_slot` finds a slot if there is one

From a head that lies in the cells the search ends, a head it returns is the start of a
slot, and it returns none only if there is no slot. Runs keep the head in the cells.
-/

namespace MzCache.Theorems

open MzCache MzCache.Lib MzCache.Unified

/-- What `find_slot` is for, on the cache it is called on. -/
structure FindsSlot (sh : Shape) (c : Cache) (n : Nat) : Prop where
  /-- The loop is entered when there are cells enough, and then ends with what is returned. -/
  ends : n ≤ c.cells.size → RunSearch.Ends (c.cells.canUse sh) c.cells.size n
    (c.searchStart n) 0 (c.findSlot sh n)
  sound : ∀ h, c.findSlot sh n = some h → c.cells.Slot sh n h
  complete : c.findSlot sh n = none → n > c.cells.size ∨ ∀ h, ¬ c.cells.Slot sh n h

/-- `find_slot` terminates, is sound and complete, from any head in the cells; the head of a
cache lies in the cells after every run of calls that places ubatches inside them. -/
theorem find_slot_correct (sh : Shape) :
    (∀ (c : Cache) (n : Nat), c.head ≤ c.cells.size → FindsSlot sh c n) ∧
    ∀ (kvSize : Nat) (calls : List KvCall), KvCall.PlacedRun sh calls (Trial.fresh sh kvSize) →
      (KvCall.run sh calls (Trial.fresh sh kvSize)).cache.head ≤
        (KvCall.run sh calls (Trial.fresh sh kvSize)).cache.cells.size := by
  refine ⟨fun c n hhead => ?_, fun kvSize calls hplaced =>
    (KvCall.run_headOk calls (Trial.fresh_headOk sh kvSize) hplaced).head⟩
  have hsearch := @findSlot_eq sh c n
  by_cases hn : n > c.cells.size
  · rw [if_pos hn] at hsearch
    refine ⟨fun hfit => absurd hfit (not_le.mpr hn), fun h hfound => ?_, fun _ => .inl hn⟩
    rw [hsearch] at hfound
    cases hfound
  · rw [if_neg hn] at hsearch
    obtain ⟨hends, hnone⟩ := @RunSearch.search_spec (c.cells.canUse sh) c.cells.size n
      (c.searchStart n) (2 * c.cells.size + 2) (searchStart_le hhead n) (not_lt.mp hn) (by omega)
    rw [← hsearch] at hends hnone
    refine ⟨fun _ => hends, fun h hfound => ?_, fun hfail => .inr fun h hslot => ?_⟩
    · exact (Cells.free_iff_slot n h).mp (hends.free h hfound)
    · exact hnone.mp hfail h ((Cells.free_iff_slot n h).mpr hslot)

/-- Three cells, the middle one taken, and the head behind it. -/
def Cache.single : Cache :=
  (KvCall.run .single [.applyUbatch (fun _ _ => true) 1 [⟨0, 0, [0]⟩]] (.fresh .single 3)).cache

theorem find_slot_single : FindsSlot .single Cache.single 1 ∧
    Cache.single.head ≤ Cache.single.cells.size :=
  ⟨(find_slot_correct .single).1 Cache.single 1 (by with_unfolding_all decide),
    (find_slot_correct .single).2 3 _ ⟨show 1 + 1 ≤ 3 by decide, trivial⟩⟩

end MzCache.Theorems
