import MzCache.Unified.Rollback

/-!
# What a failed decode leaves behind

When a ubatch fails, `decode` removes, for every sequence that comes first in one of its tokens,
the positions from the least of these tokens on. That takes every entry of the ubatch and nothing
else exactly when no entry escapes these ranges and no earlier token falls into them.
-/

namespace MzCache.Theorems

open MzCache MzCache.Lib MzCache.Unified

/-- The positions of the tokens exceed those that are present in their sequences. -/
structure Exceeds (batch : List BatchToken) (c : Cache) : Prop where
  seqs : ∀ tok ∈ batch, tok.seqIds ≠ []
  maxSeq : ∀ tok ∈ batch, ∀ s ∈ tok.seqIds, s < llamaMaxSeq
  pos : ∀ tok ∈ batch, 0 ≤ tok.pos
  held : ∀ tok ∈ batch, ∀ s ∈ tok.seqIds, ∀ j < c.cells.size, s ∈ c.cells.seq j →
    c.cells.pos j < tok.pos

/-- No cell holds a sequence and position of the ubatch, and the cells that were occupied are
unchanged. -/
structure LeavesNoTrace (ubatch : List BatchToken) (before after : Cache) : Prop where
  gone : ∀ tok ∈ ubatch, ∀ s ∈ tok.seqIds, ∀ j < before.cells.size,
    ¬ (s ∈ after.cells.seq j ∧ after.cells.pos j = tok.pos)
  kept : ∀ j < before.cells.size, before.cells.isEmpty j = false →
    after.cells.cell j = before.cells.cell j

/-- Every sequence of a token comes first in some token of the ubatch that is at the same position
or before, below the largest position there is; and the tokens of the ubatches before precede, in
each of their sequences, the tokens of this one that have it first. -/
structure RollsBack (past ubatch : List BatchToken) : Prop where
  covers : ∀ tok ∈ ubatch, ∀ s ∈ tok.seqIds, tok.pos < posLimit ∧
    ∃ tok' ∈ ubatch, tok'.firstSeq = s ∧ tok'.pos ≤ tok.pos
  spares : ∀ tok ∈ past, ∀ s ∈ tok.seqIds, tok.pos < posLimit →
    ∀ tok' ∈ ubatch, tok'.firstSeq = s → tok.pos < tok'.pos

section

variable {batch past ubatch : List BatchToken} {c before after : Cache} {head s : Nat} {p : Int}

theorem firstSeq_mem {tok : BatchToken} (h : tok.seqIds ≠ []) : tok.firstSeq ∈ tok.seqIds := by
  unfold BatchToken.firstSeq
  cases hids : tok.seqIds with
  | nil => exact absurd hids h
  | cons s rest => exact List.mem_cons_self

theorem le_rangeFrom (p : Int) : p ≤ rangeFrom p := by
  unfold rangeFrom
  split <;> omega

/-- The clean-up in terms of the tokens. -/
theorem rolledBack_iff (hp : 0 ≤ p) :
    RolledBack ubatch s p ↔
      p < posLimit ∧ ∃ tok ∈ ubatch, tok.firstSeq = s ∧ tok.pos ≤ p := by
  have hfrom : rangeFrom (rollbackPosMin ubatch s) ≤ p ↔ rollbackPosMin ubatch s ≤ p := by
    unfold rangeFrom
    split <;> omega
  unfold RolledBack
  rw [hfrom, rollbackPosMin_le]
  constructor
  · rintro ⟨hle | htok, hlt⟩
    · omega
    · exact ⟨hlt, htok⟩
  · exact fun ⟨hlt, htok⟩ => ⟨.inr htok, hlt⟩

/-- A decode that fails leaves no trace of the ubatch if and only if the clean-up's ranges hold
its entries and no others. -/
theorem failed_decode_iff (sh : Shape) (hswa : sh.swaType = .none) (alloc : Alloc)
    (computes : Nat → Bool) (nUbatch : Nat) (batch : List BatchToken) (c : Cache)
    (htidy : c.cells.Tidy) (hbatch : Exceeds batch c) (past ubatch : List BatchToken)
    (before after : Cache)
    (h : c.decode sh alloc computes nUbatch batch = .error before past ubatch after) :
    LeavesNoTrace ubatch before after ↔ RollsBack past ubatch := by
  have hne : ∀ tok ∈ batch, tok.pos ≠ -1 := fun tok htok => by
    have := hbatch.pos tok htok
    omega
  obtain ⟨head, hfail⟩ := decode_error hswa htidy.empty hne h
  have hub : ∀ tok ∈ ubatch, tok ∈ batch := fun tok htok =>
    hfail.tokens tok (List.mem_append_right _ htok)
  have hpast : ∀ tok ∈ past, tok ∈ batch := fun tok htok =>
    hfail.tokens tok (List.mem_append_left _ htok)
  have hnonneg : ∀ tok ∈ ubatch, 0 ≤ tok.pos := fun tok htok => hbatch.pos tok (hub tok htok)
  constructor
  · intro hclean
    refine ⟨fun tok htok s hs => ?_, fun tok htok s hs hlt tok' htok' hfirst => ?_⟩
    · -- the cell of the token has lost `s`
      obtain ⟨j, hge, hlt, hcell⟩ := @overlay_token head ubatch tok htok
      have hj : j < before.cells.size := by
        have := hfail.room
        omega
      have hcleaned := hfail.cells j hj
      rw [hcell] at hcleaned
      have hgone : s ∉ (after.cells.cell j).2 := fun hmem =>
        hclean.gone tok htok s hs j hj ⟨hmem, hcleaned.pos s hmem⟩
      rw [hcleaned.seq, not_and, not_not] at hgone
      exact (rolledBack_iff (hnonneg tok htok)).mp (hgone (List.mem_toFinset.mpr hs)).2
    · -- the cell of an earlier token has kept it
      by_contra hge
      obtain ⟨j, hj, hcell⟩ := hfail.present tok htok
      have hpos := hne tok (hpast tok htok)
      have hheld : (before.cells.cell j).1 ≠ -1 := by rwa [hcell]
      have hcleaned := hfail.cells j hj
      rw [overlay_held hfail.free hheld, hclean.kept j hj (decide_eq_false hheld), hcell] at hcleaned
      have hkept := ((hcleaned.seq s).mp (List.mem_toFinset.mpr hs)).2
      refine hkept ⟨hbatch.maxSeq tok (hpast tok htok) s hs, ?_⟩
      exact (rolledBack_iff (hbatch.pos tok (hpast tok htok))).mpr
        ⟨hlt, tok', htok', hfirst, not_lt.mp hge⟩
  · rintro ⟨hcovers, hspares⟩
    refine ⟨fun tok htok s hs j hj ⟨hmem, hp⟩ => ?_, fun j hj hheld => ?_⟩
    · have hcleaned := hfail.cells j hj
      have hpos : tok.pos = (overlay head ubatch before.cells.cell j).1 :=
        hp.symm.trans (hcleaned.pos s hmem)
      refine ((hcleaned.seq s).mp hmem).2 ⟨hbatch.maxSeq tok (hub tok htok) s hs, ?_⟩
      rw [← hpos]
      exact (rolledBack_iff (hnonneg tok htok)).mpr (hcovers tok htok s hs)
    · have hpos : (before.cells.cell j).1 ≠ -1 := of_decide_eq_false hheld
      have hcleaned := hfail.cells j hj
      rw [overlay_held hfail.free hpos] at hcleaned
      refine hcleaned.same fun s hs hback => ?_
      -- what the cell holds comes from before the batch, or from an earlier ubatch
      rcases hfail.origin j with horig | ⟨tok, htok, horig⟩
      · rw [horig] at hs hback
        have hmin := (rollbackPosMin_le s _ ubatch).mp (le_trans (le_rangeFrom _) hback.1)
        obtain ⟨tok', htok', hfirst, hle⟩ := hmin.resolve_left (not_le.mpr hback.2)
        have hin : s ∈ tok'.seqIds := hfirst ▸ firstSeq_mem (hbatch.seqs tok' (hub tok' htok'))
        exact absurd hle (not_le.mpr
          (hbatch.held tok' (hub tok' htok') s hin j (hfail.size ▸ hj) hs))
      · rw [horig] at hs hback
        obtain ⟨hlt, tok', htok', hfirst, hle⟩ :=
          (rolledBack_iff (hbatch.pos tok (hpast tok htok))).mp hback
        exact absurd hle (not_le.mpr
          (hspares tok htok s (List.mem_toFinset.mp hs) hlt tok' htok' hfirst))

end

/-! ## Two sequences -/

theorem pair_seqs_lt : 2 < 2 ^ 31 := by decide

/-- A model of one layer for two sequences. -/
def pairShape : Shape := { Shape.single with nSeqMax := 2, nSeqMax_lt := pair_seqs_lt }

/-- Four empty cells. -/
def pairCache : Cache := .fresh pairShape 4

theorem pairCache_tidy : pairCache.cells.Tidy := (Cells.resize_indexed 4).tidy

theorem pairCache_exceeded {batch : List BatchToken} (hseqs : ∀ tok ∈ batch, tok.seqIds ≠ [])
    (hmax : ∀ tok ∈ batch, ∀ s ∈ tok.seqIds, s < llamaMaxSeq)
    (hpos : ∀ tok ∈ batch, 0 ≤ tok.pos) : Exceeds batch pairCache :=
  ⟨hseqs, hmax, hpos, fun _ _ s _ _ _ hs => (Finset.notMem_empty s hs).elim⟩

def pairFirst : List BatchToken := [⟨0, 0, [0]⟩, ⟨0, 0, [1]⟩]

def pairSecond : List BatchToken := [⟨0, 1, [0, 1]⟩, ⟨0, 1, [1, 0]⟩]

/-- Two sequences go on together; each comes first in one of the tokens of the ubatch that
fails. -/
theorem failed_decode_pair :
    ∃ before after, pairCache.decode pairShape (fun _ _ => true) (fun k => k = 0) 2
        (pairFirst ++ pairSecond) = .error before pairFirst pairSecond after ∧
      LeavesNoTrace pairSecond before after :=
  ⟨_, _, rfl, (failed_decode_iff pairShape rfl (fun _ _ => true) (fun k => k = 0) 2
    (pairFirst ++ pairSecond) pairCache pairCache_tidy
    (pairCache_exceeded (by decide) (by decide) (by decide)) pairFirst pairSecond _ _ rfl).mpr
    ⟨by decide, by decide⟩⟩

/-- One token in both sequences, sequence 0 first: when its ubatch fails, sequence 1 keeps
position 0. -/
theorem failed_decode_leaves_second :
    pairCache.cells.Tidy ∧ Exceeds [⟨0, 0, [0, 1]⟩] pairCache ∧
      ∃ before after, pairCache.decode pairShape (fun _ _ => true) (fun _ => false) 1
          [⟨0, 0, [0, 1]⟩] = .error before [] [⟨0, 0, [0, 1]⟩] after ∧
        after.cells.cell 0 = (0, {1}) ∧ ¬ LeavesNoTrace [⟨0, 0, [0, 1]⟩] before after := by
  refine ⟨pairCache_tidy, pairCache_exceeded (by decide) (by decide) (by decide), _, _, rfl, ?_,
    fun h => ?_⟩
  · with_unfolding_all decide
  · refine h.gone ⟨0, 0, [0, 1]⟩ List.mem_cons_self 1 (by decide) 0 ?_ ⟨?_, ?_⟩
    · with_unfolding_all decide
    · with_unfolding_all decide
    · with_unfolding_all decide

end MzCache.Theorems
