import MzCache.Unified.Purge

/-!
# Cells during a trial

`prepare` gives cells to tokens and puts the old contents back. Compared with the cells it
found, the cells not taken hold no more than before and the taken ones hold entries of the
tokens only. As long as no purge reaches a cell that is not taken, the cells not taken are
the old ones, and the index differs from the old one by entries of taken cells only.
-/

namespace MzCache.Unified

open MzCache MzCache.Lib

/-- The entries of tokens. -/
def entriesOfTokens (toks : List BatchToken) : Set (Nat × Int) :=
  {e | ∃ tok ∈ toks, e ∈ entriesOf (tokenCell tok)}

/-- `c` came of `c₀` by giving the cells `taken` to tokens with the entries `fresh`, and by
removing entries. -/
structure Cells.Taken (c₀ : Cells) (fresh : Set (Nat × Int)) (taken : Set Nat) (c : Cells) :
    Prop where
  tidy : c.Tidy
  size : c.size = c₀.size
  outside : ∀ j, j ∉ taken → entriesOf (c.cell j) ⊆ entriesOf (c₀.cell j)
  inside : ∀ j ∈ taken, entriesOf (c.cell j) ⊆ fresh

/-- Nothing was removed from the other cells. -/
structure Cells.Spared (c₀ : Cells) (fresh : Set (Nat × Int)) (taken : Set Nat) (c : Cells) : Prop
    extends c₀.Taken fresh taken c where
  cell : ∀ j, j ∉ taken → c.cell j = c₀.cell j
  upper : ∀ e ∈ c.view.index, e ∈ c₀.view.index ∨ ∃ j ∈ taken, e ∈ entriesOf (c.cell j)
  lower : ∀ e ∈ c₀.view.index, e ∉ fresh →
    e ∈ c.view.index ∨ ∃ j ∈ taken, e ∈ entriesOf (c₀.cell j)

section

variable {c₀ c c' : Cells} {F N E : Set (Nat × Int)} {D : Set Nat} {i : Nat}

/-! ## One cell -/

theorem Cells.Touches.held_all (h : c.Touches c' i (entriesOf (c.cell i)) N) :
    entriesOf (c'.cell i) = N := by
  rw [h.held, Set.sdiff_self]
  exact Set.empty_union N

theorem Cells.Taken.start (h : c₀.Tidy) : c₀.Taken ∅ ∅ c₀ :=
  ⟨h, rfl, fun _ _ => subset_rfl, fun _ hj => hj.elim⟩

theorem Cells.Spared.start (h : c₀.Tidy) : c₀.Spared ∅ ∅ c₀ :=
  ⟨.start h, fun _ _ => rfl, fun _ he => .inl he, fun _ he _ => .inl he⟩

/-- A cell is given to a token. -/
theorem Cells.Taken.take (h : c₀.Taken F D c)
    (ht : c.Touches c' i (entriesOf (c.cell i)) N) : c₀.Taken (F ∪ N) (insert i D) c' := by
  refine ⟨ht.tidy, ht.size.trans h.size, fun j hj => ?_, fun j hj => ?_⟩
  · have hji : j ≠ i := fun heq => hj (heq ▸ Set.mem_insert i D)
    rw [ht.other j hji]
    exact h.outside j fun hmem => hj (Set.mem_insert_of_mem i hmem)
  · by_cases hji : j = i
    · subst hji
      rw [ht.held_all]
      exact Set.subset_union_right
    · rw [ht.other j hji]
      exact (h.inside j (hj.resolve_left hji)).trans Set.subset_union_left

theorem Cells.Spared.take (h : c₀.Spared F D c)
    (ht : c.Touches c' i (entriesOf (c.cell i)) N) : c₀.Spared (F ∪ N) (insert i D) c' := by
  refine ⟨h.toTaken.take ht, fun j hj => ?_, fun e he => ?_, fun e he hfresh => ?_⟩
  · have hji : j ≠ i := fun heq => hj (heq ▸ Set.mem_insert i D)
    rw [ht.other j hji]
    exact h.cell j fun hmem => hj (Set.mem_insert_of_mem i hmem)
  · rw [ht.index] at he
    rcases he with ⟨he, hkept⟩ | he
    · refine (h.upper e he).imp_right fun ⟨j, hj, hheld⟩ => ⟨j, Set.mem_insert_of_mem i hj, ?_⟩
      have hji : j ≠ i := fun heq => hkept (heq ▸ hheld)
      rwa [ht.other j hji]
    · exact .inr ⟨i, Set.mem_insert i D, ht.held_all.symm ▸ he⟩
  · rw [ht.index]
    rcases h.lower e he fun hF => hfresh (Or.inl hF) with hin | ⟨j, hj, hheld⟩
    · by_cases hi : e ∈ entriesOf (c.cell i)
      · -- the cell was not taken before, its entry is an old one
        by_cases hD : i ∈ D
        · exact absurd (h.inside i hD hi) fun hF => hfresh (Or.inl hF)
        · exact .inr ⟨i, Set.mem_insert i D, h.outside i hD hi⟩
      · exact .inl (Or.inl ⟨hin, hi⟩)
    · exact .inr ⟨j, Set.mem_insert_of_mem i hj, hheld⟩

/-- Entries are removed from a cell. -/
theorem Cells.Taken.shrink (h : c₀.Taken F D c) (ht : c.Touches c' i E ∅) : c₀.Taken F D c' := by
  have hsub : ∀ j, entriesOf (c'.cell j) ⊆ entriesOf (c.cell j) := by
    intro j
    by_cases hji : j = i
    · subst hji
      rw [ht.held, Set.union_empty]
      exact Set.sdiff_subset
    · rw [ht.other j hji]
  exact ⟨ht.tidy, ht.size.trans h.size, fun j hj => (hsub j).trans (h.outside j hj),
    fun j hj => (hsub j).trans (h.inside j hj)⟩

/-- Entries are removed from a taken cell. -/
theorem Cells.Spared.shrink (h : c₀.Spared F D c) (ht : c.Touches c' i E ∅) (hi : i ∈ D)
    (hE : E ⊆ entriesOf (c.cell i)) : c₀.Spared F D c' := by
  refine ⟨h.toTaken.shrink ht, fun j hj => ?_, fun e he => ?_, fun e he hfresh => ?_⟩
  · have hji : j ≠ i := fun heq => hj (heq ▸ hi)
    rw [ht.other j hji]
    exact h.cell j hj
  · rw [ht.index, Set.union_empty] at he
    refine (h.upper e he.1).imp_right fun ⟨j, hj, hheld⟩ => ⟨j, hj, ?_⟩
    by_cases hji : j = i
    · subst hji
      rw [ht.held]
      exact Or.inl ⟨hheld, he.2⟩
    · rwa [ht.other j hji]
  · rw [ht.index]
    refine (h.lower e he hfresh).imp_left fun hin => Or.inl ⟨hin, fun hmem => ?_⟩
    exact hfresh (h.inside i hi (hE hmem))

/-- A cell gets its old contents back. -/
theorem Cells.Taken.giveBack (h : c₀.Taken F D c)
    (ht : c.Touches c' i (entriesOf (c.cell i)) (entriesOf (c₀.cell i))) :
    c₀.Taken F (D \ {i}) c' := by
  refine ⟨ht.tidy, ht.size.trans h.size, fun j hj => ?_, fun j hj => ?_⟩
  · by_cases hji : j = i
    · subst hji
      rw [ht.held_all]
    · rw [ht.other j hji]
      exact h.outside j fun hmem => hj ⟨hmem, hji⟩
  · rw [ht.other j hj.2]
    exact h.inside j hj.1

theorem Cells.Spared.giveBack (h : c₀.Spared F D c)
    (ht : c.Touches c' i (entriesOf (c.cell i)) (entriesOf (c₀.cell i))) (hi : i ∈ D)
    (hcell : c'.cell i = c₀.cell i) (hlisted : entriesOf (c₀.cell i) ⊆ c₀.view.index) :
    c₀.Spared F (D \ {i}) c' := by
  refine ⟨h.toTaken.giveBack ht, fun j hj => ?_, fun e he => ?_, fun e he hfresh => ?_⟩
  · by_cases hji : j = i
    · subst hji
      exact hcell
    · rw [ht.other j hji]
      exact h.cell j fun hmem => hj ⟨hmem, hji⟩
  · rw [ht.index] at he
    rcases he with ⟨he, hkept⟩ | he
    · refine (h.upper e he).imp_right fun ⟨j, hj, hheld⟩ => ?_
      have hji : j ≠ i := fun heq => hkept (heq ▸ hheld)
      exact ⟨j, ⟨hj, hji⟩, by rwa [ht.other j hji]⟩
    · exact .inl (hlisted he)
  · rw [ht.index]
    rcases h.lower e he hfresh with hin | ⟨j, hj, hheld⟩
    · refine .inl (Or.inl ⟨hin, fun hmem => hfresh (h.inside i hi hmem)⟩)
    · by_cases hji : j = i
      · exact .inl (Or.inr (hji ▸ hheld))
      · exact .inr ⟨j, ⟨hj, hji⟩, hheld⟩

/-- With nothing taken any more, all is as before. -/
theorem Cells.Spared.same (h : c₀.Spared F ∅ c) (h₀ : c₀.Tidy)
    (hnew : ∀ e ∈ F, e ∉ c₀.view.index) : c = c₀ := by
  have hcell : ∀ j, c.cell j = c₀.cell j := fun j => h.cell j fun hj => hj
  have hpos : c.pos = c₀.pos := funext fun j => congrArg Prod.fst (hcell j)
  have hseq : c.seq = c₀.seq := funext fun j => congrArg Prod.snd (hcell j)
  have hused : c.used = c₀.used := by
    ext j
    rw [h.tidy.used, h₀.used, hpos]
  have hindex : c.seqPos = c₀.seqPos := by
    funext s
    ext p
    constructor
    · intro hp
      exact (h.upper (s, p) hp).resolve_right fun ⟨j, hj, _⟩ => hj
    · intro hp
      exact (h.lower (s, p) hp fun hF => hnew _ hF hp).resolve_right fun ⟨j, hj, _⟩ => hj
  have hsize := h.size
  cases c
  cases c₀
  simp only [Cells.mk.injEq]
  exact ⟨hsize, hpos, hseq, hused, hindex⟩

end

/-! ## Placing the tokens -/

/-- The cells of a slot. -/
def slotCells (head n : Nat) : Set Nat := {i | head ≤ i ∧ i < head + n}

theorem entriesOfTokens_append (toks toks' : List BatchToken) :
    entriesOfTokens (toks ++ toks') = entriesOfTokens toks ∪ entriesOfTokens toks' := by
  ext e
  simp only [entriesOfTokens, List.mem_append, Set.mem_union, Set.mem_ofPred_eq, or_and_right,
    exists_or]

theorem entriesOfTokens_cons (tok : BatchToken) (toks : List BatchToken) :
    entriesOfTokens (tok :: toks) = entriesOf (tokenCell tok) ∪ entriesOfTokens toks := by
  ext e
  simp [entriesOfTokens]

theorem slotCells_succ (head n : Nat) :
    slotCells head (n + 1) = insert head (slotCells (head + 1) n) := by
  ext i
  simp only [slotCells, Set.mem_ofPred_eq, Set.mem_insert_iff]
  omega

/-- What holds when a token takes a cell holds when all tokens have taken theirs. -/
theorem placeTokens_rule {P : Set (Nat × Int) → Set Nat → Cells → Prop} {n : Nat}
    (htidy : ∀ {F D c}, P F D c → c.Tidy ∧ c.size = n)
    (htake : ∀ {F D c c' i N}, P F D c → c.Touches c' i (entriesOf (c.cell i)) N →
      P (F ∪ N) (insert i D) c') (toks : List BatchToken) :
    ∀ (head : Nat) {acc : Cells × SeqPosMaxRm} {F : Set (Nat × Int)} {D : Set Nat}, P F D acc.1 →
      head + toks.length ≤ n → (∀ tok ∈ toks, tok.pos ≠ -1) →
      P (F ∪ entriesOfTokens toks) (D ∪ slotCells head toks.length)
        (placeTokens head toks acc).1 := by
  induction toks with
  | nil =>
      intro head acc F D h _ _
      have hF : F ∪ entriesOfTokens [] = F := by simp [entriesOfTokens]
      have hD : D ∪ slotCells head ([] : List BatchToken).length = D := by
        ext i
        simp [slotCells]
      rw [hF, hD]
      exact h
  | cons tok toks ih =>
      intro head acc F D h hroom hpos
      obtain ⟨ht, hsize⟩ := htidy h
      rw [List.length_cons] at hroom ⊢
      have hone := htake h (placeToken_touches (i := head) ht (by omega)
        (hpos tok List.mem_cons_self))
      have hrest := ih (head + 1) hone (by omega) fun tok' hmem =>
        hpos tok' (List.mem_cons_of_mem _ hmem)
      rw [entriesOfTokens_cons, slotCells_succ, ← Set.union_assoc,
        Set.union_insert, ← Set.insert_union]
      exact hrest

theorem Cells.Taken.placeTokens {c₀ : Cells} {F : Set (Nat × Int)} {D : Set Nat}
    {acc : Cells × SeqPosMaxRm} (h : c₀.Taken F D acc.1) {head : Nat} {toks : List BatchToken}
    (hroom : head + toks.length ≤ c₀.size) (hpos : ∀ tok ∈ toks, tok.pos ≠ -1) :
    c₀.Taken (F ∪ entriesOfTokens toks) (D ∪ slotCells head toks.length)
      (placeTokens head toks acc).1 :=
  placeTokens_rule (fun h => ⟨h.tidy, h.size⟩) (fun h ht => h.take ht) toks head h hroom hpos

theorem Cells.Spared.placeTokens {c₀ : Cells} {F : Set (Nat × Int)} {D : Set Nat}
    {acc : Cells × SeqPosMaxRm} (h : c₀.Spared F D acc.1) {head : Nat} {toks : List BatchToken}
    (hroom : head + toks.length ≤ c₀.size) (hpos : ∀ tok ∈ toks, tok.pos ≠ -1) :
    c₀.Spared (F ∪ entriesOfTokens toks) (D ∪ slotCells head toks.length)
      (placeTokens head toks acc).1 :=
  placeTokens_rule (fun h => ⟨h.tidy, h.size⟩) (fun h ht => h.take ht) toks head h hroom hpos

/-- `seq_pos_max_rm` of a sequence: as before, or the position of a cell that held it and was
overwritten. -/
theorem placeTokens_rmMax (toks : List BatchToken) : ∀ (head : Nat) (acc : Cells × SeqPosMaxRm),
    acc.1.Tidy → head + toks.length ≤ acc.1.size → (∀ tok ∈ toks, tok.pos ≠ -1) → ∀ s,
    acc.2 s ≤ (placeTokens head toks acc).2 s ∧
      ((placeTokens head toks acc).2 s = acc.2 s ∨
        ∃ i ∈ slotCells head toks.length, acc.1.isEmpty i = false ∧ acc.1.seqGet i = s ∧
          (placeTokens head toks acc).2 s = acc.1.pos i) := by
  induction toks with
  | nil => exact fun head acc _ _ _ s => ⟨le_rfl, .inl rfl⟩
  | cons tok toks ih =>
      intro head acc ht hroom hpos s
      rw [List.length_cons] at hroom ⊢
      have htouch := placeToken_touches (i := head) ht (by omega) (hpos tok List.mem_cons_self)
      obtain ⟨hle, hrest⟩ := ih (head + 1) (placeToken head tok acc) htouch.tidy
        (by rw [htouch.size]; omega) (fun tok' hmem => hpos tok' (List.mem_cons_of_mem _ hmem)) s
      have hfirst : acc.2 s ≤ (placeToken head tok acc).2 s ∧
          ((placeToken head tok acc).2 s = acc.2 s ∨ acc.1.isEmpty head = false ∧
            acc.1.seqGet head = s ∧ (placeToken head tok acc).2 s = acc.1.pos head) := by
        unfold placeToken
        dsimp only
        cases hempty : acc.1.isEmpty head with
        | true => exact ⟨le_rfl, .inl rfl⟩
        | false =>
            rw [if_neg Bool.false_ne_true]
            dsimp only
            by_cases hs : s = acc.1.seqGet head
            · subst hs
              rw [Function.update_self]
              refine ⟨le_max_left _ _, ?_⟩
              rcases max_choice (acc.2 (acc.1.seqGet head)) (acc.1.pos head) with hmax | hmax
              · exact .inl hmax
              · exact .inr ⟨rfl, rfl, hmax⟩
            · rw [Function.update_of_ne hs]
              exact ⟨le_rfl, .inl rfl⟩
      rw [placeTokens, slotCells_succ]
      refine ⟨hfirst.1.trans hle, ?_⟩
      rcases hrest with hsame | ⟨i, hi, hempty, hseq, hmax⟩
      · rw [hsame]
        refine hfirst.2.imp_right fun h => ?_
        exact ⟨head, Set.mem_insert _ _, h.1, h.2.1, h.2.2⟩
      · -- a later cell of the slot is as it was before the first token
        have hi' : i ≠ head := by
          have := hi.1
          omega
        have hcell := htouch.other i hi'
        have hpos' : (placeToken head tok acc).1.pos i = acc.1.pos i := congrArg Prod.fst hcell
        have hseqs : (placeToken head tok acc).1.seq i = acc.1.seq i := congrArg Prod.snd hcell
        refine .inr ⟨i, Set.mem_insert_of_mem _ hi, ?_, ?_, ?_⟩
        · unfold Cells.isEmpty at hempty ⊢
          rwa [hpos'] at hempty
        · unfold Cells.seqGet at hseq ⊢
          simpa only [hseqs] using hseq
        · exact hmax.trans hpos'

/-! ## The purge -/

theorem seqRmErase_subset (seqId p0 p1 : Int) (c : Cells) (i : Nat) :
    seqRmErase seqId p0 p1 c i ⊆ entriesOf (c.cell i) := by
  intro e he
  unfold seqRmErase at he
  split at he
  · split at he
    · split at he
      · rename_i hs
        rw [Set.mem_singleton_iff.mp he]
        exact ⟨hs, rfl⟩
      · exact he.elim
    · exact he
  · exact he.elim

theorem seqRmCell_keeps {s : Nat} {p0 p1 : Int} {acc : Cells × Nat} {i : Nat}
    (h : ¬ Loses s p0 p1 (acc.1.cell i)) : (seqRmCell s p0 p1 acc i).1 = acc.1 := by
  unfold seqRmCell Cells.posIn
  dsimp only
  rw [if_pos (Int.natCast_nonneg s), Int.toNat_natCast]
  split
  · rename_i hin
    split
    · rename_i hs
      exact absurd ⟨hs, of_decide_eq_true hin⟩ h
    · rfl
  · rfl

section

variable {c₀ : Cells} {c : Cache} {F : Set (Nat × Int)} {D : Set Nat}

theorem Cells.Taken.seqRm (h : c₀.Taken F D c.cells) (s : Nat) (p0 p1 : Int) :
    c₀.Taken F D (c.seqRm s p0 p1).cells := by
  have hloop : ∀ (is : List Nat) (acc : Cells × Nat), c₀.Taken F D acc.1 →
      c₀.Taken F D (is.foldl (seqRmCell s (rangeFrom p0) (rangeTo p1)) acc).1 := by
    intro is
    induction is with
    | nil => exact fun _ h => h
    | cons i is ih =>
        intro acc h
        exact ih _ (h.shrink (seqRmCell_touches (rangeFrom_nonneg p0) h.tidy rfl))
  exact hloop _ _ h

theorem Cells.Spared.seqRm (h : c₀.Spared F D c.cells) {s : Nat} {p0 p1 : Int}
    (hspare : ∀ j, j ∉ D → ¬ Loses s (rangeFrom p0) (rangeTo p1) (c₀.cell j)) :
    c₀.Spared F D (c.seqRm s p0 p1).cells := by
  have hloop : ∀ (is : List Nat) (acc : Cells × Nat), c₀.Spared F D acc.1 →
      c₀.Spared F D (is.foldl (seqRmCell s (rangeFrom p0) (rangeTo p1)) acc).1 := by
    intro is
    induction is with
    | nil => exact fun _ h => h
    | cons i is ih =>
        intro acc h
        refine ih _ ?_
        by_cases hi : i ∈ D
        · exact h.shrink (seqRmCell_touches (rangeFrom_nonneg p0) h.tidy rfl) hi
            (seqRmErase_subset _ _ _ _ _)
        · rw [seqRmCell_keeps (by rw [h.cell i hi]; exact hspare i hi)]
          exact h
  exact hloop _ _ h

theorem Cells.Taken.purge (rmMax : SeqPosMaxRm) (seqs : List Nat) : ∀ {c : Cache},
    c₀.Taken F D c.cells → c₀.Taken F D (seqs.foldl (purgeSeq rmMax) c).cells := by
  induction seqs with
  | nil => exact fun h => h
  | cons s seqs ih =>
      intro c h
      refine ih ?_
      unfold purgeSeq
      split
      · exact h
      · split
        · exact h.seqRm s _ _
        · exact h

/-- A purge that would take nothing from the old cells outside. -/
theorem Cells.Spared.purge {rmMax : SeqPosMaxRm} {seqs : List Nat} (hnodup : seqs.Nodup)
    (h : c₀.Spared F D c.cells)
    (hspare : ∀ j, j ∉ D → ∀ s ∈ seqs, ¬ c.cells.Purges rmMax (c₀.cell j) s) :
    c₀.Spared F D (seqs.foldl (purgeSeq rmMax) c).cells := by
  induction seqs using List.reverseRecOn with
  | nil => exact h
  | append_singleton seqs s ih =>
      obtain ⟨hpre, -, hne⟩ := List.nodup_append.mp hnodup
      have hs : s ∉ seqs := fun hmem => hne s hmem s (List.mem_singleton_self s) rfl
      have hkept := ih hpre fun j hj t ht => hspare j hj t (List.mem_append_left _ ht)
      have hindex := @purge_seqPos rmMax seqs s hs c
      have hmin : (seqs.foldl (purgeSeq rmMax) c).cells.seqPosMin s = c.cells.seqPosMin s := by
        unfold Cells.seqPosMin
        simp only [hindex]
      simp only [List.foldl_append, List.foldl_cons, List.foldl_nil]
      rw [purgeSeq]
      split
      · exact hkept
      · rename_i hnone
        split
        · rename_i hle
          rw [hmin] at hle ⊢
          refine hkept.seqRm fun j hj hloses => ?_
          exact hspare j hj s (List.mem_append_right _ (List.mem_singleton_self s))
            ⟨hnone, hle, hloses⟩
        · exact hkept

end

end MzCache.Unified
