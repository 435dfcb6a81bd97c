import MzCache.Unified.UpdateSpec

/-!
# The plan of a defragmentation

The two scans of `defrag_prepare` agree on the cells they choose: with `used` exact, the cells
in use behind the current position that are not planned yet are as many as the places of the
used part still to be filled, so every hole finds its cells at the end. What is planned is a
last part of the cells in use, moved one to one onto the holes passed so far.
-/

namespace MzCache.Unified

open MzCache MzCache.Lib

/-! ## Copies of a plan -/

/-- A moved cell that does not continue the run of the cell before it. -/
def startsRun (n : Nat) (ids : Nat → Nat) (i : Nat) : Prop :=
  ids i ≠ n ∧ ids i ≠ i ∧ ∀ j, j + 1 = i → ids j ≠ n → ids j ≠ j → ids i ≠ ids j + 1

instance (n : Nat) (ids : Nat → Nat) : DecidablePred (startsRun n ids) := fun i =>
  decidable_of_iff (ids i ≠ n ∧ ids i ≠ i ∧
    ∀ j ∈ List.range i, j + 1 = i → ids j ≠ n → ids j ≠ j → ids i ≠ ids j + 1) (by
    unfold startsRun
    refine and_congr_right fun _ => and_congr_right fun _ => ?_
    exact ⟨fun h j hj => h j (List.mem_range.mpr (by omega)) hj, fun h j _ hj => h j hj⟩)

/-- The cells of the plan where a run starts. -/
def runStarts (n : Nat) (ids : Nat → Nat) : Finset Nat := (Finset.range n).filter (startsRun n ids)

section

variable {c : Cells} {n : Nat} {ids : Nat → Nat}

theorem takeWhile_range'_stop (p : Nat → Bool) (k : Nat) :
    ∀ a, ((List.range' a k).takeWhile p).length < k →
      p (a + ((List.range' a k).takeWhile p).length) = false := by
  induction k with
  | zero => exact fun _ h => absurd h (Nat.not_lt_zero _)
  | succ k ih =>
      intro a h
      rw [List.range'_succ] at h ⊢
      cases hp : p a with
      | false => simp [hp]
      | true =>
          rw [List.takeWhile_cons_of_pos hp, List.length_cons] at h ⊢
          have hstop := ih (a + 1) (by omega)
          rwa [show a + (((List.range' (a + 1) k).takeWhile p).length + 1) =
            a + 1 + ((List.range' (a + 1) k).takeWhile p).length by omega]

/-- A run stops where the next cell does not continue it. -/
theorem runLength_stop {i : Nat} (hend : i + runLength n ids i < n) :
    ids (i + runLength n ids i) ≠ ids i + runLength n ids i := by
  have hstop := takeWhile_range'_stop (fun x => decide (ids x = ids i + (x - i)))
    (n - (i + 1)) (i + 1)
  unfold runLength at hend ⊢
  set t := ((List.range' (i + 1) (n - (i + 1))).takeWhile
    fun x => decide (ids x = ids i + (x - i))).length
  have hfalse := of_decide_eq_false (hstop (by omega))
  rw [show i + (1 + t) = i + 1 + t by omega]
  omega

/-- Past `i` every copy has its start. -/
theorem defragRuns_le (fuel : Nat) : ∀ i,
    (∀ j, j + 1 = i → ids j ≠ n → ids j ≠ j → i < n → ids i ≠ ids j + 1) →
    (defragRuns n ids fuel i).length ≤ ((runStarts n ids).filter (i ≤ ·)).card := by
  induction fuel with
  | zero => exact fun i _ => Nat.zero_le _
  | succ fuel ih =>
      intro i hi
      rw [defragRuns]
      by_cases hlt : i < n
      · rw [if_pos hlt]
        by_cases hstay : i = ids i ∨ ids i = n
        · rw [if_pos hstay]
          refine (ih (i + 1) fun j hj hn hne => ?_).trans (Finset.card_le_card ?_)
          · obtain rfl : j = i := by omega
            exact absurd hstay (not_or.mpr ⟨hne.symm, hn⟩)
          · exact Finset.monotone_filter_right _ fun x _ hx => by
              have hx : i + 1 ≤ x := hx
              show i ≤ x
              omega
        · rw [if_neg hstay, List.length_cons]
          rw [not_or] at hstay
          have hpos := (@runLength_spec n ids i).2.2
          have hstart : i ∈ (runStarts n ids).filter (i ≤ ·) := by
            rw [Finset.mem_filter, runStarts, Finset.mem_filter, Finset.mem_range]
            exact ⟨⟨hlt, hstay.2, Ne.symm hstay.1, fun j hj hn hne => hi j hj hn hne hlt⟩, le_rfl⟩
          have hrest := ih (i + runLength n ids i) fun j hj hn hne hend => by
            have hrun := (@runLength_spec n ids i).1 (runLength n ids i - 1) (by omega)
            have hj' : j = i + (runLength n ids i - 1) := by omega
            rw [hj', hrun]
            have := runLength_stop hend
            omega
          have hsub : insert i ((runStarts n ids).filter (i + runLength n ids i ≤ ·)) ⊆
              (runStarts n ids).filter (i ≤ ·) := by
            intro x hx
            rcases Finset.mem_insert.mp hx with rfl | hx
            · exact hstart
            · rw [Finset.mem_filter] at hx ⊢
              exact ⟨hx.1, by omega⟩
          have hnot : i ∉ (runStarts n ids).filter (i + runLength n ids i ≤ ·) := by
            rw [Finset.mem_filter]
            omega
          have hcard := Finset.card_le_card hsub
          rw [Finset.card_insert_of_notMem hnot] at hcard
          omega
      · rw [if_neg hlt]
        exact Nat.zero_le _

/-- There are no more copies than run starts. -/
theorem defragRuns_le_starts (n : Nat) (ids : Nat → Nat) :
    (defragRuns n ids n 0).length ≤ (runStarts n ids).card := by
  have hle := @defragRuns_le n ids n 0 fun j hj => absurd hj (Nat.succ_ne_zero j)
  exact hle.trans (Finset.card_le_card (Finset.filter_subset _ _))

end

/-! ## The budget of moves -/

/-- The plan keeps to its moves: each move starts a copy of its own at most, and goes down. -/
structure DefragPlan.Thrifty (nKv maxMoves : Nat) (plan : DefragPlan) : Prop where
  moves_le : plan.nMoves ≤ maxMoves
  starts_le : (runStarts nKv plan.ids).card ≤ plan.nMoves
  lower : ∀ i, plan.Moved nKv i → plan.ids i < i

section

variable {c : Cells} {nKv maxMoves : Nat} {plan : DefragPlan}

/-- A cell in its place starts no copy. -/
theorem DefragPlan.Thrifty.stay (h : plan.Thrifty nKv maxMoves) {i0 : Nat}
    (hfree : plan.ids i0 = nKv) :
    DefragPlan.Thrifty nKv maxMoves { plan with ids := Function.update plan.ids i0 i0 } := by
  refine ⟨h.moves_le, (Finset.card_le_card fun x hx => ?_).trans h.starts_le, fun i hi => ?_⟩
  · rw [runStarts, Finset.mem_filter] at hx ⊢
    obtain ⟨hlt, hn, hne, hcont⟩ := hx
    dsimp only at hn hne hcont
    have hx0 : x ≠ i0 := by
      rintro rfl
      exact hne (Function.update_self ..)
    rw [Function.update_of_ne hx0] at hn hne hcont
    refine ⟨hlt, hn, hne, fun j hj hjn hjne => ?_⟩
    have hj0 : j ≠ i0 := fun heq => hjn (heq ▸ hfree)
    have := hcont j hj
    rw [Function.update_of_ne hj0] at this
    exact this hjn hjne
  · obtain ⟨h1, h2⟩ := hi
    dsimp only at h1 h2 ⊢
    have hi0 : i ≠ i0 := by
      rintro rfl
      exact h2 (Function.update_self ..)
    rw [Function.update_of_ne hi0] at h1 h2 ⊢
    exact h.lower i ⟨h1, h2⟩

/-- A planned cell starts a copy, unless the cell before it goes right before its target. -/
theorem DefragPlan.Thrifty.assign (h : plan.Thrifty nKv maxMoves) {i1 t m : Nat}
    (hfree : plan.ids i1 = nKv) (hlower : t < i1) (hm : m ≤ maxMoves)
    (hstart : m = plan.nMoves + 1 ∨
      m = plan.nMoves ∧ ∃ j, j + 1 = i1 ∧ plan.Moved nKv j ∧ t = plan.ids j + 1) :
    DefragPlan.Thrifty nKv maxMoves ⟨Function.update plan.ids i1 t, m⟩ := by
  have hother : ∀ x, x ≠ i1 → startsRun nKv (Function.update plan.ids i1 t) x →
      startsRun nKv plan.ids x := by
    rintro x hx ⟨hn, hne, hcont⟩
    rw [Function.update_of_ne hx] at hn hne hcont
    refine ⟨hn, hne, fun j hj hjn hjne => ?_⟩
    have hj1 : j ≠ i1 := fun heq => hjn (heq ▸ hfree)
    have := hcont j hj
    rw [Function.update_of_ne hj1] at this
    exact this hjn hjne
  refine ⟨hm, ?_, fun i hi => ?_⟩
  · rcases hstart with rfl | ⟨rfl, j, hj, ⟨hjn, hjne⟩, rfl⟩
    · have hsub : runStarts nKv (Function.update plan.ids i1 t) ⊆
          insert i1 (runStarts nKv plan.ids) := by
        intro x hx
        rw [Finset.mem_insert, runStarts, Finset.mem_filter]
        rw [runStarts, Finset.mem_filter] at hx
        by_cases hx1 : x = i1
        · exact .inl hx1
        · exact .inr ⟨hx.1, hother x hx1 hx.2⟩
      have hcard := (Finset.card_le_card hsub).trans (Finset.card_insert_le _ _)
      exact hcard.trans (Nat.add_le_add_right h.starts_le 1)
    · refine (Finset.card_le_card fun x hx => ?_).trans h.starts_le
      rw [runStarts, Finset.mem_filter] at hx ⊢
      refine ⟨hx.1, hother x ?_ hx.2⟩
      -- `i1` continues the copy of the cell before it
      rintro rfl
      have hj1 : j ≠ x := by omega
      have hcont := hx.2.2.2 j hj
      dsimp only at hcont
      rw [Function.update_of_ne hj1, Function.update_self] at hcont
      exact hcont hjn hjne rfl
  · obtain ⟨h1, h2⟩ := hi
    dsimp only at h1 h2 ⊢
    by_cases hi1 : i = i1
    · rw [hi1, Function.update_self]
      exact hlower
    · rw [Function.update_of_ne hi1] at h1 h2 ⊢
      exact h.lower i ⟨h1, h2⟩

theorem unmovable_eq_true {ids : Nat → Nat} {i : Nat} :
    c.unmovable nKv ids i = true ↔ c.pos i = -1 ∨ ids i ≠ nKv := by
  unfold Cells.unmovable Cells.isEmpty
  simp

theorem unmovable_eq_false {ids : Nat → Nat} {i : Nat} :
    ¬ c.unmovable nKv ids i = true ↔ c.pos i ≠ -1 ∧ ids i = nKv := by
  rw [unmovable_eq_true, not_or, not_not]

/-- Filling a hole from cells behind it keeps to the budget: the limit is looked at whenever a
copy could end. -/
theorem fillHole_thrifty {i0 nh : Nat} (hnKv : i0 + nh ≤ nKv) (k : Nat) :
    ∀ (r nf : Nat) (cont : Bool) (plan : DefragPlan), i0 + nh ≤ r → nf < nh →
      plan.Thrifty nKv maxMoves → (cont = false → plan.nMoves < maxMoves) →
      (cont = true → ∃ j, j + 1 = r ∧ plan.Moved nKv j ∧ i0 + nf = plan.ids j + 1) →
      (fillHole c nKv maxMoves i0 nh (List.range' r k) nf cont plan).1.Thrifty nKv maxMoves := by
  induction k with
  | zero => exact fun _ _ _ _ _ _ h _ _ => h
  | succ k ih =>
      intro r nf cont plan hr hnf h hcont hprev
      rw [List.range'_succ, fillHole]
      by_cases hun : c.unmovable nKv plan.ids r = true
      · rw [if_pos hun]
        by_cases hmax : plan.nMoves = maxMoves
        · rw [if_pos hmax]
          exact h
        · rw [if_neg hmax]
          have hle := h.moves_le
          exact ih (r + 1) nf false plan (by omega) hnf h (fun _ => by omega)
            fun hf => absurd hf Bool.false_ne_true
      · rw [if_neg hun]
        obtain ⟨-, hfree⟩ := unmovable_eq_false.mp hun
        have hassign : DefragPlan.Thrifty nKv maxMoves
            ⟨Function.update plan.ids r (i0 + nf),
              if cont then plan.nMoves else plan.nMoves + 1⟩ := by
          refine h.assign hfree (by omega) ?_ ?_
          · have hle := h.moves_le
            cases cont with
            | false =>
                have := hcont rfl
                exact this
            | true => exact hle
          · cases cont with
            | false => exact .inl rfl
            | true => exact .inr ⟨rfl, hprev rfl⟩
        dsimp only
        by_cases hlast : nf + 1 = nh
        · rw [if_pos hlast]
          exact hassign
        · rw [if_neg hlast]
          refine ih (r + 1) (nf + 1) true _ (by omega) (by omega) hassign
            (fun ht => absurd ht Bool.true_eq_false.mp) fun _ => ⟨r, rfl, ⟨?_, ?_⟩, ?_⟩
          · show Function.update plan.ids r (i0 + nf) r ≠ nKv
            rw [Function.update_self]
            omega
          · show Function.update plan.ids r (i0 + nf) r ≠ r
            rw [Function.update_self]
            omega
          · show i0 + (nf + 1) = Function.update plan.ids r (i0 + nf) r + 1
            rw [Function.update_self]
            omega

/-! ## Both scans choose the same cells -/

theorem fillHole_other {i0 nh : Nat} (is : List Nat) :
    ∀ (nf : Nat) (cont : Bool) (plan : DefragPlan) (i : Nat),
      i ∉ is ∨ c.unmovable nKv plan.ids i = true →
      (fillHole c nKv maxMoves i0 nh is nf cont plan).1.ids i = plan.ids i := by
  induction is with
  | nil => exact fun _ _ _ _ _ => rfl
  | cons i1 is ih =>
      intro nf cont plan i hi
      rw [fillHole]
      by_cases hun : c.unmovable nKv plan.ids i1 = true
      · rw [if_pos hun]
        split
        · rfl
        · exact ih nf false plan i (hi.imp_left fun h hmem => h (List.mem_cons_of_mem _ hmem))
      · have hne : i ≠ i1 := by
          rintro rfl
          exact hi.elim (fun h => h List.mem_cons_self) hun
        have hsame : Function.update plan.ids i1 (i0 + nf) i = plan.ids i :=
          Function.update_of_ne hne _ _
        rw [if_neg hun]
        dsimp only
        split
        · exact hsame
        · refine (ih (nf + 1) true _ i ?_).trans hsame
          refine hi.imp (fun h hmem => h (List.mem_cons_of_mem _ hmem)) fun h => ?_
          rw [unmovable_eq_true] at h ⊢
          dsimp only
          rwa [hsame]

/-- A scan that does not stop plans every movable cell of its list, if they are as many as the
hole is long. -/
theorem fillHole_fills {i0 nh : Nat} (hnKv : i0 + nh ≤ nKv) (is : List Nat) :
    ∀ (nf : Nat) (cont : Bool) (plan : DefragPlan), is.Nodup → (∀ i ∈ is, i0 + nh ≤ i) →
      nf < nh → is.countP (fun i => !c.unmovable nKv plan.ids i) = nh - nf →
      (fillHole c nKv maxMoves i0 nh is nf cont plan).2 = false → ∀ i ∈ is,
      ¬ c.unmovable nKv plan.ids i = true →
      (fillHole c nKv maxMoves i0 nh is nf cont plan).1.Moved nKv i := by
  induction is with
  | nil => exact fun _ _ _ _ _ _ _ _ i hi => absurd hi List.not_mem_nil
  | cons i1 is ih =>
      intro nf cont plan hnd hge hnf hcount hgo i hi hmov
      obtain ⟨hnot, hnd'⟩ := List.nodup_cons.mp hnd
      have hge' := fun j hj => hge j (List.mem_cons_of_mem i1 hj)
      rw [fillHole] at hgo ⊢
      by_cases hun : c.unmovable nKv plan.ids i1 = true
      · rw [if_pos hun] at hgo ⊢
        rw [List.countP_cons_of_neg (by simp [hun])] at hcount
        have hi' : i ∈ is := (List.mem_cons.mp hi).resolve_left fun h => hmov (h ▸ hun)
        by_cases hmax : plan.nMoves = maxMoves
        · rw [if_pos hmax] at hgo
          exact absurd hgo Bool.true_eq_false.mp
        · rw [if_neg hmax] at hgo ⊢
          exact ih nf false plan hnd' hge' hnf hcount hgo i hi' hmov
      · rw [if_neg hun] at hgo ⊢
        rw [List.countP_cons_of_pos (by simpa using hun)] at hcount
        dsimp only at hgo ⊢
        have hi1 := hge i1 List.mem_cons_self
        -- the head is planned, and the rest does not see it
        have hrest : ∀ j ∈ is, c.unmovable nKv (Function.update plan.ids i1 (i0 + nf)) j =
            c.unmovable nKv plan.ids j := by
          intro j hj
          have hne : j ≠ i1 := fun h => hnot (h ▸ hj)
          unfold Cells.unmovable
          rw [Function.update_of_ne hne]
        have hcount' : is.countP (fun j =>
            !c.unmovable nKv (Function.update plan.ids i1 (i0 + nf)) j) = nh - (nf + 1) := by
          rw [List.countP_congr fun j hj => by rw [hrest j hj]]
          omega
        have hhead : ∀ p : DefragPlan, p.ids i1 = i0 + nf → p.Moved nKv i1 := fun p hp =>
          ⟨by rw [hp]; omega, by rw [hp]; omega⟩
        by_cases hlast : nf + 1 = nh
        · rw [if_pos hlast]
          rcases List.mem_cons.mp hi with rfl | hi
          · exact hhead _ (Function.update_self ..)
          · rw [hlast, Nat.sub_self, List.countP_eq_zero] at hcount'
            have := hcount' i hi
            rw [hrest i hi] at this
            simp [hmov] at this
        · rw [if_neg hlast] at hgo ⊢
          rcases List.mem_cons.mp hi with rfl | hi
          · refine hhead _ ((fillHole_other is _ _ _ i (.inl hnot)).trans ?_)
            exact Function.update_self ..
          · exact ih (nf + 1) true _ hnd' hge' (by omega) hcount' hgo i hi (by rwa [hrest i hi])

/-- Backwards to the `nh`-th movable cell. -/
theorem findFromEnd_spec {ids : Nat → Nat} {i0 nh : Nat} (is : Nat) : ∀ nf, nf < nh →
    Nat.count (fun i => c.unmovable nKv ids i = false) (i0 + 1) + (nh - nf) ≤
      Nat.count (fun i => c.unmovable nKv ids i = false) (is + 1) →
    ∃ r, findFromEnd c nKv ids i0 nh is nf = (r, nh) ∧ i0 < r ∧ r ≤ is ∧
      c.unmovable nKv ids r = false ∧
      Nat.count (fun i => c.unmovable nKv ids i = false) (is + 1) =
        Nat.count (fun i => c.unmovable nKv ids i = false) r + (nh - nf) := by
  induction is with
  | zero =>
      intro nf hnf hcount
      have hmono := Nat.count_monotone (fun i => c.unmovable nKv ids i = false)
        (show 0 + 1 ≤ i0 + 1 by omega)
      omega
  | succ is ih =>
      intro nf hnf hcount
      rw [findFromEnd]
      by_cases hgt : is + 1 > i0
      · rw [if_pos hgt]
        have hsucc := Nat.count_succ (fun i => c.unmovable nKv ids i = false) (is + 1)
        rw [hsucc] at hcount ⊢
        by_cases hun : c.unmovable nKv ids (is + 1) = true
        · have hnot : ¬ c.unmovable nKv ids (is + 1) = false := by simp [hun]
          rw [if_neg hnot, Nat.add_zero] at hcount ⊢
          rw [if_pos hun]
          obtain ⟨r, hr, h1, h2, h3, h4⟩ := ih nf hnf hcount
          exact ⟨r, hr, h1, by omega, h3, h4⟩
        · have hfalse : c.unmovable nKv ids (is + 1) = false := by simpa using hun
          rw [if_pos hfalse] at hcount ⊢
          rw [if_neg hun]
          by_cases hlast : nf + 1 = nh
          · rw [if_pos hlast, hlast]
            exact ⟨is + 1, rfl, hgt, le_rfl, hfalse, by omega⟩
          · rw [if_neg hlast]
            obtain ⟨r, hr, h1, h2, h3, h4⟩ := ih (nf + 1) (by omega) (by omega)
            exact ⟨r, hr, h1, by omega, h3, by omega⟩
      · have hmono := Nat.count_monotone (fun i => c.unmovable nKv ids i = false)
          (show is + 1 + 1 ≤ i0 + 1 by omega)
        omega

/-! ## The loop over the used part -/

/-- The cells in use below `i`. -/
def Cells.usedBelow (c : Cells) (i : Nat) : Nat := Nat.count (fun i => c.pos i ≠ -1) i

theorem Cells.usedBelow_succ (c : Cells) (i : Nat) :
    c.usedBelow (i + 1) = c.usedBelow i + if c.pos i ≠ -1 then 1 else 0 := Nat.count_succ ..

theorem Cells.usedBelow_mono (c : Cells) {a b : Nat} (h : a ≤ b) : c.usedBelow a ≤ c.usedBelow b :=
  Nat.count_monotone _ h

theorem Cells.UsedExact.usedBelow_end (h : c.UsedExact) :
    c.usedBelow c.usedMaxP1 = c.getUsed := by
  rw [Cells.usedBelow, Nat.count_eq_card_filter_range]
  refine congrArg Finset.card (Finset.ext fun i => ?_)
  rw [Finset.mem_filter, Finset.mem_range]
  constructor
  · rintro ⟨hlt, hpos⟩
    exact (h i).mpr ⟨hlt.trans_le h.usedMaxP1_le, hpos⟩
  · intro hi
    have : i + 1 ≤ c.usedMaxP1 := Finset.le_sup (f := (· + 1)) hi
    exact ⟨by omega, ((h i).mp hi).2⟩

/-- The loop stands at `i0`: the cells in use from `e` on are planned onto the holes below, and
there are as many of them as of these. -/
structure DefragPlan.Upto (c : Cells) (nKv i0 e : Nat) (plan : DefragPlan) : Prop where
  behind : ∀ i, e ≤ i → i < nKv → c.pos i ≠ -1 → plan.Moved nKv i
  ahead : ∀ i, i0 ≤ i → i < e → plan.ids i = nKv
  stays : ∀ i, i < e → ¬ plan.Moved nKv i
  le : e ≤ nKv
  count : c.usedBelow nKv + c.usedBelow i0 = c.usedBelow e + i0

/-- The loop has not come to the planned cells while places of the used part are left. -/
theorem DefragPlan.Upto.before {i0 e : Nat} (h : plan.Upto c nKv i0 e)
    (hlt : i0 < c.usedBelow nKv) : i0 < e := by
  by_contra hge
  have hmono := c.usedBelow_mono (not_lt.mp hge)
  have := h.count
  omega

/-- A cell in use that stays. -/
theorem DefragPlan.Upto.stay {i0 e : Nat} (h : plan.Upto c nKv i0 e)
    (hlt : i0 < c.usedBelow nKv) (hused : c.pos i0 ≠ -1) :
    DefragPlan.Upto c nKv (i0 + 1) e { plan with ids := Function.update plan.ids i0 i0 } := by
  have hi0 := h.before hlt
  have hother : ∀ i, i ≠ i0 → Function.update plan.ids i0 i0 i = plan.ids i := fun i hi =>
    Function.update_of_ne hi _ _
  have hmoved : ∀ i, i ≠ i0 → (DefragPlan.Moved nKv
      { plan with ids := Function.update plan.ids i0 i0 } i ↔ plan.Moved nKv i) := fun i hi => by
    unfold DefragPlan.Moved
    dsimp only
    rw [hother i hi]
  refine ⟨fun i hle hi hu => (hmoved i (by omega)).mpr (h.behind i hle hi hu), fun i hle hi => ?_,
    fun i hi hm => ?_, h.le, ?_⟩
  · exact (hother i (by omega)).trans (h.ahead i (by omega) hi)
  · by_cases heq : i = i0
    · exact hm.2 (heq ▸ Function.update_self ..)
    · exact h.stays i hi ((hmoved i heq).mp hm)
  · have := h.count
    rw [c.usedBelow_succ, if_pos hused]
    omega

/-- Between the position and the planned cells, the movable cells are those in use. -/
theorem DefragPlan.Upto.count_movable {i0 e b : Nat} (h : plan.Upto c nKv i0 e) (hle : i0 ≤ b)
    (hb : b ≤ e) : Nat.count (fun i => c.unmovable nKv plan.ids i = false) b + c.usedBelow i0 =
      Nat.count (fun i => c.unmovable nKv plan.ids i = false) i0 + c.usedBelow b := by
  induction b, hle using Nat.le_induction with
  | base => rfl
  | succ b hle ih =>
      have hsucc := Nat.count_succ (fun i => c.unmovable nKv plan.ids i = false) b
      have hiff : c.unmovable nKv plan.ids b = false ↔ c.pos b ≠ -1 := by
        rw [← Bool.not_eq_true, unmovable_eq_false]
        exact and_iff_left (h.ahead b hle (by omega))
      have := ih (by omega)
      rw [hsucc, c.usedBelow_succ, if_congr hiff rfl rfl]
      omega

/-- No planned cell is movable. -/
theorem DefragPlan.Upto.count_behind {i0 e b : Nat} (h : plan.Upto c nKv i0 e) (hle : e ≤ b)
    (hb : b ≤ nKv) : Nat.count (fun i => c.unmovable nKv plan.ids i = false) b =
      Nat.count (fun i => c.unmovable nKv plan.ids i = false) e := by
  induction b, hle using Nat.le_induction with
  | base => rfl
  | succ b hle ih =>
      have hsucc := Nat.count_succ (fun i => c.unmovable nKv plan.ids i = false) b
      have hnot : ¬ c.unmovable nKv plan.ids b = false := by
        rw [← Bool.not_eq_true, unmovable_eq_false]
        exact fun hmov => (h.behind b hle (by omega) hmov.1).1 hmov.2
      rw [hsucc, if_neg hnot, Nat.add_zero, ih (by omega)]

theorem countP_range' (p : Nat → Bool) (k : Nat) : ∀ a,
    (List.range' a k).countP p + Nat.count (fun i => p i = true) a =
      Nat.count (fun i => p i = true) (a + k) := by
  induction k with
  | zero => exact fun a => Nat.zero_add _
  | succ k ih =>
      intro a
      have hsucc := Nat.count_succ (fun i => p i = true) (a + k)
      rw [List.range'_concat, List.countP_append, List.countP_singleton, Nat.one_mul, ← Nat.add_assoc,
        hsucc, ← ih a]
      omega

/-- A hole. The scan from the end finds its cells, and unless the budget ends, the scan back
plans all of them. -/
theorem DefragPlan.Upto.hole {i0 e nh : Nat} (h : plan.Upto c nKv i0 e)
    (hempty : ∀ k < nh, c.pos (i0 + k) = -1) (hfit : i0 + nh ≤ c.usedBelow nKv) (hpos : 0 < nh)
    (hle : c.usedBelow nKv ≤ nKv) :
    ∃ r, findFromEnd c nKv plan.ids i0 nh (nKv - 1) 0 = (r, nh) ∧ i0 + nh ≤ r ∧ r < nKv ∧
      ((fillHole c nKv maxMoves i0 nh (List.range' r (nKv - r)) 0 false plan).2 = false →
        (fillHole c nKv maxMoves i0 nh (List.range' r (nKv - r)) 0 false plan).1.Upto c nKv
          (i0 + nh) r) := by
  have hcount := h.count
  have hi0 := h.before (by omega)
  have hhole : ∀ b, i0 ≤ b → b ≤ i0 + nh → c.usedBelow b = c.usedBelow i0 := by
    intro b hb hb'
    induction b, hb using Nat.le_induction with
    | base => rfl
    | succ b hb ih =>
        have hb0 : c.pos b = -1 := by
          have := hempty (b - i0) (by omega)
          rwa [Nat.add_sub_cancel' hb] at this
        rw [c.usedBelow_succ, if_neg (not_not.mpr hb0), ih (by omega), Nat.add_zero]
  have hend := h.count_behind h.le le_rfl
  have hmid := h.count_movable hi0.le le_rfl
  have hnext := h.count_movable (show i0 ≤ i0 + 1 by omega) hi0
  have hone := hhole (i0 + 1) (Nat.le_succ i0) (by omega)
  have hlast : nKv - 1 + 1 = nKv := by omega
  obtain ⟨r, hr, hgt, hlt, hmov, hfound⟩ := @findFromEnd_spec c nKv plan.ids i0 nh (nKv - 1) 0 hpos
    (by rw [hlast]; omega)
  rw [hlast, Nat.sub_zero] at hfound
  obtain ⟨hused, hfree⟩ := unmovable_eq_false.mp (Bool.not_eq_true _ ▸ hmov)
  have hre : r < e := by
    by_contra hge
    exact (h.behind r (not_lt.mp hge) (by omega) hused).1 hfree
  have hrhole : i0 + nh ≤ r := by
    by_contra hlt'
    have := hempty (r - i0) (by omega)
    rw [Nat.add_sub_cancel' hgt.le] at this
    exact hused this
  have hrcount := h.count_movable hgt.le hre.le
  refine ⟨r, hr, hrhole, by omega, fun hgo => ?_⟩
  set plan' := (fillHole c nKv maxMoves i0 nh (List.range' r (nKv - r)) 0 false plan).1
  have hother : ∀ i, i < r ∨ nKv ≤ i ∨ c.unmovable nKv plan.ids i = true →
      plan'.ids i = plan.ids i := fun i hi => by
    refine fillHole_other _ 0 false plan i ?_
    rcases hi with hi | hi | hi
    · exact .inl fun hmem => by
        have := List.left_le_of_mem_range' hmem
        omega
    · exact .inl fun hmem => by
        have := (List.mem_range'_1.mp hmem).2
        omega
    · exact .inr hi
  have hfills : ∀ i, r ≤ i → i < nKv → c.pos i ≠ -1 → plan.ids i = nKv → plan'.Moved nKv i := by
    intro i hri hi hu hfr
    have hlen := countP_range' (fun i => !c.unmovable nKv plan.ids i) (nKv - r) r
    simp only [Bool.not_eq_true'] at hlen
    rw [Nat.add_sub_cancel' (by omega)] at hlen
    refine fillHole_fills (by omega) _ 0 false plan List.nodup_range' (fun j hj => ?_) hpos
      (by omega) hgo i (List.mem_range'_1.mpr ⟨hri, by omega⟩) (unmovable_eq_false.mpr ⟨hu, hfr⟩)
    have := List.left_le_of_mem_range' hj
    omega
  have hsame : ∀ i, plan'.ids i = plan.ids i → (plan'.Moved nKv i ↔ plan.Moved nKv i) :=
    fun i hi => by
      unfold DefragPlan.Moved
      rw [hi]
  refine ⟨fun i hri hi hu => ?_, fun i hi hir => ?_, fun i hi => ?_, by omega, ?_⟩
  · by_cases hie : e ≤ i
    · have hold := h.behind i hie hi hu
      exact (hsame i (hother i (.inr (.inr (unmovable_eq_true.mpr (.inr hold.1)))))).mpr hold
    · exact hfills i hri hi hu (h.ahead i (by omega) (not_le.mp hie))
  · exact (hother i (.inl hir)).trans (h.ahead i (by omega) (by omega))
  · rw [hsame i (hother i (.inl hi))]
    exact h.stays i (by omega)
  · have := hhole (i0 + nh) (by omega) le_rfl
    omega

theorem fillHole_stop {i0 nh : Nat} (is : List Nat) :
    ∀ (nf : Nat) (cont : Bool) (plan : DefragPlan),
      (fillHole c nKv maxMoves i0 nh is nf cont plan).2 = true →
      (fillHole c nKv maxMoves i0 nh is nf cont plan).1.nMoves = maxMoves := by
  induction is with
  | nil => exact fun _ _ _ h => absurd h Bool.false_ne_true
  | cons i1 is ih =>
      intro nf cont plan h
      rw [fillHole] at h ⊢
      split at h
      · rename_i hun
        rw [if_pos hun]
        split at h
        · rename_i hmax
          rw [if_pos hmax]
          exact hmax
        · rename_i hmax
          rw [if_neg hmax]
          exact ih nf false plan h
      · rename_i hun
        rw [if_neg hun]
        dsimp only at h ⊢
        split at h
        · exact absurd h Bool.false_ne_true
        · rename_i hlast
          rw [if_neg hlast]
          exact ih (nf + 1) true _ h

/-- The whole loop: it never fails its assertion, keeps to the budget, and gets to the end of
the used part when the budget lasts. -/
theorem defragFrom_spec {nUsed : Nat} (hused : c.usedBelow nKv = nUsed) (hle : nUsed ≤ nKv)
    (fuel : Nat) : ∀ (i0 e : Nat) (plan : DefragPlan), i0 ≤ nUsed → nUsed ≤ i0 + fuel →
      plan.Upto c nKv i0 e → plan.Thrifty nKv maxMoves → plan.nMoves < maxMoves →
      ∃ plan', defragFrom c nKv nUsed maxMoves fuel i0 plan = some plan' ∧
        plan'.Thrifty nKv maxMoves ∧
        (plan'.nMoves < maxMoves → ∃ e', plan'.Upto c nKv nUsed e') := by
  subst hused
  induction fuel with
  | zero =>
      intro i0 e plan hi0 hfuel hup hth _
      obtain rfl : i0 = c.usedBelow nKv := by omega
      exact ⟨plan, rfl, hth, fun _ => ⟨e, hup⟩⟩
  | succ fuel ih =>
      intro i0 e plan hi0 hfuel hup hth hmoves
      rw [defragFrom]
      by_cases hlt : i0 < c.usedBelow nKv
      · rw [if_pos hlt]
        by_cases hempty : c.isEmpty i0 = true
        · rw [if_pos hempty]
          obtain ⟨hhole, hfit, hpos⟩ := holeSize_spec hempty hlt
          obtain ⟨r, hfind, hr, hrlt, hnext⟩ :=
            @DefragPlan.Upto.hole c nKv maxMoves plan i0 e _ hup hhole hfit hpos hle
          have hfill := @fillHole_thrifty c nKv maxMoves i0 _ (hfit.trans hle) (nKv - r) r 0 false
            plan hr hpos hth (fun _ => hmoves) fun h => absurd h Bool.false_ne_true
          have hstop := @fillHole_stop c nKv maxMoves i0 (c.holeSize (c.usedBelow nKv) i0)
            (List.range' r (nKv - r)) 0 false plan
          simp only [hfind, if_true]
          set res := fillHole c nKv maxMoves i0 (c.holeSize (c.usedBelow nKv) i0)
            (List.range' r (nKv - r)) 0 false plan
          by_cases hend : res.2 = true ∨ res.1.nMoves = maxMoves
          · rw [if_pos hend]
            have hmax : res.1.nMoves = maxMoves := hend.elim hstop id
            exact ⟨_, rfl, hfill, fun h => absurd hmax h.ne⟩
          · rw [if_neg hend]
            rw [not_or, Bool.not_eq_true] at hend
            exact ih _ r _ hfit (by omega) (hnext hend.1) hfill
              (lt_of_le_of_ne hfill.moves_le hend.2)
        · rw [if_neg hempty]
          have hpos : c.pos i0 ≠ -1 := fun h => hempty (decide_eq_true h)
          exact ih (i0 + 1) e _ (by omega) (by omega) (hup.stay hlt hpos)
            (hth.stay (hup.ahead i0 le_rfl (hup.before hlt))) hmoves
      · rw [if_neg hlt]
        obtain rfl : i0 = c.usedBelow nKv := by omega
        exact ⟨plan, rfl, hth, fun _ => ⟨e, hup⟩⟩

end

/-! ## After the moves -/

section

variable {c : Cells} {n nUsed e : Nat} {ids : Nat → Nat} {plan : DefragPlan}

theorem moves_movable (h : c.PlanOk n ids) (m : Nat) :
    ((List.range m).foldl (moveCell n ids) c).Movable n ids m := by
  have hm := (@moves_carry ⟨c, fun _ => 0, false⟩ n ids h m).1
  rwa [moves_cells] at hm

/-- A cell is in use after the moves below `m` when it is a target or was in use and stayed. -/
theorem moves_used (h : c.PlanOk n ids) (m : Nat) : ∀ x,
    ((List.range m).foldl (moveCell n ids) c).pos x ≠ -1 ↔
      (∃ i < m, ids i ≠ n ∧ ids i ≠ i ∧ ids i = x) ∨
        (c.pos x ≠ -1 ∧ ¬ (x < m ∧ ids x ≠ n ∧ ids x ≠ x)) := by
  induction m with
  | zero => exact fun x => by simp
  | succ m ih =>
      intro x
      have hmov := moves_movable h m
      rw [List.range_succ, List.foldl_append, List.foldl_cons, List.foldl_nil]
      set c' := (List.range m).foldl (moveCell n ids) c
      unfold moveCell
      by_cases hstay : ids m = n ∨ ids m = m
      · rw [if_pos hstay, ih x]
        have hnot : ¬ (ids m ≠ n ∧ ids m ≠ m) := by tauto
        refine or_congr ⟨?_, ?_⟩ (and_congr_right fun _ => not_congr ⟨?_, ?_⟩)
        · rintro ⟨i, hi, hrest⟩
          exact ⟨i, by omega, hrest⟩
        · rintro ⟨i, hi, h1, h2, h3⟩
          have : i ≠ m := fun heq => hnot (heq ▸ ⟨h1, h2⟩)
          exact ⟨i, by omega, h1, h2, h3⟩
        · rintro ⟨hx, hrest⟩
          exact ⟨by omega, hrest⟩
        · rintro ⟨hx, hrest⟩
          have : x ≠ m := fun heq => hnot (heq ▸ hrest)
          exact ⟨by omega, hrest⟩
      · rw [if_neg hstay]
        rw [not_or] at hstay
        have hsrc := hmov.source m le_rfl hstay.1 hstay.2
        rw [Cells.mv_pos]
        by_cases hxm : x = m
        · rw [if_pos hxm, hxm]
          have hno : ¬ ∃ i < m + 1, ids i ≠ n ∧ ids i ≠ i ∧ ids i = m := by
            rintro ⟨i, hi, h1, h2, h3⟩
            have hfree := (h.movable.target i (Nat.zero_le i) h1 h2).1
            exact h.movable.source m (Nat.zero_le m) hstay.1 hstay.2 (h3 ▸ hfree)
          exact iff_of_false (not_not.mpr rfl) (not_or.mpr ⟨hno, fun hx =>
            hx.2 ⟨Nat.lt_succ_self m, hstay.1, hstay.2⟩⟩)
        · rw [if_neg hxm]
          by_cases hxt : x = ids m
          · rw [if_pos hxt]
            exact iff_of_true hsrc (.inl ⟨m, by omega, hstay.1, hstay.2, hxt.symm⟩)
          · rw [if_neg hxt, ih x]
            refine or_congr ⟨?_, ?_⟩ (and_congr_right fun _ => not_congr ⟨?_, ?_⟩)
            · rintro ⟨i, hi, hrest⟩
              exact ⟨i, by omega, hrest⟩
            · rintro ⟨i, hi, h1, h2, h3⟩
              have : i ≠ m := fun heq => hxt (heq ▸ h3.symm)
              exact ⟨i, by omega, h1, h2, h3⟩
            · rintro ⟨hx, hrest⟩
              exact ⟨by omega, hrest⟩
            · rintro ⟨hx, hrest⟩
              exact ⟨by omega, hrest⟩

/-- Every hole of the used part is a target when the loop got to its end. -/
theorem DefragPlan.Upto.onto (hup : plan.Upto c n nUsed e) (hused : c.usedBelow n = nUsed)
    (hsound : plan.Sound c n nUsed) {x : Nat} (hx : x < nUsed) (hempty : c.pos x = -1) :
    ∃ i < n, plan.Moved n i ∧ plan.ids i = x := by
  -- as many cells are planned as there are holes
  let moved := (Finset.range n).filter (c.pos · ≠ -1) \ (Finset.range e).filter (c.pos · ≠ -1)
  let holes := (Finset.range nUsed).filter fun i => ¬ c.pos i ≠ -1
  have hmem : ∀ i ∈ moved, i < n ∧ plan.Moved n i := by
    intro i hi
    rw [Finset.mem_sdiff, Finset.mem_filter, Finset.mem_filter, Finset.mem_range,
      Finset.mem_range] at hi
    obtain ⟨⟨hlt, hpos⟩, hnot⟩ := hi
    exact ⟨hlt, hup.behind i (not_lt.mp fun hie => hnot ⟨hie, hpos⟩) hlt hpos⟩
  have hsub : (Finset.range e).filter (c.pos · ≠ -1) ⊆ (Finset.range n).filter (c.pos · ≠ -1) :=
    Finset.filter_subset_filter _ (Finset.range_mono hup.le)
  have hmoved : moved.card = c.usedBelow n - c.usedBelow e := by
    rw [Finset.card_sdiff_of_subset hsub, Cells.usedBelow, Cells.usedBelow,
      Nat.count_eq_card_filter_range, Nat.count_eq_card_filter_range]
  have hholes : c.usedBelow nUsed + holes.card = nUsed := by
    rw [Cells.usedBelow, Nat.count_eq_card_filter_range,
      Finset.card_filter_add_card_filter_not, Finset.card_range]
  have himage : moved.image plan.ids ⊆ holes := by
    intro t ht
    obtain ⟨i, hi, rfl⟩ := Finset.mem_image.mp ht
    obtain ⟨hfree, hlt⟩ := hsound.target i (hmem i hi).2
    exact Finset.mem_filter.mpr ⟨Finset.mem_range.mpr hlt, not_not.mpr hfree⟩
  have hinj : (moved.image plan.ids).card = moved.card :=
    Finset.card_image_of_injOn fun i hi j hj heq =>
      hsound.inj i j (hmem i hi).2 (hmem j hj).2 heq
  have hcount := hup.count
  have heq := Finset.eq_of_subset_of_card_le himage (by omega)
  have hxhole : x ∈ moved.image plan.ids := by
    rw [heq]
    exact Finset.mem_filter.mpr ⟨Finset.mem_range.mpr hx, not_not.mpr hempty⟩
  obtain ⟨i, hi, hix⟩ := Finset.mem_image.mp hxhole
  exact ⟨i, (hmem i hi).1, (hmem i hi).2, hix⟩

/-- With the budget unspent the cells in use become the used part. -/
theorem DefragPlan.Upto.compact (hexact : c.UsedExact) (hup : plan.Upto c c.usedMaxP1 c.getUsed e)
    (hsound : plan.Sound c c.usedMaxP1 c.getUsed) (hok : c.PlanOk c.usedMaxP1 plan.ids) :
    ∀ x < c.size, ((List.range c.usedMaxP1).foldl (moveCell c.usedMaxP1 plan.ids) c).pos x ≠ -1 ↔
      x < c.getUsed := by
  intro x hsize
  have hend := hexact.usedBelow_end
  have hcount := hup.count
  have hsucc := c.usedBelow_succ x
  rw [moves_used hok]
  constructor
  · rintro (⟨i, -, h1, h2, rfl⟩ | ⟨hpos, hstay⟩)
    · exact (hsound.target i ⟨h1, h2⟩).2
    · have hlt : x < c.usedMaxP1 := by
        have : x + 1 ≤ c.usedMaxP1 :=
          Finset.le_sup (f := (· + 1)) ((hexact x).mpr ⟨hsize, hpos⟩)
        omega
      have hxe : x < e := by
        by_contra hge
        exact hstay ⟨hlt, hup.behind x (not_lt.mp hge) hlt hpos⟩
      by_contra hge
      have h1 := c.usedBelow_mono (not_lt.mp hge)
      have h2 := c.usedBelow_mono (show x + 1 ≤ e from hxe)
      rw [if_pos hpos] at hsucc
      omega
  · intro hx
    by_cases hpos : c.pos x = -1
    · obtain ⟨i, hi, ⟨h1, h2⟩, hix⟩ := hup.onto hend hsound hx hpos
      exact .inl ⟨i, hi, h1, h2, hix⟩
    · refine .inr ⟨hpos, fun hmoved => ?_⟩
      have hxe : e ≤ x := by
        by_contra hlt
        exact hup.stays x (not_le.mp hlt) hmoved.2
      have h1 := c.usedBelow_mono hxe
      have h2 := c.usedBelow_mono (show x + 1 ≤ c.getUsed from hx)
      rw [if_pos hpos] at hsucc
      omega

/-- A plan without moves moves nothing. -/
theorem DefragPlan.Thrifty.still {maxMoves : Nat} (h : plan.Thrifty n maxMoves)
    (h0 : plan.nMoves = 0) (i : Nat) : i < n → ¬ plan.Moved n i := by
  have hnone : runStarts n plan.ids = ∅ :=
    Finset.card_eq_zero.mp (Nat.le_zero.mp (h0 ▸ h.starts_le))
  induction i with
  | zero =>
      intro hlt hm
      have : (0 : Nat) ∈ runStarts n plan.ids := Finset.mem_filter.mpr
        ⟨Finset.mem_range.mpr hlt, hm.1, hm.2, fun j hj => absurd hj (Nat.succ_ne_zero j)⟩
      rw [hnone] at this
      exact Finset.notMem_empty 0 this
  | succ i ih =>
      intro hlt hm
      have : i + 1 ∈ runStarts n plan.ids := by
        refine Finset.mem_filter.mpr ⟨Finset.mem_range.mpr hlt, hm.1, hm.2, fun j hj h1 h2 => ?_⟩
        obtain rfl : j = i := by omega
        exact absurd ⟨h1, h2⟩ (ih (by omega))
      rw [hnone] at this
      exact Finset.notMem_empty _ this

theorem foldl_moveCell_still {m : Nat} (h : ∀ i < m, ¬ plan.Moved n i) :
    (List.range m).foldl (moveCell n plan.ids) c = c := by
  induction m with
  | zero => rfl
  | succ m ih =>
      rw [List.range_succ, List.foldl_append, List.foldl_cons, List.foldl_nil,
        ih fun i hi => h i (by omega), moveCell, if_pos]
      have hm := h m (Nat.lt_succ_self m)
      unfold DefragPlan.Moved at hm
      tauto

end

end MzCache.Unified
