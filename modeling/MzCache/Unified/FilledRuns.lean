import MzCache.Unified.Filled

/-!
# Sessions of a filled cache

Every call of a session leaves the cache filled, and every slot that a decode finds on the way is
the position of its ubatch. The trial of `prepare` extends the sequence and cuts it again; a decode
that fails has cut the ubatch it failed at; a restore of what such a cache saved fills the cells
anew, also when it stops at the rows.
-/

namespace MzCache.Unified

open MzCache MzCache.Lib

section

variable {sh : Shape} {alloc : Alloc} {s n m : Nat} {c : Cells} {d : Cache}

/-! ## Defragmentation -/

theorem Cells.Filled.getUsed (h : c.Filled s n) : c.getUsed = n := by
  have hused : c.used = Finset.range n := by
    ext j
    rw [h.indexed.tidy.used, Finset.mem_range]
    by_cases hj : j < n
    · rw [(h.below hj).1]
      omega
    · rw [(h.above (not_lt.mp hj)).1]
      omega
  rw [Cells.getUsed, hused, Finset.card_range]

/-- There is no hole to fill. -/
theorem Cells.Filled.defragFrom (h : c.Filled s n) (nKv maxMoves fuel : Nat) :
    ∀ (i0 : Nat) (plan : DefragPlan), ∃ plan',
      defragFrom c nKv n maxMoves fuel i0 plan = some plan' ∧ plan'.nMoves = plan.nMoves := by
  induction fuel with
  | zero => exact fun _ plan => ⟨plan, rfl, rfl⟩
  | succ fuel ih =>
      intro i0 plan
      rw [MzCache.Unified.defragFrom]
      by_cases hi : i0 < n
      · have hfull : c.isEmpty i0 = false := by
          rw [← Bool.not_eq_true, h.isEmpty_iff]
          omega
        rw [if_pos hi, hfull, if_neg Bool.false_ne_true]
        exact ih (i0 + 1) _
      · rw [if_neg hi]
        exact ⟨plan, rfl, rfl⟩

theorem Cells.Filled.defragPrepare (h : c.Filled s n) (nMaxNodes : Nat) :
    ∃ ids, c.defragPrepare sh nMaxNodes = some (0, ids) := by
  unfold Cells.defragPrepare
  dsimp only
  obtain ⟨plan, hplan, hmoves⟩ := h.defragFrom c.usedMaxP1
    ((nMaxNodes + 2 ^ 32 - 2 * sh.layers.length) % 2 ^ 32 / (6 * sh.layers.length)) n 0
    ⟨fun _ => c.usedMaxP1, 0⟩
  refine ⟨plan.ids, ?_⟩
  rw [h.getUsed, hplan, Option.map_some, if_pos hmoves]

/-- A filled cache is not defragmented. -/
theorem Cache.Filled.selfUpdate (h : d.Filled s n) (nMaxNodes : Nat) :
    d.selfUpdate sh nMaxNodes = (d, false) := by
  obtain ⟨ids, hprep⟩ := @Cells.Filled.defragPrepare sh s n d.cells h.cells nMaxNodes
  unfold Cache.selfUpdate Cache.defrag
  rw [hprep]
  rfl

/-! ## The trial -/

/-- The slots found for ubatches, each at its position. -/
def AllAtPosition (s : Nat) (slots : List (Nat × List BatchToken)) : Prop :=
  ∀ x ∈ slots, AtPosition s x.1 x.2

/-- What the trial of ubatches that continue the sequence comes to. -/
structure Trialled (s n : Nat) (ubatches : List (List BatchToken)) (t : Trial)
    (r : Trial × Placed) : Prop where
  size : r.1.cache.cells.size = t.cache.cells.size
  slots : ∃ heads, r.1.res = t.res ++ heads ∧ AllAtPosition s (heads.zip ubatches) ∧
    (r.2 = .all → heads.length = ubatches.length ∧
      n + ubatches.flatten.length ≤ t.cache.cells.size)
  threw : r.2 = .threw → ∃ m, r.1.cache.Filled s m
  undone : r.2 ≠ .threw → ∃ states, r.1.states = states ++ t.states ∧
    (states.foldl restoreSlot r.1.cache).Filled s n ∧
    (states.foldl restoreSlot r.1.cache).cells.size = t.cache.cells.size

section

variable {t t' : Trial} {r : Trial × Placed} {ubatch : List BatchToken}
  {ubatches : List (List BatchToken)}

/-- No slot for the first ubatch. -/
theorem Trialled.refused (h : t.cache.Filled s n) : Trialled s n ubatches t (t, .noSlot) :=
  ⟨rfl, ⟨[], (List.append_nil _).symm, fun x hx => absurd hx (by simp),
    fun hall => by cases hall⟩, (fun hthrew => by cases hthrew), fun _ => ⟨[], rfl, h, rfl⟩⟩

/-- A slot for the first ubatch, but not the memory. -/
theorem Trialled.thrown (hsize : t'.cache.cells.size = t.cache.cells.size)
    (hres : t'.res = t.res ++ [n]) (hat : AtPosition s n ubatch) (hfilled : t'.cache.Filled s m) :
    Trialled s n (ubatch :: ubatches) t (t', .threw) := by
  refine ⟨hsize, ⟨[n], hres, ?_, fun hall => by cases hall⟩, fun _ => ⟨m, hfilled⟩,
    fun hend => absurd rfl hend⟩
  intro x hx
  rw [List.zip_cons_cons, List.zip_nil_left, List.mem_singleton] at hx
  exact hx ▸ hat

/-- The first ubatch placed at `n`, and the trial of the others. -/
theorem Trialled.cons (h : t.cache.Filled s n) (hsize : t'.cache.cells.size = t.cache.cells.size)
    (hres : t'.res = t.res ++ [n]) (hat : AtPosition s n ubatch)
    (hstates : t'.states = ⟨t.cache.head, n, t.cache.cells.cp n ubatch.length⟩ :: t.states)
    (hrest : Trialled s (n + ubatch.length) ubatches t' r) :
    Trialled s n (ubatch :: ubatches) t r := by
  obtain ⟨hsize', ⟨heads, hheads, hslots, hcount⟩, hthrew, hundone⟩ := hrest
  refine ⟨hsize'.trans hsize, ⟨n :: heads, ?_, ?_, fun hall => ?_⟩, hthrew, fun hend => ?_⟩
  · rw [hheads, hres, List.append_assoc]
    rfl
  · intro x hx
    rw [List.zip_cons_cons] at hx
    rcases List.mem_cons.mp hx with rfl | hx
    · exact hat
    · exact hslots x hx
  · obtain ⟨hlength, hroom⟩ := hcount hall
    rw [hsize] at hroom
    rw [List.flatten_cons, List.length_append, ← Nat.add_assoc]
    exact ⟨congrArg (· + 1) hlength, hroom⟩
  · obtain ⟨states, happended, hback, hsize''⟩ := hundone hend
    refine ⟨states ++ [⟨t.cache.head, n, t.cache.cells.cp n ubatch.length⟩], ?_, ?_, ?_⟩
    · rw [happended, hstates, List.append_assoc]
      rfl
    · rw [List.foldl_append]
      exact hback.restoreSlot h.cells h.head rfl rfl
    · rw [List.foldl_append]
      exact (Cells.set_size _ _ _).trans (hsize''.trans hsize)

end

theorem placeUbatches_filled (hswa : sh.swaType = .none) (ubatches : List (List BatchToken)) :
    ∀ (n : Nat) (t : Trial), t.cache.Filled s n → (∀ ubatch ∈ ubatches, ubatch ≠ []) →
      InChunk ubatches.flatten → Consecutive s n ubatches.flatten →
      Trialled s n ubatches t (placeUbatches sh alloc ubatches t) := by
  induction ubatches with
  | nil =>
      intro n t h _ _ _
      exact ⟨rfl, ⟨[], (List.append_nil _).symm, fun x hx => absurd hx List.not_mem_nil,
        fun _ => ⟨rfl, h.cells.room⟩⟩, (fun hthrew => by cases hthrew), fun _ => ⟨[], rfl, h, rfl⟩⟩
  | cons ubatch ubatches ih =>
      intro n t h hne hchunk hcons
      have hlen := List.length_pos_of_ne_nil (hne ubatch List.mem_cons_self)
      rw [List.flatten_cons] at hchunk hcons
      obtain ⟨hchunk₁, hchunk₂⟩ := hchunk.append
      obtain ⟨hcons₁, hcons₂⟩ := Consecutive.append.mp hcons
      have hat := hchunk₁.atPosition (hne ubatch List.mem_cons_self) hcons₁
      rw [placeUbatches, h.findSlot hswa hlen]
      by_cases hfit : n + ubatch.length ≤ t.cache.cells.size
      · rw [if_pos hfit]
        obtain ⟨hplaced, hfailed⟩ := @Cache.Filled.applyUbatch sh alloc s n t.cache ubatch
          h hcons₁ hfit
        have hsize := (@headKept_applyUbatch sh alloc n ubatch t.cache hfit).size
        have hgo := ih (n + ubatch.length) (placeAt sh alloc n ubatch t).1
        unfold placeAt at hgo ⊢
        dsimp only at hgo ⊢
        by_cases hok : (applyUbatch sh alloc n ubatch t.cache).2 = true
        · rw [if_pos hok]
          refine .cons h hsize rfl hat rfl (hgo (hplaced hok)
            (fun u hu => hne u (List.mem_cons_of_mem _ hu)) hchunk₂ ?_)
          push_cast at hcons₂ ⊢
          exact hcons₂
        · rw [if_neg hok]
          exact .thrown hsize rfl hat (hfailed (Bool.not_eq_true _ ▸ hok))
      · rw [if_neg hfit]
        exact .refused h

/-! ## One decode -/

/-- What `prepare` of ubatches that continue the sequence comes to. -/
structure Prepared (s n : Nat) (ubatches : List (List BatchToken)) (d : Cache)
    (r : Cache × Option (List Nat)) : Prop where
  size : r.1.cells.size = d.cells.size
  threw : r.2 = none → ∃ m, r.1.Filled s m
  found : ∀ heads, r.2 = some heads → r.1.Filled s n ∧
    (heads ≠ [] → (heads.length = ubatches.length ∧ n + ubatches.flatten.length ≤ d.cells.size) ∧
      AllAtPosition s (heads.zip ubatches))

theorem prepare_filled (hswa : sh.swaType = .none) {ubatches : List (List BatchToken)}
    (h : d.Filled s n) (hne : ∀ ubatch ∈ ubatches, ubatch ≠ []) (hchunk : InChunk ubatches.flatten)
    (hcons : Consecutive s n ubatches.flatten) :
    AllAtPosition s ((placeUbatches sh alloc ubatches ⟨d, [], []⟩).1.res.zip ubatches) ∧
      Prepared s n ubatches d (d.prepare sh alloc ubatches) := by
  obtain ⟨hsize, ⟨heads, hres, hslots, hcount⟩, hthrew, hundone⟩ :=
    @placeUbatches_filled sh alloc s hswa ubatches n ⟨d, [], []⟩ h hne hchunk hcons
  rw [List.nil_append] at hres
  unfold Cache.prepare
  generalize placeUbatches sh alloc ubatches ⟨d, [], []⟩ = r at hsize hres hcount hthrew hundone ⊢
  subst hres
  dsimp only
  refine ⟨hslots, ?_⟩
  have hundo : r.2 ≠ .threw → (r.1.states.foldl restoreSlot r.1.cache).Filled s n ∧
      (r.1.states.foldl restoreSlot r.1.cache).cells.size = d.cells.size := by
    intro hend
    obtain ⟨states, hstates, hback⟩ := hundone hend
    rw [hstates, List.append_nil]
    exact hback
  cases hend : r.2 with
  | threw => exact ⟨hsize, fun _ => hthrew hend, fun _ hnone => nomatch hnone⟩
  | noSlot =>
      obtain ⟨hback, hsize'⟩ := hundo (by rw [hend]; decide)
      refine ⟨hsize', (fun hnone => nomatch hnone), fun heads hheads => ⟨hback, fun hsome => ?_⟩⟩
      exact absurd (Option.some.inj hheads).symm hsome
  | all =>
      obtain ⟨hback, hsize'⟩ := hundo (by rw [hend]; decide)
      refine ⟨hsize', (fun hnone => nomatch hnone), fun heads hheads => ⟨hback, fun _ => ?_⟩⟩
      obtain rfl := Option.some.inj hheads
      exact ⟨hcount hend, hslots⟩

/-- A sequence that comes first in no token is not cleaned up. -/
theorem rollbackPosMin_absent {ubatch : List BatchToken}
    (h : ∀ tok ∈ ubatch, tok.firstSeq ≠ s) : rollbackPosMin ubatch s = posLimit := by
  unfold rollbackPosMin
  generalize posLimit = p
  induction ubatch generalizing p with
  | nil => rfl
  | cons tok ubatch ih =>
      rw [List.foldl_cons, if_neg (h tok List.mem_cons_self)]
      exact ih (fun tok' htok' => h tok' (List.mem_cons_of_mem _ htok')) p

/-- The clean-up only cuts the sequence. -/
theorem rollback_filled {ubatch : List BatchToken} (hlt : d.cells.size < 2 ^ 31)
    (hseqs : ∀ tok ∈ ubatch, tok.seqIds = [s]) (h : d.Filled s n) :
    (∃ m, (d.rollback ubatch).Filled s m) ∧
      (d.rollback ubatch).cells.size = d.cells.size := by
  have hloop : ∀ (seqs : List Nat) (e : Cache), e.cells.size = d.cells.size →
      (∃ m, e.Filled s m) → (∃ m, (seqs.foldl (rollbackSeq ubatch) e).Filled s m) ∧
        (seqs.foldl (rollbackSeq ubatch) e).cells.size = d.cells.size := by
    intro seqs
    induction seqs with
    | nil => exact fun e hsize he => ⟨he, hsize⟩
    | cons t seqs ih =>
        intro e hsize he
        rw [List.foldl_cons]
        by_cases hpresent : rollbackPosMin ubatch t = posLimit
        · have hsame : rollbackSeq ubatch e t = e := if_pos hpresent
          rw [hsame]
          exact ih e hsize he
        · obtain rfl : t = s := by
            by_contra hne
            refine hpresent (rollbackPosMin_absent fun tok htok hfirst => hne ?_)
            rw [← hfirst, BatchToken.firstSeq, hseqs tok htok]
            rfl
          obtain ⟨m, hm⟩ := he
          have hroom := hm.cells.room
          have hcut : rollbackSeq ubatch e t = e.seqRm t (rollbackPosMin ubatch t) (-1) :=
            if_neg hpresent
          rw [hcut]
          exact ih _ ((Cache.seqRm_size _ _ _ _).trans hsize) ⟨_, hm.seqRm (by omega) _⟩
  exact hloop _ d rfl ⟨n, h⟩

/-- The ubatches that continue the sequence, each applied at its head. -/
theorem decodeFrom_filled {computes : Nat → Bool} (rest : List (Nat × List BatchToken)) :
    ∀ (n k : Nat) (past : List BatchToken) (d : Cache), d.Filled s n → d.cells.size < 2 ^ 31 →
      AllAtPosition s rest → Consecutive s n (tokensOf rest) →
      n + (tokensOf rest).length ≤ d.cells.size → (∀ x ∈ rest, x.2 ≠ []) →
      (∃ m, (decodeFrom sh alloc computes k rest past d).cache.Filled s m) ∧
        ((decodeFrom sh alloc computes k rest past d).ok = true →
          (decodeFrom sh alloc computes k rest past d).cache.Filled s
            (n + (tokensOf rest).length)) ∧
        (decodeFrom sh alloc computes k rest past d).cache.cells.size = d.cells.size := by
  induction rest with
  | nil => exact fun n k past d h _ _ _ _ _ => ⟨⟨n, h⟩, fun _ => h, rfl⟩
  | cons x rest ih =>
      obtain ⟨head, ubatch⟩ := x
      intro n k past d h hlt hat hcons hfit hne
      have htokens : tokensOf ((head, ubatch) :: rest) = ubatch ++ tokensOf rest := rfl
      rw [htokens] at hcons hfit ⊢
      rw [List.length_append] at hfit ⊢
      obtain ⟨hcons₁, hcons₂⟩ := Consecutive.append.mp hcons
      -- the head is the position of the first token, which is `n`
      obtain rfl : head = n := by
        have hlen := List.length_pos_of_ne_nil (hne _ List.mem_cons_self)
        have htok := List.getElem?_eq_getElem hlen
        have hpos := ((hat _ List.mem_cons_self).tokens 0 _ htok).1
        rw [(hcons₁ 0 _ htok).1] at hpos
        omega
      obtain ⟨hplaced, hfailed⟩ := @Cache.Filled.applyUbatch sh alloc s head d ubatch h hcons₁
        (by omega)
      have hsize := (@headKept_applyUbatch sh alloc head ubatch d (by omega)).size
      rw [decodeFrom]
      by_cases hok : (applyUbatch sh alloc head ubatch d).2 = true
      · rw [if_pos hok]
        split
        · obtain ⟨hsome, hdone, hsize'⟩ := ih (head + ubatch.length) (k + 1) (past ++ ubatch) _
            (hplaced hok) (hsize.symm ▸ hlt) (fun x hx => hat x (List.mem_cons_of_mem _ hx))
            (by push_cast at hcons₂ ⊢; exact hcons₂) (by omega)
            (fun x hx => hne x (List.mem_cons_of_mem _ hx))
          refine ⟨hsome, fun hend => ?_, hsize'.trans hsize⟩
          rw [← Nat.add_assoc]
          exact hdone hend
        · obtain ⟨hback, hsize'⟩ := rollback_filled (hsize.symm ▸ hlt)
            (fun tok htok => (hcons₁.mem htok).2.2) (hplaced hok)
          exact ⟨hback, (fun hend => nomatch hend), hsize'.trans hsize⟩
      · rw [if_neg hok]
        exact ⟨⟨head, hfailed (Bool.not_eq_true _ ▸ hok)⟩, (fun hend => nomatch hend), hsize⟩

theorem decodeFrom_ne_noSlot {computes : Nat → Bool} (rest : List (Nat × List BatchToken)) :
    ∀ (k : Nat) (past : List BatchToken) (d c : Cache),
      decodeFrom sh alloc computes k rest past d ≠ .noSlot c := by
  induction rest with
  | nil => exact fun k past d c h => nomatch h
  | cons x rest ih =>
      intro k past d c
      rw [decodeFrom]
      split
      · split
        · exact ih _ _ _ c
        · exact fun h => nomatch h
      · exact fun h => nomatch h

theorem tokensOf_zip {heads : List Nat} {ubatches : List (List BatchToken)}
    (h : heads.length = ubatches.length) : tokensOf (heads.zip ubatches) = ubatches.flatten := by
  rw [tokensOf, List.flatMap_def, List.map_snd_zip (by omega)]

/-- What a decode of a part that continues the sequence comes to. -/
structure DecodesTo (s n : Nat) (batch : List BatchToken) (d : Cache) (r : Decoded) : Prop where
  size : r.cache.cells.size = d.cells.size
  filled : ∃ m, r.cache.Filled s m
  done : r.ok = true → r.cache.Filled s (n + batch.length)
  noSlot : ∀ c, r = .noSlot c → c.Filled s n

theorem decode_filled {computes : Nat → Bool} {nUbatch : Nat} {batch : List BatchToken}
    (hswa : sh.swaType = .none) (h : d.Filled s n) (hlt : d.cells.size < 2 ^ 31)
    (hchunk : InChunk batch) (hcons : Consecutive s n batch) :
    AllAtPosition s (d.slotsFound sh alloc nUbatch batch) ∧
      DecodesTo s n batch d (d.decode sh alloc computes nUbatch batch) := by
  have hflat := splitSimple_flatten nUbatch batch []
  rw [List.nil_append] at hflat
  have hne := splitSimple_ne_nil nUbatch batch []
  obtain ⟨hslots, hsize, hthrew, hfound⟩ := @prepare_filled sh alloc s n d hswa
    (splitSimple nUbatch [] batch) h hne (hflat.symm ▸ hchunk) (hflat.symm ▸ hcons)
  refine ⟨hslots, ?_⟩
  unfold Cache.decode
  dsimp only
  cases hheads : (d.prepare sh alloc (splitSimple nUbatch [] batch)).2 with
  | none => exact ⟨hsize, hthrew hheads, (fun hok => nomatch hok), fun c hc => nomatch hc⟩
  | some heads =>
      obtain ⟨hback, hall⟩ := hfound heads hheads
      cases heads with
      | nil =>
          refine ⟨hsize, ⟨n, hback⟩, (fun hok => nomatch hok), fun c hc => ?_⟩
          obtain rfl := Decoded.noSlot.inj hc
          exact hback
      | cons head heads =>
          obtain ⟨⟨hlen, hroom⟩, hat⟩ := hall (List.cons_ne_nil _ _)
          have htokens := tokensOf_zip hlen
          rw [hflat] at htokens hroom
          have hrun := @decodeFrom_filled sh alloc s computes
            ((head :: heads).zip (splitSimple nUbatch [] batch)) n 0 [] _ hback (hsize ▸ hlt) hat
            (htokens.symm ▸ hcons) (by rw [htokens, hsize]; exact hroom)
            (fun x hx => hne x.2 (List.of_mem_zip hx).2)
          rw [htokens] at hrun
          exact ⟨hrun.2.2.trans hsize, hrun.1, hrun.2.1,
            fun c hc => absurd hc (decodeFrom_ne_noSlot _ _ _ _ c)⟩

/-- A decode that finds no slot has nothing to defragment and does not try again. -/
theorem decodeCall_filled {params : ContextParams} {env : DecodeEnv} {batch : List BatchToken}
    (hswa : sh.swaType = .none) (h : d.Filled s n) (hlt : d.cells.size < 2 ^ 31)
    (hchunk : InChunk batch) (hcons : Consecutive s n batch) :
    AllAtPosition s (d.decodeCall sh params env batch).2 ∧
      DecodesTo s n batch d (d.decodeCall sh params env batch).1 := by
  have hdue : (if env.defragDue then d.defrag sh params.nMaxNodes else d) = d := by
    split
    · exact congrArg Prod.fst (@Cache.Filled.selfUpdate sh s n d h params.nMaxNodes)
    · rfl
  obtain ⟨hslots, hdecoded⟩ := @decode_filled sh env.alloc s n d env.computes params.nUbatch batch
    hswa h hlt hchunk hcons
  unfold Cache.decodeCall
  rw [hdue]
  dsimp only
  split
  · rename_i c hnone
    have hc := hdecoded.noSlot c hnone
    rw [@Cache.Filled.selfUpdate sh s n c hc, if_neg Bool.false_ne_true]
    rw [hnone] at hdecoded
    exact ⟨hslots, hdecoded⟩
  · exact ⟨hslots, hdecoded⟩

/-! ## The parts of a batch -/

/-- What the parts of a batch come to, from the `k`-th on. -/
structure PartsDecoded (s : Nat) (subs : List (List BatchToken)) (d : Cache)
    (r : Cache × List (Nat × List BatchToken) × List BatchToken × Bool) : Prop where
  size : r.1.cells.size = d.cells.size
  filled : ∃ m, r.1.Filled s m
  slots : AllAtPosition s r.2.1
  passed : r.2.2.1 <+: subs.flatten
  all : r.2.2.2 = true → r.2.2.1 = subs.flatten

theorem decodeParts_filled {params : ContextParams} {env : Nat → DecodeEnv}
    (hswa : sh.swaType = .none) (subs : List (List BatchToken)) :
    ∀ (k n : Nat) (d : Cache), d.Filled s n → d.cells.size < 2 ^ 31 →
      (∀ sub ∈ subs, InChunk sub) → Consecutive s n subs.flatten →
      PartsDecoded s subs d (decodeParts sh params env k subs d) := by
  induction subs with
  | nil =>
      exact fun k n d h _ _ _ => ⟨rfl, ⟨n, h⟩, fun x hx => absurd hx List.not_mem_nil,
        List.prefix_refl _, fun _ => rfl⟩
  | cons sub subs ih =>
      intro k n d h hlt hchunk hcons
      rw [List.flatten_cons] at hcons
      obtain ⟨hcons₁, hcons₂⟩ := Consecutive.append.mp hcons
      obtain ⟨hslots, hsize, hsome, hdone, -⟩ :=
        @decodeCall_filled sh s n d params (env k) sub hswa h hlt
          (hchunk sub List.mem_cons_self) hcons₁
      rw [decodeParts]
      dsimp only
      by_cases hok : (d.decodeCall sh params (env k) sub).1.ok = true
      · rw [if_pos hok]
        obtain ⟨hsize', hsome', hslots', hpassed, hall⟩ := ih (k + 1) (n + sub.length) _ (hdone hok)
          (hsize.symm ▸ hlt) (fun sub' hmem => hchunk sub' (List.mem_cons_of_mem _ hmem))
          (by push_cast at hcons₂ ⊢; exact hcons₂)
        refine ⟨hsize'.trans hsize, hsome', fun x hx => ?_, ?_, fun hend => ?_⟩
        · exact (List.mem_append.mp hx).elim (hslots x) (hslots' x)
        · exact (List.prefix_append_right_inj sub).mpr hpassed
        · exact congrArg (sub ++ ·) (hall hend)
      · rw [if_neg hok]
        exact ⟨hsize, hsome, hslots, List.prefix_append sub _, fun hend => nomatch hend⟩

/-! ## Restoring -/

/-- A cell that gives up nothing keeps an exact index exact. -/
theorem Cells.Touches.indexed {c' : Cells} {i : Nat} {N : Set (Nat × Int)} (h : c.Indexed)
    (ht : c.Touches c' i ∅ N) : c'.Indexed := by
  refine ⟨ht.tidy, fun e => ?_⟩
  have hheld : ∀ j, c'.view.held j = if j = i then c.view.held j ∪ N else c.view.held j := by
    intro j
    split
    · rename_i hj
      subst hj
      refine ht.held.trans ?_
      rw [Set.sdiff_empty]
      rfl
    · rename_i hj
      exact congrArg entriesOf (ht.other j hj)
  rw [ht.index, Set.sdiff_empty, Set.mem_union, h.exact e]
  simp only [hheld]
  constructor
  · rintro (⟨j, hj⟩ | hN)
    · refine ⟨j, ?_⟩
      split
      · exact .inl hj
      · exact hj
    · exact ⟨i, by rw [if_pos rfl]; exact .inr hN⟩
  · rintro ⟨j, hj⟩
    split at hj
    · exact hj.imp_left fun hj => ⟨j, hj⟩
    · exact .inl ⟨j, hj⟩

/-- Records that go into empty cells keep the index exact. -/
theorem fillCells_indexed (rs : List Record) : ∀ (i : Nat) (c : Cells), c.Indexed →
    FreeSlot c.cell i rs.length → i + rs.length ≤ c.size → (∀ r ∈ rs, r.1 ≠ -1) →
    (fillCells i rs c).Indexed := by
  induction rs with
  | nil => exact fun i c h _ _ _ => h
  | cons r rs ih =>
      intro i c h hfree hroom hpos
      rw [List.length_cons] at hroom
      rw [FreeSlot, List.length_cons] at hfree
      have hcell := hfree i le_rfl (by omega)
      have hempty : c.isEmpty i = true := decide_eq_true (congrArg Prod.fst hcell)
      have htouch := @placeToken_touches i (c, fun _ => -1) h.tidy (by dsimp only; omega)
        ⟨0, r.1, r.2⟩ (hpos r List.mem_cons_self)
      have hplaced : (placeToken i ⟨0, r.1, r.2⟩ (c, fun _ => -1)).1 =
          r.2.foldl (fun c s => c.seqAdd i s) (c.posSet i r.1) := by
        unfold placeToken
        dsimp only
        rw [if_pos hempty]
      dsimp only at htouch
      rw [hplaced, hcell, entriesOf_empty] at htouch
      refine ih (i + 1) _ (htouch.indexed h) (fun j hge hlt => ?_) ?_ fun r' hr' =>
        hpos r' (List.mem_cons_of_mem _ hr')
      · rw [htouch.other j (by omega)]
        exact hfree j (by omega) (by omega)
      · rw [htouch.size]
        omega

theorem Cells.Filled.savedCells (h : c.Filled s n) : c.savedCells (-1) = List.range n := by
  have hroom := h.room
  have hkeep : ∀ i, c.saved (-1) i = decide (i < n) := by
    intro i
    unfold Cells.saved
    have hempty := h.isEmpty_iff i
    by_cases hi : i < n
    · have hfull : c.isEmpty i = false := by
        rw [← Bool.not_eq_true, hempty]
        omega
      simp [hfull, hi]
    · simp [hempty.mpr (not_lt.mp hi), hi]
  unfold Cells.savedCells
  obtain ⟨k, hk⟩ := Nat.exists_eq_add_of_le hroom
  rw [hk, List.range_add, List.filter_append]
  have hlow : (List.range n).filter (c.saved (-1)) = List.range n := by
    refine List.filter_eq_self.mpr fun i hi => ?_
    rw [hkeep]
    exact decide_eq_true (List.mem_range.mp hi)
  have hhigh : ((List.range k).map (n + ·)).filter (c.saved (-1)) = [] := by
    refine List.filter_eq_nil_iff.mpr fun i hi => ?_
    obtain ⟨j, -, rfl⟩ := List.mem_map.mp hi
    rw [hkeep, decide_eq_true_eq]
    omega
  rw [hlow, hhigh, List.append_nil]

/-- The records of a filled cache fill another one. -/
theorem refilled_filled (h : c.Filled s n) (hs : s < sh.nSeqMax) (hroom : n ≤ d.cells.size) :
    (d.refilled sh c).Filled s n := by
  have hcount : c.cellCount (-1) = n := by
    rw [cellCount_length, h.savedCells, List.length_range]
  have hseq : ∀ i, ∀ t ∈ c.seq i, t < sh.nSeqMax := by
    intro i t ht
    by_cases hi : i < n
    · rw [(h.below hi).2, Finset.mem_singleton] at ht
      exact ht ▸ hs
    · rw [(h.above (not_lt.mp hi)).2] at ht
      exact absurd ht (Finset.notMem_empty t)
  obtain ⟨hfirst, hrest⟩ := @refilled_cells sh c d hseq
  rw [hcount] at hfirst hrest
  have hsize : (d.refilled sh c).cells.size = d.cells.size :=
    (fillCells_spec (c.records sh) 0 d.clear.cells).1
  refine ⟨⟨?_, hsize.symm ▸ hroom, fun j => ?_⟩, Nat.zero_le n⟩
  · refine fillCells_indexed _ 0 d.clear.cells (Cells.resize_indexed _) (fun j _ _ => rfl) ?_ ?_
    · rw [records_length, hcount]
      exact (Nat.zero_add n).le.trans hroom
    · intro r hr
      obtain ⟨i, hi, rfl⟩ := List.mem_map.mp hr
      rw [h.savedCells, List.mem_range] at hi
      show c.pos i ≠ -1
      rw [(h.below hi).1]
      omega
  · by_cases hj : j < n
    · rw [hfirst j hj, h.savedCells, List.getD_eq_getElem _ _ (by simpa using hj),
        List.getElem_range, h.cell]
    · rw [hrest j (not_lt.mp hj), if_neg hj]

theorem Keeps.growFor {P : Cache → Prop} (n : Nat → Nat)
    (h : ∀ c, P c → P (mzGrowChunks sh alloc (n c.head) c).1) :
    Keeps P (growFor sh alloc n) := by
  intro s hs
  unfold MzCache.Unified.growFor
  dsimp only
  split
  · exact h s.cache hs
  · exact h s.cache hs

/-- However the rows of a state are read, the cells and the head stay. -/
theorem stateReadData_keeps (n : Nat) (cells : Cells) (head : Nat) :
    Keeps (fun c => c.cells = cells ∧ c.head = head) (stateReadData sh alloc n) := by
  have hlayout : OfLayout (fun c => c.cells = cells ∧ c.head = head) := fun _ _ _ h => h
  unfold stateReadData
  refine Keeps.readU32.bind fun _ => Keeps.readU32.bind fun _ => (Keeps.require _).bind fun _ =>
    Keeps.get.bind fun _ => (Keeps.require _).bind fun _ => (Keeps.require _).bind fun _ => ?_
  refine (Keeps.growFor _ fun c hc => ?_).bind fun _ => Keeps.rows hlayout sh n
  rw [mzGrowChunks_cells, mzGrowChunks_head]
  exact hc

/-- What a filled cache of `size` cells saved. -/
def SavedFilled (sh : Shape) (s size : Nat) (stream : List UInt8) : Prop :=
  ∃ (e : Cache) (m : Nat), e.cells.size = size ∧ e.cells.Filled s m ∧
    stateWrite sh e (-1) = some stream

theorem stateRead_filled {stream : List UInt8} (hs : s < sh.nSeqMax)
    (hlt : d.cells.size < 2 ^ 31) (hsaved : SavedFilled sh s d.cells.size stream) :
    (∃ m, (finalState (stateRead sh alloc (-1) ⟨d, stream⟩)).cache.Filled s m) ∧
      (finalState (stateRead sh alloc (-1) ⟨d, stream⟩)).cache.cells.size = d.cells.size := by
  obtain ⟨e, m, hsize, he, hwrite⟩ := hsaved
  have hroom := he.room
  have hcount : e.cells.cellCount (-1) = m := by
    rw [cellCount_length, he.savedCells, List.length_range]
  have hpos : ∀ i, InI32 (e.cells.pos i) := by
    intro i
    unfold InI32
    by_cases hi : i < m
    · rw [(he.below hi).1]
      omega
    · rw [(he.above (not_lt.mp hi)).1]
      omega
  -- the stream is the records of `e` and then its rows
  obtain ⟨rows, hrows⟩ : ∃ rows, stream = toLe 4 (e.cells.cellCount (-1)) ++
      (e.cells.savedCells (-1)).flatMap (e.cells.cellRecord sh (-1)) ++ rows := by
    unfold stateWrite at hwrite
    dsimp only at hwrite
    rw [if_pos cellCount_eq] at hwrite
    obtain ⟨rows, -, hstream⟩ := Option.map_eq_some_iff.mp hwrite
    refine ⟨rows, ?_⟩
    rw [← hstream, stateWriteMeta, cellRanges_cells]
  have hbody := @stateReadBody_whole sh alloc e.cells d rows hpos (by omega) (by omega)
  rw [← hrows] at hbody
  have hfill : (d.refilled sh e.cells).Filled s m := refilled_filled he hs (by omega)
  have hkeeps := @stateReadData_keeps sh alloc (e.cells.cellCount (-1))
    (d.refilled sh e.cells).cells (d.refilled sh e.cells).head ⟨d.refilled sh e.cells, rows⟩
    ⟨rfl, rfl⟩
  have hsize' : (d.refilled sh e.cells).cells.size = d.cells.size :=
    (fillCells_spec (e.cells.records sh) 0 d.clear.cells).1
  unfold stateRead
  rw [hbody]
  generalize stateReadData sh alloc (e.cells.cellCount (-1)) ⟨d.refilled sh e.cells, rows⟩ = r
    at hkeeps ⊢
  have hstays : (∃ m, (finalState r).cache.Filled s m) ∧
      (finalState r).cache.cells.size = d.cells.size :=
    ⟨⟨m, hkeeps.1.symm ▸ hfill.cells, hkeeps.2.symm ▸ hfill.head⟩, hkeeps.1.symm ▸ hsize'⟩
  cases r with
  | ok _ t => exact hstays
  | error stop t =>
      cases stop with
      | refused =>
          exact ⟨⟨0, Cells.Filled.start _, le_rfl⟩, hstays.2⟩
      | thrown => exact hstays
      | crashed => exact hstays

/-! ## Sessions -/

/-- What every session keeps. -/
structure Session.Ok (sh : Shape) (s kvSize : Nat) (t : Session) : Prop where
  size : t.cache.cells.size = kvSize
  filled : ∃ n, t.cache.Filled s n
  saves : ∀ stream ∈ t.saves, SavedFilled sh s kvSize stream
  slots : AllAtPosition s t.slots
  decodes : ∀ r ∈ t.decodes, r.passed <+: r.batch ∧ (r.ok = true → r.passed = r.batch)

theorem Session.fresh_ok (sh : Shape) (s kvSize : Nat) : (Session.fresh sh kvSize).Ok sh s kvSize :=
  ⟨rfl, ⟨0, Cells.Filled.start kvSize, le_rfl⟩, fun _ h => absurd h List.not_mem_nil,
    fun _ h => absurd h List.not_mem_nil, fun _ h => absurd h List.not_mem_nil⟩

theorem SessionCall.exec_ok {params : ContextParams} {kvSize : Nat} (hswa : sh.swaType = .none)
    (hs : s < sh.nSeqMax) (hlt : kvSize < 2 ^ 31) {t : Session} (h : t.Ok sh s kvSize)
    (call : SessionCall) (hcont : call.Continues s t) :
    (call.exec sh params s t).Ok sh s kvSize := by
  obtain ⟨hsize, ⟨n, hfilled⟩, hsaves, hslots, hdecodes⟩ := h
  have hroom := hfilled.cells.room
  cases call with
  | decode env batch =>
      have hflat := chunkAligned_flatten batch []
      rw [List.nil_append] at hflat
      have hbatch : Consecutive s n batch := by
        rw [← hfilled.cells.seqPosMax]
        exact hcont
      obtain ⟨hsize', hfilled', hslots', hpassed, hall⟩ := @decodeParts_filled sh s params env hswa
        (chunkAligned [] batch) 0 n t.cache hfilled (hsize.symm ▸ hlt)
        (chunkAligned_inChunk batch [] fun k tok hk => by simp at hk) (hflat.symm ▸ hbatch)
      rw [hflat] at hpassed hall
      refine ⟨hsize'.trans hsize, hfilled', hsaves, fun x hx => ?_, fun r hr => ?_⟩
      · exact (List.mem_append.mp hx).elim (hslots x) (hslots' x)
      · rcases List.mem_append.mp hr with hr | hr
        · exact hdecodes r hr
        · obtain rfl := List.mem_singleton.mp hr
          exact ⟨hpassed, fun hok => hall (of_decide_eq_true hok).2⟩
  | truncate p =>
      exact ⟨(Cache.seqRm_size _ _ _ _).trans hsize, ⟨_, hfilled.seqRm (by omega) p⟩, hsaves,
        hslots, hdecodes⟩
  | clear => exact ⟨hsize, ⟨0, Cells.Filled.start _, le_rfl⟩, hsaves, hslots, hdecodes⟩
  | save =>
      rw [SessionCall.exec]
      split
      · exact ⟨hsize, ⟨n, hfilled⟩, hsaves, hslots, hdecodes⟩
      · rename_i stream hwrite
        refine ⟨hsize, ⟨n, hfilled⟩, fun stream' hmem => ?_, hslots, hdecodes⟩
        rcases List.mem_append.mp hmem with hmem | hmem
        · exact hsaves stream' hmem
        · obtain rfl := List.mem_singleton.mp hmem
          exact ⟨t.cache, n, hsize, hfilled.cells, hwrite⟩
  | restore alloc k =>
      rw [SessionCall.exec]
      split
      · exact ⟨hsize, ⟨n, hfilled⟩, hsaves, hslots, hdecodes⟩
      · rename_i stream hget
        obtain ⟨hfilled', hsize'⟩ := @stateRead_filled sh alloc s t.cache stream hs
          (hsize.symm ▸ hlt) (hsize.symm ▸ hsaves stream (List.mem_of_getElem? hget))
        exact ⟨hsize'.trans hsize, hfilled', hsaves, hslots, hdecodes⟩

theorem SessionCall.run_ok {params : ContextParams} {kvSize : Nat} (hswa : sh.swaType = .none)
    (hs : s < sh.nSeqMax) (hlt : kvSize < 2 ^ 31) (calls : List SessionCall) :
    ∀ {t : Session}, t.Ok sh s kvSize → ContinuedRun sh params s calls t →
      (run sh params s calls t).Ok sh s kvSize := by
  induction calls with
  | nil => exact fun h _ => h
  | cons call calls ih =>
      exact fun h hcont => ih (exec_ok hswa hs hlt h call hcont.1) hcont.2

end

end MzCache.Unified
