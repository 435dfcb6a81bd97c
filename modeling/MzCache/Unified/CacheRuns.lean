import MzCache.Unified.DefragMoves

/-!
# Runs of cache operations

A run is a list of calls on a cache. `prepare` is taken apart: it begins with an empty
recovery stack, tries its ubatches one after another and restores its slots one after
another, and every state in between counts as reached. Four kinds of call can erase an
entry that another cell needs and carry a condition on the state they find: placing a
ubatch, restoring a slot, shifting and dividing.
-/

namespace MzCache.Unified

open MzCache MzCache.Lib

inductive KvCall where
  | clear
  | seqRm (seqId p0 p1 : Int)
  | seqCp (src dst : Nat) (p0 p1 : Int)
  | seqKeep (s : Nat)
  | seqAdd (s : Nat) (p0 p1 shift : Int)
  | seqDiv (s : Nat) (p0 p1 d : Int)
  | defrag (nMaxNodes : Nat)
  | applyUbatch (alloc : Alloc) (headCur : Nat) (ubatch : List BatchToken)
  | prepare
  | place (alloc : Alloc) (ubatch : List BatchToken)
  | restore

/-- A call, on the cache and the stack of the `prepare` at work. -/
def KvCall.exec (sh : Shape) : KvCall → Trial → Trial
  | .clear, t => { t with cache := t.cache.clear }
  | .seqRm seqId p0 p1, t => { t with cache := t.cache.seqRm seqId p0 p1 }
  | .seqCp src dst p0 p1, t => { t with cache := t.cache.seqCp src dst p0 p1 }
  | .seqKeep s, t => { t with cache := t.cache.seqKeep s }
  | .seqAdd s p0 p1 shift, t => { t with cache := t.cache.seqAdd s p0 p1 shift }
  | .seqDiv s p0 p1 d, t => { t with cache := t.cache.seqDiv s p0 p1 d }
  | .defrag nMaxNodes, t => { t with cache := t.cache.defrag sh nMaxNodes }
  | .applyUbatch alloc headCur ubatch, t =>
      { t with cache := (MzCache.Unified.applyUbatch sh alloc headCur ubatch t.cache).1 }
  | .prepare, t => { t with states := [], res := [] }
  | .place alloc ubatch, t =>
      match t.cache.findSlot sh ubatch.length with
      | none => t
      | some headNew => (placeAt sh alloc headNew ubatch t).1
  | .restore, t =>
      match t.states with
      | [] => t
      | saved :: states => { t with cache := restoreSlot t.cache saved, states := states }

/-- The condition a call puts on the state it finds. -/
def KvCall.Safe (sh : Shape) : KvCall → Trial → Prop
  | .seqAdd s p0 p1 shift, t => t.cache.ShiftSafe s p0 p1 shift
  | .seqDiv s p0 p1 d, t => t.cache.DivideSafe s p0 p1 d
  | .applyUbatch _ headCur ubatch, t => t.cache.cells.PlaceSafe headCur ubatch
  | .place _ ubatch, t => ∀ headNew ∈ t.cache.findSlot sh ubatch.length,
      t.cache.cells.PlaceSafe headNew ubatch
  | .restore, t => ∀ saved ∈ t.states.head?, t.cache.cells.RestoreSafe saved
  | .clear, _ | .seqRm .., _ | .seqCp .., _ | .seqKeep .., _ | .defrag .., _ | .prepare, _ => True

def KvCall.run (sh : Shape) (calls : List KvCall) (t : Trial) : Trial :=
  calls.foldl (fun t call => call.exec sh t) t

/-- Every call of a run meets its condition. -/
def KvCall.SafeRun (sh : Shape) : List KvCall → Trial → Prop
  | [], _ => True
  | call :: calls, t => call.Safe sh t ∧ SafeRun sh calls (call.exec sh t)

/-- A cache as constructed, no `prepare` at work. -/
def Trial.fresh (sh : Shape) (kvSize : Nat) : Trial := ⟨.fresh sh kvSize, [], []⟩

/-- A model of one layer, one `f16` wide. -/
def Shape.single : Shape where
  layers := [⟨0, 1, 1, 1, 2, 2, 2, 1, typeF16_lt, typeF16_lt, by decide, by decide, Nat.two_pos⟩]
  nSeqMax := 1
  nPad := 32
  vTrans := false
  nSwa := 0
  swaType := .none
  layers_lt := by decide
  layers_nodup := by decide
  nSeqMax_lt := by decide

/-- What every run of safe calls keeps. -/
structure Trial.Ok (t : Trial) : Prop where
  indexed : t.cache.cells.Indexed
  fits : ∀ saved ∈ t.states, saved.Fits t.cache.cells.size

section

variable {sh : Shape} {t : Trial}

theorem Trial.fresh_ok (sh : Shape) (kvSize : Nat) : (Trial.fresh sh kvSize).Ok :=
  ⟨Cells.resize_indexed kvSize, fun _ h => (List.not_mem_nil h).elim⟩

/-- An operation on the cache alone. -/
theorem Trial.Ok.withCache (h : t.Ok) {c : Cache}
    (hc : c.cells.Indexed ∧ c.cells.size = t.cache.cells.size) : ({ t with cache := c } : Trial).Ok :=
  ⟨hc.1, fun saved hs => by
    show saved.Fits c.cells.size
    rw [hc.2]
    exact h.fits saved hs⟩

/-! ## One call -/

theorem firstBlocked_found {c : Cells} {n : Nat} (fuel : Nat) : ∀ headCur nTested headNew : Nat,
    findSlotFrom sh c n fuel headCur nTested = some headNew → headNew + n ≤ c.size := by
  induction fuel with
  | zero => intro headCur nTested headNew h; cases h
  | succ fuel ih =>
      intro headCur nTested headNew h
      rw [findSlotFrom] at h
      split at h
      · exact ih _ _ _ h
      · rename_i hfit
        split at h
        · cases h
          exact not_lt.mp hfit
        · split at h
          · cases h
          · exact ih _ _ _ h

/-- A slot that was found lies inside the cells. -/
theorem findSlot_room {c : Cache} {n headNew : Nat} (h : c.findSlot sh n = some headNew) :
    headNew + n ≤ c.cells.size := by
  unfold Cache.findSlot at h
  dsimp only at h
  split at h
  · cases h
  · exact firstBlocked_found _ _ _ _ h

theorem KvCall.exec_ok (h : t.Ok) (call : KvCall) (hsafe : call.Safe sh t) :
    (call.exec sh t).Ok := by
  cases call with
  | clear => exact h.withCache ⟨Cells.resize_indexed _, rfl⟩
  | seqRm seqId p0 p1 => exact h.withCache (seqRm_indexed h.indexed seqId p0 p1)
  | seqCp src dst p0 p1 => exact h.withCache (seqCp_indexed h.indexed src dst p0 p1)
  | seqKeep s => exact h.withCache (seqKeep_indexed h.indexed s)
  | seqAdd s p0 p1 shift =>
      obtain ⟨hiff, hsize⟩ := seqAdd_indexed_iff h.indexed s p0 p1 shift
      exact h.withCache ⟨hiff.mpr hsafe, hsize⟩
  | seqDiv s p0 p1 d => exact h.withCache (seqDiv_indexed h.indexed hsafe)
  | defrag nMaxNodes => exact h.withCache (defrag_indexed h.indexed sh nMaxNodes)
  | applyUbatch alloc headCur ubatch => exact h.withCache (applyUbatch_indexed h.indexed hsafe)
  | prepare => exact ⟨h.indexed, fun _ hs => (List.not_mem_nil hs).elim⟩
  | place alloc ubatch =>
      rw [KvCall.exec]
      split
      · exact h
      · rename_i headNew hfound
        obtain ⟨hidx, hsize⟩ := @applyUbatch_indexed sh alloc _ h.indexed _ _
          (hsafe headNew hfound)
        refine ⟨hidx, fun saved hs => ?_⟩
        show saved.Fits (MzCache.Unified.applyUbatch sh alloc headNew ubatch t.cache).1.cells.size
        rw [hsize]
        rcases List.mem_cons.mp hs with rfl | hs
        · exact Cells.cp_fits h.indexed.tidy (findSlot_room hfound)
        · exact h.fits saved hs
  | restore =>
      rw [KvCall.exec]
      split
      · exact h
      · rename_i saved states hstates
        have hmem : saved ∈ t.states := by rw [hstates]; exact List.mem_cons_self
        have hhead : saved ∈ t.states.head? := by rw [hstates]; rfl
        obtain ⟨hiff, hsize⟩ := restoreSlot_indexed_iff h.indexed (h.fits saved hmem)
        refine ⟨hiff.mpr (hsafe saved hhead), fun other hs => ?_⟩
        show other.Fits (restoreSlot t.cache saved).cells.size
        rw [hsize]
        exact h.fits other (by rw [hstates]; exact List.mem_cons_of_mem _ hs)

/-! ## Runs -/

theorem KvCall.run_ok (calls : List KvCall) : ∀ {t : Trial}, t.Ok → SafeRun sh calls t →
    (KvCall.run sh calls t).Ok := by
  induction calls with
  | nil => exact fun h _ => h
  | cons call calls ih => exact fun h hsafe => ih (call.exec_ok h hsafe.1) hsafe.2

/-- The first calls of a safe run are a safe run. -/
theorem KvCall.SafeRun.take (n : Nat) : ∀ {calls : List KvCall} {t : Trial},
    SafeRun sh calls t → SafeRun sh (calls.take n) t := by
  induction n with
  | zero => exact fun _ => trivial
  | succ n ih =>
      intro calls t h
      cases calls with
      | nil => exact trivial
      | cons call calls => exact ⟨h.1, ih h.2⟩

theorem KvCall.run_append (calls calls' : List KvCall) (t : Trial) :
    KvCall.run sh (calls ++ calls') t = KvCall.run sh calls' (KvCall.run sh calls t) :=
  List.foldl_append

/-! ## `prepare` as a run -/

/-- A call that `prepare` makes. -/
def KvCall.OfPrepare : KvCall → Prop
  | .prepare | .place .. | .restore => True
  | _ => False

theorem placeUbatches_run (alloc : Alloc) (ubatches : List (List BatchToken)) : ∀ t : Trial,
    ∃ calls, (∀ call ∈ calls, call.OfPrepare) ∧
      KvCall.run sh calls t = (placeUbatches sh alloc ubatches t).1 := by
  induction ubatches with
  | nil => exact fun t => ⟨[], fun _ h => (List.not_mem_nil h).elim, rfl⟩
  | cons ubatch ubatches ih =>
      intro t
      rw [placeUbatches]
      split
      · exact ⟨[], fun _ h => (List.not_mem_nil h).elim, rfl⟩
      · rename_i headNew hfound
        have hexec : KvCall.exec sh (.place alloc ubatch) t =
            (placeAt sh alloc headNew ubatch t).1 := by
          rw [KvCall.exec]
          rw [hfound]
        dsimp only
        split
        · obtain ⟨calls, hof, hrun⟩ := ih (placeAt sh alloc headNew ubatch t).1
          refine ⟨.place alloc ubatch :: calls, fun call hc => ?_, ?_⟩
          · rcases List.mem_cons.mp hc with rfl | hc
            · exact trivial
            · exact hof call hc
          · show KvCall.run sh calls (KvCall.exec sh (.place alloc ubatch) t) = _
            rw [hexec, hrun]
        · refine ⟨[.place alloc ubatch], fun call hc => ?_, hexec⟩
          rw [List.mem_singleton.mp hc]
          exact trivial

theorem restore_run (states : List Saved) : ∀ t : Trial, t.states = states →
    (KvCall.run sh (List.replicate states.length .restore) t).cache =
      states.foldl restoreSlot t.cache := by
  induction states with
  | nil => intro t _; rfl
  | cons saved states ih =>
      intro t ht
      rw [List.length_cons, List.replicate_succ, List.foldl_cons]
      have hexec : KvCall.exec sh .restore t =
          { t with cache := restoreSlot t.cache saved, states := states } := by
        rw [KvCall.exec]
        rw [ht]
      show (KvCall.run sh _ (KvCall.exec sh .restore t)).cache = _
      rw [hexec]
      exact ih _ rfl

/-- A `prepare` is a run of its calls. -/
theorem prepare_run (alloc : Alloc) (ubatches : List (List BatchToken)) (t : Trial) :
    ∃ calls, (∀ call ∈ calls, call.OfPrepare) ∧
      (KvCall.run sh calls t).cache = (t.cache.prepare sh alloc ubatches).1 := by
  obtain ⟨calls, hof, hrun⟩ := @placeUbatches_run sh alloc ubatches ⟨t.cache, [], []⟩
  have hbegin : ∀ rest, KvCall.run sh ((.prepare :: calls) ++ rest) t =
      KvCall.run sh rest (placeUbatches sh alloc ubatches ⟨t.cache, [], []⟩).1 := by
    intro rest
    rw [KvCall.run_append, ← hrun]
    rfl
  have hof' : ∀ call ∈ KvCall.prepare :: calls, call.OfPrepare := by
    intro call hc
    rcases List.mem_cons.mp hc with rfl | hc
    · exact trivial
    · exact hof call hc
  set r := placeUbatches sh alloc ubatches ⟨t.cache, [], []⟩ with hr
  have hrestore : ∃ calls, (∀ call ∈ calls, KvCall.OfPrepare call) ∧
      (KvCall.run sh calls t).cache = r.1.states.foldl restoreSlot r.1.cache := by
    refine ⟨(.prepare :: calls) ++ List.replicate r.1.states.length .restore, ?_, ?_⟩
    · intro call hc
      rcases List.mem_append.mp hc with hc | hc
      · exact hof' call hc
      · rw [List.eq_of_mem_replicate hc]
        exact trivial
    · rw [hbegin]
      exact restore_run r.1.states r.1 rfl
  unfold Cache.prepare
  dsimp only
  rw [← hr]
  cases r.2 with
  | threw =>
      refine ⟨(.prepare :: calls) ++ [], fun call hc => hof' call (by simpa using hc), ?_⟩
      rw [hbegin]
      rfl
  | noSlot => exact hrestore
  | all => exact hrestore

end

end MzCache.Unified
