import MzCache.Unified.Coverage
import MzCache.Unified.WholeRestore

/-!
# A stream that stops

How far the records of a stream go, read off the stream alone: they are complete, or refused for a
sequence out of range, or cut off. A whole-cache read has put a cell into use for every record
whose head it has read when it stops; what it does about that depends on how it stopped.
-/

namespace MzCache.Unified

open MzCache MzCache.Lib

/-- How a part of a stream ends. -/
inductive Scan where
  | complete (rest : List UInt8)
  | refused
  | cutOff
deriving DecidableEq, Repr

/-- The sequences of a record. -/
def scanSeqIds (sh : Shape) : Nat → List UInt8 → Scan
  | 0, bs => .complete bs
  | n + 1, bs =>
      if bs.length < 4 then .cutOff
      else if 0 ≤ ofI32 (bs.take 4) ∧ ofI32 (bs.take 4) < sh.nSeqMax then
        scanSeqIds sh n (bs.drop 4)
      else .refused

/-- The records of `n` cells: how many heads are there to be read, and how it ends. -/
def scanCells (sh : Shape) : Nat → List UInt8 → Nat × Scan
  | 0, bs => (0, .complete bs)
  | n + 1, bs =>
      if bs.length < 8 then (0, .cutOff)
      else
        match scanSeqIds sh (ofLe ((bs.drop 4).take 4)) (bs.drop 8) with
        | .complete rest => ((scanCells sh n rest).1 + 1, (scanCells sh n rest).2)
        | stop => (1, stop)

/-- A whole-cache read of the stream throws with cells in use that have no chunks: its records are
more than the chunks there are, and they or the header after them are cut off, or the growth that
the header leads to fails. -/
def Cache.Uncovers (sh : Shape) (alloc : Alloc) (c : Cache) (stream : List UInt8) : Prop :=
  4 ≤ stream.length ∧ ofLe (stream.take 4) ≤ c.cells.size ∧
    tokensPerChunk * c.nChunksAlloc < (scanCells sh (ofLe (stream.take 4)) (stream.drop 4)).1 ∧
    match (scanCells sh (ofLe (stream.take 4)) (stream.drop 4)).2 with
    | .complete rest => rest.length < 8 ∨
        (ofLe ((rest.drop 4).take 4) = sh.layers.length ∧
          sh.vTrans = (ofLe (rest.take 4) != 0) ∧
          (mzGrowChunks sh alloc (ofLe (stream.take 4)) c).2 = false)
    | .refused => False
    | .cutOff => True

section

variable {sh : Shape} {alloc : Alloc}

/-! ## Reading what was scanned -/

variable {c : Cache} {bs : List UInt8}

theorem readI32_eq (c : Cache) (bs : List UInt8) :
    readI32 ⟨c, bs⟩ = if bs.length < 4 then .error .thrown ⟨c, bs⟩
      else .ok (ofI32 (bs.take 4)) ⟨c, bs.drop 4⟩ := by
  unfold readI32
  split
  · exact bind_error (if_neg (by dsimp only; omega))
  · exact bind_ok (if_pos (by dsimp only; omega))

theorem readU32_eq (c : Cache) (bs : List UInt8) :
    readU32 ⟨c, bs⟩ = if bs.length < 4 then .error .thrown ⟨c, bs⟩
      else .ok (ofLe (bs.take 4)) ⟨c, bs.drop 4⟩ := by
  unfold readU32
  split
  · exact bind_error (if_neg (by dsimp only; omega))
  · exact bind_ok (if_pos (by dsimp only; omega))

/-- The result of a read that ends like a scan and leaves the cache `c`. -/
def Scan.Result (c : Cache) (r : EStateM.Result Stop Restore Unit) : Scan → Prop
  | .complete rest => r = .ok () ⟨c, rest⟩
  | .refused => ∃ rest, r = .error .refused ⟨c, rest⟩
  | .cutOff => ∃ rest, r = .error .thrown ⟨c, rest⟩

theorem readSeqIds_scan (i n : Nat) : ∀ (c : Cache) (bs : List UInt8),
    ∃ cells : Cells, cells.used = c.cells.used ∧ cells.size = c.cells.size ∧
      (scanSeqIds sh n bs).Result { c with cells := cells } (readSeqIds sh i n ⟨c, bs⟩) := by
  induction n with
  | zero => exact fun c bs => ⟨c.cells, rfl, rfl, rfl⟩
  | succ n ih =>
      intro c bs
      have hread := readI32_eq c bs
      rw [scanSeqIds, readSeqIds]
      by_cases hshort : bs.length < 4
      · rw [if_pos hshort] at hread ⊢
        exact ⟨c.cells, rfl, rfl, bs, bind_error hread⟩
      · rw [if_neg hshort] at hread ⊢
        rw [bind_ok hread]
        by_cases hvalid : 0 ≤ ofI32 (bs.take 4) ∧ ofI32 (bs.take 4) < sh.nSeqMax
        · rw [if_pos hvalid, bind_ok (require_ok hvalid)]
          exact ih { c with cells := c.cells.seqAdd i (ofI32 (bs.take 4)).toNat } (bs.drop 4)
        · rw [if_neg hvalid]
          exact ⟨c.cells, rfl, rfl, bs.drop 4, bind_error (if_neg hvalid)⟩

/-- The heads that are there put their cells into use. -/
theorem readCells_scan (n : Nat) : ∀ (i : Nat) (c : Cache) (bs : List UInt8),
    ∃ cells : Cells, cells.used = c.cells.used ∪ Finset.Ico i (i + (scanCells sh n bs).1) ∧
      cells.size = c.cells.size ∧
      (scanCells sh n bs).2.Result { c with cells := cells } (readCells sh n i ⟨c, bs⟩) := by
  induction n with
  | zero => exact fun i c bs => ⟨c.cells, by simp [scanCells], rfl, rfl⟩
  | succ n ih =>
      intro i c bs
      have hread := readI32_eq c bs
      rw [scanCells, readCells]
      by_cases hshort : bs.length < 8
      · -- the head is cut off in the position or in the count
        rw [if_pos hshort]
        by_cases hpos : bs.length < 4
        · rw [if_pos hpos] at hread
          exact ⟨c.cells, by simp, rfl, bs, bind_error hread⟩
        · rw [if_neg hpos] at hread
          have hcount := readU32_eq c (bs.drop 4)
          rw [if_pos (by rw [List.length_drop]; omega)] at hcount
          refine ⟨c.cells, by simp, rfl, bs.drop 4, ?_⟩
          exact (bind_ok hread).trans (bind_error hcount)
      · have hcount := readU32_eq c (bs.drop 4)
        rw [if_neg (by omega)] at hread
        rw [if_neg (by rw [List.length_drop]; omega), List.drop_drop] at hcount
        rw [if_neg hshort, bind_ok hread, bind_ok hcount,
          bind_ok (show onCells (fun cells => cells.posSet i (ofI32 (bs.take 4))) _ = .ok () _ from
            rfl)]
        obtain ⟨cells, hused, hsize, hresult⟩ := @readSeqIds_scan sh i
          (ofLe ((bs.drop 4).take 4)) { c with cells := c.cells.posSet i (ofI32 (bs.take 4)) }
          (bs.drop 8)
        have hmarked : cells.used = c.cells.used ∪ Finset.Ico i (i + 1) := by
          rw [hused, Finset.union_comm]
          simp [Cells.posSet]
        revert hresult
        cases scanSeqIds sh (ofLe ((bs.drop 4).take 4)) (bs.drop 8) with
        | complete rest =>
            intro hresult
            obtain ⟨cells', hused', hsize', hresult'⟩ := ih (i + 1) { c with cells := cells } rest
            refine ⟨cells', ?_, hsize'.trans hsize, ?_⟩
            · rw [hused', hmarked, Finset.union_assoc,
                Finset.Ico_union_Ico_eq_Ico (Nat.le_succ i) (Nat.le_add_right _ _)]
              rw [show i.succ + (scanCells sh n rest).1 = i + ((scanCells sh n rest).1 + 1) by omega]
            · rw [bind_ok hresult]
              exact hresult'
        | refused =>
            rintro ⟨rest, hresult⟩
            exact ⟨cells, hmarked, hsize, rest, bind_error hresult⟩
        | cutOff =>
            rintro ⟨rest, hresult⟩
            exact ⟨cells, hmarked, hsize, rest, bind_error hresult⟩

/-- Records that are complete are all there. -/
theorem scanCells_complete {rest : List UInt8} (n : Nat) : ∀ bs : List UInt8,
    (scanCells sh n bs).2 = .complete rest → (scanCells sh n bs).1 = n := by
  induction n with
  | zero => exact fun _ _ => rfl
  | succ n ih =>
      intro bs h
      rw [scanCells] at h ⊢
      split at h
      · cases h
      · rename_i hlong
        rw [if_neg hlong]
        cases hids : scanSeqIds sh (ofLe ((bs.drop 4).take 4)) (bs.drop 8) with
        | complete rest' =>
            rw [hids] at h
            exact congrArg (· + 1) (ih rest' h)
        | refused => rw [hids] at h; cases h
        | cutOff => rw [hids] at h; cases h

/-! ## The whole read -/

/-- `c'` is `c` with the first `k` cells in use. -/
structure Cache.Marked (c c' : Cache) (k : Nat) : Prop where
  used : c'.cells.used = Finset.range k
  size : c'.cells.size = c.cells.size
  head : c'.head = 0
  tensors : c'.tensors = c.tensors
  chunks : c'.nChunksAlloc = c.nChunksAlloc

theorem covered_of_range {k : Nat} (hused : c.cells.used = Finset.range k) :
    c.Covered ↔ k ≤ tokensPerChunk * c.nChunksAlloc := by
  rw [Cache.covered_iff, hused]
  constructor
  · intro hall
    by_contra hlt
    exact absurd (hall _ (Finset.mem_range.mpr (not_le.mp hlt))) (lt_irrefl _)
  · exact fun hle i hi => lt_of_lt_of_le (Finset.mem_range.mp hi) hle

theorem Cache.Marked.covered_iff {c' : Cache} {k : Nat} (h : c.Marked c' k) :
    c'.Covered ↔ k ≤ tokensPerChunk * c.nChunksAlloc :=
  h.chunks ▸ covered_of_range h.used

theorem clear_covered (c : Cache) : c.clear.Covered := by
  rw [Cache.covered_iff]
  exact fun i hi => absurd hi (Finset.notMem_empty i)

/-- How `state_read` leaves the cache: cleared if the stream was refused. -/
def afterRefusal : EStateM.Result Stop Restore Unit → Cache
  | .error .refused s => s.cache.clear
  | .error _ s => s.cache
  | .ok _ s => s.cache

theorem stateRead_cache (s : Restore) : (finalState (stateRead sh alloc (-1) s)).cache =
    afterRefusal (stateReadBody sh alloc (-1) s) := by
  unfold stateRead
  cases stateReadBody sh alloc (-1) s with
  | ok a s' => rfl
  | error stop s' => cases stop <;> rfl

/-- A property that the last steps keep and a cleared cache has. -/
theorem afterRefusal_keeps {P : Cache → Prop} {x : Read Unit} (hx : Keeps P x)
    (hclear : ∀ c : Cache, P c → P c.clear) {s : Restore} (hs : P s.cache) :
    P (afterRefusal (x s)) := by
  have h := hx s hs
  revert h
  cases x s with
  | ok a s' => exact id
  | error stop s' =>
      cases stop with
      | refused => exact fun h => hclear _ h
      | thrown => exact id
      | crashed => exact id

theorem ofLayout_covered : OfLayout Cache.Covered := fun _ _ _ h => h

/-- The data pass on marked cells: it leaves them without chunks if it throws before it has
grown. -/
theorem stateReadData_covered {c' : Cache} {n : Nat} {rest : List UInt8} (hn : n ≤ c.cells.size)
    (hmark : c.Marked c' n) :
    (afterRefusal (stateReadData sh alloc n ⟨c', rest⟩)).Covered ↔
      (n ≤ tokensPerChunk * c.nChunksAlloc ∨ ¬ (rest.length < 8 ∨
        (ofLe ((rest.drop 4).take 4) = sh.layers.length ∧ sh.vTrans = (ofLe (rest.take 4) != 0) ∧
          (mzGrowChunks sh alloc n c).2 = false))) := by
  have htrans := readU32_eq c' rest
  have hlayer := readU32_eq c' (rest.drop 4)
  unfold stateReadData
  by_cases hshort : rest.length < 8
  · have hthrown : ∃ bs, (do
        let vTrans ← readU32
        let nLayer ← readU32
        require (nLayer = sh.layers.length)
        let s ← get
        require (n ≤ s.cache.cells.size)
        require (sh.vTrans = (vTrans != 0))
        growFor sh alloc fun head => head + n
        readLayers (readK n) sh.layers
        readLayers (readV sh n) sh.layers : Read Unit) ⟨c', rest⟩ = .error .thrown ⟨c', bs⟩ := by
      by_cases hfirst : rest.length < 4
      · rw [if_pos hfirst] at htrans
        exact ⟨rest, bind_error htrans⟩
      · rw [if_neg hfirst] at htrans
        rw [if_pos (by rw [List.length_drop]; omega)] at hlayer
        exact ⟨rest.drop 4, (bind_ok htrans).trans (bind_error hlayer)⟩
    obtain ⟨bs, hread⟩ := hthrown
    rw [hread]
    refine hmark.covered_iff.trans ⟨.inl, fun h => h.resolve_right fun hno => hno (.inl hshort)⟩
  · rw [if_neg (by omega)] at htrans
    rw [if_neg (by rw [List.length_drop]; omega), List.drop_drop] at hlayer
    rw [bind_ok htrans, bind_ok hlayer]
    by_cases hcount : ofLe ((rest.drop 4).take 4) = sh.layers.length
    · rw [bind_ok (require_ok hcount), bind_ok (show (get : Read Restore) _ = .ok _ _ from rfl),
        bind_ok (require_ok (show n ≤ c'.cells.size from hmark.size ▸ hn))]
      by_cases hv : sh.vTrans = (ofLe (rest.take 4) != 0)
      · rw [bind_ok (require_ok hv)]
        have hgrows := @mzGrowChunks_tables sh alloc c' c hmark.tensors hmark.chunks n
        obtain ⟨-, hcovers, hsame⟩ := @mzGrowChunks_chunks sh alloc n c'
        have hgrow : growFor sh alloc (fun head => head + n) ⟨c', rest.drop 8⟩ =
            if (mzGrowChunks sh alloc n c').2 then .ok () ⟨(mzGrowChunks sh alloc n c').1, rest.drop 8⟩
            else .error .thrown ⟨(mzGrowChunks sh alloc n c').1, rest.drop 8⟩ := by
          unfold growFor
          dsimp only
          rw [hmark.head, Nat.zero_add]
        have hiff := covered_of_range (c := (mzGrowChunks sh alloc n c').1)
          ((congrArg Cells.used (mzGrowChunks_cells n)).trans hmark.used)
        cases hok : (mzGrowChunks sh alloc n c').2 with
        | false =>
            rw [hok, if_neg Bool.false_ne_true] at hgrow
            rw [bind_error hgrow]
            refine hiff.trans ?_
            rw [hsame hok, hmark.chunks]
            refine ⟨.inl, fun h => h.resolve_right fun hno => hno (.inr ⟨hcount, hv, ?_⟩)⟩
            rw [← hgrows]
            exact hok
        | true =>
            rw [hok, if_pos rfl] at hgrow
            rw [bind_ok hgrow]
            have hrows := afterRefusal_keeps (Keeps.rows ofLayout_covered sh n)
              (fun d _ => clear_covered d) (s := ⟨(mzGrowChunks sh alloc n c').1, rest.drop 8⟩)
              (hiff.mpr (hcovers hok))
            refine iff_of_true hrows (.inr ?_)
            rintro (h8 | ⟨-, -, hfail⟩)
            · exact hshort h8
            · rw [← hgrows, hok] at hfail
              cases hfail
      · rw [bind_error (show require (sh.vTrans = (ofLe (rest.take 4) != 0)) _ = .error .refused _
          from if_neg hv)]
        refine iff_of_true (clear_covered _) (.inr ?_)
        rintro (h8 | ⟨-, hv', -⟩)
        · exact hshort h8
        · exact hv hv'
    · rw [bind_error (show require (ofLe ((rest.drop 4).take 4) = sh.layers.length) _ =
        .error .refused _ from if_neg hcount)]
      refine iff_of_true (clear_covered _) (.inr ?_)
      rintro (h8 | ⟨hcount', -, -⟩)
      · exact hshort h8
      · exact hcount hcount'

/-- A whole-cache read leaves cells without chunks exactly for the streams that say so. -/
theorem stateRead_covered_iff (hcov : c.Covered) (stream : List UInt8) :
    (finalState (stateRead sh alloc (-1) ⟨c, stream⟩)).cache.Covered ↔
      ¬ c.Uncovers sh alloc stream := by
  rw [stateRead_cache]
  have hread := readU32_eq c stream
  unfold stateReadBody Cache.Uncovers
  by_cases hshort : stream.length < 4
  · rw [if_pos hshort] at hread
    rw [bind_error hread]
    exact iff_of_true hcov fun h => absurd h.1 (by omega)
  · rw [if_neg hshort] at hread
    rw [bind_ok hread]
    unfold stateReadMeta
    rw [if_neg (fun h => h rfl)]
    simp only [bind_assoc]
    rw [bind_ok (show (get : Read Restore) _ = .ok _ _ from rfl)]
    by_cases hroom : ofLe (stream.take 4) ≤ c.cells.size
    · rw [bind_ok (require_ok hroom), bind_ok (show onCache Cache.clear _ = .ok () _ from rfl)]
      obtain ⟨cells, hused, hsize, hresult⟩ := @readCells_scan sh (ofLe (stream.take 4)) 0 c.clear
        (stream.drop 4)
      have hrange : cells.used =
          Finset.range (scanCells sh (ofLe (stream.take 4)) (stream.drop 4)).1 := by
        rw [hused, Nat.zero_add]
        show ∅ ∪ _ = _
        rw [Finset.empty_union, Finset.range_eq_Ico]
      have hall := @scanCells_complete sh
      generalize hscan : scanCells sh (ofLe (stream.take 4)) (stream.drop 4) = scan at *
      obtain ⟨k, how⟩ := scan
      dsimp only at hrange hresult ⊢
      cases how with
      | complete rest =>
          have hk : k = ofLe (stream.take 4) := by
            have := hall (ofLe (stream.take 4)) (stream.drop 4) (by rw [hscan])
            rwa [hscan] at this
          rw [bind_ok hresult,
            bind_ok (show onCache (fun c => { c with head := 0 }) _ = .ok () _ from rfl)]
          subst hk
          refine (@stateReadData_covered sh alloc c { c.clear with cells := cells, head := 0 } _ rest
            hroom ⟨hrange, hsize, rfl, rfl, rfl⟩).trans ?_
          constructor
          · rintro (hle | hno) ⟨-, -, hlt, hthrows⟩
            · omega
            · exact hno hthrows
          · intro hno
            by_cases hle : ofLe (stream.take 4) ≤ tokensPerChunk * c.nChunksAlloc
            · exact .inl hle
            · exact .inr fun hthrows => hno ⟨by omega, hroom, by omega, hthrows⟩
      | refused =>
          obtain ⟨rest, hresult⟩ := hresult
          rw [bind_error hresult]
          exact iff_of_true (clear_covered _) fun h => h.2.2.2
      | cutOff =>
          obtain ⟨rest, hresult⟩ := hresult
          rw [bind_error hresult]
          refine (covered_of_range hrange).trans ?_
          constructor
          · rintro hle ⟨-, -, hlt, -⟩
            exact absurd hlt (not_lt.mpr hle)
          · exact fun hno => not_lt.mp fun hlt => hno ⟨by omega, hroom, hlt, trivial⟩
    · rw [bind_error (show require (ofLe (stream.take 4) ≤ c.cells.size) _ = .error .refused _ from
        if_neg hroom)]
      exact iff_of_true (clear_covered _) fun h => hroom h.2.1

/-! ## What every read keeps -/

/-- A property of the chunks and of the cells in use. -/
structure OfChunks (sh : Shape) (P : Cache → Prop) : Prop where
  follows : ∀ {c c' : Cache}, c.Follows sh c' → P c → P c'
  layout : OfLayout P
  head : ∀ (c : Cache) (n : Nat), P c → P { c with head := n }

theorem ofChunks_covered : OfChunks sh Cache.Covered :=
  ⟨fun h => h.covered, ofLayout_covered, fun _ _ h => h⟩

theorem ofChunks_laid : OfChunks sh (Cache.Laid sh) :=
  ⟨fun h => h.laid, fun _ _ hs h => h.keep rfl rfl hs rfl, fun _ _ h => h.keep rfl rfl rfl rfl⟩

variable {P : Cache → Prop}

theorem OfChunks.data (hP : OfChunks sh P) (n : Nat) : Keeps P (stateReadData sh alloc n) := by
  unfold stateReadData
  refine Keeps.readU32.bind fun _ => Keeps.readU32.bind fun _ => (Keeps.require _).bind fun _ =>
    Keeps.get.bind fun _ => (Keeps.require _).bind fun _ => (Keeps.require _).bind fun _ => ?_
  refine Keeps.bind (fun s hs => ?_) fun _ => Keeps.rows hP.layout sh n
  have hgrow := hP.follows (@follows_mzGrowChunks sh alloc (s.cache.head + n) s.cache) hs
  unfold growFor
  dsimp only
  split
  · exact hgrow
  · exact hgrow

theorem Keeps.readUbatch (dest n : Nat) : Keeps P (readUbatch dest n) := by
  induction n with
  | zero => exact Keeps.pure _
  | succ n ih =>
      exact Keeps.readI32.bind fun _ => Keeps.readU32.bind fun _ => (Keeps.require _).bind fun _ =>
        Keeps.readI32.bind fun _ => ih.bind fun _ => Keeps.pure _

theorem OfChunks.placeUbatch (hP : OfChunks sh P) (dest : Nat) (ubatch : List BatchToken) :
    Keeps P (placeUbatch sh alloc dest ubatch) := by
  intro s hs
  unfold MzCache.Unified.placeUbatch
  split
  · exact hs
  · rename_i headCur _
    have hplace := hP.follows (@follows_applyUbatch sh alloc headCur ubatch s.cache).1 hs
    dsimp only
    split
    · split
      · exact hP.head _ _ hplace
      · exact hP.head _ _ hplace
    · exact hplace

/-- A read of one sequence grows before it writes. -/
theorem OfChunks.readSeq (hP : OfChunks sh P) {seqId : Int} (hseq : seqId ≠ -1) {s : Restore}
    (hs : P s.cache) : P (finalState (stateRead sh alloc seqId s)).cache := by
  have hbody : Keeps P (stateReadBody sh alloc seqId) := by
    refine Keeps.readU32.bind fun n => Keeps.bind ?_ fun _ => hP.data n
    unfold stateReadMeta
    rw [if_pos hseq]
    exact (Keeps.onCache fun c => hP.follows (follows_seqRm _ _ _ c)).bind fun _ =>
      (Keeps.readUbatch _ _).bind fun _ => hP.placeUbatch _ _
  have h := hbody s hs
  unfold stateRead
  revert h
  cases stateReadBody sh alloc seqId s with
  | ok a s' => exact id
  | error stop s' =>
      cases stop with
      | refused =>
          intro h
          show P (if seqId = -1 then _ else _)
          rw [if_neg hseq]
          exact hP.follows (follows_seqRm _ _ _ _) h
      | thrown => exact id
      | crashed => exact id

/-- A whole-cache read moves no chunk. -/
theorem stateRead_laid {s : Restore} (hs : s.cache.Laid sh) :
    (finalState (stateRead sh alloc (-1) s)).cache.Laid sh := by
  have hcells : ∀ f : Cells → Cells, Keeps (Cache.Laid sh) (onCells f) := fun f =>
    Keeps.onCache fun c h => h.keep rfl rfl rfl rfl
  have hids : ∀ i n, Keeps (Cache.Laid sh) (readSeqIds sh i n) := by
    intro i n
    induction n with
    | zero => exact Keeps.pure ()
    | succ n ih =>
        exact Keeps.readI32.bind fun _ => (Keeps.require _).bind fun _ => (hcells _).bind fun _ => ih
  have hrecords : ∀ n i, Keeps (Cache.Laid sh) (readCells sh n i) := by
    intro n
    induction n with
    | zero => exact fun i => Keeps.pure ()
    | succ n ih =>
        exact fun i => Keeps.readI32.bind fun _ => Keeps.readU32.bind fun _ =>
          (hcells _).bind fun _ => (hids i _).bind fun _ => ih (i + 1)
  have hbody : Keeps (Cache.Laid sh) (stateReadBody sh alloc (-1)) := by
    refine Keeps.readU32.bind fun n => Keeps.bind ?_ fun _ => ofChunks_laid.data n
    unfold stateReadMeta
    rw [if_neg fun h => h rfl]
    exact Keeps.get.bind fun _ => (Keeps.require _).bind fun _ =>
      (Keeps.onCache fun c h => (follows_clear c).laid h).bind fun _ => (hrecords n 0).bind fun _ =>
        Keeps.onCache fun c h => h.keep rfl rfl rfl rfl
  rw [stateRead_cache]
  exact afterRefusal_keeps hbody (fun c h => (follows_clear c).laid h) hs

end

end MzCache.Unified
