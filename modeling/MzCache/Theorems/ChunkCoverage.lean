import MzCache.Unified.ReadScan

/-!
# Every cell in use has its chunk

Nothing asks for a chunk when attention reads it: that it is there follows from every cell in use
lying in a chunk that was grown before the cell came into use. A whole-cache read breaks the order:
it puts cells into use first, and an exception of the reader or of the growth passes by the clean-up.
-/

namespace MzCache.Theorems

open MzCache MzCache.Lib MzCache.Unified

/-- A call on a cache, for any sequences, ranges, batches and streams. -/
inductive CacheCall where
  | decode (params : ContextParams) (env : DecodeEnv) (batch : List BatchToken)
  | clear
  | seqRm (seqId p0 p1 : Int)
  | seqCp (src dst : Nat) (p0 p1 : Int)
  | seqKeep (s : Nat)
  | seqAdd (s : Nat) (p0 p1 shift : Int)
  | seqDiv (s : Nat) (p0 p1 d : Int)
  | stateRead (alloc : Alloc) (seqId : Int) (stream : List UInt8)

def CacheCall.exec (sh : Shape) : CacheCall → Cache → Cache
  | .decode params env batch, c => (c.decodeCall sh params env batch).1.cache
  | .clear, c => c.clear
  | .seqRm seqId p0 p1, c => c.seqRm seqId p0 p1
  | .seqCp src dst p0 p1, c => c.seqCp src dst p0 p1
  | .seqKeep s, c => c.seqKeep s
  | .seqAdd s p0 p1 shift, c => c.seqAdd s p0 p1 shift
  | .seqDiv s p0 p1 d, c => c.seqDiv s p0 p1 d
  | .stateRead alloc seqId stream, c =>
      (finalState (MzCache.Unified.stateRead sh alloc seqId ⟨c, stream⟩)).cache

/-- The call is not a whole-cache read that throws too early. -/
def CacheCall.Covers (sh : Shape) : CacheCall → Cache → Prop
  | .stateRead alloc seqId stream, c => seqId = -1 → ¬ c.Uncovers sh alloc stream
  | _, _ => True

/-- Every call of a run covers. -/
def CacheCall.CoversRun (sh : Shape) : List CacheCall → Cache → Prop
  | [], _ => True
  | call :: calls, c => call.Covers sh c ∧ CoversRun sh calls (call.exec sh c)

/-- A property holds after every call of a run. -/
def CacheCall.Throughout (sh : Shape) (P : Cache → Prop) : List CacheCall → Cache → Prop
  | [], _ => True
  | call :: calls, c => P (call.exec sh c) ∧ Throughout sh P calls (call.exec sh c)

section

variable {sh : Shape} {c : Cache}

/-- A call that covers keeps the coverage, and no other call does. -/
theorem CacheCall.exec_covered_iff (hcov : c.Covered) (call : CacheCall) :
    (call.exec sh c).Covered ↔ call.Covers sh c := by
  cases call with
  | decode params env batch =>
      exact iff_of_true ((follows_decodeCall params env batch c).covered hcov) trivial
  | clear => exact iff_of_true ((@follows_clear sh c).covered hcov) trivial
  | seqRm seqId p0 p1 => exact iff_of_true ((@follows_seqRm sh _ _ _ c).covered hcov) trivial
  | seqCp src dst p0 p1 => exact iff_of_true ((@follows_seqCp sh _ _ _ _ c).covered hcov) trivial
  | seqKeep s => exact iff_of_true ((@follows_seqKeep sh s c).covered hcov) trivial
  | seqAdd s p0 p1 shift =>
      exact iff_of_true ((@follows_seqAdd sh _ _ _ _ c).covered hcov) trivial
  | seqDiv s p0 p1 d => exact iff_of_true ((@follows_seqDiv sh _ _ _ _ c).covered hcov) trivial
  | stateRead alloc seqId stream =>
      by_cases hall : seqId = -1
      · subst hall
        exact (stateRead_covered_iff hcov stream).trans ⟨fun h _ => h, fun h => h rfl⟩
      · exact iff_of_true (ofChunks_covered.readSeq hall hcov) fun h => absurd h hall

/-- No call moves a chunk. -/
theorem CacheCall.exec_laid (h : c.Laid sh) (call : CacheCall) : (call.exec sh c).Laid sh := by
  cases call with
  | decode params env batch => exact (follows_decodeCall params env batch c).laid h
  | clear => exact (follows_clear c).laid h
  | seqRm seqId p0 p1 => exact (follows_seqRm _ _ _ c).laid h
  | seqCp src dst p0 p1 => exact (follows_seqCp _ _ _ _ c).laid h
  | seqKeep s => exact (follows_seqKeep s c).laid h
  | seqAdd s p0 p1 shift => exact (follows_seqAdd _ _ _ _ c).laid h
  | seqDiv s p0 p1 d => exact (follows_seqDiv _ _ _ _ c).laid h
  | stateRead alloc seqId stream =>
      by_cases hall : seqId = -1
      · subst hall
        exact stateRead_laid h
      · exact ofChunks_laid.readSeq hall h

/-- The coverage holds throughout a run if and only if every call covers. -/
theorem CacheCall.covered_iff (calls : List CacheCall) : ∀ {c : Cache}, c.Covered →
    (Throughout sh Cache.Covered calls c ↔ CoversRun sh calls c) := by
  induction calls with
  | nil => exact fun _ => Iff.rfl
  | cons call calls ih =>
      intro c hcov
      have hone := @CacheCall.exec_covered_iff sh c hcov call
      constructor
      · exact fun ⟨hnext, hrest⟩ => ⟨hone.mp hnext, (ih hnext).mp hrest⟩
      · exact fun ⟨hcall, hrest⟩ => ⟨hone.mpr hcall, (ih (hone.mpr hcall)).mpr hrest⟩

theorem CacheCall.attended (hpad : sh.nPad ∣ tokensPerChunk) (calls : List CacheCall) :
    ∀ {c : Cache}, c.Laid sh → Throughout sh Cache.Covered calls c →
      Throughout sh (Cache.AttentionBacked sh) calls c := by
  induction calls with
  | nil => exact fun _ _ => trivial
  | cons call calls ih =>
      intro c h ⟨hcov, hrest⟩
      have hnext := call.exec_laid h
      exact ⟨hnext.attentionBacked hpad hcov, ih hnext hrest⟩

theorem fresh_covered (sh : Shape) (kvSize : Nat) : (Cache.fresh sh kvSize).Covered := by
  rw [Cache.covered_iff]
  exact fun i hi => absurd hi (Finset.notMem_empty i)

/-- In every run of calls on a new cache, the cells in use have their chunks after every call if
and only if no whole-cache read throws before it has grown, with more records than chunks; and then
attention finds every chunk it reads, of every layer, where it was made. -/
theorem chunk_coverage_iff (sh : Shape) (hpad : sh.nPad ∣ tokensPerChunk) (kvSize : Nat)
    (calls : List CacheCall) :
    (CacheCall.Throughout sh Cache.Covered calls (.fresh sh kvSize) ↔
      CacheCall.CoversRun sh calls (.fresh sh kvSize)) ∧
    (CacheCall.CoversRun sh calls (.fresh sh kvSize) →
      CacheCall.Throughout sh (Cache.AttentionBacked sh) calls (.fresh sh kvSize)) := by
  have hiff := @CacheCall.covered_iff sh calls _ (fresh_covered sh kvSize)
  exact ⟨hiff, fun h => CacheCall.attended hpad calls (Laid.fresh sh kvSize) (hiff.mpr h)⟩

/-! ## Streams that are cut off -/

/-- Records without sequences, as far as they go. -/
theorem scanCells_zeros (n : Nat) : ∀ m < n,
    scanCells sh n (List.replicate (8 * m) 0) = (m, .cutOff) := by
  induction n with
  | zero => exact fun m hm => absurd hm (Nat.not_lt_zero m)
  | succ n ih =>
      intro m hm
      cases m with
      | zero => rfl
      | succ m =>
          rw [scanCells, if_neg (by simp)]
          have hzero : ofLe (((List.replicate (8 * (m + 1)) (0 : UInt8)).drop 4).take 4) = 0 := by
            rw [List.drop_replicate, List.take_replicate,
              show min 4 (8 * (m + 1) - 4) = 4 by omega]
            decide
          rw [hzero, scanSeqIds, List.drop_replicate, show 8 * (m + 1) - 8 = 8 * m by omega]
          dsimp only
          rw [ih m (by omega)]

/-- A new cache takes a stream of 258 records that ends after the 257th: the read throws, and cell
256 is in use without a chunk. -/
theorem cut_stream_uncovers (sh : Shape) (alloc : Alloc) (kvSize : Nat) (hsize : 258 ≤ kvSize) :
    (Cache.fresh sh kvSize).Uncovers sh alloc (toLe 4 258 ++ List.replicate (8 * 257) 0) := by
  have htake : (toLe 4 258 ++ List.replicate (8 * 257) (0 : UInt8)).take 4 = toLe 4 258 :=
    List.take_left' (toLe_length 4 258)
  have hdrop : (toLe 4 258 ++ List.replicate (8 * 257) (0 : UInt8)).drop 4 =
      List.replicate (8 * 257) 0 := List.drop_left' (toLe_length 4 258)
  unfold Cache.Uncovers
  rw [htake, hdrop, ofLe_toLe (by decide), scanCells_zeros 258 257 (by decide)]
  refine ⟨?_, hsize, show tokensPerChunk * 1 < 257 by decide, trivial⟩
  rw [List.length_append, toLe_length]
  exact Nat.le_add_right _ _

/-- A decode and then a stream without a single byte. -/
theorem chunk_coverage_empty :
    Shape.single.nPad ∣ tokensPerChunk ∧
      CacheCall.Throughout Shape.single (Cache.AttentionBacked Shape.single)
        [.decode ⟨512, 64⟩ ⟨false, fun _ _ => true, fun _ => true, fun _ _ => true, fun _ => true⟩
          [⟨0, 0, [0]⟩], .stateRead (fun _ _ => true) (-1) []] (.fresh Shape.single 256) :=
  ⟨by decide, (chunk_coverage_iff Shape.single (by decide) 256 _).2
    ⟨trivial, fun _ h => absurd h.1 (by decide), trivial⟩⟩

end

end MzCache.Theorems
