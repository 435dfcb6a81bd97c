import MzCache.Sync.Handshake

/-!
# The graph-allocation signal

The one place that fulfils the promise lies behind every exit that `decode` takes before its
first graph is allocated. A swapin whose decode leaves by such an exit waits forever; any other
one gets its signal, whatever constructions, decodes and swapins came before.
-/

namespace MzCache.Theorems

open MzCache.Lib MzCache.Sync

/-- In every run, a swapin's decode finishes with the awaited promise fulfilled exactly when
the first ubatch of its first decode call gets its graph allocated; so a run all of whose
swapins get that far never loses a signal. -/
theorem graph_alloc_signal_iff (p : Process) (hp : (process fun _ _ => True).Reachable p)
    (hcore : p.core = true) (pos : List ℤ) (env : ℕ → DecodeEnv) :
    ((p.swapin env pos).lost = none ↔ (env 0).allocates (firstTokens pos)) ∧
      (process fun pos env => (env 0).allocates (firstTokens pos)).Invariant fun p =>
        p.lost = none :=
  ⟨((process_ok p hp).swapin hcore env pos).2, fun _ hq => process_lost (fun _ _ h => h) hq⟩

/-- The first swapin of a process, on a batch of one token. -/
theorem graph_alloc_signal_one :
    (Process.constructed.swapin (fun _ => .succeeds) [0]).lost = none :=
  (graph_alloc_signal_iff _ (Process.constructed_reachable _) rfl [0] _).1.mpr
    ⟨⟨by decide, rfl, rfl, fun _ => ⟨rfl, by decide, Or.inl rfl⟩⟩, fun _ => rfl, rfl, rfl, rfl⟩

/-- The same swapin with no memory slot for the batch: `decode` returns 1, and the main thread
waits for promise 1, which nobody fulfils any more. -/
theorem graph_alloc_signal_lost_without_slot :
    ∃ env : ℕ → DecodeEnv,
      (process fun _ _ => True).Reachable (Process.constructed.swapin env [0]) ∧
      (decodeChunkAligned env [0] Process.constructed.handshake.reset).2 = some 1 ∧
      (Process.constructed.swapin env [0]).lost = some 1 ∧
      (Process.constructed.swapin env [0]).handshake.signaled = false := by
  refine ⟨fun _ => { DecodeEnv.succeeds with initBatch := some .failedPrepare },
    (Process.constructed_reachable _).next (.swapin _ _ rfl rfl trivial), ?_, ?_, ?_⟩
  · simp [decodeChunkAligned, alignedLoop, decode, DecodeEnv.succeeds, initBatchLoop, batchCode]
  · simp [Process.swapin, decodeChunkAligned, alignedLoop, decode, DecodeEnv.succeeds,
      initBatchLoop, batchCode, Process.constructed, Handshake.construct, Handshake.fresh,
      Handshake.renew, Handshake.reset]
  · simp [Process.swapin, decodeChunkAligned, alignedLoop, decode, DecodeEnv.succeeds,
      initBatchLoop, batchCode, Process.constructed, Handshake.construct, Handshake.fresh,
      Handshake.renew, Handshake.reset]

end MzCache.Theorems
