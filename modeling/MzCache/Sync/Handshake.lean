import MzCache.Lib.TSys

/-!
# The graph-allocation handshake

`swapin_generate` and `swapin_generate_no_alloc_overlap` start a decode in a thread of its own and
wait for `g_graph_alloc_future`, which `process_ubatch` fulfils once the graph is allocated.
The model follows `decode` through its exits: what the functions it calls return is read off
a record, one for each decode call, so every combination of outcomes is covered. An exception
of `kv_self_update` ends the decode like any other exit; failed assertions end the process and
are left out.
-/

namespace MzCache.Sync

open MzCache.Lib

/-- `g_graph_alloc_promise`, `g_graph_alloc_future` and `g_graph_alloc_signaled`. Promises are
numbered in the order in which they are created. -/
structure Handshake where
  promise : ℕ
  fulfilled : ℕ → Bool
  /-- The promise the future belongs to; a default-constructed future has none. -/
  future : Option ℕ
  signaled : Bool

namespace Handshake

/-- The globals before anything ran. -/
def fresh : Handshake := ⟨0, fun _ => false, none, false⟩

/-- A new promise with its future. -/
def renew (h : Handshake) : Handshake :=
  { h with promise := h.promise + 1, future := some (h.promise + 1), signaled := false }

/-- What the constructor of `mzcache_core` does. -/
def construct (h : Handshake) : Handshake := if h.signaled then h else h.renew

/-- "Reset the future" at the start of the two swapin variants. -/
def reset (h : Handshake) : Handshake := if h.signaled then h.renew else h

/-- The signal of `process_ubatch`. -/
def signal (h : Handshake) : Handshake :=
  if h.signaled then h
  else { h with signaled := true, fulfilled := Function.update h.fulfilled h.promise true }

end Handshake

/-! ## Decoding -/

inductive GgmlStatus
  | success
  | aborted
  | allocFailed
  | failed
  deriving DecidableEq, Repr

inductive MemoryStatus
  | success
  | noUpdate
  | failedPrepare
  | failedCompute
  deriving DecidableEq, Repr

/-- Outcomes of the calls of `process_ubatch`. -/
structure Ubatch where
  apply : Bool
  graphInit : Bool
  graphBuild : Bool
  allocGraph : Bool
  compute : GgmlStatus
  deriving DecidableEq, Repr

/-- Outcomes of the calls of one `decode`. `none` stands for a null context from `init_batch`,
and for an exception of `kv_self_update`. -/
structure DecodeEnv where
  memory : Bool
  ballocInit : Bool
  /-- With pooled embeddings, all tokens are output. -/
  allOutput : Bool
  selfUpdate : Option Bool
  initBatch : Option MemoryStatus
  /-- `kv_self_update(true)`, and `init_batch` after it. -/
  optimize : Option Bool
  initBatchAgain : Option MemoryStatus
  outputReserve : Bool
  /-- The ubatches `mctx` runs through; there is a first one. -/
  ubatch : Ubatch
  next : List Ubatch
  deriving DecidableEq, Repr

/-- `process_ubatch`; a status other than success goes with a null result. -/
def processUbatch (mctx : Bool) (u : Ubatch) (h : Handshake) : Handshake × GgmlStatus :=
  if mctx ∧ !u.apply then (h, .failed)
  else if !u.graphInit then (h, .failed)
  else if !u.graphBuild then (h, .failed)
  else if !u.allocGraph then (h, .allocFailed)
  else (h.signal, u.compute)

/-- The return values of `decode` for a failed ubatch. -/
def GgmlStatus.code : GgmlStatus → ℤ
  | .aborted => 2
  | .allocFailed => -2
  | .failed => -3
  | .success => 0

/-- `encode`, which `decode` calls in a context without memory. -/
def encode (nTokens : ℕ) (e : DecodeEnv) (h : Handshake) : Handshake × Option ℤ :=
  if nTokens = 0 then (h, some (-1))
  else if !e.ballocInit then (h, some (-1))
  else if !e.outputReserve then (h, some (-2))
  else
    let r := processUbatch false e.ubatch h
    (r.1, some r.2.code)

/-- What the `init_batch` loop of `decode` makes of a status: go on, or return. -/
def batchCode : Option MemoryStatus → Option ℤ
  | some .success => none
  | some .failedPrepare => some 1
  | _ => some (-2)

/-- The `init_batch` loop: `ok` when a slot was found, else how `decode` ends. -/
def initBatchLoop (e : DecodeEnv) : Except (Option ℤ) Unit :=
  let settle := fun status =>
    match batchCode status with
    | none => Except.ok ()
    | some code => Except.error (some code)
  if e.initBatch = some .failedPrepare then
    match e.optimize with
    | none => .error none
    | some false => settle e.initBatch
    | some true => settle e.initBatchAgain
  else settle e.initBatch

/-- The ubatch loop of `decode`. -/
def ubatchLoop (u : Ubatch) (next : List Ubatch) (h : Handshake) : Handshake × Option ℤ :=
  let r := processUbatch true u h
  if r.2 = .success then
    match next with
    | [] => (r.1, some 0)
    | u' :: next' => ubatchLoop u' next' r.1
  else (r.1, some r.2.code)

/-- `llama_context::decode`; the result is `none` when it throws. -/
def decode (nTokens : ℕ) (e : DecodeEnv) (h : Handshake) : Handshake × Option ℤ :=
  if !e.memory then encode nTokens e h
  else if nTokens = 0 then (h, some (-1))
  else if !e.ballocInit then (h, some (-1))
  else if !e.allOutput then (h, some (-1))
  else if e.selfUpdate = none then (h, none)
  else
    match initBatchLoop e with
    | .error r => (h, r)
    | .ok () =>
        if !e.outputReserve then (h, some (-2))
        else ubatchLoop e.ubatch e.next h

/-- The position begins a new chunk. -/
def startsChunk (pos : ℤ) : Bool := pos.tmod 256 = 0

/-- The loop of `decode_chunk_aligned` over the positions that are left: decode up to the
next position that begins a chunk, and stop at the first failure. `k` counts the calls. -/
def alignedLoop (env : ℕ → DecodeEnv) (k : ℕ) : List ℤ → Handshake → Handshake × Option ℤ
  | [], h => (h, some 0)
  | _ :: rest, h =>
      let sub := rest.takeWhile fun pos => !startsChunk pos
      let r := decode (sub.length + 1) (env k) h
      if r.2 = some 0 then
        alignedLoop env (k + 1) (rest.dropWhile fun pos => !startsChunk pos) r.1
      else r
  termination_by pos => pos.length
  decreasing_by
    have := (List.dropWhile_sublist (l := rest) fun pos => !startsChunk pos).length_le
    simp only [List.length_cons]
    omega

/-- `decode_chunk_aligned` on a batch with the given positions. -/
def decodeChunkAligned (env : ℕ → DecodeEnv) (pos : List ℤ) (h : Handshake) :
    Handshake × Option ℤ :=
  if pos = [] then decode 0 (env 0) h else alignedLoop env 0 pos h

/-! ## Runs -/

/-- The process: whether `mzcache_core` exists, and the promise the main thread waits for
while the decode that should fulfil it has already finished. -/
structure Process where
  handshake : Handshake
  core : Bool
  lost : Option ℕ

/-- A swapin with the graph-allocation wait, up to the end of its decode. -/
def Process.swapin (env : ℕ → DecodeEnv) (pos : List ℤ) (p : Process) : Process :=
  let waiting := p.handshake.reset
  let done := (decodeChunkAligned env pos waiting).1
  { p with handshake := done, lost := waiting.future.filter fun g => !done.fulfilled g }

/-- One call of the main thread. The two swapin variants without prefill overlap decode on
the main thread, so they count as ordinary decodes here. -/
inductive ProcessStep (ok : List ℤ → (ℕ → DecodeEnv) → Prop) (p : Process) : Process → Prop
  | construct (h : p.lost = none) :
      ProcessStep ok p { p with handshake := p.handshake.construct, core := true }
  | decode (n : ℕ) (e : DecodeEnv) (h : p.lost = none) :
      ProcessStep ok p { p with handshake := (Sync.decode n e p.handshake).1 }
  | decodeAligned (pos : List ℤ) (env : ℕ → DecodeEnv) (h : p.lost = none) :
      ProcessStep ok p { p with handshake := (decodeChunkAligned env pos p.handshake).1 }
  | swapin (pos : List ℤ) (env : ℕ → DecodeEnv) (hcore : p.core = true) (h : p.lost = none)
      (hok : ok pos env) : ProcessStep ok p (p.swapin env pos)

/-- All runs whose swapins satisfy `ok`. -/
def process (ok : List ℤ → (ℕ → DecodeEnv) → Prop) : TSys Process where
  init := fun p => p = ⟨.fresh, false, none⟩
  step := ProcessStep ok

/-! ## When a decode signals -/

/-- `init_batch` finds a slot, at the second attempt if the cache could be optimised. -/
def DecodeEnv.slotFound (e : DecodeEnv) : Prop :=
  e.initBatch = some .success ∨
    e.initBatch = some .failedPrepare ∧ e.optimize = some true ∧ e.initBatchAgain = some .success

/-- A decode of `n` tokens gets as far as its first ubatch. -/
def DecodeEnv.reachesUbatch (n : ℕ) (e : DecodeEnv) : Prop :=
  0 < n ∧ e.ballocInit = true ∧ e.outputReserve = true ∧
    (e.memory = true → e.allOutput = true ∧ e.selfUpdate ≠ none ∧ e.slotFound)

/-- The ubatch gets its graph allocated. -/
def Ubatch.allocates (mctx : Bool) (u : Ubatch) : Prop :=
  (mctx = true → u.apply = true) ∧ u.graphInit = true ∧ u.graphBuild = true ∧ u.allocGraph = true

/-- The first ubatch of a decode of `n` tokens gets its graph allocated. -/
def DecodeEnv.allocates (n : ℕ) (e : DecodeEnv) : Prop :=
  e.reachesUbatch n ∧ e.ubatch.allocates e.memory

/-- The tokens of the first decode call of `decode_chunk_aligned`. -/
def firstTokens : List ℤ → ℕ
  | [] => 0
  | _ :: rest => (rest.takeWhile fun pos => !startsChunk pos).length + 1

section

variable {h : Handshake} {n : ℕ} {e : DecodeEnv} {u : Ubatch}

@[simp] theorem Handshake.signal_signal : h.signal.signal = h.signal := by
  have : h.signal.signaled = true := by
    unfold Handshake.signal
    split
    · assumption
    · rfl
  rw [Handshake.signal, if_pos this]

/-- A ubatch signals exactly when its graph is allocated, and fails otherwise. -/
theorem processUbatch_spec (mctx : Bool) (u : Ubatch) (h : Handshake) :
    (u.allocates mctx → processUbatch mctx u h = (h.signal, u.compute)) ∧
      (¬ u.allocates mctx → (processUbatch mctx u h).1 = h ∧
        (processUbatch mctx u h).2 ≠ .success) := by
  unfold processUbatch Ubatch.allocates
  cases mctx <;> cases u.apply <;> cases u.graphInit <;> cases u.graphBuild <;>
    cases u.allocGraph <;> simp

theorem GgmlStatus.code_ne_zero {s : GgmlStatus} (hs : s ≠ .success) : s.code ≠ 0 := by
  cases s <;> simp_all [GgmlStatus.code]

/-- Once the signal is given later ubatches change nothing. -/
theorem ubatchLoop_signaled (next : List Ubatch) :
    ∀ u, (ubatchLoop u next h.signal).1 = h.signal := by
  induction next with
  | nil =>
      intro u
      have hspec := processUbatch_spec true u h.signal
      unfold ubatchLoop
      by_cases ha : u.allocates true
      · simp only [hspec.1 ha, Handshake.signal_signal]
        split <;> rfl
      · simp only [(hspec.2 ha).1]
        split <;> rfl
  | cons u' next ih =>
      intro u
      have hspec := processUbatch_spec true u h.signal
      unfold ubatchLoop
      by_cases ha : u.allocates true
      · simp only [hspec.1 ha, Handshake.signal_signal]
        split
        · exact ih u'
        · rfl
      · simp only [(hspec.2 ha).1]
        split
        · exact ih u'
        · rfl

theorem ubatchLoop_spec (u : Ubatch) (next : List Ubatch) (h : Handshake) :
    (u.allocates true → (ubatchLoop u next h).1 = h.signal) ∧
      (¬ u.allocates true → (ubatchLoop u next h).1 = h ∧ (ubatchLoop u next h).2 ≠ some 0) := by
  have hspec := processUbatch_spec true u h
  constructor
  · intro ha
    unfold ubatchLoop
    simp only [hspec.1 ha]
    split
    · cases next with
      | nil => rfl
      | cons u' next => exact ubatchLoop_signaled next u'
    · rfl
  · intro ha
    obtain ⟨h1, h2⟩ := hspec.2 ha
    unfold ubatchLoop
    simp only [if_neg h2, h1, ne_eq, Option.some.injEq, true_and]
    exact GgmlStatus.code_ne_zero h2

theorem initBatchLoop_spec (e : DecodeEnv) :
    (e.slotFound → initBatchLoop e = .ok ()) ∧
      (¬ e.slotFound → ∃ r, initBatchLoop e = .error r ∧ r ≠ some 0) := by
  unfold initBatchLoop DecodeEnv.slotFound
  rcases e.initBatch with - | (_ | _ | _ | _) <;> rcases e.optimize with - | (_ | _) <;>
    rcases e.initBatchAgain with - | (_ | _ | _ | _) <;> simp [batchCode]

/-- A decode signals exactly when its first ubatch gets its graph, and fails otherwise. -/
theorem decode_spec (n : ℕ) (e : DecodeEnv) (h : Handshake) :
    (e.allocates n → (decode n e h).1 = h.signal) ∧
      (¬ e.allocates n → (decode n e h).1 = h ∧ (decode n e h).2 ≠ some 0) := by
  by_cases hn : n = 0
  · subst hn
    refine ⟨fun ha => absurd ha.1.1 (by simp), fun _ => ?_⟩
    cases hm : e.memory <;> simp [decode, encode, hm]
  have hpos : 0 < n := by omega
  cases hb : e.ballocInit with
  | false =>
      refine ⟨fun ha => absurd ha.1.2.1 (by simp [hb]), fun _ => ?_⟩
      cases hm : e.memory <;> simp [decode, encode, hm, hn, hb]
  | true =>
      cases hm : e.memory with
      | false =>
          -- without memory the batch is encoded
          cases ho : e.outputReserve with
          | false =>
              refine ⟨fun ha => absurd ha.1.2.2.1 (by simp [ho]), fun _ => ?_⟩
              simp [decode, encode, hm, hn, hb, ho]
          | true =>
              have hspec := processUbatch_spec false e.ubatch h
              have heq : decode n e h = ((processUbatch false e.ubatch h).1,
                  some (processUbatch false e.ubatch h).2.code) := by
                simp [decode, encode, hm, hn, hb, ho]
              have hiff : e.allocates n ↔ e.ubatch.allocates false := by
                simp [DecodeEnv.allocates, DecodeEnv.reachesUbatch, hpos, hb, ho, hm]
              rw [hiff, heq]
              refine ⟨fun ha => by rw [hspec.1 ha], fun ha => ⟨(hspec.2 ha).1, ?_⟩⟩
              simpa using GgmlStatus.code_ne_zero (hspec.2 ha).2
      | true =>
          by_cases hpre : e.allOutput = true ∧ e.selfUpdate ≠ none ∧ e.slotFound
          · obtain ⟨hall, hself, hslot⟩ := hpre
            have hloop := (initBatchLoop_spec e).1 hslot
            cases ho : e.outputReserve with
            | false =>
                refine ⟨fun ha => absurd ha.1.2.2.1 (by simp [ho]), fun _ => ?_⟩
                simp [decode, hm, hn, hb, hall, hself, hloop, ho]
            | true =>
                have heq : decode n e h = ubatchLoop e.ubatch e.next h := by
                  simp [decode, hm, hn, hb, hall, hself, hloop, ho]
                have hiff : e.allocates n ↔ e.ubatch.allocates true := by
                  simp [DecodeEnv.allocates, DecodeEnv.reachesUbatch, hpos, hb, ho, hm, hall,
                    hself, hslot]
                rw [hiff, heq]
                exact ubatchLoop_spec _ _ _
          · refine ⟨fun ha => absurd (ha.1.2.2.2 hm) hpre, fun _ => ?_⟩
            cases hall : e.allOutput with
            | false => simp [decode, hm, hn, hb, hall]
            | true =>
                by_cases hself : e.selfUpdate = none
                · simp [decode, hm, hn, hb, hall, hself]
                · obtain ⟨r, hr, hne⟩ := (initBatchLoop_spec e).2 fun hs => hpre ⟨hall, hself, hs⟩
                  simp [decode, hm, hn, hb, hall, hself, hr, hne]

theorem alignedLoop_signaled (env : ℕ → DecodeEnv) (k : ℕ) (pos : List ℤ) :
    (alignedLoop env k pos h.signal).1 = h.signal := by
  have hcall : ∀ n k, (decode n (env k) h.signal).1 = h.signal := by
    intro n k
    by_cases ha : (env k).allocates n
    · rw [(decode_spec n (env k) h.signal).1 ha, Handshake.signal_signal]
    · exact ((decode_spec n (env k) h.signal).2 ha).1
  induction hlen : pos.length using Nat.strong_induction_on generalizing k pos with
  | _ len ih =>
      cases pos with
      | nil => rw [alignedLoop]
      | cons p rest =>
          rw [alignedLoop]
          split
          · rw [hcall]
            refine ih _ ?_ _ _ rfl
            have := (List.dropWhile_sublist (l := rest) fun pos => !startsChunk pos).length_le
            rw [← hlen, List.length_cons]
            omega
          · exact hcall _ _

/-- `decode_chunk_aligned` signals exactly when the first ubatch of its first decode gets its
graph. -/
theorem decodeChunkAligned_spec (env : ℕ → DecodeEnv) (pos : List ℤ) (h : Handshake) :
    ((env 0).allocates (firstTokens pos) → (decodeChunkAligned env pos h).1 = h.signal) ∧
      (¬ (env 0).allocates (firstTokens pos) → (decodeChunkAligned env pos h).1 = h) := by
  cases pos with
  | nil =>
      have hspec := decode_spec 0 (env 0) h
      exact ⟨hspec.1, fun ha => (hspec.2 ha).1⟩
  | cons p rest =>
      have hspec := decode_spec (firstTokens (p :: rest)) (env 0) h
      have heq : decodeChunkAligned env (p :: rest) h = alignedLoop env 0 (p :: rest) h := rfl
      have htok : (rest.takeWhile fun pos => !startsChunk pos).length + 1 =
          firstTokens (p :: rest) := rfl
      rw [heq, alignedLoop, htok]
      refine ⟨fun ha => ?_, fun ha => ?_⟩
      · have h1 := hspec.1 ha
        split
        · rw [h1]
          exact alignedLoop_signaled _ _ _
        · exact h1
      · obtain ⟨h1, h2⟩ := hspec.2 ha
        rw [if_neg h2]
        exact h1

end

/-! ## The flag and the promise -/

/-- The flag tells whether the current promise is fulfilled, later promises are not, and with
a core there is a future to wait for. -/
structure HandshakeOk (p : Process) : Prop where
  flag : p.handshake.fulfilled p.handshake.promise = p.handshake.signaled
  later : ∀ g, p.handshake.promise < g → p.handshake.fulfilled g = false
  future : p.core = true → p.handshake.signaled = true ∨
    p.handshake.future = some p.handshake.promise

section

variable {p : Process} {core : Bool} {lost : Option ℕ}

theorem HandshakeOk.signal (h : HandshakeOk p) :
    HandshakeOk { p with handshake := p.handshake.signal } := by
  cases hs : p.handshake.signaled with
  | true =>
      have : p.handshake.signal = p.handshake := by rw [Handshake.signal, if_pos hs]
      rw [this]
      exact h
  | false =>
      have hsig : p.handshake.signal = { p.handshake with
          signaled := true
          fulfilled := Function.update p.handshake.fulfilled p.handshake.promise true } := by
        rw [Handshake.signal, if_neg (by simp [hs])]
      rw [hsig]
      refine ⟨by simp, fun g hg => ?_, fun _ => Or.inl rfl⟩
      have hne : g ≠ p.handshake.promise := Nat.ne_of_gt hg
      simpa [Function.update_of_ne hne] using h.later g hg

theorem HandshakeOk.renew (h : HandshakeOk p) (core : Bool) :
    HandshakeOk { p with handshake := p.handshake.renew, core := core } :=
  ⟨h.later _ (Nat.lt_succ_self _), fun g hg => h.later g (Nat.lt_of_succ_lt hg),
    fun _ => Or.inr rfl⟩

/-- A decode keeps the agreement. -/
theorem HandshakeOk.decodeAligned (h : HandshakeOk p) (env : ℕ → DecodeEnv) (pos : List ℤ) :
    HandshakeOk { p with handshake := (decodeChunkAligned env pos p.handshake).1 } := by
  have hspec := decodeChunkAligned_spec env pos p.handshake
  by_cases ha : (env 0).allocates (firstTokens pos)
  · rw [hspec.1 ha]
    exact h.signal
  · rw [hspec.2 ha]
    exact h

theorem HandshakeOk.reset (h : HandshakeOk p) (hcore : p.core = true) :
    HandshakeOk { p with handshake := p.handshake.reset } ∧
      p.handshake.reset.signaled = false ∧
      p.handshake.reset.future = some p.handshake.reset.promise := by
  cases hs : p.handshake.signaled with
  | true =>
      have : p.handshake.reset = p.handshake.renew := by rw [Handshake.reset, if_pos hs]
      rw [this]
      exact ⟨h.renew p.core, rfl, rfl⟩
  | false =>
      have : p.handshake.reset = p.handshake := by rw [Handshake.reset, if_neg (by simp [hs])]
      rw [this]
      exact ⟨h, hs, (h.future hcore).resolve_left (by simp [hs])⟩

/-- A swapin loses its signal exactly when the first ubatch gets no graph. -/
theorem HandshakeOk.swapin (h : HandshakeOk p) (hcore : p.core = true) (env : ℕ → DecodeEnv)
    (pos : List ℤ) :
    HandshakeOk (p.swapin env pos) ∧
      ((p.swapin env pos).lost = none ↔ (env 0).allocates (firstTokens pos)) := by
  obtain ⟨hok, hsig, hfut⟩ := h.reset hcore
  have hspec := decodeChunkAligned_spec env pos p.handshake.reset
  have hlost : (p.swapin env pos).lost = if
      (decodeChunkAligned env pos p.handshake.reset).1.fulfilled p.handshake.reset.promise = true
      then none else some p.handshake.reset.promise := by
    simp only [Process.swapin, hfut, Option.filter_some]
    cases (decodeChunkAligned env pos p.handshake.reset).1.fulfilled p.handshake.reset.promise <;>
      simp
  refine ⟨?_, ?_⟩
  · obtain ⟨h1, h2, h3⟩ := hok.decodeAligned env pos
    exact ⟨h1, h2, h3⟩
  · rw [hlost]
    by_cases ha : (env 0).allocates (firstTokens pos)
    · have hful : p.handshake.reset.signal.fulfilled p.handshake.reset.promise = true := by
        simp [Handshake.signal, hsig]
      simp [hspec.1 ha, ha, hful]
    · have hful : p.handshake.reset.fulfilled p.handshake.reset.promise = false :=
        hok.flag.trans hsig
      simp [hspec.2 ha, ha, hful]

theorem HandshakeOk.step {ok : List ℤ → (ℕ → DecodeEnv) → Prop} {p' : Process}
    (h : HandshakeOk p) (hs : ProcessStep ok p p') : HandshakeOk p' := by
  cases hs with
  | construct _ =>
      cases hsig : p.handshake.signaled with
      | true =>
          have : p.handshake.construct = p.handshake := by rw [Handshake.construct, if_pos hsig]
          rw [this]
          exact ⟨h.flag, h.later, fun _ => Or.inl hsig⟩
      | false =>
          have : p.handshake.construct = p.handshake.renew := by
            rw [Handshake.construct, if_neg (by simp [hsig])]
          rw [this]
          exact h.renew true
  | decode n e _ =>
      have hspec := decode_spec n e p.handshake
      by_cases ha : e.allocates n
      · rw [hspec.1 ha]
        exact h.signal
      · rw [(hspec.2 ha).1]
        exact h
  | decodeAligned pos env _ => exact h.decodeAligned env pos
  | swapin pos env hcore _ _ => exact (h.swapin hcore env pos).1

theorem process_ok {ok : List ℤ → (ℕ → DecodeEnv) → Prop} : (process ok).Invariant HandshakeOk := by
  refine TSys.invariant_of_step ?_ fun _ _ h hs => h.step hs
  rintro p rfl
  exact ⟨rfl, fun _ _ => rfl, fun h => by simp at h⟩

/-- What a run does to `lost` depends on its swapins only. -/
theorem process_lost {ok : List ℤ → (ℕ → DecodeEnv) → Prop}
    (hall : ∀ pos env, ok pos env → (env 0).allocates (firstTokens pos))
    (hp : (process ok).Reachable p) : p.lost = none := by
  induction hp with
  | start h =>
      obtain rfl := h
      rfl
  | next hr hs _ =>
      cases hs with
      | construct h => exact h
      | decode n e h => exact h
      | decodeAligned pos env h => exact h
      | swapin pos env hcore h hok =>
          exact ((process_ok _ hr).swapin hcore env pos).2.mpr (hall pos env hok)

end

/-! ## A small process -/

/-- A decode in which every call succeeds. -/
def DecodeEnv.succeeds : DecodeEnv where
  memory := true
  ballocInit := true
  allOutput := true
  selfUpdate := some false
  initBatch := some .success
  optimize := some false
  initBatchAgain := none
  outputReserve := true
  ubatch := ⟨true, true, true, true, .success⟩
  next := []

/-- The process with its core constructed. -/
def Process.constructed : Process := ⟨Handshake.fresh.construct, true, none⟩

theorem Process.constructed_reachable (ok : List ℤ → (ℕ → DecodeEnv) → Prop) :
    (process ok).Reachable .constructed :=
  (TSys.Reachable.start (T := process ok) (s := ⟨.fresh, false, none⟩) rfl).next (.construct rfl)

end MzCache.Sync
