import MzCache.Unified.Rollback
import MzCache.Unified.ReadKeeps

/-!
# Decoding chunk by chunk

`mzcache::decode_chunk_aligned` cuts a batch before every position that begins a chunk and decodes
the parts one after another. A decode first defragments the cache if that is due, prepares the
ubatches of its batch, and when a ubatch finds no slot defragments once more and tries again if
that moved anything. The graph writes a ubatch through one view of a chunk for K and one for V, and
gets no view for a ubatch that crosses into the next chunk.

A session is one sequence in one cache: batches, truncations, saves and restores of the whole
cache. It keeps what was saved, every slot that was found and what was decoded.
-/

namespace MzCache.Unified

open MzCache MzCache.Lib

/-! ## The model -/

/-- The loop of `decode_chunk_aligned`; `sub` is the part under construction. -/
def chunkAligned : List BatchToken → List BatchToken → List (List BatchToken)
  | sub, [] => if sub = [] then [] else [sub]
  | sub, tok :: toks =>
      if sub ≠ [] ∧ tok.pos % tokensPerChunk = 0 then sub :: chunkAligned [tok] toks
      else chunkAligned (sub ++ [tok]) toks

/-- A view of rows of a chunk: the chunk, the offset in bytes and the number of elements. -/
structure ChunkView where
  chunk : Nat
  off : Nat
  elements : Nat
deriving DecidableEq, Repr

/-- The view that `nTokens` rows from cell `headCur` on are copied to; `none` is the null pointer
for rows that overflow the chunk. -/
def chunkView (width sizeRow headCur nTokens : Nat) : Option ChunkView :=
  if headCur % tokensPerChunk + nTokens > tokensPerChunk then none
  else some ⟨headCur / tokensPerChunk, sizeRow * (headCur % tokensPerChunk), nTokens * width⟩

/-- `cpy_k`. -/
def cpyK (l : Layer) (headCur nTokens : Nat) : Option ChunkView :=
  chunkView l.nEmbdKGqa l.kSizeRow headCur nTokens

/-- `cpy_v` of a V that is not transposed. -/
def cpyV (l : Layer) (headCur nTokens : Nat) : Option ChunkView :=
  chunkView l.nEmbdVGqa l.vSizeRow headCur nTokens

/-- `n_ubatch` and `graph_max_nodes()`. -/
structure ContextParams where
  nUbatch : Nat
  nMaxNodes : Nat

/-- What a decode meets: whether a defragmentation is due, and which allocations and which ubatches
succeed, at the first attempt and at the second. -/
structure DecodeEnv where
  defragDue : Bool
  alloc : Alloc
  computes : Nat → Bool
  allocAgain : Alloc
  computesAgain : Nat → Bool

/-- The slots that `prepare` finds, each with its ubatch. -/
def Cache.slotsFound (sh : Shape) (alloc : Alloc) (nUbatch : Nat) (batch : List BatchToken)
    (c : Cache) : List (Nat × List BatchToken) :=
  (placeUbatches sh alloc (splitSimple nUbatch [] batch) ⟨c, [], []⟩).1.res.zip
    (splitSimple nUbatch [] batch)

/-- `kv_self_update(true)`; the flag says that there was something to do. -/
def Cache.selfUpdate (sh : Shape) (nMaxNodes : Nat) (c : Cache) : Cache × Bool :=
  (c.defrag sh nMaxNodes,
    match c.cells.defragPrepare sh nMaxNodes with
    | none => false
    | some (nKv, _) => nKv ≠ 0)

/-- `decode`, with the slots it found. -/
def Cache.decodeCall (sh : Shape) (params : ContextParams) (env : DecodeEnv)
    (batch : List BatchToken) (c : Cache) : Decoded × List (Nat × List BatchToken) :=
  let c₀ := if env.defragDue then c.defrag sh params.nMaxNodes else c
  let slots := c₀.slotsFound sh env.alloc params.nUbatch batch
  match c₀.decode sh env.alloc env.computes params.nUbatch batch with
  | .noSlot c₁ =>
      let r := c₁.selfUpdate sh params.nMaxNodes
      if r.2 then
        (r.1.decode sh env.allocAgain env.computesAgain params.nUbatch batch,
          slots ++ r.1.slotsFound sh env.allocAgain params.nUbatch batch)
      else (.noSlot r.1, slots)
  | d => (d, slots)

/-- The cache that a decode leaves. -/
def Decoded.cache : Decoded → Cache
  | .success c => c
  | .noSlot c => c
  | .threw c => c
  | .error _ _ _ c => c

/-- `decode` returned 0. -/
def Decoded.ok : Decoded → Bool
  | .success _ => true
  | _ => false

/-- What a `decode_chunk_aligned` did: its batch, the tokens it passed to `decode`, and whether it
returned 0. -/
structure AlignedDecode where
  batch : List BatchToken
  passed : List BatchToken
  ok : Bool

structure Session where
  cache : Cache
  saves : List (List UInt8)
  slots : List (Nat × List BatchToken)
  decodes : List AlignedDecode

/-- The parts of a batch, from the `k`-th on. Returned are the cache, the slots found, the tokens
passed to `decode` and whether all parts were decoded. -/
def decodeParts (sh : Shape) (params : ContextParams) (env : Nat → DecodeEnv) :
    Nat → List (List BatchToken) → Cache →
      Cache × List (Nat × List BatchToken) × List BatchToken × Bool
  | _, [], c => (c, [], [], true)
  | k, sub :: subs, c =>
      let r := c.decodeCall sh params (env k) sub
      if r.1.ok then
        let rest := decodeParts sh params env (k + 1) subs r.1.cache
        (rest.1, r.2 ++ rest.2.1, sub ++ rest.2.2.1, rest.2.2.2)
      else (r.1.cache, r.2, sub, false)

inductive SessionCall where
  | decode (env : Nat → DecodeEnv) (batch : List BatchToken)
  | truncate (p : Int)
  | clear
  | save
  | restore (alloc : Alloc) (k : Nat)

/-- A call on the cache of sequence `s`. A save that crashes and the restore of a save that is not
there do nothing; a restore that fails leaves what it leaves. -/
def SessionCall.exec (sh : Shape) (params : ContextParams) (s : Nat) :
    SessionCall → Session → Session
  | .decode env batch, t =>
      let r := decodeParts sh params env 0 (chunkAligned [] batch) t.cache
      { t with
        cache := r.1
        slots := t.slots ++ r.2.1
        decodes := t.decodes ++ [⟨batch, r.2.2.1, batch ≠ [] ∧ r.2.2.2⟩] }
  | .truncate p, t => { t with cache := t.cache.seqRm s p (-1) }
  | .clear, t => { t with cache := t.cache.clear }
  | .save, t =>
      match stateWrite sh t.cache (-1) with
      | none => t
      | some stream => { t with saves := t.saves ++ [stream] }
  | .restore alloc k, t =>
      match t.saves[k]? with
      | none => t
      | some stream =>
          { t with cache := (finalState (stateRead sh alloc (-1) ⟨t.cache, stream⟩)).cache }

def SessionCall.run (sh : Shape) (params : ContextParams) (s : Nat) (calls : List SessionCall)
    (t : Session) : Session :=
  calls.foldl (fun t call => call.exec sh params s t) t

/-- A cache as constructed. -/
def Session.fresh (sh : Shape) (kvSize : Nat) : Session := ⟨.fresh sh kvSize, [], [], []⟩

/-- A batch of one sequence with consecutive positions. -/
def Consecutive (s : Nat) (start : Int) (batch : List BatchToken) : Prop :=
  ∀ (k : Nat) (tok : BatchToken), batch[k]? = some tok → tok.pos = start + k ∧ tok.seqIds = [s]

/-- A batch goes on where the sequence ends. -/
def SessionCall.Continues (s : Nat) : SessionCall → Session → Prop
  | .decode _ batch, t => Consecutive s (t.cache.cells.seqPosMax s + 1) batch
  | .truncate _, _ | .clear, _ | .save, _ | .restore .., _ => True

/-- Every batch of a run goes on where the sequence ends. -/
def SessionCall.ContinuedRun (sh : Shape) (params : ContextParams) (s : Nat) :
    List SessionCall → Session → Prop
  | [], _ => True
  | call :: calls, t => call.Continues s t ∧ ContinuedRun sh params s calls (call.exec sh params s t)

/-! ## Parts of a batch -/

section

variable {s : Nat} {start : Int} {batch toks : List BatchToken}

theorem chunkAligned_flatten (toks : List BatchToken) : ∀ sub : List BatchToken,
    (chunkAligned sub toks).flatten = sub ++ toks := by
  induction toks with
  | nil =>
      intro sub
      rw [chunkAligned]
      split
      · rename_i hnil
        simp [hnil]
      · simp
  | cons tok toks ih =>
      intro sub
      rw [chunkAligned]
      split
      · rw [List.flatten_cons, ih]
        simp
      · rw [ih]
        simp

theorem splitSimple_flatten (nUbatch : Nat) (toks : List BatchToken) : ∀ idxs : List BatchToken,
    (splitSimple nUbatch idxs toks).flatten = idxs ++ toks := by
  induction toks with
  | nil =>
      intro idxs
      rw [splitSimple]
      split
      · rename_i hnil
        simp [hnil]
      · simp
  | cons tok toks ih =>
      intro idxs
      rw [splitSimple]
      split
      · rw [List.flatten_cons, ih]
        simp
      · rw [ih]
        simp

theorem splitSimple_ne_nil (nUbatch : Nat) (toks : List BatchToken) : ∀ idxs : List BatchToken,
    ∀ ubatch ∈ splitSimple nUbatch idxs toks, ubatch ≠ [] := by
  induction toks with
  | nil =>
      intro idxs ubatch hmem
      rw [splitSimple] at hmem
      split at hmem
      · exact (List.not_mem_nil hmem).elim
      · rename_i hne
        rwa [List.mem_singleton.mp hmem]
  | cons tok toks ih =>
      intro idxs ubatch hmem
      rw [splitSimple] at hmem
      split at hmem
      · rcases List.mem_cons.mp hmem with rfl | hmem
        · simp
        · exact ih [] ubatch hmem
      · exact ih _ ubatch hmem

theorem Consecutive.append :
    Consecutive s start (batch ++ toks) ↔
      Consecutive s start batch ∧ Consecutive s (start + batch.length) toks := by
  constructor
  · intro h
    refine ⟨fun k tok hk => ?_, fun k tok hk => ?_⟩
    · refine h k tok ?_
      rw [List.getElem?_append_left (List.getElem?_eq_some_iff.mp hk).1]
      exact hk
    · obtain ⟨hpos, hseq⟩ := h (batch.length + k) tok (by
        rw [List.getElem?_append_right (Nat.le_add_right _ _), Nat.add_sub_cancel_left]
        exact hk)
      refine ⟨?_, hseq⟩
      rw [hpos]
      push_cast
      omega
  · rintro ⟨hbatch, htoks⟩ k tok hk
    by_cases hlt : k < batch.length
    · rw [List.getElem?_append_left hlt] at hk
      exact hbatch k tok hk
    · rw [List.getElem?_append_right (not_lt.mp hlt)] at hk
      obtain ⟨hpos, hseq⟩ := htoks _ tok hk
      refine ⟨?_, hseq⟩
      rw [hpos]
      omega

theorem Consecutive.nil (s : Nat) (start : Int) : Consecutive s start [] := by
  intro k tok hk
  simp at hk

theorem Consecutive.cons {s : Nat} {start : Int} {tok : BatchToken} {toks : List BatchToken}
    (hpos : tok.pos = start) (hseq : tok.seqIds = [s]) (h : Consecutive s (start + 1) toks) :
    Consecutive s start (tok :: toks) := by
  refine (@Consecutive.append s start [tok] toks).mpr ⟨fun k tok' hk => ?_, h⟩
  rw [List.getElem?_singleton] at hk
  split at hk
  · rename_i hzero
    obtain rfl := Option.some.inj hk
    subst hzero
    exact ⟨by simp [hpos], hseq⟩
  · cases hk

theorem Consecutive.mem (h : Consecutive s start batch) {tok : BatchToken} (htok : tok ∈ batch) :
    start ≤ tok.pos ∧ tok.pos < start + batch.length ∧ tok.seqIds = [s] := by
  obtain ⟨k, hk, rfl⟩ := List.getElem_of_mem htok
  obtain ⟨hpos, hseq⟩ := h k _ (List.getElem?_eq_getElem hk)
  exact ⟨by omega, by omega, hseq⟩

/-- No token of a list but the first begins a chunk. -/
def InChunk (ubatch : List BatchToken) : Prop :=
  ∀ (k : Nat) (tok : BatchToken), ubatch[k]? = some tok → 0 < k → tok.pos % tokensPerChunk ≠ 0

/-- Every part lies in one chunk. -/
theorem chunkAligned_inChunk (toks : List BatchToken) : ∀ sub : List BatchToken, InChunk sub →
    ∀ part ∈ chunkAligned sub toks, InChunk part := by
  induction toks with
  | nil =>
      intro sub hsub part hmem
      rw [chunkAligned] at hmem
      split at hmem
      · exact (List.not_mem_nil hmem).elim
      · rwa [List.mem_singleton.mp hmem]
  | cons tok toks ih =>
      intro sub hsub part hmem
      rw [chunkAligned] at hmem
      split at hmem
      · rcases List.mem_cons.mp hmem with rfl | hmem
        · exact hsub
        · refine ih [tok] ?_ part hmem
          intro k tok' hk hpos
          cases k with
          | zero => exact absurd hpos (lt_irrefl 0)
          | succ k => simp at hk
      · rename_i hcut
        refine ih (sub ++ [tok]) ?_ part hmem
        intro k tok' hk hpos
        by_cases hlt : k < sub.length
        · rw [List.getElem?_append_left hlt] at hk
          exact hsub k tok' hk hpos
        · rw [List.getElem?_append_right (not_lt.mp hlt), List.getElem?_singleton] at hk
          split at hk
          · obtain rfl := Option.some.inj hk
            rename_i hk0
            refine fun hzero => hcut ⟨fun hnil => ?_, hzero⟩
            rw [hnil, List.length_nil] at hk0
            omega
          · cases hk

theorem InChunk.append {pre post : List BatchToken} (h : InChunk (pre ++ post)) :
    InChunk pre ∧ InChunk post := by
  constructor
  · intro k tok hk
    refine h k tok ?_
    rw [List.getElem?_append_left (List.getElem?_eq_some_iff.mp hk).1]
    exact hk
  · intro k tok hk hpos
    refine h (pre.length + k) tok ?_ (by omega)
    rw [List.getElem?_append_right (Nat.le_add_right _ _), Nat.add_sub_cancel_left]
    exact hk

/-- A ubatch whose tokens go to the cells of their positions, and both views of it. -/
structure AtPosition (s head : Nat) (ubatch : List BatchToken) : Prop where
  tokens : Consecutive s head ubatch
  views : ∀ l : Layer,
    cpyK l head ubatch.length = some ⟨head / tokensPerChunk,
      l.kSizeRow * (head % tokensPerChunk), ubatch.length * l.nEmbdKGqa⟩ ∧
    cpyV l head ubatch.length = some ⟨head / tokensPerChunk,
      l.vSizeRow * (head % tokensPerChunk), ubatch.length * l.nEmbdVGqa⟩

/-- A part of one chunk that is placed at its position has its views. -/
theorem InChunk.atPosition {head : Nat} (h : InChunk batch) (hne : batch ≠ [])
    (hcons : Consecutive s head batch) : AtPosition s head batch := by
  have hlen := List.length_pos_of_ne_nil hne
  have hfit : ¬ head % tokensPerChunk + batch.length > tokensPerChunk := by
    intro hover
    have hmod := Nat.mod_lt head (show 0 < tokensPerChunk by decide)
    obtain ⟨k, hk⟩ : ∃ k, k = tokensPerChunk - head % tokensPerChunk := ⟨_, rfl⟩
    have hlt : k < batch.length := by omega
    have hpos := (hcons k _ (List.getElem?_eq_getElem hlt)).1
    refine h k _ (List.getElem?_eq_getElem hlt) (by omega) ?_
    rw [hpos, hk]
    unfold tokensPerChunk at *
    omega
  refine ⟨hcons, fun l => ⟨?_, ?_⟩⟩
  · exact if_neg hfit
  · exact if_neg hfit

end

end MzCache.Unified
