import MzCache.Core.Engine
import MzCache.Kv.CursorCalls

/-!
# Which cursor calls are safe

Compressing and storing stop when nothing is left, and storing recovers from it. A compress
cursor that went below the first layer is not brought back: the next
`mzcache_decompress_chunks` reads `chunk_bound[-1]`.
-/

namespace MzCache.Theorems

open MzCache MzCache.Lib

/-- In a run whose calls all meet their condition, so that no cursor is used off the plan,
every call that meets it is safe. -/
theorem cursor_calls_safe (cfg : Config) (io : Io) :
    ∀ r, (cursorSystem cfg io fun s call => call.Meets cfg s).Reachable r →
      ∀ call : ChunkCall, call.Meets cfg r.kv → call.Safe cfg io r := by
  intro r hreach call hmeets
  have hinv : (cursorSystem cfg io fun s call => call.Meets cfg s).Invariant
      (CursorRun.Ok cfg) := by
    apply TSys.invariant_of_step
    · rintro r ⟨s, hmax, rfl⟩
      exact CursorRun.Ok.start hmax
    · rintro r r' hok ⟨call, hcall, hrun⟩
      exact hok.run hcall hrun
  exact (hinv r hreach).safe hmeets

/-- A run of the small engine: its plan compresses one chunk of each layer and stores the
other. -/
def CursorRun.small : CursorRun := ⟨deriveSwapoutPlan .small Core.small.kv, [], []⟩

/-- The small engine after `mzcache_compress_chunks(n)`. -/
def CursorRun.smallAfter (n : Nat) : CursorRun :=
  { CursorRun.small with
    kv := (mzcacheCompressChunks .small n CursorRun.small.kv).1
    comp := (visited (compressAccesses .small n CursorRun.small.kv)).reverse }

theorem CursorRun.smallAfter_run (n : Nat) :
    (ChunkCall.compress n).run .small .ok CursorRun.small = some (CursorRun.smallAfter n) := by
  show some (CursorRun.mk _ (_ ++ []) _) = _
  rw [List.append_nil]
  rfl

/-- Two chunks can be compressed. After a request for three the next decompression of a
single chunk uses layer -1. -/
theorem cursor_calls_unsafe :
    (CursorRun.smallAfter 3).comp = [(0, 0), (1, 0)] ∧
      Access.layer (-1) ∈ (ChunkCall.decompress 1).accesses .small .ok (CursorRun.smallAfter 3).kv ∧
      ¬ ∀ r, (cursorSystem .small .ok fun _ _ => True).Reachable r →
        ∀ call : ChunkCall, call.Safe .small .ok r := by
  have hmem : Access.layer (-1) ∈
      (ChunkCall.decompress 1).accesses .small .ok (CursorRun.smallAfter 3).kv := by
    with_unfolding_all decide
  refine ⟨by with_unfolding_all decide, hmem, ?_⟩
  intro h
  have hstart : (cursorSystem .small .ok fun _ _ => True).Reachable CursorRun.small :=
    .start ⟨Core.small.kv, by with_unfolding_all decide, rfl⟩
  have hreach := hstart.next ⟨.compress 3, trivial, CursorRun.smallAfter_run 3⟩
  have hsafe := (h _ hreach (.decompress 1)).inRange _ hmem
  exact absurd hsafe.1 (by decide)

/-- Asked for the two chunks there are, the same engine gives both back, the last one
compressed first. -/
theorem cursor_calls_small :
    (decompWalk .small 2 (CursorRun.smallAfter 2).kv).cells = (CursorRun.smallAfter 2).comp ∧
      (CursorRun.smallAfter 2).comp = [(0, 0), (1, 0)] := by
  have hcomp : (CursorRun.smallAfter 2).comp = [(0, 0), (1, 0)] := by with_unfolding_all decide
  have hmeets : (ChunkCall.compress 2).Meets .small CursorRun.small.kv :=
    Or.inr ⟨by with_unfolding_all decide, fun _ => by with_unfolding_all decide⟩
  have hstart : (cursorSystem .small .ok fun s call => call.Meets .small s).Reachable
      CursorRun.small :=
    .start ⟨Core.small.kv, by with_unfolding_all decide, rfl⟩
  have hreach := hstart.next ⟨.compress 2, hmeets, CursorRun.smallAfter_run 2⟩
  have hsafe := cursor_calls_safe .small .ok _ hreach (.decompress 2)
    (Or.inr ⟨by with_unfolding_all decide, by with_unfolding_all decide⟩)
  refine ⟨?_, hcomp⟩
  rw [hsafe.decompress 2 rfl (by rw [hcomp]; decide), hcomp]
  rfl

end MzCache.Theorems
