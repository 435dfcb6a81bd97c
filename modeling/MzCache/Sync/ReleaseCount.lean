import MzCache.Sync.Release

/-!
# Counting decompressions

How many `DECOMP` tasks of a layer have not done their work yet, and what each step of the
protocol does to that number: only the end of a decompression changes it.
-/

namespace MzCache.Sync

open MzCache MzCache.Lib

/-- The layer whose arenas the task reads. -/
def Task.decompLayer : Task → Option ℕ
  | .restore (.kvDecomp c) => some c.1
  | _ => none

/-- `DECOMP` tasks of layer `i` in a list. -/
def decompIn (l : List Task) (i : ℕ) : ℕ := l.countP fun t => t.decompLayer = some i

/-- Running `DECOMP` tasks of layer `i` that have not done their work. -/
def decompRun (l : List (Task × Pc)) (i : ℕ) : ℕ :=
  l.countP fun x => (x.2 ≠ .taskDone ∧ x.2 ≠ .setValue) ∧ x.1.decompLayer = some i

/-- `DECOMP` tasks of layer `i` that have not done their work, wherever they are. -/
def Sys.decompCount (s : Sys) (i : ℕ) : ℕ :=
  decompIn (s.prog.filterMap Instr.task) i + decompIn (s.queue .decomp) i + decompRun s.running i

variable {w : Work} {s s' : Sys}

theorem decompIn_append (l m : List Task) (i : ℕ) :
    decompIn (l ++ m) i = decompIn l i + decompIn m i := List.countP_append

theorem decompIn_cons (t : Task) (l : List Task) (i : ℕ) :
    decompIn (t :: l) i = decompIn l i + if t.decompLayer = some i then 1 else 0 := by
  simp [decompIn, List.countP_cons]

theorem decompRun_append (l m : List (Task × Pc)) (i : ℕ) :
    decompRun (l ++ m) i = decompRun l i + decompRun m i := List.countP_append

theorem decompRun_single (t : Task) (pc : Pc) (i : ℕ) :
    decompRun [(t, pc)] i =
      if (pc ≠ .taskDone ∧ pc ≠ .setValue) ∧ t.decompLayer = some i then 1 else 0 := by
  simp [decompRun, List.countP_cons]

@[simp] theorem decompRun_nil (i : ℕ) : decompRun [] i = 0 := rfl

/-- Only the `DECOMP` group decompresses. -/
theorem Task.group_of_decompLayer {t : Task} {i : ℕ} (h : t.decompLayer = some i) :
    t.group = .decomp := by
  cases t with
  | alloc k => cases h
  | restore r =>
      cases r with
      | kvDecomp c => rfl
      | kvRead c => cases h
      | weightRead l => cases h

/-- A task that has yet to decompress is counted. -/
theorem Sys.Early.decompCount_pos {c : Cell} (h : s.Early (.kvDecomp c))
    (hgroup : ∀ g, .restore (.kvDecomp c) ∈ s.queue g → g = .decomp) :
    0 < s.decompCount c.1 := by
  have hin : ∀ l : List Task, .restore (.kvDecomp c) ∈ l → 0 < decompIn l c.1 := fun l hl =>
    List.countP_pos_iff.mpr ⟨_, hl, by simp [Task.decompLayer]⟩
  unfold Sys.decompCount
  rcases h with hm | ⟨g, hg⟩ | ⟨pc, hm, hpc⟩
  · have := hin (s.prog.filterMap Instr.task) (List.mem_filterMap.mpr ⟨_, hm, rfl⟩)
    omega
  · obtain rfl := hgroup g hg
    have := hin _ hg
    omega
  · have : 0 < decompRun s.running c.1 :=
      List.countP_pos_iff.mpr ⟨_, hm, by simp [Task.decompLayer, hpc]⟩
    omega

/-! ## Steps -/

/-- The main thread moves tasks from its program to the queues. -/
theorem MainStep.decompCount {x : Instr} (h : MainStep x s s') (i : ℕ) :
    s'.decompCount i = s.decompCount i := by
  unfold Sys.decompCount
  rw [h.prog, h.running, h.queue]
  cases x with
  | enqueue t =>
      simp only [List.filterMap_cons, Instr.task, decompIn_cons]
      by_cases ht : t.decompLayer = some i
      · rw [Task.group_of_decompLayer ht, Function.update_self, decompIn_append, decompIn_cons,
          if_pos ht]
        simp only [decompIn, List.countP_nil]
        omega
      · rw [if_neg ht]
        by_cases hg : t.group = .decomp
        · rw [hg, Function.update_self, decompIn_append, decompIn_cons, if_neg ht]
          simp only [decompIn, List.countP_nil]
          omega
        · rw [Function.update_of_ne (Ne.symm hg)]
          omega
  | _ => simp only [List.filterMap_cons, Instr.task]

/-- Taking a task from its queue keeps the number. -/
theorem decompCount_startTask {workers : CoreType → ℕ} {g : CoreType}
    (hs : startTask workers g s = some s') (hgroup : ∀ t ∈ s.queue g, t.group = g) (i : ℕ) :
    s'.decompCount i = s.decompCount i := by
  obtain ⟨t, rest, hq, rfl⟩ := startTask_spec hs
  have htg : t.group = g := hgroup t (by rw [hq]; exact List.mem_cons_self)
  have hrun : decompRun [(t, t.start)] i = if t.decompLayer = some i then 1 else 0 := by
    rw [decompRun_single]
    cases t with
    | alloc k => simp [Task.decompLayer]
    | restore r => simp [Task.start]
  unfold Sys.decompCount
  simp only [decompRun_append, hrun]
  by_cases hg : g = .decomp
  · subst hg
    rw [Function.update_self, hq, decompIn_cons]
    omega
  · have hnone : ¬ t.decompLayer = some i := fun h => hg (htg ▸ Task.group_of_decompLayer h)
    rw [Function.update_of_ne (Ne.symm hg), if_neg hnone]
    omega

theorem decompRun_advance {k : ℕ} {x : Task × Pc} (h : s.running[k]? = some x)
    (new : List (Task × Pc)) (i : ℕ) :
    decompRun (s.advance k new).running i + decompRun [x] i =
      decompRun s.running i + decompRun new i := by
  have hs := congrArg (decompRun · i) (advance_split h)
  simp only [decompRun_append] at hs
  simp only [Sys.advance, decompRun_append]
  omega

theorem countDown_running (s : Sys) (n k : ℕ) (r : Restore) :
    (s.countDown n k r).running = (s.advance k [(.restore r, .setValue)]).running ∨
      (s.countDown n k r).running = (s.advance k []).running := by
  unfold Sys.countDown
  split
  · dsimp only
    split
    · exact .inl rfl
    · exact .inr rfl
  · exact .inr rfl

/-- A micro-step of a task changes the number only when it is the end of a decompression. -/
theorem decompCount_taskStep {n k : ℕ} (hs : taskStep n k s = some s')
    (hsafe : s'.aborted = false) (i : ℕ) :
    s'.decompCount i + (if (s.decompresses k).map Prod.fst = some i then 1 else 0) =
      s.decompCount i := by
  have hcount : ∀ new, s'.prog = s.prog → s'.queue = s.queue →
      s'.running = (s.advance k new).running → ∀ x, s.running[k]? = some x →
      decompRun new i + (if (s.decompresses k).map Prod.fst = some i then 1 else 0) =
        decompRun [x] i →
      s'.decompCount i + (if (s.decompresses k).map Prod.fst = some i then 1 else 0) =
        s.decompCount i := by
    intro new hprog hqueue hrun x hx hone
    have := decompRun_advance hx new i
    unfold Sys.decompCount
    rw [hprog, hqueue, hrun]
    omega
  unfold taskStep at hs
  cases hx : s.running[k]? with
  | none => simp [hx] at hs
  | some x =>
      obtain ⟨t, pc⟩ := x
      cases t with
      | alloc key =>
          simp only [hx] at hs
          obtain rfl := Option.some.inj hs
          refine hcount [] rfl rfl rfl _ hx ?_
          simp [Sys.decompresses, hx, decompRun_single, Task.decompLayer]
      | restore r =>
          cases pc with
          | lookup =>
              simp only [hx] at hs
              split at hs
              · obtain rfl := Option.some.inj hs
                simp at hsafe
              · obtain rfl := Option.some.inj hs
                refine hcount [(.restore r, .await)] rfl rfl rfl _ hx ?_
                simp [Sys.decompresses, hx, decompRun_single]
          | await =>
              simp only [hx] at hs
              split at hs
              · obtain rfl := Option.some.inj hs
                refine hcount [(.restore r, .work)] rfl rfl rfl _ hx ?_
                simp [Sys.decompresses, hx, decompRun_single]
              · cases hs
          | work =>
              simp only [hx] at hs
              obtain rfl := Option.some.inj hs
              refine hcount [(.restore r, .taskDone)] ?_ ?_ ?_ _ hx ?_
              · cases r <;> rfl
              · cases r <;> rfl
              · cases r <;> rfl
              · cases r <;> simp [Sys.decompresses, hx, decompRun_single, Task.decompLayer]
          | taskDone =>
              simp only [hx] at hs
              obtain rfl := Option.some.inj hs
              have hnone : s.decompresses k = none := by
                simp [Sys.decompresses, hx]
              obtain ⟨hprog, hqueue, -⟩ := countDown_keeps s n k r
              rcases countDown_running s n k r with hrun | hrun
              · refine hcount _ hprog hqueue hrun _ hx ?_
                simp [hnone, decompRun_single]
              · refine hcount _ hprog hqueue hrun _ hx ?_
                simp [hnone, decompRun_single]
          | setValue =>
              simp only [hx] at hs
              obtain rfl := Option.some.inj hs
              refine hcount [] rfl rfl rfl _ hx ?_
              simp [Sys.decompresses, hx, decompRun_single]

/-- The task that ends its decompression is about to call `taskDone`. -/
theorem taskStep_decompresses {n k : ℕ} {c : Cell} (hs : taskStep n k s = some s')
    (hd : s.decompresses k = some c) : (.restore (.kvDecomp c), .taskDone) ∈ s'.running := by
  have hx : s.running[k]? = some (.restore (.kvDecomp c), .work) := by
    unfold Sys.decompresses at hd
    split at hd
    · next c' hx =>
        obtain rfl := Option.some.inj hd
        exact hx
    · cases hd
  unfold taskStep at hs
  simp only [hx] at hs
  obtain rfl := Option.some.inj hs
  exact mem_advance

end MzCache.Sync
