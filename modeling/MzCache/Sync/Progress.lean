import MzCache.Sync.Safety

/-!
# Progress of `swapin_generate`

Every schedule is finite: each step makes `rank` smaller. And as long as a layer's promise
is not set, some thread other than the computing decode can move: the main thread waits only
for the graph or behind its last enqueue, a restoring task waits only for its allocation, and an
allocation waits for nothing.
-/

namespace MzCache.Sync

open MzCache MzCache.Lib

/-! ## Rank -/

/-- An enqueued task still has to be taken and run. -/
def Instr.weight : Instr → ℕ
  | .enqueue _ => 9
  | .startDecode => 3
  | _ => 1

def Decode.weight : Decode → ℕ
  | .building => 2
  | .computing => 1
  | .idle | .done => 0

/-- Bound on the steps that are left. -/
def Sys.rank (s : Sys) : ℕ :=
  (s.prog.map Instr.weight).sum +
    8 * ((s.queue .alloc).length + (s.queue .read).length + (s.queue .decomp).length) +
    (s.running.map fun x => x.2.weight).sum + s.decode.weight

section

variable {cfg : Config} {workers : CoreType → ℕ} {v : Variant} {w : Work} {c : Core}
  {s s' : Sys}

theorem length_queue_update (q : CoreType → List Task) (g : CoreType) (l : List Task) :
    (Function.update q g l .alloc).length + (Function.update q g l .read).length +
        (Function.update q g l .decomp).length + (q g).length =
      (q .alloc).length + (q .read).length + (q .decomp).length + l.length := by
  cases g <;> simp [Function.update] <;> omega

/-- Every step lowers the rank. -/
theorem rank_lt {n : ℕ} {a : Action} (hs : act n workers a s = some s')
    (hsafe : s'.aborted = false) : s'.rank < s.rank := by
  obtain ⟨-, ⟨x, hm⟩ | ⟨g, hg⟩ | ⟨k, x, new, ht⟩ | ⟨hd, rfl⟩ | ⟨hd, rfl⟩⟩ := act_spec hs
  · have hq := hm.queue
    have hd := hm.decode
    simp only [Sys.rank, hm.prog, hm.running, List.map_cons, List.sum_cons]
    cases x with
    | enqueue t =>
        have := length_queue_update s.queue t.group (s.queue t.group ++ [t])
        rw [List.length_append, List.length_singleton] at this
        simp only [hq, hd, reduceCtorEq, if_false, Instr.weight]
        omega
    | startDecode =>
        simp only [hq, hd, if_true, Instr.weight, Decode.weight]
        omega
    | _ =>
        simp only [hq, hd, reduceCtorEq, if_false, Instr.weight]
        omega
  · obtain ⟨t, rest, hq, rfl⟩ := startTask_spec hg
    have hlen := length_queue_update s.queue g rest
    rw [hq, List.length_cons] at hlen
    have hstart : t.start.weight ≤ 6 := by cases t <;> simp [Task.start, Pc.weight]
    simp only [Sys.rank, List.map_append, List.sum_append, List.map_cons, List.map_nil,
      List.sum_cons, List.sum_nil]
    omega
  · have hrun := ht.running hsafe
    have hlight := ht.lighter
    have hsplit := congrArg (fun l => (l.map fun x : Task × Pc => x.2.weight).sum)
      (advance_split ht.task)
    simp only [List.map_append, List.sum_append, List.map_cons, List.map_nil, List.sum_cons,
      List.sum_nil] at hsplit
    simp only [Sys.rank, ht.prog, ht.queue, ht.decode, hrun, Sys.advance, List.map_append,
      List.sum_append]
    omega
  · simp only [Sys.rank, hd, Decode.weight]
    omega
  · simp only [Sys.rank, hd, Decode.weight]
    omega

/-- No schedule goes on forever. -/
theorem cycle_finite (hok : CoreOk cfg c) (hw : WorkOf cfg c w) (run : ℕ → Sys)
    (h0 : CycleStart v w c (run 0)) :
    ¬ ∀ n, (cycle cfg workers v w c).step (run n) (run (n + 1)) := by
  intro hstep
  have hreach : ∀ n, (cycle cfg workers v w c).Reachable (run n) := by
    intro n
    induction n with
    | zero => exact .start h0
    | succ n ih => exact ih.next (hstep n)
  have hrank : ∀ n, (run n).rank + n ≤ (run 0).rank := by
    intro n
    induction n with
    | zero => simp
    | succ n ih =>
        obtain ⟨a, ha⟩ := hstep n
        have := rank_lt ha (cycle_inv hok hw (hreach (n + 1))).safe
        omega
  have := hrank ((run 0).rank + 1)
  omega

/-! ## Nothing waits forever -/

/-- Waits behind the last enqueue. -/
def Instr.settles : Instr → Bool
  | .joinDecode | .waitLayer _ | .waitIdle _ => true
  | _ => false

/-- Every registration is followed by its allocation. -/
def AllocFollows : List Instr → Prop
  | [] => True
  | x :: p => (∀ k, x = .register k → .enqueue (.alloc k) ∈ p) ∧ AllocFollows p

/-- What is left of `swapin_generate`: the graph is reset, awaited and signalled in this
order, and nothing is enqueued behind the final waits. -/
structure Straight (p : List Instr) : Prop where
  reset : p.Pairwise fun x y => x = .startDecode → y ≠ .resetGraph
  graph : p.Pairwise fun x y => x = .waitGraph → y ≠ .startDecode
  settle : p.Pairwise fun x y => x.settles = true → y.free = true
  noAwait : ∀ k, .waitAlloc k ∉ p
  allocs : AllocFollows p

/-- Nothing that is waited for is lost. -/
structure Live (w : Work) (s : Sys) : Prop where
  straight : Straight s.prog
  allocs : ∀ r ∈ w.items, s.allocDone r.key = some true ∨ .register r.key ∈ s.prog ∨
    .enqueue (.alloc r.key) ∈ s.prog ∨ .alloc r.key ∈ s.queue .alloc ∨
    ∃ pc, (.alloc r.key, pc) ∈ s.running
  graph : .startDecode ∈ s.prog ∨
    .resetGraph ∉ s.prog ∧ (s.decode = .building ∨ s.graphSignaled = true)

theorem AllocFollows.append {l m : List Instr} (hl : AllocFollows l) (hm : AllocFollows m) :
    AllocFollows (l ++ m) := by
  induction l with
  | nil => exact hm
  | cons x l ih => exact ⟨fun k hk => List.mem_append_left _ (hl.1 k hk), ih hl.2⟩

theorem allocFollows_of_not_register {l : List Instr} (h : ∀ x ∈ l, ∀ k, x ≠ .register k) :
    AllocFollows l := by
  induction l with
  | nil => trivial
  | cons x l ih =>
      exact ⟨fun k hk => absurd hk (h x (by simp) k), ih fun y hy => h y (by simp [hy])⟩

theorem allocFollows_restoreAll (rs : List Restore) : AllocFollows (Work.restoreAll rs) := by
  induction rs with
  | nil => trivial
  | cons r rs ih =>
      have hsplit : Work.restoreAll (r :: rs) =
          [.register r.key, .enqueue (.alloc r.key), .enqueue (.restore r)] ++
            Work.restoreAll rs := rfl
      rw [hsplit]
      refine AllocFollows.append ?_ ih
      simp [AllocFollows]

/-- The program of `swapin_generate`, with its items written out. -/
theorem program_generate (w : Work) :
    w.program .generate = (.resetGraph :: w.initializeLayerSync) ++
      ([.startDecode, .waitGraph] ++ (Work.restoreAll w.items ++
        (.joinDecode :: w.finishSwapinCycle))) := by
  simp [Work.program, Work.swapinGenerate, ← restoreAll_items]

theorem straight_generate (w : Work) : Straight (w.program .generate) := by
  rw [program_generate]
  have hfin : ∀ x ∈ Instr.joinDecode :: w.finishSwapinCycle,
      x.free = true ∧ x ≠ .resetGraph ∧ x ≠ .startDecode ∧ x ≠ .waitGraph := by
    intro x hx
    simp only [Work.finishSwapinCycle, Work.waitLayers, List.mem_cons, List.mem_append,
      List.mem_map, List.not_mem_nil, or_false] at hx
    rcases hx with rfl | ⟨i, -, rfl⟩ | rfl | rfl | rfl <;> simp [Instr.free]
  have hitems : ∀ x ∈ Work.restoreAll w.items, x.settles = false ∧ x ≠ .resetGraph ∧
      x ≠ .startDecode ∧ x ≠ .waitGraph ∧ ∀ k, x ≠ .waitAlloc k := by
    intro x hx
    obtain ⟨r, -, rfl | rfl | rfl⟩ := mem_restoreAll.mp hx <;> simp [Instr.settles]
  have hinit : ∀ x ∈ Instr.resetGraph :: w.initializeLayerSync, x.settles = false ∧
      x ≠ .startDecode ∧ x ≠ .waitGraph ∧ (∀ k, x ≠ .waitAlloc k) ∧ ∀ k, x ≠ .register k := by
    intro x hx
    simp only [Work.initializeLayerSync, List.mem_cons, List.mem_map] at hx
    rcases hx with rfl | rfl | rfl | ⟨n, -, rfl⟩ <;> simp [Instr.settles]
  -- a relation that speaks of left members of one kind only
  have hnone : ∀ (l : List Instr) (P : Instr → Prop) (R : Instr → Prop), (∀ x ∈ l, ¬ P x) →
      l.Pairwise fun x y => P x → R y := fun l P R hl =>
    List.pairwise_of_forall_mem_list fun x hx _ _ h => absurd h (hl x hx)
  have hlate : ∀ (l : List Instr) (P : Instr → Prop) (R : Instr → Prop), (∀ x ∈ l, R x) →
      l.Pairwise fun x y => P x → R y := fun l P R hl =>
    List.pairwise_of_forall_mem_list fun _ _ y hy _ => hl y hy
  constructor
  case reset =>
    refine List.pairwise_append.mpr ⟨hnone _ _ _ fun x hx => (hinit x hx).2.1,
      hlate _ _ _ fun x hx => ?_, fun x hx _ _ h => absurd h (hinit x hx).2.1⟩
    rw [List.mem_append, List.mem_append] at hx
    rcases hx with hx | hx | hx
    · simp only [List.mem_cons, List.not_mem_nil, or_false] at hx
      rcases hx with rfl | rfl <;> simp
    · exact (hitems x hx).2.1
    · exact (hfin x hx).2.1
  case graph =>
    refine List.pairwise_append.mpr ⟨hnone _ _ _ fun x hx => (hinit x hx).2.2.1, ?_,
      fun x hx _ _ h => absurd h (hinit x hx).2.2.1⟩
    have hrest : ∀ x ∈ Work.restoreAll w.items ++ (.joinDecode :: w.finishSwapinCycle),
        x ≠ .startDecode := by
      intro x hx
      rcases List.mem_append.mp hx with hx | hx
      · exact (hitems x hx).2.2.1
      · exact (hfin x hx).2.2.1
    refine List.pairwise_append.mpr ⟨by simp, hlate _ _ _ hrest, fun x _ y hy _ => hrest y hy⟩
  case settle =>
    refine List.pairwise_append.mpr ⟨hnone _ _ _ fun x hx => by simp [(hinit x hx).1], ?_,
      fun x hx _ _ h => by simp [(hinit x hx).1] at h⟩
    refine List.pairwise_append.mpr ⟨by simp [Instr.settles], ?_, fun x hx _ _ h => ?_⟩
    · refine List.pairwise_append.mpr ⟨hnone _ _ _ fun x hx => by simp [(hitems x hx).1],
        hlate _ _ _ fun x hx => (hfin x hx).1, fun x _ y hy _ => (hfin y hy).1⟩
    · simp only [List.mem_cons, List.not_mem_nil, or_false] at hx
      rcases hx with rfl | rfl <;> simp [Instr.settles] at h
  case noAwait =>
    intro k hk
    rw [List.mem_append, List.mem_append, List.mem_append] at hk
    rcases hk with hk | hk | hk | hk
    · exact (hinit _ hk).2.2.2.1 k rfl
    · simp at hk
    · exact (hitems _ hk).2.2.2.2 k rfl
    · simpa [Instr.free] using (hfin _ hk).1
  case allocs =>
    refine (allocFollows_of_not_register fun x hx => (hinit x hx).2.2.2.2).append
      (AllocFollows.append (by simp [AllocFollows])
        ((allocFollows_restoreAll _).append (allocFollows_of_not_register fun x hx => ?_)))
    exact not_register_of_free (hfin x hx).1

theorem CycleStart.live (h : CycleStart .generate w c s) : Live w s := by
  have hprog := h.prog
  refine ⟨hprog ▸ straight_generate w, fun r hr => Or.inr (Or.inl ?_), Or.inl ?_⟩
  · rw [hprog, program_generate]
    simp only [List.mem_append]
    exact Or.inr (Or.inr (Or.inl (mem_restoreAll.mpr ⟨r, hr, Or.inl rfl⟩)))
  · rw [hprog, program_generate]
    simp

theorem Straight.tail {x : Instr} {p : List Instr} (h : Straight (x :: p)) : Straight p :=
  ⟨(List.pairwise_cons.mp h.reset).2, (List.pairwise_cons.mp h.graph).2,
    (List.pairwise_cons.mp h.settle).2, fun k hk => h.noAwait k (List.mem_cons_of_mem _ hk),
    h.allocs.2⟩

theorem Live.mainStep {present : Key → Prop} {x : Instr} (h : Live w s) (hinv : Inv w present s)
    (hm : MainStep x s s') : Live w s' := by
  have hst := h.straight
  rw [hm.prog] at hst
  refine ⟨hst.tail, fun r hr => ?_, ?_⟩
  · have hold := h.allocs r hr
    have hreg := hinv.registered r hr
    have hdone := hm.allocDone
    have hqueue := hm.queue
    rw [hm.prog] at hold hreg
    simp only [List.mem_cons] at hold hreg
    rw [hm.running]
    cases x with
    | clearAllocs =>
        simp only [reduceCtorEq, false_or, true_or, not_true_eq_false, and_false, or_false] at hreg
        exact Or.inr (Or.inl hreg)
    | register k =>
        simp only at hdone hqueue
        by_cases hk : r.key = k
        · exact Or.inr (Or.inr (Or.inl (hk ▸ hst.allocs.1 k rfl)))
        · rw [hdone, hqueue, Function.update_of_ne hk]
          simpa [hk] using hold
    | enqueue t =>
        simp only at hdone hqueue
        rw [hdone, hqueue]
        simp only [reduceCtorEq, false_or, Instr.enqueue.injEq] at hold
        have hkeep : .alloc r.key ∈ s.queue .alloc ∨ .alloc r.key = t →
            .alloc r.key ∈ Function.update s.queue t.group (s.queue t.group ++ [t]) .alloc := by
          intro hin
          by_cases hg : t.group = .alloc
          · rw [hg, Function.update_self]
            rcases hin with hin | rfl
            · exact List.mem_append_left _ hin
            · simp
          · rw [Function.update_of_ne (Ne.symm hg)]
            refine hin.resolve_right ?_
            rintro rfl
            exact hg rfl
        tauto
    | _ =>
        simp only at hdone hqueue
        rw [hdone, hqueue]
        simpa using hold
  · have hgraph := h.graph
    rw [hm.prog] at hgraph
    rw [hm.decode, hm.graph]
    by_cases hx : x = .startDecode
    · subst hx
      exact Or.inr ⟨fun hmem => (List.pairwise_cons.mp hst.reset).1 _ hmem rfl rfl, Or.inl rfl⟩
    · rw [if_neg hx]
      rcases hgraph with hd | ⟨hr, hd⟩
      · exact Or.inl ((List.mem_cons.mp hd).resolve_left (Ne.symm hx))
      · rw [List.mem_cons, not_or] at hr
        rw [if_neg (Ne.symm hr.1)]
        exact Or.inr ⟨hr.2, hd⟩

theorem Live.startTask {g : CoreType} (h : Live w s)
    (hs : MzCache.Sync.startTask workers g s = some s') : Live w s' := by
  obtain ⟨t, rest, hq, rfl⟩ := startTask_spec hs
  refine ⟨h.straight, fun r hr => ?_, h.graph⟩
  rcases h.allocs r hr with ha | ha | ha | ha | ⟨pc, ha⟩
  · exact Or.inl ha
  · exact Or.inr (Or.inl ha)
  · exact Or.inr (Or.inr (Or.inl ha))
  · -- the allocation is taken, or stays where it is
    by_cases hg : g = .alloc
    · subst hg
      rw [hq, List.mem_cons] at ha
      rcases ha with rfl | ha
      · exact Or.inr (Or.inr (Or.inr (Or.inr
          ⟨_, List.mem_append_right _ (List.mem_singleton_self _)⟩)))
      · exact Or.inr (Or.inr (Or.inr (Or.inl (by simpa using ha))))
    · refine Or.inr (Or.inr (Or.inr (Or.inl ?_)))
      simpa [Function.update_of_ne (Ne.symm hg)] using ha
  · exact Or.inr (Or.inr (Or.inr (Or.inr ⟨pc, List.mem_append_left _ ha⟩)))

theorem Live.taskStep {present : Key → Prop} {k : ℕ} {x : Task × Pc} {new : List (Task × Pc)}
    (h : Live w s) (hinv : Inv w present s) (ht : TaskStep k x new s s')
    (hsafe : s'.aborted = false) : Live w s' := by
  refine ⟨ht.prog ▸ h.straight, fun r hr => ?_, ?_⟩
  · have hdone := ht.allocDone
    rw [ht.prog, ht.queue, ht.running hsafe]
    by_cases hown : x.1 = .alloc r.key
    · -- this task fulfils the future, if it is registered
      simp only [hown] at hdone
      rcases hinv.registered r hr with hreg | ⟨hsome, -⟩
      · exact Or.inr (Or.inl hreg)
      · obtain ⟨b, hb⟩ := Option.isSome_iff_exists.mp hsome
        refine Or.inl ?_
        rw [hdone, Function.update_self, hb]
        rfl
    · have hsame : s'.allocDone r.key = s.allocDone r.key := by
        cases hx : x.1 with
        | alloc key =>
            simp only [hx] at hdone
            rw [hdone, Function.update_of_ne]
            rintro rfl
            exact hown hx
        | restore r' =>
            simp only [hx] at hdone
            rw [hdone]
      rw [hsame]
      refine (h.allocs r hr).imp id (Or.imp id (Or.imp id (Or.imp id ?_)))
      rintro ⟨pc, hpc⟩
      refine ⟨pc, ((mem_running_advance ht.task).2 hpc).resolve_left ?_⟩
      rintro rfl
      exact hown rfl
  · rw [ht.prog, ht.decode, ht.graph]
    exact h.graph

theorem Live.act {present : Key → Prop} {n : ℕ} {a : Action} (h : Live w s)
    (hinv : Inv w present s) (hs : MzCache.Sync.act n workers a s = some s')
    (hsafe : s'.aborted = false) : Live w s' := by
  obtain ⟨-, ⟨x, hm⟩ | ⟨g, hg⟩ | ⟨k, x, new, ht⟩ | ⟨hd, rfl⟩ | ⟨hd, rfl⟩⟩ := act_spec hs
  · exact h.mainStep hinv hm
  · exact h.startTask hg
  · exact h.taskStep hinv ht hsafe
  · exact ⟨h.straight, h.allocs, h.graph.imp id fun hr => ⟨hr.1, Or.inr rfl⟩⟩
  · refine ⟨h.straight, h.allocs, h.graph.imp id fun hr => ⟨hr.1, ?_⟩⟩
    exact Or.inr (hr.2.resolve_left (by simp [hd]))

theorem cycle_live (hok : CoreOk cfg c) (hw : WorkOf cfg c w)
    (hs : (cycle cfg workers .generate w c).Reachable s) : Live w s := by
  induction hs with
  | start h0 => exact CycleStart.live h0
  | next hr hstep ih =>
      obtain ⟨a, ha⟩ := hstep
      exact ih.act (cycle_inv hok hw hr) ha (cycle_inv hok hw (hr.next ⟨a, ha⟩)).safe

/-! ## The end of a cycle -/

/-- No thread can move, except that the decode may finish computing. -/
def Stuck (n : ℕ) (workers : CoreType → ℕ) (s : Sys) : Prop :=
  ∀ a, a ≠ .finish → act n workers a s = none

section Ends

variable {present : Key → Prop} {n : ℕ}

/-- A stuck main thread has enqueued everything. -/
theorem stuck_prog (hinv : Inv w present s) (hlive : Live w s) (hstuck : Stuck n workers s) :
    ∀ x ∈ s.prog, x.free = true := by
  have hmain : mainStep s = none := by
    simpa [MzCache.Sync.act, hinv.safe] using hstuck .main (by simp)
  have hsignal : s.decode ≠ .building := by
    intro hd
    simpa [MzCache.Sync.act, hinv.safe, hd] using hstuck .signal (by simp)
  unfold mainStep at hmain
  cases hp : s.prog with
  | nil => simp
  | cons x p =>
      have hst := hlive.straight
      rw [hp] at hst
      have hsettle : x.settles = true → ∀ y ∈ x :: p, y.free = true := by
        intro hx y hy
        rcases List.mem_cons.mp hy with rfl | hy
        · cases y <;> simp_all [Instr.settles, Instr.free]
        · exact (List.pairwise_cons.mp hst.settle).1 y hy hx
      simp only [hp] at hmain
      cases x with
      | waitGraph =>
          -- the graph is signalled or the decode is about to signal it
          exfalso
          have hgraph := hlive.graph
          rw [hp] at hgraph
          rcases hgraph with hd | ⟨-, hd | hd⟩
          · have hd' := (List.mem_cons.mp hd).resolve_left (by simp)
            exact (List.pairwise_cons.mp hst.graph).1 _ hd' rfl rfl
          · exact hsignal hd
          · simp [hd] at hmain
      | waitAlloc k => exact absurd (by simp) (hst.noAwait k)
      | joinDecode => exact hsettle rfl
      | waitLayer i => exact hsettle rfl
      | waitIdle g => exact hsettle rfl
      | _ => simp at hmain

/-- A stuck restoring task waits for an allocation. -/
theorem stuck_running (hinv : Inv w present s) (hstuck : Stuck n workers s) {x : Task × Pc}
    (hx : x ∈ s.running) : ∃ r, x = (.restore r, .await) ∧ s.allocDone r.key ≠ some true := by
  obtain ⟨k, hk⟩ := List.mem_iff_getElem?.mp hx
  have htask : taskStep n k s = none := by
    simpa [MzCache.Sync.act, hinv.safe] using hstuck (.task k) (by simp)
  obtain ⟨t, pc⟩ := x
  unfold taskStep at htask
  cases t with
  | alloc key => simp [hk] at htask
  | restore r =>
      cases pc with
      | lookup =>
          simp only [hk] at htask
          split at htask <;> cases htask
      | await =>
          refine ⟨r, rfl, fun hdone => ?_⟩
          simp [hk, hdone] at htask
      | work => simp [hk] at htask
      | taskDone => simp [hk] at htask
      | setValue => simp [hk] at htask

/-- With nothing to take a task from a queue, the group's workers are all busy. -/
theorem stuck_queue (hinv : Inv w present s) (hstuck : Stuck n workers s) (g : CoreType)
    (hfree : s.runningIn g = 0) (hw : 0 < workers g) : s.queue g = [] := by
  have hstart : MzCache.Sync.startTask workers g s = none := by
    simpa [MzCache.Sync.act, hinv.safe] using hstuck (.start g) (by simp)
  unfold MzCache.Sync.startTask at hstart
  cases hq : s.queue g with
  | nil => rfl
  | cons t rest =>
      simp only [hq] at hstart
      rw [if_pos (by omega)] at hstart
      cases hstart

/-- When nothing moves any more every task is done. -/
theorem stuck_idle (hinv : Inv w present s) (hlive : Live w s) (hstuck : Stuck n workers s)
    (hworkers : ∀ g, 0 < workers g) : s.running = [] ∧ ∀ g, s.queue g = [] := by
  have hprog := stuck_prog hinv hlive hstuck
  have halloc : s.queue .alloc = [] := by
    refine stuck_queue hinv hstuck .alloc (List.countP_eq_zero.mpr fun x hx => ?_) (hworkers _)
    obtain ⟨r, rfl, -⟩ := stuck_running hinv hstuck hx
    cases r <;> simp [Task.group]
  have hrunning : s.running = [] := by
    rw [List.eq_nil_iff_forall_not_mem]
    intro x hx
    obtain ⟨r, rfl, hwait⟩ := stuck_running hinv hstuck hx
    have hitem := (hinv.issued r (Or.inr ⟨_, hx⟩)).1
    rcases hlive.allocs r hitem with h | h | h | h | ⟨pc, h⟩
    · exact hwait h
    · simpa [Instr.free] using hprog _ h
    · simpa [Instr.free] using hprog _ h
    · simp [halloc] at h
    · obtain ⟨r', hr', -⟩ := stuck_running hinv hstuck h
      cases hr'
  exact ⟨hrunning, fun g => stuck_queue hinv hstuck g (by simp [Sys.runningIn, hrunning])
    (hworkers g)⟩

/-- When nothing moves any more every promise is set. -/
theorem stuck_sets (hinv : Inv w present s) (hlive : Live w s) (hstuck : Stuck n workers s)
    (hworkers : ∀ g, 0 < workers g) {i : ℕ} (hi : i < w.totals.length) :
    ∃ y, s.layerSync[i]? = some y ∧ y.sets = 1 := by
  obtain ⟨hrun, hqueue⟩ := stuck_idle hinv hlive hstuck hworkers
  have hprog := stuck_prog hinv hlive hstuck
  have hre : ¬ s.Rebuilding := by
    rintro ⟨x, hx, hinit⟩
    simp [isInit_of_free (hprog x hx)] at hinit
  have hlen := hinv.full hre
  have hy := List.getElem?_eq_getElem (l := s.layerSync) (i := i) (by omega)
  refine ⟨_, hy, ?_⟩
  obtain ⟨hrem, hset⟩ := (hinv.synced (Inv.clearSync_done hre)).entry i _ hy
  have hzero : s.liveCount i = 0 := by
    have hpc : progCount s.prog i = 0 := by
      rw [progCount_eq, List.filterMap_eq_nil_iff.mpr fun x hx => restore_of_free (hprog x hx)]
      rfl
    simp [Sys.liveCount, hpc, queueCount, hqueue, hrun, countIn]
  rw [hrem, hzero] at hset
  simpa [hrun] using hset

end Ends

end

end MzCache.Sync
