import MzCache.Sync.ReleaseInvariant

/-!
# Runs with releases

The invariant of the releases holds in every schedule of every variant, no schedule goes on
forever, and one of `swapin_generate` that stops has cleaned up.
-/

namespace MzCache.Sync

open MzCache MzCache.Lib

variable {cfg : Config} {workers : CoreType → ℕ} {freeWorkers : ℕ} {v : Variant} {w : Work}
  {c : Core} {arenas₀ : ℕ → List Arena} {r r' : Release}

/-! ## The start of a cycle -/

/-- The `DECOMP` tasks in a program, counted on the restoring ones. -/
theorem decompIn_task (p : List Instr) (i : ℕ) :
    decompIn (p.filterMap Instr.task) i =
      (p.filterMap Instr.restore).countP fun x => (Task.restore x).decompLayer = some i := by
  induction p with
  | nil => rfl
  | cons x p ih =>
      cases x with
      | enqueue t =>
          cases t with
          | alloc k =>
              simp only [List.filterMap_cons, Instr.task, Instr.restore, decompIn_cons,
                Task.decompLayer, reduceCtorEq, if_false]
              exact ih
          | restore x =>
              simp only [List.filterMap_cons, Instr.task, Instr.restore, decompIn_cons,
                List.countP_cons, decide_eq_true_eq, ih]
      | _ => exact ih

/-- A program enqueues the decompressions of the cycle. -/
theorem decompIn_program (hw : w.Ok) (v : Variant) (i : ℕ) :
    decompIn ((w.program v).filterMap Instr.task) i = w.decomp.countP fun e => e.1 = i := by
  obtain ⟨b, hprog, hb⟩ := program_shape hw v
  have hprelude : v.prelude.filterMap Instr.restore = [] :=
    List.filterMap_eq_nil_iff.mpr fun x hx => restore_of_free (v.prelude_free x hx)
  have hinit : w.initializeLayerSync.filterMap Instr.restore = [] := by
    refine List.filterMap_eq_nil_iff.mpr fun x hx => ?_
    have := initializeLayerSync_mem hx
    cases x <;> simp_all [Instr.isInit, Instr.restore]
  rw [decompIn_task, hprog, List.filterMap_append, List.filterMap_append, hprelude, hinit,
    List.nil_append, List.nil_append, hb.tasks.countP_eq]
  simp [Work.items, List.countP_map, Function.comp_def, Task.decompLayer]

/-- The countdowns are seeded with the numbers of decompressions. -/
theorem WorkOf.decomp_count (hw : WorkOf cfg c w) (hok : CoreOk cfg c) {i : ℕ}
    (hi : i < cfg.numLayers) :
    ((w.decomp.countP fun e => e.1 = i : ℕ) : ℤ) = compressInit c.kv i := by
  have hcomp := count_beyond_row (n := cfg.numLayers) (fun _ => Nat.zero_le _)
    hok.ladder.compWf.onRow i
  rw [hw.decomp, KvState.compBeyond, hcomp, if_pos hi, ← compressInit_eq]

theorem ReleaseStart.inv (h : ReleaseStart v w c arenas₀ r) (hok : CoreOk cfg c)
    (hw : WorkOf cfg c w) : ReleaseInv v w (presentAt c) (compressInit c.kv) arenas₀ r := by
  have hbase := h.sys.inv (hw.ok hok)
  rw [show r.sys.Present = presentAt c from funext fun k => propext (h.sys.present_iff k)] at hbase
  have hrel : r.releases = [] := by
    simp [Release.releases, h.handing, h.freeQueue, h.freeRunning, h.freed]
  constructor
  case base => exact hbase
  case groups =>
    intro g t ht
    simp [h.sys.queue] at ht
  case suffix => exact h.sys.prog ▸ List.suffix_refl _
  case settled =>
    intro g hg
    rw [h.sys.prog] at hg
    exact absurd ((idleWaits_suffix w v).subset (mem_idleWaits g)) hg
  case quiet =>
    refine fun _ => ⟨h.counting, hrel, fun i hi => ?_⟩
    rw [← hw.decomp_count hok (by rwa [← hw.length_totals]), Sys.decompCount, h.sys.prog,
      h.sys.queue, h.sys.running, decompIn_program (hw.ok hok)]
    rfl
  case counted =>
    intro hc
    refine absurd ?_ hc
    obtain ⟨b, hprog, -⟩ := program_shape (hw.ok hok) v
    rw [h.sys.prog, hprog]
    simp [Work.initializeLayerSync]
  case waiting =>
    intro e he
    simp [h.counting, h.handing] at he
  case rows =>
    intro i hi
    simp [hrel] at hi
  case arenas =>
    intro i
    rw [h.arenas, h.freed, if_neg List.not_mem_nil]
  case cleaned =>
    intro hcl
    simp [h.cleaning] at hcl

/-- The invariant holds in every state of every schedule. -/
theorem releaseCycle_inv (hok : CoreOk cfg c) (hw : WorkOf cfg c w)
    (h : (releaseCycle cfg.numLayers workers freeWorkers (compressInit c.kv) v w c
      arenas₀).Reachable r) :
    ReleaseInv v w (presentAt c) (compressInit c.kv) arenas₀ r := by
  refine TSys.invariant_of_step ?_ ?_ r h
  · exact fun r h => h.inv hok hw
  · rintro r r' hr ⟨a, ha⟩
    rw [← hw.length_totals] at ha
    exact hr.act (hw.ok hok) ha

/-! ## Every schedule ends -/

/-- Bound on the steps that are left. -/
def Release.rank (r : Release) : ℕ :=
  6 * r.sys.rank + 5 * r.counting.length + 4 * r.handing.length + 3 * r.freeQueue.length +
    2 * r.freeRunning.length + if r.cleaning then 0 else 1

theorem release_rank_lt {n : ℕ} {seed : ℕ → ℤ} {a : RAction}
    (hs : releaseAct n workers freeWorkers seed a r = some r') (hsafe : r'.sys.aborted = false) :
    r'.rank < r.rank := by
  cases a with
  | sys b =>
      obtain ⟨b', hb, -, hact, hr'⟩ | hsame := releaseAct_sys hs
      · obtain rfl := RAction.sys.inj hb
        have hlt := rank_lt hact hsafe
        obtain ⟨-, hhand, hfq, hfr, -, -, hclean⟩ := r.beside_releases seed b
        have hcounting : (r.beside seed b).counting.length ≤ r.counting.length + 1 := by
          unfold Release.beside
          split
          · split <;> simp
          · cases r.sys.decompresses _ <;> simp
          · simp
        rw [hr']
        simp only [Release.rank, hhand, hfq, hfr, hclean]
        omega
      · simp only [releaseAct] at hs
        split at hs
        · cases hs
        · obtain ⟨s, hact, rfl⟩ := Option.map_eq_some_iff.mp hs
          have hlt := rank_lt hact hsafe
          rw [show s = r.sys from hsame] at hlt
          omega
  | countDown k =>
      simp only [releaseAct] at hs
      split at hs
      · cases hs
      · next e hk =>
          obtain rfl := Option.some.inj hs
          have hlen := (eraseIdx_perm hk).length_eq
          simp only [List.length_cons] at hlen
          simp only [Release.rank]
          split
          · simp only [List.length_append, List.length_singleton]
            omega
          · omega
  | handOff k =>
      simp only [releaseAct] at hs
      split at hs
      · cases hs
      · next e hk =>
          obtain rfl := Option.some.inj hs
          have hlen := (eraseIdx_perm hk).length_eq
          simp only [List.length_cons] at hlen
          simp only [Release.rank, List.length_append, List.length_singleton]
          omega
  | startFree =>
      simp only [releaseAct] at hs
      split at hs
      · cases hs
      · next l rest hq =>
          split at hs
          · obtain rfl := Option.some.inj hs
            simp only [Release.rank, hq, List.length_append, List.length_cons, List.length_nil]
            omega
          · cases hs
  | finishFree k =>
      simp only [releaseAct] at hs
      split at hs
      · cases hs
      · next l hk =>
          obtain rfl := Option.some.inj hs
          have hlen := (eraseIdx_perm hk).length_eq
          simp only [List.length_cons] at hlen
          simp only [Release.rank]
          omega
  | waitFree =>
      simp only [releaseAct] at hs
      split at hs
      · next hidle =>
          obtain rfl := Option.some.inj hs
          simp only [Release.rank, hidle.2.2.2, if_true]
          simp
      · cases hs

/-- No schedule goes on forever. -/
theorem releaseCycle_finite (hok : CoreOk cfg c) (hw : WorkOf cfg c w) (run : ℕ → Release)
    (h0 : ReleaseStart v w c arenas₀ (run 0)) :
    ¬ ∀ n, (releaseCycle cfg.numLayers workers freeWorkers (compressInit c.kv) v w c
      arenas₀).step (run n) (run (n + 1)) := by
  intro hstep
  have hreach : ∀ n, (releaseCycle cfg.numLayers workers freeWorkers (compressInit c.kv) v w c
      arenas₀).Reachable (run n) := by
    intro n
    induction n with
    | zero => exact .start h0
    | succ n ih => exact ih.next (hstep n)
  have hrank : ∀ n, (run n).rank + n ≤ (run 0).rank := by
    intro n
    induction n with
    | zero => simp
    | succ n ih =>
        obtain ⟨a, ha⟩ := hstep n
        have := release_rank_lt ha (releaseCycle_inv hok hw (hreach (n + 1))).base.safe
        omega
  have := hrank ((run 0).rank + 1)
  omega

/-! ## A schedule of `swapin_generate` that stops has cleaned up -/

/-- Behind the final waits of `swapin_generate` the decode is not started. -/
theorem settles_generate (w : Work) :
    (w.program .generate).Pairwise fun x y => x.settles = true → y ≠ .startDecode := by
  have hfront : ∀ x ∈ (.resetGraph :: w.initializeLayerSync) ++ ([.startDecode, .waitGraph] ++
      Work.restoreAll w.items), x.settles = false := by
    intro x hx
    simp only [Work.initializeLayerSync, List.mem_append, List.mem_cons, List.mem_map,
      List.not_mem_nil, or_false, mem_restoreAll] at hx
    rcases hx with (rfl | rfl | rfl | ⟨n, -, rfl⟩) | (rfl | rfl) | ⟨y, -, rfl | rfl | rfl⟩ <;> rfl
  have hback : ∀ x ∈ Instr.joinDecode :: w.finishSwapinCycle, x ≠ .startDecode := by
    intro x hx
    simp only [Work.finishSwapinCycle, Work.waitLayers, List.mem_cons, List.mem_append,
      List.mem_map, List.not_mem_nil, or_false] at hx
    rcases hx with rfl | ⟨i, -, rfl⟩ | rfl | rfl | rfl <;> simp
  rw [program_generate, ← List.append_assoc [Instr.startDecode, .waitGraph], ← List.append_assoc]
  refine List.pairwise_append.mpr ⟨?_, ?_, fun x hx _ _ h => ?_⟩
  · exact List.pairwise_of_forall_mem_list fun x hx _ _ h => by simp [hfront x hx] at h
  · exact List.pairwise_of_forall_mem_list fun _ _ y hy _ => hback y hy
  · simp [hfront x hx] at h

/-- The decode is started, or the instruction that starts it is left, before the final waits. -/
structure Begun (s : Sys) : Prop where
  started : .startDecode ∈ s.prog ∨ s.decode ≠ .idle
  order : s.prog.Pairwise fun x y => x.settles = true → y ≠ .startDecode

theorem cycle_begun {s : Sys} (hs : (cycle cfg workers .generate w c).Reachable s) : Begun s := by
  refine TSys.invariant_of_step ?_ ?_ s hs
  · intro s h0
    refine ⟨.inl ?_, h0.prog ▸ settles_generate w⟩
    simp [h0.prog, program_generate]
  · rintro s s' ⟨h1, h2⟩ ⟨a, ha⟩
    obtain ⟨-, ⟨x, hm⟩ | ⟨g, hg⟩ | ⟨k, x, new, ht⟩ | ⟨hd, rfl⟩ | ⟨hd, rfl⟩⟩ := act_spec ha
    · rw [hm.prog] at h1 h2
      refine ⟨?_, (List.pairwise_cons.mp h2).2⟩
      rw [hm.decode]
      split
      · exact .inr (by simp)
      · next hx => exact h1.imp_left fun hmem => (List.mem_cons.mp hmem).resolve_left (Ne.symm hx)
    · obtain ⟨t, rest, -, rfl⟩ := startTask_spec hg
      exact ⟨h1, h2⟩
    · exact ⟨by rwa [ht.prog, ht.decode], ht.prog ▸ h2⟩
    · exact ⟨.inr (by simp), h2⟩
    · exact ⟨.inr (by simp), h2⟩

/-- With all tasks done and the decode over, the main thread does not wait. -/
theorem stuck_prog_nil {n : ℕ} {s : Sys} {present : Key → Prop} (hinv : Inv w present s)
    (hlive : Live w s) (hbegun : Begun s)
    (hstuck : ∀ a, act n workers a s = none) (hworkers : ∀ g, 0 < workers g) : s.prog = [] := by
  have hnone : ∀ a, a ≠ .finish → act n workers a s = none := fun a _ => hstuck a
  obtain ⟨hrun, hqueue⟩ := stuck_idle hinv hlive hnone hworkers
  have hfree := stuck_prog hinv hlive hnone
  have hmain : mainStep s = none := by
    simpa [act, hinv.safe] using hstuck .main
  have hdecode : s.decode ≠ .building ∧ s.decode ≠ .computing := by
    refine ⟨fun hd => ?_, fun hd => ?_⟩
    · simpa [act, hinv.safe, hd] using hstuck .signal
    · simpa [act, hinv.safe, hd] using hstuck .finish
  cases hp : s.prog with
  | nil => rfl
  | cons x p =>
      exfalso
      have hx := hfree x (by simp [hp])
      unfold mainStep at hmain
      simp only [hp] at hmain
      cases x with
      | waitGraph =>
          rcases hlive.graph with hd | ⟨-, hd | hd⟩
          · rw [hp] at hd
            have hlate := hlive.straight.graph
            rw [hp] at hlate
            exact (List.pairwise_cons.mp hlate).1 _
              ((List.mem_cons.mp hd).resolve_left (by simp)) rfl rfl
          · exact hdecode.1 hd
          · simp [hd] at hmain
      | joinDecode =>
          obtain ⟨hstart, horder⟩ := hbegun
          rw [hp] at hstart horder
          have hidle : s.decode ≠ .idle := by
            refine hstart.resolve_left fun hmem => ?_
            exact (List.pairwise_cons.mp horder).1 _
              ((List.mem_cons.mp hmem).resolve_left (by simp)) rfl rfl
          cases hd : s.decode with
          | idle => exact hidle hd
          | building => exact hdecode.1 hd
          | computing => exact hdecode.2 hd
          | done => simp [hd] at hmain
      | waitLayer i =>
          have hpass : s.passes i = true := by
            unfold Sys.passes
            cases hy : s.layerSync[i]? with
            | none => rfl
            | some y =>
                have hi : i < w.totals.length := by
                  have hre : ¬ s.Rebuilding := by
                    rintro ⟨z, hz, hinit⟩
                    simp [isInit_of_free (hfree z hz)] at hinit
                  rw [← hinv.full hre]
                  exact (List.getElem?_eq_some_iff.mp hy).1
                obtain ⟨y', hy', hset⟩ := stuck_sets hinv hlive hnone hworkers hi
                obtain rfl := Option.some.inj (hy.symm.trans hy')
                exact decide_eq_true (by omega)
          have := (if_pos hpass).symm.trans hmain
          cases this
      | waitIdle g => simp [hqueue g, Sys.runningIn, hrun] at hmain
      | resetGraph | startDecode => simp at hmain
      | clearAllocs | clearSync | pushSync | register | enqueue | waitAlloc => simp [Instr.free] at hx

theorem release_stuck {n : ℕ} {seed : ℕ → ℤ} {present : Key → Prop}
    (hinv : ReleaseInv .generate w present seed arenas₀ r) (hlive : Live w r.sys)
    (hbegun : Begun r.sys)
    (hstuck : ∀ a, releaseAct n workers freeWorkers seed a r = none)
    (hworkers : ∀ g, 0 < workers g) (hfree : 0 < freeWorkers) : r.cleaning = true := by
  have hcounting : r.counting = [] := by
    cases hl : r.counting with
    | nil => rfl
    | cons e l => simpa [releaseAct, hl] using hstuck (.countDown 0)
  have hhanding : r.handing = [] := by
    cases hl : r.handing with
    | nil => rfl
    | cons e l => simpa [releaseAct, hl] using hstuck (.handOff 0)
  have hrunning : r.freeRunning = [] := by
    cases hl : r.freeRunning with
    | nil => rfl
    | cons i l => simpa [releaseAct, hl] using hstuck (.finishFree 0)
  have hqueue : r.freeQueue = [] := by
    cases hl : r.freeQueue with
    | nil => rfl
    | cons i l => simpa [releaseAct, hl, hrunning, hfree] using hstuck .startFree
  have hblocks : ∀ a, r.blocks a = false := by
    intro a
    unfold Release.blocks
    split
    · split
      · simp [hcounting, hhanding]
      · rfl
    · rfl
  have hsys : ∀ a, act n workers a r.sys = none := by
    intro a
    simpa [releaseAct, hblocks a] using hstuck (.sys a)
  have hprog := stuck_prog_nil hinv.base hlive hbegun hsys hworkers
  by_contra hcl
  simpa [releaseAct, hprog, hqueue, hrunning, hcl] using hstuck .waitFree

end MzCache.Sync
