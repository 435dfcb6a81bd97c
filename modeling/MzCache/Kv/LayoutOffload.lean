import MzCache.Kv.LayoutRestore

/-!
# Offloading keeps the layout

`mzcache_offload_arenas` writes a layer's arenas one behind the other, each rounded up to
whole pages, and remembers their tops; a reload that succeeds reads the same image back.
Between the two the arenas of the layer are those its swap file stands for (`pools`), and
neither call changes a byte in use.
-/

namespace MzCache

open MzCache.Lib

section

variable {cfg : Config} {io : Io} {s s' : KvState}

theorem le_roundUp4k (n : Nat) : n ≤ roundUp4k n := by
  unfold roundUp4k
  omega

/-- Rounding up stays inside a pool of whole pages. -/
theorem roundUp4k_le {n m : Nat} (h : n ≤ m) (hm : m % 4096 = 0) : roundUp4k n ≤ m := by
  unfold roundUp4k
  omega

theorem map_top_of_same {as bs : List Arena} (h : List.Forall₂ Arena.Same as bs) :
    as.map Arena.top = bs.map Arena.top := by
  induction h with
  | nil => rfl
  | cons hab _ ih => rw [List.map_cons, List.map_cons, hab.top, ih]

theorem caps_of_same {as bs : List Arena} {n : Nat} (h : List.Forall₂ Arena.Same as bs)
    (hb : ∀ b ∈ bs, b.cap = n ∧ b.top ≤ n) : ∀ a ∈ as, a.cap = n ∧ a.top ≤ n := by
  induction h with
  | nil => intro a ha; cases ha
  | @cons a b as bs hab _ ih =>
      intro x hx
      rcases List.mem_cons.mp hx with rfl | hx
      · have := hb b List.mem_cons_self
        exact ⟨hab.cap.trans this.1, hab.top ▸ this.2⟩
      · exact ih (fun y hy => hb y (List.mem_cons_of_mem _ hy)) x hx

theorem Arena.pad_same (a : Arena) : a.pad.Same a := by
  unfold Arena.pad
  split
  · exact Arena.Same.refl a
  · refine ⟨rfl, rfl, ?_⟩
    intro i hi
    have hlt : i < a.top := hi
    show blit a.pool a.top (fun _ => 0) (roundUp4k a.top - a.top) i = a.pool i
    unfold blit
    rw [if_neg (by omega)]

theorem swapImage_tops (n : Nat) (file : Bytes) (used : List Nat) :
    ∀ off : Nat, (swapImage n file off used).map Arena.top = used := by
  induction used with
  | nil => intro off; rfl
  | cons u used ih => intro off; rw [swapImage, List.map_cons, ih]

/-- An operation under which every layer's arenas stay the same, wherever they are. -/
theorem Layout.of_same (h : Layout cfg s) (hbytes : s'.arenaBytes = s.arenaBytes)
    (hk : s'.kComp = s.kComp) (hv : s'.vComp = s.vComp)
    (hb : s'.compBeyond cfg = s.compBeyond cfg) (hlow : -1 ≤ s'.nextLayerToOffload)
    (hhigh : s'.nextLayerToOffload < cfg.numLayers)
    (hgone : ∀ l < cfg.numLayers, s'.nextLayerToOffload < l → s'.arenas l = [])
    (hsame : ∀ l < cfg.numLayers, List.Forall₂ Arena.Same (s'.pools l) (s.pools l)) :
    Layout cfg s' := by
  have hspan : s'.span = s.span := by
    funext e
    unfold KvState.span
    rw [hk, hv]
  refine ⟨hbytes ▸ h.bound, hbytes ▸ h.page, hbytes ▸ h.addressable, hlow, hhigh, hgone,
    ?_, ?_, ?_⟩
  · intro l hl
    rw [hbytes]
    exact caps_of_same (hsame l hl) (h.caps l hl)
  · intro e he
    rw [hb] at he
    have ha := h.adjacent e he
    exact ⟨by rw [hk, hv]; exact ha.stack, by rw [hk]; exact ha.nonneg,
      by rw [hk, hv]; exact ha.next⟩
  · intro l hl
    unfold KvState.tops KvState.layerComp
    rw [map_top_of_same (hsame l hl), hb, hspan]
    exact h.stacked l hl

/-! ## Writing out -/

/-- A write loop that succeeds leaves the image of the arenas behind its offset. -/
theorem writeArenas_image (io : Io) {n : Nat} (as : List Arena) :
    ∀ w : SwapWrite, (writeArenas io as w).ok → (∀ a ∈ as, a.cap = n) →
      (writeArenas io as w).used = w.used ++ as.map Arena.top ∧
      (∀ o < w.off, (writeArenas io as w).file o = w.file o) ∧
      List.Forall₂ Arena.Same (swapImage n (writeArenas io as w).file w.off (as.map Arena.top))
        as := by
  induction as with
  | nil => intro w _ _; exact ⟨by simp [writeArenas], fun _ _ => rfl, .nil⟩
  | cons a as ih =>
      intro w hok hcap
      have hcap' : ∀ b ∈ as, b.cap = n := fun b hb => hcap b (List.mem_cons_of_mem _ hb)
      rw [writeArenas] at hok ⊢
      split at hok
      · rename_i hz
        rw [if_pos hz]
        obtain ⟨hused, hkeep, hsame⟩ := ih _ hok hcap'
        refine ⟨by rw [hused]; simp, hkeep, ?_⟩
        have h0 : w.off + roundUp4k a.top = w.off := by
          rw [hz]
          rfl
        rw [List.map_cons, swapImage, h0]
        refine .cons ⟨rfl, (hcap a List.mem_cons_self).symm, ?_⟩ hsame
        intro i hi
        have hlt : i < a.top := hi
        omega
      · rename_i hz
        rw [if_neg hz]
        dsimp only at hok ⊢
        split at hok
        · rename_i hc
          rw [if_pos hc]
          obtain ⟨hused, hkeep, hsame⟩ := ih _ hok hcap'
          have hmoved : (io .swapWrite w.tick).moved (roundUp4k a.top) = roundUp4k a.top := by
            cases hr : io .swapWrite w.tick with
            | full => rfl
            | error => rw [hr] at hc; cases hc
            | short k => rw [hr] at hc; cases hc
          rw [hmoved] at hkeep hsame hused ⊢
          refine ⟨by rw [hused]; simp, ?_, ?_⟩
          · intro o ho
            rw [hkeep o (by simp only; omega)]
            show blit w.file w.off a.pad.pool (roundUp4k a.top) o = w.file o
            unfold blit
            rw [if_neg (by omega)]
          · rw [List.map_cons, swapImage]
            refine .cons ⟨rfl, (hcap a List.mem_cons_self).symm, ?_⟩ hsame
            intro i hi
            have hlt : i < a.top := hi
            have hle := le_roundUp4k a.top
            have hpad := a.pad_same
            -- the image was written here and nothing after it reaches back
            refine (hkeep (w.off + i) (by simp only; omega)).trans ?_
            show blit w.file w.off a.pad.pool (roundUp4k a.top) (w.off + i) = a.pool i
            rw [blit_holds w.file w.off a.pad.pool (roundUp4k a.top) i (by omega)]
            exact hpad.used i (hpad.top ▸ hlt)
        · cases hok

/-- Arenas moved between memory and the swap files, and every layer's bytes in use stayed. -/
structure ArenasMoved (cfg : Config) (s t : KvState) : Prop where
  arenaBytes : t.arenaBytes = s.arenaBytes
  kComp : t.kComp = s.kComp
  vComp : t.vComp = s.vComp
  nextLow : -1 ≤ t.nextLayerToOffload
  nextHigh : t.nextLayerToOffload < cfg.numLayers
  gone : ∀ l < cfg.numLayers, t.nextLayerToOffload < l → t.arenas l = []
  same : ∀ l < cfg.numLayers, List.Forall₂ Arena.Same (t.pools l) (s.pools l)

theorem forall₂_same_refl (as : List Arena) : List.Forall₂ Arena.Same as as :=
  List.forall₂_same.mpr fun a _ => Arena.Same.refl a

/-- What offloading and reloading rely on: a cursor among the layers, nothing in memory beyond
it, and pools that hold what their tops say. -/
structure Shelved (cfg : Config) (s : KvState) : Prop where
  nextLow : -1 ≤ s.nextLayerToOffload
  nextHigh : s.nextLayerToOffload < cfg.numLayers
  gone : ∀ l < cfg.numLayers, s.nextLayerToOffload < l → s.arenas l = []
  caps : ∀ l < cfg.numLayers, ∀ a ∈ s.pools l, a.cap = s.arenaBytes ∧ a.top ≤ s.arenaBytes

theorem Layout.shelved (h : Layout cfg s) : Shelved cfg s :=
  ⟨h.nextLow, h.nextHigh, h.gone, h.caps⟩

theorem ArenasMoved.shelved {t : KvState} (h : Shelved cfg s) (hm : ArenasMoved cfg s t) :
    Shelved cfg t := by
  refine ⟨hm.nextLow, hm.nextHigh, hm.gone, ?_⟩
  intro l hl
  rw [hm.arenaBytes]
  exact caps_of_same (hm.same l hl) (h.caps l hl)

theorem Shelved.offloaded (h : Shelved cfg s) (io : Io) :
    ArenasMoved cfg s (mzcacheOffloadArenas io s).1 := by
  have hlow := h.nextLow
  have hhigh := h.nextHigh
  unfold mzcacheOffloadArenas
  split
  · exact ⟨rfl, rfl, rfl, hlow, hhigh, h.gone, fun l _ => forall₂_same_refl _⟩
  · rename_i hneg
    set layer := s.nextLayerToOffload.toNat with hlayer
    have hlayerInt : (layer : Int) = s.nextLayerToOffload := by omega
    have hlt : layer < cfg.numLayers := by omega
    dsimp only
    split
    · have hpool : s.pools layer = s.arenas layer := if_pos (by omega)
      split
      · -- the layer now stands in its swap file
        rename_i hok
        have hcaps := h.caps layer hlt
        rw [hpool] at hcaps
        obtain ⟨hused, _, himg⟩ := writeArenas_image io (s.arenas layer)
          ⟨fun _ => 0, 0, [], s.tick + 1, true⟩ hok (fun a ha => (hcaps a ha).1)
        refine ⟨rfl, rfl, rfl, by simp only; omega, by simp only; omega, ?_, ?_⟩
        · intro l hl hlt'
          simp only at hlt' ⊢
          by_cases hll : l = layer
          · rw [hll, Function.update_self]
          · rw [Function.update_of_ne hll]
            exact h.gone l hl (by omega)
        · intro l hl
          unfold KvState.pools
          simp only
          by_cases hll : l = layer
          · subst hll
            rw [if_neg (by omega), if_pos (by omega), Function.update_self, Function.update_self,
              hused, List.nil_append]
            exact himg
          · rw [Function.update_of_ne hll, Function.update_of_ne hll, Function.update_of_ne hll]
            by_cases hle : (l : Int) ≤ s.nextLayerToOffload
            · rw [if_pos hle, if_pos (by omega)]
              exact forall₂_same_refl _
            · rw [if_neg hle, if_neg (by omega)]
              exact forall₂_same_refl _
      · -- the write failed: only the padding was cleared
        refine ⟨rfl, rfl, rfl, hlow, hhigh, ?_, ?_⟩
        · intro l hl hlt'
          simp only at hlt' ⊢
          rw [Function.update_of_ne (by omega)]
          exact h.gone l hl hlt'
        · intro l hl
          unfold KvState.pools
          simp only
          by_cases hll : l = layer
          · subst hll
            rw [if_pos (by omega), if_pos (by omega), Function.update_self]
            rw [List.forall₂_map_left_iff]
            exact List.forall₂_same.mpr fun a _ => a.pad_same
          · rw [Function.update_of_ne hll, Function.update_of_ne hll, Function.update_of_ne hll]
            exact forall₂_same_refl _
    · exact ⟨rfl, rfl, rfl, hlow, hhigh, h.gone, fun l _ => forall₂_same_refl _⟩

/-- `mzcache_offload_arenas` keeps the layout, whatever the calls return. -/
theorem Layout.offloadArenas (h : Layout cfg s) : Layout cfg (mzcacheOffloadArenas io s).1 := by
  obtain ⟨hbytes, hk, hv, hlow, hhigh, hgone, hsame⟩ := h.shelved.offloaded io
  exact h.of_same hbytes hk hv (KvState.compBeyond_of_view (mzcacheOffloadArenas_view io)) hlow
    hhigh hgone hsame

/-! ## Reading back -/

/-- Every reload opens its file and reads what it asks for. -/
structure Io.Reloads (io : Io) : Prop where
  opens : ∀ t, (io .reloadOpen t).opened
  reads : ∀ t, (io .reloadRead t).complete

/-- A read loop that succeeds rebuilds the arenas the file stands for. -/
theorem readArenas_image (cfg : Config) (hio : io.Reloads) {n : Nat} {file : Bytes}
    (used : List Nat) :
    ∀ r : SwapRead, (∀ u ∈ used, u ≤ n) →
      ∃ l, (readArenas cfg io n file used r).arenas = r.arenas ++ l ∧
        List.Forall₂ Arena.Same l (swapImage n file r.off used) := by
  induction used with
  | nil => intro r _; exact ⟨[], by simp [readArenas], .nil⟩
  | cons u used ih =>
      intro r hle
      have hle' : ∀ v ∈ used, v ≤ n := fun v hv => hle v (List.mem_cons_of_mem _ hv)
      rw [readArenas, if_neg (not_lt.mpr (hle u List.mem_cons_self)), swapImage]
      split
      · rename_i hz
        obtain ⟨l, heq, hsame⟩ := ih { r with arenas := r.arenas ++ [Arena.new cfg n] } hle'
        have h0 : r.off + roundUp4k u = r.off := by
          rw [hz]
          rfl
        refine ⟨Arena.new cfg n :: l, by rw [heq]; simp, ?_⟩
        rw [h0]
        refine .cons ⟨hz.symm, rfl, ?_⟩ hsame
        intro i hi
        exact absurd hi (Nat.not_lt_zero i)
      · dsimp only
        rw [if_pos (hio.reads _)]
        set a : Arena := ⟨blit cfg.uninit 0 (fun i => file (r.off + i)) (roundUp4k u), u, n⟩
        obtain ⟨l, heq, hsame⟩ :=
          ih ⟨r.arenas ++ [a], r.off + roundUp4k u, r.tick + 1, r.ok⟩ hle'
        refine ⟨a :: l, by rw [heq]; simp, .cons ⟨rfl, rfl, ?_⟩ hsame⟩
        intro i hi
        have hlt : i < u := hi
        have hpad := le_roundUp4k u
        have := blit_holds cfg.uninit 0 (fun i => file (r.off + i)) (roundUp4k u) i (by omega)
        rwa [Nat.zero_add] at this

/-- What reloading the layers `ls` leaves alone, and what it brings back. -/
structure Reloaded (s t : KvState) (ls : List Nat) : Prop where
  frame : t.layout = { s.layout with arenas := t.arenas, swapFile := t.swapFile }
  left : t.compLeft = s.compLeft
  other : ∀ l, l ∉ ls → t.arenas l = s.arenas l ∧ t.swapFile l = s.swapFile l
  back : ∀ l ∈ ls, List.Forall₂ Arena.Same (t.arenas l)
    (swapImage s.arenaBytes (s.swapFile l) 0 (s.offloadUsedBytes l))

theorem reloadLayer_reloaded (cfg : Config) (hio : io.Reloads) {l : Nat} (hnil : s.arenas l = [])
    (hle : ∀ u ∈ s.offloadUsedBytes l, u ≤ s.arenaBytes) :
    Reloaded s (reloadLayer cfg io s l) [l] := by
  unfold reloadLayer
  split
  · rename_i hempty
    refine ⟨rfl, rfl, fun _ _ => ⟨rfl, rfl⟩, ?_⟩
    intro k hk
    rw [List.mem_singleton.mp hk, hnil, List.isEmpty_iff.mp hempty]
    exact .nil
  · rw [if_pos (hio.opens _)]
    refine ⟨rfl, rfl, ?_, ?_⟩
    · intro k hk
      have hne : k ≠ l := fun h => hk (List.mem_singleton.mpr h)
      exact ⟨Function.update_of_ne hne _ _, Function.update_of_ne hne _ _⟩
    · intro k hk
      rw [List.mem_singleton.mp hk]
      obtain ⟨as, heq, hsame⟩ := readArenas_image cfg hio (s.offloadUsedBytes l)
        ⟨[], 0, s.tick + 1, true⟩ hle
      dsimp only
      rw [Function.update_self, heq, List.nil_append]
      exact hsame

theorem foldl_reloaded (cfg : Config) (hio : io.Reloads) (ls : List Nat) :
    ∀ s : KvState, ls.Nodup → (∀ l ∈ ls, s.arenas l = []) →
      (∀ l ∈ ls, ∀ u ∈ s.offloadUsedBytes l, u ≤ s.arenaBytes) →
      Reloaded s (ls.foldl (reloadLayer cfg io) s) ls := by
  induction ls with
  | nil =>
      intro s _ _ _
      exact ⟨rfl, rfl, fun _ _ => ⟨rfl, rfl⟩, fun l hl => absurd hl (by simp)⟩
  | cons l ls ih =>
      intro s hnd hnil hle
      obtain ⟨hnot, hnd'⟩ := List.nodup_cons.mp hnd
      have h1 := reloadLayer_reloaded cfg hio (hnil l List.mem_cons_self)
        (hle l List.mem_cons_self)
      have hone : ∀ k ∈ ls, k ∉ [l] := by
        intro k hk hmem
        rw [List.mem_singleton] at hmem
        exact hnot (hmem ▸ hk)
      have hused : (reloadLayer cfg io s l).offloadUsedBytes = s.offloadUsedBytes :=
        congrArg LayoutView.offloadUsedBytes h1.frame
      have hbytes : (reloadLayer cfg io s l).arenaBytes = s.arenaBytes :=
        congrArg LayoutView.arenaBytes h1.frame
      have h2 := ih (reloadLayer cfg io s l) hnd'
        (fun k hk => (h1.other k (hone k hk)).1.trans (hnil k (List.mem_cons_of_mem _ hk)))
        (fun k hk => by rw [hused, hbytes]; exact hle k (List.mem_cons_of_mem _ hk))
      rw [List.foldl_cons]
      refine ⟨?_, h2.left.trans h1.left, ?_, ?_⟩
      · rw [h2.frame, h1.frame]
      · intro k hk
        obtain ⟨hkl, hkls⟩ := not_or.mp (fun h => hk (List.mem_cons.mpr h))
        have ho1 := h1.other k (fun h => hkl (List.mem_singleton.mp h))
        have ho2 := h2.other k hkls
        exact ⟨ho2.1.trans ho1.1, ho2.2.trans ho1.2⟩
      · intro k hk
        rcases List.mem_cons.mp hk with rfl | hk
        · rw [(h2.other k hnot).1]
          exact h1.back k (List.mem_singleton.mpr rfl)
        · have hb := h2.back k hk
          rwa [hbytes, hused, (h1.other k (hone k hk)).2] at hb

/-- A snapshot entry is the top of the arena it stands for, so it fits into a pool. -/
theorem Shelved.snapshot_le (h : Shelved cfg s) {l : Nat} (hl : l < cfg.numLayers)
    (hoff : s.nextLayerToOffload < l) : ∀ u ∈ s.offloadUsedBytes l, u ≤ s.arenaBytes := by
  intro u hu
  have hcaps := h.caps l hl
  have htop : u ∈ s.tops l := by
    unfold KvState.tops KvState.pools
    rw [if_neg (by omega), swapImage_tops]
    exact hu
  obtain ⟨a, ha, rfl⟩ := List.mem_map.mp htop
  exact (hcaps a ha).2

/-- When every file can be read back, `mzcache_reload_all_arenas` leaves every arena in
memory. -/
theorem Shelved.reloaded (hio : io.Reloads) (h : Shelved cfg s) :
    ArenasMoved cfg s (mzcacheReloadAllArenas cfg io s) ∧
      (mzcacheReloadAllArenas cfg io s).Resident cfg ∧
      (mzcacheReloadAllArenas cfg io s).compLeft = s.compLeft := by
  have hlow := h.nextLow
  have hhigh := h.nextHigh
  unfold mzcacheReloadAllArenas
  dsimp only
  have hfirst : (s.firstOffloaded : Int) = s.nextLayerToOffload + 1 := by
    unfold KvState.firstOffloaded
    omega
  split
  · refine ⟨⟨rfl, rfl, rfl, hlow, hhigh, h.gone, fun l _ => forall₂_same_refl _⟩, ?_, rfl⟩
    unfold KvState.Resident
    omega
  · rename_i hstart
    set ls := List.range' s.firstOffloaded (cfg.numLayers - s.firstOffloaded) with hls
    have hmem : ∀ l, l ∈ ls ↔ s.firstOffloaded ≤ l ∧ l < cfg.numLayers := by
      intro l
      rw [hls, List.mem_range'_1]
      omega
    have hre := foldl_reloaded cfg hio ls s List.nodup_range' ?_ ?_
    · refine ⟨?_, ?_, hre.left⟩
      · have hframe := hre.frame
        simp only [KvState.layout, LayoutView.mk.injEq] at hframe
        obtain ⟨hbytes, _, _, _, _, hk, hv⟩ := hframe
        refine ⟨hbytes, hk, hv, by simp only; omega, by simp only; omega, ?_, ?_⟩
        · intro l hl hlt
          simp only at hlt
          omega
        · intro l hl
          unfold KvState.pools
          simp only
          rw [if_pos (by omega)]
          by_cases hle : (l : Int) ≤ s.nextLayerToOffload
          · rw [if_pos hle, (hre.other l (by rw [hmem]; omega)).1]
            exact forall₂_same_refl _
          · rw [if_neg hle]
            exact hre.back l ((hmem l).mpr (by omega))
      · show (cfg.numLayers : Int) - 1 + 1 = cfg.numLayers
        omega
    · intro l hl
      have := (hmem l).mp hl
      exact h.gone l this.2 (by omega)
    · intro l hl
      have hrange := (hmem l).mp hl
      exact h.snapshot_le hrange.2 (by omega)

/-- `mzcache_reload_all_arenas` keeps the layout. -/
theorem Layout.reloadAllArenas (hio : io.Reloads) (h : Layout cfg s) :
    Layout cfg (mzcacheReloadAllArenas cfg io s) ∧
      (mzcacheReloadAllArenas cfg io s).Resident cfg ∧
      (mzcacheReloadAllArenas cfg io s).compLeft = s.compLeft := by
  obtain ⟨⟨hbytes, hk, hv, hlow, hhigh, hgone, hsame⟩, hres, hleft⟩ :=
    h.shelved.reloaded hio
  refine ⟨h.of_same hbytes hk hv ?_ hlow hhigh hgone hsame, hres, hleft⟩
  exact KvState.compBeyond_of_view (mzcacheReloadAllArenas_view io)

end

end MzCache
