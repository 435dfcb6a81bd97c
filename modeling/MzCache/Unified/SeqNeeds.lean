import MzCache.Unified.SeqSource

/-!
# What a placement removes

Overwriting a cell of a sequence raises the bound to which the purge removes it, and the position
of the last token of a ubatch is in the index of its sequence. So the purge cannot remove an old
cell of the restored sequence and leave the new ones.
-/

namespace MzCache.Unified

open MzCache MzCache.Lib

/-! ## Bound and index -/

section

variable {acc : Cells × SeqPosMaxRm} {tok : BatchToken} {head i j s t u : Nat}

theorem le_placeToken (i : Nat) (tok : BatchToken) (acc : Cells × SeqPosMaxRm) (u : Nat) :
    acc.2 u ≤ (placeToken i tok acc).2 u := by
  unfold placeToken
  dsimp only
  split
  · exact le_rfl
  · dsimp only
    by_cases hu : u = acc.1.seqGet i
    · subst hu
      rw [Function.update_self]
      exact le_max_left _ _
    · rw [Function.update_of_ne hu]

theorem le_placeTokens (toks : List BatchToken) (u : Nat) : ∀ (head : Nat)
    (acc : Cells × SeqPosMaxRm), acc.2 u ≤ (placeTokens head toks acc).2 u := by
  induction toks with
  | nil => exact fun _ _ => le_rfl
  | cons tok toks ih =>
      exact fun head acc => (le_placeToken head tok acc u).trans (ih (head + 1) _)

/-- The bound of a sequence reaches the positions of its overwritten cells. Induction on the
tokens; a cell keeps its sequences until its own token is placed. -/
theorem placeTokens_overwritten (toks : List BatchToken) : ∀ (head : Nat)
    (acc : Cells × SeqPosMaxRm), BareSlot acc.1.cell head toks.length →
    ∀ j, head ≤ j → j < head + toks.length → acc.1.seq j = {t} → acc.1.pos j ≠ -1 →
      acc.1.pos j ≤ (placeTokens head toks acc).2 t := by
  induction toks with
  | nil => exact fun head acc _ j hge hlt => absurd hlt (not_lt.mpr hge)
  | cons tok toks ih =>
      intro head acc hbare j hge hlt hseq hpos
      rw [BareSlot, List.length_cons] at hbare
      rw [List.length_cons] at hlt
      rw [placeTokens]
      by_cases hj : j = head
      · subst hj
        refine le_trans ?_ (le_placeTokens toks t (j + 1) _)
        have hempty : acc.1.isEmpty j = false := decide_eq_false hpos
        unfold placeToken
        dsimp only
        rw [if_neg (by rw [hempty]; exact Bool.false_ne_true), Cells.seqGet_of_eq hseq]
        dsimp only
        rw [Function.update_self]
        exact le_max_right _ _
      · have hcell := placeToken_cell (hbare head le_rfl (by omega)) tok
        have hsame : (placeToken head tok acc).1.cell j = acc.1.cell j := by
          rw [hcell, if_neg hj]
        have hrest : BareSlot (placeToken head tok acc).1.cell (head + 1) toks.length := by
          intro j hge hlt
          rw [hcell, if_neg (by omega)]
          exact hbare j (by omega) (by omega)
        have hseq' : (placeToken head tok acc).1.seq j = {t} :=
          (congrArg Prod.snd hsame).trans hseq
        have hpos' : (placeToken head tok acc).1.pos j = acc.1.pos j := congrArg Prod.fst hsame
        have h := ih (head + 1) _ hrest j (by omega) (by omega) hseq' (hpos'.symm ▸ hpos)
        rwa [hpos'] at h

/-- The last token's position is in the index of its sequence. -/
theorem placeTokens_indexed (toks : List BatchToken) : ∀ (head : Nat) (acc : Cells × SeqPosMaxRm)
    (tok : BatchToken), toks.getLast? = some tok → tok.seqIds = [t] →
      tok.pos ∈ (placeTokens head toks acc).1.seqPos t := by
  induction toks with
  | nil => exact fun _ _ tok h => absurd h (by simp)
  | cons tok toks ih =>
      intro head acc last hlast hids
      rw [placeTokens]
      cases toks with
      | nil =>
          rw [List.getLast?_singleton, Option.some.injEq] at hlast
          subst hlast
          show tok.pos ∈ (placeToken head tok acc).1.seqPos t
          unfold placeToken
          dsimp only
          rw [hids]
          simp [Cells.seqAdd, Cells.posSet]
      | cons tok' toks =>
          rw [List.getLast?_cons_cons] at hlast
          exact ih (head + 1) _ last hlast hids

theorem seqPosMin_le {c : Cells} {p : Int} (h : p ∈ c.seqPos s) : c.seqPosMin s ≤ p := by
  unfold Cells.seqPosMin
  rw [dif_pos ⟨p, h⟩]
  exact Finset.min'_le _ _ h

end

/-! ## The purge of a restored sequence -/

section

variable {sh : Shape} {alloc : Alloc} {c d : Cache} {cells : Cells} {head j s t u : Nat}
  {toks : List BatchToken}

/-- What the purge of a placement sees. -/
def Cache.placed (c : Cache) (head : Nat) (toks : List BatchToken) : Cells × SeqPosMaxRm :=
  placeTokens head toks (c.cells, fun _ => -1)

/-- The sequences of a cell after a placement. -/
theorem applyUbatch_mem (hbare : BareSlot c.cells.cell head toks.length)
    (hgrows : (mzGrowChunks sh alloc (head + toks.length) c).2 = true) (hj : j < c.cells.size) :
    u ∈ (applyUbatch sh alloc head toks c).1.cells.seq j ↔
      u ∈ (overlay head toks c.cells.cell j).2 ∧ ¬ (u ∈ List.range llamaMaxSeq ∧
        (c.placed head toks).1.Purges (c.placed head toks).2
          (overlay head toks c.cells.cell j) u) := by
  have hcells := @mzGrowChunks_cells sh alloc c (head + toks.length)
  have hsize : (c.placed head toks).1.size = c.cells.size := placeTokens_size _ _ _
  have hplaced : (c.placed head toks).1.cell j = overlay head toks c.cells.cell j :=
    placeTokens_cell toks head (c.cells, fun _ => -1) hbare j
  have hcell : (applyUbatch sh alloc head toks c).1.cells.cell j =
      (List.range llamaMaxSeq).foldl ((c.placed head toks).1.purgeCell (c.placed head toks).2)
        ((c.placed head toks).1.cell j) := by
    unfold applyUbatch
    dsimp only
    rw [if_pos hgrows, hcells]
    exact (purge_cell List.nodup_range _ j).trans (if_pos (hj.trans_eq hsize.symm))
  show u ∈ ((applyUbatch sh alloc head toks c).1.cells.cell j).2 ↔ _
  rw [hcell, (mem_purged _ _).1, hplaced]

/-- If the new cells keep the sequence, no old one was out of reach of `seq_rm`. -/
theorem removed_of_owned (ht : t < llamaMaxSeq) (hd : d.cells.Tidy) (hdpos : d.cells.PosOk)
    (hcpos : cells.PosOk) (hn : 0 < cells.cellCount (s : Int))
    (hroom : head + cells.cellCount (s : Int) ≤ d.cells.size)
    (hslot : ∀ j, head ≤ j → j < head + cells.cellCount (s : Int) →
      ∀ u ∈ (d.without t).cells.seq j, (d.without t).cells.seq j = {u})
    (hgrows : (mzGrowChunks sh alloc (head + cells.cellCount (s : Int)) (d.without t)).2 = true)
    (howned : ∀ j, t ∈ (applyUbatch sh alloc head (cells.seqTokens s t)
      (d.without t)).1.cells.seq j ↔ head ≤ j ∧ j < head + cells.cellCount (s : Int)) :
    ∀ j, t ∈ d.cells.seq j → d.cells.pos j < posLimit := by
  intro j hj
  by_contra hbig
  rw [not_lt] at hbig
  have hlen := seqTokens_length cells s t
  set n := cells.cellCount (s : Int) with hndef
  set toks := cells.seqTokens s t with htoks
  set p := (d.without t).placed head toks with hp
  have hlim : posLimit = 2 ^ 31 - 1 := rfl
  have hjpos : d.cells.pos j = posLimit := by
    have := (hdpos j).1
    unfold InI32 at this
    omega
  have hjsize : j < (d.without t).cells.size :=
    (hd.lt_size (hd.pos_of_mem hj)).trans_eq without_size.symm
  have hjkept : t ∈ (d.without t).cells.seq j := (mem_without hd).mpr ⟨hj, by omega⟩
  have hjpos' : (d.without t).cells.pos j = posLimit := (pos_without hjkept).trans hjpos
  have hmem : ∀ i, i < d.cells.size → ∀ x, overlay head toks (d.without t).cells.cell i = x →
      (t ∈ x.2 ∧ ¬ (t ∈ List.range llamaMaxSeq ∧ p.1.Purges p.2 x t) ↔
        head ≤ i ∧ i < head + n) := by
    intro i hi x hx
    rw [← howned i, applyUbatch_mem (fun j _ _ => without_bare hd) (by rw [hlen]; exact hgrows)
      (hi.trans_eq without_size.symm), hx]
  -- the last new cell keeps the sequence although its position is indexed
  have hlast := @overlay_in cells s t head (head + (n - 1)) (by omega) (by omega)
    (d.without t).cells.cell
  rw [Nat.add_sub_cancel_left] at hlast
  obtain ⟨-, hkeep⟩ := (hmem _ (by omega) _ hlast).mpr ⟨by omega, by omega⟩
  have hsaved := (mem_savedCells.mp (@savedCell_mem s cells (n - 1) (by omega))).2
  have hlastpos : 0 ≤ cells.pos (cells.savedCell s (n - 1)) ∧
      cells.pos (cells.savedCell s (n - 1)) ≤ posLimit := by
    have hok := hcpos (cells.savedCell s (n - 1))
    have := hok.1
    unfold InI32 at this
    exact ⟨hok.2.resolve_left hsaved.1, by omega⟩
  have hindexed : cells.pos (cells.savedCell s (n - 1)) ∈ p.1.seqPos t := by
    refine placeTokens_indexed toks head _ ⟨0, _, [t]⟩ ?_ rfl
    rw [List.getLast?_eq_getElem?, hlen, htoks, Cells.seqTokens, savedCells_map, List.map_map,
      List.getElem?_map, List.getElem?_range (by omega)]
    rfl
  have hmin := seqPosMin_le hindexed
  have hpurged : posLimit ≤ p.2 t → False := by
    intro hbound
    refine hkeep ⟨List.mem_range.mpr ht, by omega, by omega, Finset.mem_singleton_self t, ?_, ?_⟩
    · unfold rangeFrom
      dsimp only
      split <;> omega
    · unfold rangeTo
      dsimp only
      split <;> omega
  by_cases hin : head ≤ j ∧ j < head + n
  · have hseq := hslot j hin.1 hin.2 t hjkept
    have hover := placeTokens_overwritten (t := t) toks head ((d.without t).cells, fun _ => -1)
      (fun j _ _ => without_bare hd) j hin.1 (by rw [hlen]; exact hin.2) hseq
      (by dsimp only; rw [hjpos']; omega)
    exact hpurged (hjpos'.symm.trans_le hover)
  · -- outside the slot it must have been purged itself
    have hout := @overlay_out cells s t head j hin (d.without t).cells.cell
    have hnot := mt (hmem j (hjsize.trans_eq without_size) _ hout).mp hin
    rw [not_and_not_right] at hnot
    obtain ⟨-, hne, -, -, -, hto⟩ := hnot hjkept
    refine hpurged ?_
    have hto' : (d.without t).cells.pos j < rangeTo (p.2 t + 1) := hto
    rw [hjpos'] at hto'
    unfold rangeTo at hto'
    split at hto' <;> omega

end

/-! ## What a restore shows of its slot -/

section

variable {sh : Shape} {alloc : Alloc} {c d r : Cache} {cells : Cells} {head head' s t : Nat}

/-- The slot is where the checks look. -/
theorem SeqRestored.head_eq (h : SeqRestored sh c d r s t head')
    (hn : 0 < c.cells.cellCount (s : Int)) (hcheck : Checked r t head (c.cells.seqTokens s t)) :
    head' = head := by
  have hlen := seqTokens_length c.cells s t
  have hfirst := (h.owned head).mp hcheck.2.2.2.1
  have hlast := (h.owned _).mp hcheck.2.2.2.2
  rw [hlen] at hlast
  omega

/-- What a source with bytes `f` is restored to. -/
def Cache.restoredFrom (sh : Shape) (alloc : Alloc) (d : Cache) (cells : Cells) (s t head : Nat)
    (f : Place → UInt8) : Cache :=
  (d.without t).filled sh alloc head (cells.seqTokens s t)
    (rowsData sh ((Cache.source sh cells f).savedRows (cells.savedCells (s : Int))))

/-- A slot from which every source is restored. -/
structure RestoresAll (sh : Shape) (alloc : Alloc) (d : Cache) (cells : Cells) (s t head : Nat) :
    Prop where
  some : 0 < cells.cellCount (s : Int)
  slot : (d.without t).cells.Slot sh (cells.cellCount (s : Int)) head
  accepts : (d.without t).Accepts sh alloc t head (cells.seqTokens s t)
  restored : ∀ f, SeqRestored sh (Cache.source sh cells f) d
    (d.restoredFrom sh alloc cells s t head f) s t head

theorem RestoresAll.grows (hall : RestoresAll sh alloc d cells s t head) :
    (mzGrowChunks sh alloc (head + cells.cellCount (s : Int)) (d.without t)).2 = true := by
  have h := hall.accepts.grows
  rwa [seqTokens_length] at h

theorem RestoresAll.room (hall : RestoresAll sh alloc d cells s t head) :
    head + cells.cellCount (s : Int) ≤ d.cells.size := hall.slot.1.trans_eq without_size

/-- A cell of the slot has one sequence at most. -/
theorem RestoresAll.single (hall : RestoresAll sh alloc d cells s t head) (hd : d.cells.Tidy)
    {j u : Nat} (hge : head ≤ j) (hlt : j < head + cells.cellCount (s : Int))
    (hu : u ∈ (d.without t).cells.seq j) : (d.without t).cells.seq j = {u} := by
  obtain hempty | ⟨v, hv, -⟩ := hall.slot.2 (j - head) (by omega)
  · rw [Nat.add_sub_cancel' hge] at hempty
    have hnone : (d.without t).cells.seq j = ∅ := without_bare hd (of_decide_eq_true hempty)
    rw [hnone] at hu
    exact (Finset.notMem_empty u hu).elim
  · rw [Nat.add_sub_cancel' hge] at hv
    rw [hv] at hu
    rw [hv, Finset.mem_singleton.mp hu]

/-- The places of the slot hold the bytes of the source. -/
theorem RestoresAll.places (hall : RestoresAll sh alloc d cells s t head) (hd : d.cells.Tidy)
    (hb : d.Backed sh) (f : Place → UInt8) :
    (((d.without t).grownFor sh alloc head (cells.cellCount (s : Int))).places sh head
        (cells.cellCount (s : Int))).map (d.restoredFrom sh alloc cells s t head f).mem.at =
      ((Cache.source sh cells f).savedPlaces sh (cells.savedCells (s : Int))).map f := by
  have hres := source_resident sh cells f cells.size
  have hsaved : ∀ i ∈ cells.savedCells (s : Int), i < cells.size :=
    fun i hi => (mem_savedCells.mp hi).1
  refine Eq.trans ?_ (rowsData_places (Cache.source sh cells f) (cells.savedCells (s : Int)))
  refine (@places_map_iff sh (Cache.source sh cells f)
    ((d.without t).grownFor sh alloc head (cells.cellCount (s : Int))) s head _
    (grownFor_there (hb.without hd t) hall.grows)
    fun l hl h i hi => AllResident.rowThere hres hl h (hsaved i hi)).mpr ?_
  intro l hl h k hk
  refine Eq.trans ?_ ((hall.restored f).rows l hl h k hk)
  rw [Cache.row_places]
  unfold Cache.restoredFrom Cache.filled
  rw [seqTokens_length]
  rfl

theorem RestoresAll.removed (hall : RestoresAll sh alloc d cells s t head) (ht : t < llamaMaxSeq)
    (hd : d.cells.Tidy) (hdpos : d.cells.PosOk) (hcpos : cells.PosOk) :
    ∀ j, t ∈ d.cells.seq j → d.cells.pos j < posLimit :=
  removed_of_owned ht hd hdpos hcpos hall.some hall.room (fun _ hge hlt _ hu => hall.single hd hge hlt hu) hall.grows
    (hall.restored fun _ => 0).owned

/-- A taken cell of the slot would lose its sequence. -/
theorem RestoresAll.free (hall : RestoresAll sh alloc d cells s t head) (ht : t < llamaMaxSeq)
    (hd : d.cells.Tidy) (hdpos : d.cells.PosOk) (hcpos : cells.PosOk) :
    FreeSlot (d.without t).cells.cell head (cells.cellCount (s : Int)) := by
  intro j hge hlt
  obtain hempty | ⟨u, hu, -⟩ := hall.slot.2 (j - head) (by omega)
  · rw [Nat.add_sub_cancel' hge] at hempty
    have hpos : (d.without t).cells.pos j = -1 := of_decide_eq_true hempty
    exact Prod.ext hpos (without_bare hd hpos)
  rw [Nat.add_sub_cancel' hge] at hu
  have hmem : u ∈ (d.without t).cells.seq j := by
    rw [hu]
    exact Finset.mem_singleton_self u
  have hne : u ≠ t := by
    rintro rfl
    exact without_gone hd hdpos (hall.removed ht hd hdpos hcpos) hmem
  have hold := (mem_without_other hd hne).mp hmem
  have hnew := (((hall.restored fun _ => 0).others u hne j).1).mpr hold
  -- but the placement leaves the cell to the restored sequence
  have hgrows := hall.accepts.grows
  have hin := ((applyUbatch_mem (fun j _ _ => without_bare hd) hgrows
    ((hlt.trans_le hall.room).trans_eq without_size.symm)).mp hnew).1
  rw [overlay_in hge hlt] at hin
  exact absurd (Finset.mem_singleton.mp hin) hne

/-- Bytes of the slot at one place would hold the same. -/
theorem RestoresAll.apart (hall : RestoresAll sh alloc d cells s t head) (hd : d.cells.Tidy)
    (hb : d.Backed sh) :
    (((d.without t).grownFor sh alloc head (cells.cellCount (s : Int))).places sh head
      (cells.cellCount (s : Int))).Nodup := by
  have hsrc : ((Cache.source sh cells fun _ => 0).savedPlaces sh
      (cells.savedCells (s : Int))).Nodup := source_nodup (List.nodup_range.filter _)
  exact nodup_of_map_eq (show (1 : UInt8) ≠ 0 by decide) hsrc fun f => ⟨_, hall.places hd hb f⟩

/-- The rows of another sequence would change. -/
theorem RestoresAll.others (hall : RestoresAll sh alloc d cells s t head) (hd : d.cells.Tidy)
    (hb : d.Backed sh) {u j : Nat} (hu : u ≠ t) (hj : u ∈ d.cells.seq j) {l : Layer}
    (hl : l ∈ sh.layers) (h : Half) : ∀ q ∈ d.rowPlaces (l.slot h) (l.sizeRow h) j,
      q ∉ ((d.without t).grownFor sh alloc head (cells.cellCount (s : Int))).places sh head
        (cells.cellCount (s : Int)) := by
  intro q hq hin
  -- the source whose bytes all differ from the one at `q`
  set v : UInt8 := if d.mem.at q = 0 then 1 else 0 with hv
  have hplaces := hall.places hd hb fun _ => v
  have hnew : (d.restoredFrom sh alloc cells s t head fun _ => v).mem.at q = v := by
    have hmem := List.mem_map_of_mem (f := (d.restoredFrom sh alloc cells s t head fun _ =>
      v).mem.at) hin
    rw [hplaces] at hmem
    obtain ⟨_, -, heq⟩ := List.mem_map.mp hmem
    exact heq.symm
  have hrow := ((((hall.restored fun _ => v).others u hu j).2 hj).2 l hl h)
  rw [Cache.row_places, Cache.row_places] at hrow
  obtain ⟨hsame, -⟩ := @grownFor_row sh alloc d t u head j hd hb
    (cells.seqTokens s t).length hj l hl h
  have hsame' : (d.restoredFrom sh alloc cells s t head fun _ => v).rowPlaces (l.slot h)
      (l.sizeRow h) j = d.rowPlaces (l.slot h) (l.sizeRow h) j := hsame
  rw [hsame', List.map_inj_left] at hrow
  have hkept := hrow q hq
  rw [hnew, hv] at hkept
  split at hkept
  · rename_i hzero
    rw [hzero] at hkept
    exact absurd hkept (by decide)
  · rename_i hnot
    exact hnot hkept.symm

/-- A slot from which every source is restored fits. -/
theorem RestoresAll.fits (hall : RestoresAll sh alloc d cells s t head) (ht : t < llamaMaxSeq)
    (hd : d.cells.Tidy) (hdpos : d.cells.PosOk) (hb : d.Backed sh) (hcpos : cells.PosOk) :
    SlotFits sh alloc d t (cells.cellCount (s : Int)) head := by
  refine ⟨hall.removed ht hd hdpos hcpos, hall.free ht hd hdpos hcpos, hall.grows, ?_,
    hall.apart hd hb, fun u hu j hj l hl h => hall.others hd hb hu hj hl h⟩
  have h := hall.accepts.inside
  rwa [seqTokens_length] at h

end

end MzCache.Unified
