import Junction.ElfLoader
import Junction.FreeRangeBack

/-!
# What a relocatable image can touch

`LoadSegments` reserves a range for a relocatable image and loads every segment at an offset into it. The length of the
range is the largest end of a segment, as a machine word, so a segment whose end wraps can lie outside of the range.
Some of these segments touch nothing, or nothing outside.
-/

namespace Junction
open HalfOpen IntervalData ExclusiveIntervalSet List Nat LoadState

namespace ElfPhdr
variable {h : ElfPhdr} {f : FileRef} {base mapLen : ℕ}

/-- The end of the segment does not wrap. Or it does, the segment begins above the base, and its file part ends
behind the wrap as well, or below it and inside of the range. A file part without bytes and on a page border is none. -/
def Fits (h : ElfPhdr) (base mapLen : ℕ) : Prop :=
  h.vaddr + h.memsz < 2 ^ 64 ∨
    base + h.vaddr < 2 ^ 64 ∧ (2 ^ 64 ≤ h.vaddr + h.filesz ∨
      base + h.vaddr + h.filesz < 2 ^ 64 ∧
        (h.filesz = 0 ∧ 4096 ∣ h.vaddr ∨ h.vaddr + h.filesz ≤ pageAlign mapLen))

/-- The range for an image, and a segment whose end counts for its length. -/
structure Counted (h : ElfPhdr) (base mapLen : ℕ) : Prop where
  base_dvd : 4096 ∣ base
  len_dvd : 4096 ∣ pageAlign mapLen
  len_le : mapLen ≤ pageAlign mapLen
  bounded : base + pageAlign mapLen ≤ 2 ^ 63
  size : h.filesz ≤ h.memsz
  counted : addWord h.vaddr h.memsz ≤ mapLen

theorem inside_of_places {V F M hi : ℕ} (hV : h.addr base = V) (hF : h.fileEnd base = F) (hM : h.memEnd base = M)
    (hFlt : F + 4095 < 2 ^ 64) (hMlt : M + 4095 < 2 ^ 64) (hbase : 4096 ∣ base) (hhi : 4096 ∣ hi)
    (hfile : V / 4096 * 4096 < F → base ≤ V ∧ F ≤ hi) (hgap : ¬ 4096 ∣ F → base ≤ F ∧ F ≤ hi)
    (hrest : (F + 4095) / 4096 * 4096 < M → base ≤ F ∧ M ≤ hi) : h.Inside base base hi := by
  have hstart : h.start base = V / 4096 * 4096 := by rw [start, hV, pageAlignDown_eq]
  have hgapEnd : h.gapEnd base = (F + 4095) / 4096 * 4096 := by rw [gapEnd, hF, pageAlign_eq hFlt]
  refine ⟨fun hlt => ?_, fun hlt => ?_, fun hlt => ?_⟩
  · rw [hstart, hF] at hlt
    obtain ⟨hlo, hup⟩ := hfile hlt
    rw [hstart, hgapEnd]
    omega
  · rw [hgapEnd, hF] at hlt
    obtain ⟨hlo, hup⟩ := hgap (by omega)
    rw [hgapEnd, hF, pageAlignDown_eq]
    omega
  rw [hgapEnd, hM] at hlt
  obtain ⟨hlo, hup⟩ := hrest hlt
  rw [hgapEnd, hM, pageAlign_eq hMlt]
  omega

theorem memEnd_of_wrap (hlow : base + h.vaddr < 2 ^ 64) (hend : 2 ^ 64 ≤ h.vaddr + h.memsz)
    (hcount : addWord h.vaddr h.memsz ≤ mapLen) (hbound : base + mapLen ≤ 2 ^ 63) :
    h.addr base = base + h.vaddr ∧ h.memEnd base = base + (h.vaddr + h.memsz - 2 ^ 64) ∧
      h.vaddr + h.memsz - 2 ^ 64 ≤ mapLen := by
  obtain ⟨-, hv, -, hmw, -⟩ := h.words
  have haddr : h.addr base = base + h.vaddr := by rw [addr, addWord_of_lt (by omega), add_comm]
  have hword : addWord h.vaddr h.memsz = h.vaddr + h.memsz - 2 ^ 64 := by
    unfold addWord
    omega
  rw [hword] at hcount
  refine ⟨haddr, ?_, hcount⟩
  rw [memEnd, haddr]
  unfold addWord
  omega

theorem Counted.inside (hc : h.Counted base mapLen) (hfits : h.Fits base mapLen) :
    h.fileEnd base + 4095 < 2 ^ 64 ∧ h.memEnd base + 4095 < 2 ^ 64 ∧ h.Inside base base (base + pageAlign mapLen) := by
  obtain ⟨hbase, hlen, hle, hbound, hsize, hcount⟩ := hc
  obtain ⟨-, hv, hfw, hmw, -⟩ := h.words
  by_cases hend : h.vaddr + h.memsz < 2 ^ 64
  · rw [addWord_of_lt hend] at hcount
    have haddr : h.addr base = base + h.vaddr := by rw [addr, addWord_of_lt (by omega), add_comm]
    have hfile : h.fileEnd base = base + h.vaddr + h.filesz := by rw [fileEnd, haddr, addWord_of_lt (by omega)]
    have hmem : h.memEnd base = base + h.vaddr + h.memsz := by rw [memEnd, haddr, addWord_of_lt (by omega)]
    refine ⟨by omega, by omega, inside_of_places haddr hfile hmem (by omega) (by omega) hbase (dvd_add hbase hlen)
      (fun _ => ⟨by omega, by omega⟩) (fun _ => ⟨by omega, by omega⟩) fun _ => ⟨by omega, by omega⟩⟩
  obtain ⟨hlow, hparts⟩ := hfits.resolve_left hend
  obtain ⟨haddr, hmem, hwle⟩ := memEnd_of_wrap hlow (Nat.le_of_not_lt hend) hcount (by omega)
  rcases hparts with hbehind | ⟨hbelow, hparts⟩
  · have hfile : h.fileEnd base = base + (h.vaddr + h.filesz - 2 ^ 64) := by
      simp only [fileEnd, haddr, addWord]
      omega
    refine ⟨by omega, by omega, inside_of_places haddr hfile hmem (by omega) (by omega) hbase (dvd_add hbase hlen)
      (fun _ => ⟨by omega, by omega⟩) (fun _ => ⟨by omega, by omega⟩) fun _ => ⟨by omega, by omega⟩⟩
  have hfile : h.fileEnd base = base + h.vaddr + h.filesz := by rw [fileEnd, haddr, addWord_of_lt hbelow]
  have hshort : h.fileEnd base + 4095 < 2 ^ 64 := by omega
  refine ⟨hshort, by omega, inside_of_places haddr hfile hmem (by omega) (by omega) hbase (dvd_add hbase hlen)
    (fun _ => ⟨by omega, by omega⟩) (fun _ => ⟨by omega, by omega⟩) fun _ => ⟨by omega, by omega⟩⟩

theorem Counted.fits (hc : h.Counted base mapLen) (hplaced : ∀ c ∈ loadOneSegment f base h, c.effect.Placed)
    (hin : ∀ c ∈ loadOneSegment f base h, c.effect.Within base (base + pageAlign mapLen)) : h.Fits base mapLen := by
  obtain ⟨hbase, hlen, hle, hbound, hsize, hcount⟩ := hc
  obtain ⟨-, hv, hfw, hmw, -⟩ := h.words
  have hfilePart : h.start base < h.fileEnd base → base ≤ h.start base ∧ h.fileEnd base ≤ base + pageAlign mapLen := by
    intro hlt
    have hmem : LoadCall.mapFile f (h.start base) (h.fileEnd base - h.start base) (segmentProt h.flags)
        (pageAlignDown h.offset) ∈ loadOneSegment f base h := by
      simp [loadOneSegment, mapFile, hlt]
    have hw := hin _ hmem
    have hp := hplaced _ hmem
    obtain ⟨hlo, hhi⟩ : base ≤ h.start base ∧ h.start base + pageAlign (h.fileEnd base - h.start base) ≤ _ := hw
    obtain ⟨hpos, -⟩ : h.start base < h.start base + pageAlign (h.fileEnd base - h.start base) ∧ _ := hp
    have hfit := pageAlign_spec (n := h.fileEnd base - h.start base) (lt_of_le_of_lt (sub_le _ _)
      (mod_lt _ (by decide))) (by omega)
    omega
  have hgapPart : h.fileEnd base < h.gapEnd base → base ≤ h.fileEnd base := by
    intro hlt
    have hmem : LoadCall.zero (h.fileEnd base) (h.gapEnd base) ∈ loadOneSegment f base h := by
      by_cases hw : hasFlag (segmentProt h.flags) PROT_WRITE <;> simp [loadOneSegment, zeroGap, hlt, hw]
    exact (hin _ hmem).1
  have hrestPart : h.gapEnd base < h.memEnd base → base ≤ h.gapEnd base := by
    intro hlt
    have hmem : LoadCall.mapAnonymous (h.gapEnd base) (h.memEnd base - h.gapEnd base) (segmentProt h.flags) ∈
        loadOneSegment f base h := by
      simp [loadOneSegment, mapRest, hlt]
    exact (hin _ hmem).1
  by_cases hend : h.vaddr + h.memsz < 2 ^ 64
  · exact .inl hend
  refine .inr ?_
  by_cases hlow : base + h.vaddr < 2 ^ 64
  · refine ⟨hlow, ?_⟩
    obtain ⟨haddr, hmem, hwle⟩ := memEnd_of_wrap hlow (Nat.le_of_not_lt hend) hcount (by omega)
    by_cases hbehind : 2 ^ 64 ≤ h.vaddr + h.filesz
    · exact .inl hbehind
    refine .inr ?_
    have hstart : h.start base = (base + h.vaddr) / 4096 * 4096 := by rw [start, haddr, pageAlignDown_eq]
    by_cases hbelow : base + h.vaddr + h.filesz < 2 ^ 64
    · have hfile : h.fileEnd base = base + h.vaddr + h.filesz := by rw [fileEnd, haddr, addWord_of_lt hbelow]
      refine ⟨hbelow, ?_⟩
      omega
    have hfile : h.fileEnd base = base + h.vaddr + h.filesz - 2 ^ 64 := by
      rw [fileEnd, haddr]
      unfold addWord
      omega
    omega
  · have haddr : h.addr base = base + h.vaddr - 2 ^ 64 := by
      unfold addr addWord
      omega
    have hword : addWord h.vaddr h.memsz = h.vaddr + h.memsz - 2 ^ 64 := by
      unfold addWord
      omega
    have hstart : h.start base = h.addr base / 4096 * 4096 := rfl
    have hmem : h.memEnd base = h.addr base + h.memsz := by
      rw [memEnd, addWord_of_lt (by omega)]
    omega

end ElfPhdr

theorem foldl_countTotalLength (phdrs : List ElfPhdr) (len : ℕ) (hlen : len < 2 ^ 64) :
    let total := phdrs.foldl (fun len h => if h.type = kPTypeLoad then max len (addWord h.vaddr h.memsz) else len) len
    len ≤ total ∧ total < 2 ^ 64 ∧ ∀ h ∈ loads phdrs, addWord h.vaddr h.memsz ≤ total := by
  induction phdrs generalizing len with
  | nil => exact ⟨le_rfl, hlen, nofun⟩
  | cons h phdrs ih =>
    have hword : addWord h.vaddr h.memsz < 2 ^ 64 := mod_lt _ (by decide)
    rw [foldl_cons]
    by_cases htype : h.type = kPTypeLoad
    · have hcons : loads (h :: phdrs) = h :: loads phdrs := filter_cons_of_pos (by simpa using htype)
      obtain ⟨hle, hlt, hall⟩ := ih (max len (addWord h.vaddr h.memsz)) (max_lt hlen hword)
      rw [if_pos htype, hcons]
      exact ⟨(le_max_left _ _).trans hle, hlt, forall_mem_cons.mpr ⟨(le_max_right _ _).trans hle, hall⟩⟩
    have hcons : loads (h :: phdrs) = loads phdrs := filter_cons_of_neg (by simpa using htype)
    rw [if_neg htype, hcons]
    exact ih len hlen

/-! ### The whole image -/

/-- A map below the upper half of the address space, where the host maps nothing. -/
structure MemoryMap.InLowerHalf (mm : MemoryMap) : Prop where
  wf : WellFormed mm.vmareas
  areas_le : ∀ e ∈ mm.vmareas, e.2.stop ≤ 2 ^ 63
  end_le : mm.mmEnd ≤ 2 ^ 63
  start_le : mm.mmStart ≤ mm.brkAddr

def MemoryMap.Unused (mm : MemoryMap) (lo hi : ℕ) : Prop :=
  mm.mmStart ≤ lo ∧ hi ≤ mm.mmEnd ∧ Free mm.vmareas lo (hi - lo)

/-- Nothing is touched, or only addresses of one unused range of the length of the image. -/
def Confined (mm : MemoryMap) (mapLen : ℕ) (effects : List HostEffect) : Prop :=
  effects = [] ∨ ∃ base, mm.Unused base (base + pageAlign mapLen) ∧
    ∀ e ∈ effects, e.Within base (base + pageAlign mapLen)

/-- The search of the map finds unused ranges, and every segment fits at the base that it hands out. -/
def Tame (mm : MemoryMap) (phdrs : List ElfPhdr) : Prop :=
  ScanFree mm.vmareas (pageAlign (countTotalLength phdrs)) mm.mmEnd mm.brkAddr ∧
    ∀ base, findFreeBack mm.vmareas (pageAlign (countTotalLength phdrs)) mm.mmEnd mm.brkAddr = .ok base →
      ∀ h ∈ loads phdrs, h.Fits base (countTotalLength phdrs)

section Image
variable {mm : MemoryMap} {phdrs : List ElfPhdr} {base : ℕ} {f : FileRef}

theorem unused_iff (hmm : mm.InLowerHalf) {len : ℕ} (hfind : findFreeBack mm.vmareas len mm.mmEnd mm.brkAddr = .ok base)
    (hbound : base + len ≤ 2 ^ 63) : mm.Unused base (base + len) ↔ ScanFree mm.vmareas len mm.mmEnd mm.brkAddr := by
  have hends : ∀ e ∈ mm.vmareas, getEnd e.2 ≤ 2 ^ 63 := hmm.areas_le
  have hend := hmm.end_le
  have hlt : ∀ e ∈ mm.vmareas, getEnd e.2 < 2 ^ 64 := fun e he => (hends e he).trans_lt (by decide)
  rw [← allUsable_findFreeBack hmm.wf hlt (by omega) (by omega), hfind, allUsable_ok]
  obtain ⟨hlo, hhi⟩ := findFreeBack_between hmm.wf hends hmm.end_le hbound hfind
  rw [MemoryMap.Unused, Nat.add_sub_cancel_left, Usable]
  constructor
  · rintro ⟨-, -, hfree⟩
    exact ⟨hfree, by omega⟩
  · rintro ⟨hfree, -⟩
    exact ⟨hmm.start_le.trans hlo, hhi, hfree⟩

theorem counted_of_loads (hvalid : phdrs.all ElfPhdr.isValid) (hbase : 4096 ∣ base)
    (hpos : 0 < pageAlign (countTotalLength phdrs)) (hbound : base + pageAlign (countTotalLength phdrs) ≤ 2 ^ 63)
    {h : ElfPhdr} (hmem : h ∈ loads phdrs) : h.Counted base (countTotalLength phdrs) := by
  obtain ⟨-, hlt, hcounted⟩ := foldl_countTotalLength phdrs 0 (by decide)
  obtain ⟨hdvd, hle, -⟩ := pageAlign_spec hlt hpos
  refine ⟨hbase, hdvd, hle, hbound, filesz_le_of_isValid ?_, hcounted h hmem⟩
  exact all_eq_true.mp hvalid h (mem_of_mem_filter hmem)

theorem loadSegments_of_reserved {env : ℕ → LoadEnv} {prot : ℕ → Option Prot} {s t : LoadState} {base : ℕ}
    (h : s.reserve env (countTotalLength phdrs) = (.ret (.ok base), t)) :
    ∃ done, done <+: (loads phdrs).flatMap (loadOneSegment f base) ∧
      (s.loadSegments env prot f phdrs true).2.effects = t.effects ++ done.map LoadCall.effect ∧
      (∀ c ∈ done, c.effect.Placed) ∧
      (∀ x, (s.loadSegments env prot f phdrs true).1 = .ret (.ok x) →
        done = (loads phdrs).flatMap (loadOneSegment f base)) := by
  obtain ⟨done, hpre, heffects, hplaced, hall⟩ :=
    @LoadState.effects_run env prot t ((loads phdrs).flatMap (loadOneSegment f base))
  have hload : s.loadSegments env prot f phdrs true = andThen
      (t.run env prot ((loads phdrs).flatMap (loadOneSegment f base)))
      fun _ s => (.ret (.ok (base, countTotalLength phdrs)), s) := by
    rw [loadSegments]
    simp only [if_true, h]
    rfl
  rw [hload]
  by_cases hok : ∃ u, (t.run env prot ((loads phdrs).flatMap (loadOneSegment f base))).1 = .ret (.ok u)
  · obtain ⟨u, hu⟩ := hok
    refine ⟨done, hpre, ?_, hplaced, fun _ _ => hall u hu⟩
    have hrun : t.run env prot ((loads phdrs).flatMap (loadOneSegment f base)) = (.ret (.ok u), _) := Prod.ext hu rfl
    rw [← heffects, hrun]
    rfl
  obtain ⟨hstate, hne⟩ := @LoadState.andThen_of_ne _ (ℕ × ℕ)
    (t.run env prot ((loads phdrs).flatMap (loadOneSegment f base)))
    (fun _ s => (.ret (.ok (base, countTotalLength phdrs)), s)) fun u hu => hok ⟨u, hu⟩
  exact ⟨done, hpre, by rw [hstate, heffects], hplaced, fun x hx => absurd hx (hne x)⟩

end Image

/-- A relocatable image touches nothing outside of one unused range if the map and the table are tame, and a load that
succeeds does so only if they are. -/
theorem loadSegments_confined (env : ℕ → LoadEnv) (prot : ℕ → Option Prot) (s : LoadState) (f : FileRef)
    (phdrs : List ElfPhdr) (hread : readPHDRs (.ok phdrs) = .ok phdrs) (hmm : s.mm.InLowerHalf) :
    ∃ effects, (s.loadSegments env prot f phdrs true).2.effects = s.effects ++ effects ∧
      (Tame s.mm phdrs → Confined s.mm (countTotalLength phdrs) effects) ∧
      ((∃ x, (s.loadSegments env prot f phdrs true).1 = .ret (.ok x)) →
        Confined s.mm (countTotalLength phdrs) effects → Tame s.mm phdrs) := by
  have hvalid := (readPHDRs_eq_ok hread).2
  by_cases hok : ∃ base, (s.reserve env (countTotalLength phdrs)).1 = .ret (.ok base)
  · obtain ⟨base, hb⟩ := hok
    have hres : s.reserve env (countTotalLength phdrs) = (.ret (.ok base), _) := Prod.ext hb rfl
    obtain ⟨hfirst, hfind, hbase, hpos, hbound⟩ := reserve_eq_ok hres
    obtain ⟨done, hpre, heffects, hplaced, hall⟩ := @loadSegments_of_reserved phdrs f env prot s _ base hres
    refine ⟨.map base (base + pageAlign (countTotalLength phdrs)) PROT_NONE none :: done.map LoadCall.effect, ?_, ?_, ?_⟩
    · rw [heffects, hfirst, append_assoc, singleton_append]
    · rintro ⟨hscan, hfits⟩
      refine .inr ⟨base, (unused_iff hmm hfind hbound).mpr hscan, forall_mem_cons.mpr ⟨⟨le_rfl, le_rfl⟩, ?_⟩⟩
      intro e he
      obtain ⟨c, hc, rfl⟩ := mem_map.mp he
      obtain ⟨h, hh, hcall⟩ := mem_flatMap.mp (hpre.subset hc)
      have hcounted := counted_of_loads hvalid hbase hpos hbound hh
      obtain ⟨hfile, hmem, hinside⟩ := hcounted.inside (hfits base hfind h hh)
      exact hinside.within hfile hmem c hcall
    rintro ⟨x, hx⟩ hconf
    obtain ⟨base', hunused, hin⟩ := hconf.resolve_left (cons_ne_nil _ _)
    obtain ⟨hmap, hrest⟩ := forall_mem_cons.mp hin
    obtain ⟨hlo, hhi⟩ : base' ≤ base ∧ base + pageAlign (countTotalLength phdrs) ≤
      base' + pageAlign (countTotalLength phdrs) := hmap
    obtain rfl : base = base' := by omega
    refine ⟨(unused_iff hmm hfind hbound).mp hunused, fun base' hfind' h hh => ?_⟩
    obtain rfl : base = base' := Except.ok.inj (hfind.symm.trans hfind')
    obtain rfl := hall x hx
    refine (counted_of_loads hvalid hbase hpos hbound hh).fits (f := f) (fun c hc => ?_) fun c hc => ?_
    · exact hplaced c (mem_flatMap.mpr ⟨h, hh, hc⟩)
    · exact hrest _ (mem_map_of_mem (mem_flatMap.mpr ⟨h, hh, hc⟩))
  · have hne : ∀ x, (s.reserve env (countTotalLength phdrs)).1 ≠ .ret (.ok x) := fun x hx => hok ⟨x, hx⟩
    obtain ⟨hstate, hfail⟩ := @LoadState.andThen_of_ne _ (ℕ × ℕ) (s.reserve env (countTotalLength phdrs))
      (fun mapOff s => andThen (s.run env prot ((loads phdrs).flatMap (loadOneSegment f mapOff)))
        fun _ s => (.ret (.ok (mapOff, countTotalLength phdrs)), s)) hne
    refine ⟨[], ?_, fun _ => .inl rfl, ?_⟩
    · rw [append_nil, ← effects_of_reserve_ne hne, ← hstate]
      rfl
    · rintro ⟨x, hx⟩
      exact absurd hx (hfail x)

def interpMap : MemoryMap :=
  { MemoryMap.init 0x100000 0x100000 with
    vmareas := [(0x200000, ⟨0x1f0000, 0x200000, 5, false, .kFile, some 1, 0⟩)] }

/-- The end of the segment wraps to `0xfff`, and its file part lies behind the page that is reserved. -/
def wrapped : List ElfPhdr := [⟨kPTypeLoad, 5, 0, 0x1000, 0x1000, 2 ^ 64 - 1, 0x1000, by decide⟩]

theorem interpMap_inLowerHalf : interpMap.InLowerHalf where
  wf := wellFormed_cons.2 ⟨⟨rfl, by decide⟩, nofun, wellFormed_nil⟩
  areas_le := by decide
  end_le := by decide
  start_le := by decide

theorem loadSegments_confined_textAndData :
    let s : LoadState := ⟨interpMap, [], 0, []⟩
    (s.loadSegments .willing (fun _ => none) 2 textAndData true).1 = .ret (.ok (0x1eb000, 0x4200)) ∧
      Confined interpMap (countTotalLength textAndData)
        (s.loadSegments .willing (fun _ => none) 2 textAndData true).2.effects := by
  refine ⟨by decide, ?_⟩
  obtain ⟨effects, heffects, hconf, -⟩ := loadSegments_confined .willing (fun _ => none) ⟨interpMap, [], 0, []⟩ 2
    textAndData (by decide) interpMap_inLowerHalf
  rw [heffects]
  have hends : ∀ h ∈ loads textAndData, h.vaddr + h.memsz < 2 ^ 64 := by decide
  refine hconf ⟨⟨fun _ => .inl ⟨0x100000, by decide, ?_⟩, ?_⟩, fun base _ h hh => .inl (hends h hh)⟩
  · exact forall_mem_singleton.mpr (.inr (by decide))
  intro last hlast habove
  obtain rfl := Option.mem_some.mp hlast
  exact absurd habove (by decide)

theorem loadSegments_escapes :
    let s : LoadState := ⟨interpMap, [], 0, []⟩
    readPHDRs (.ok wrapped) = .ok wrapped ∧
      (s.loadSegments .willing (fun _ => none) 2 wrapped true).1 = .ret (.ok (0x1ef000, 0xfff)) ∧
      .map 0x1f0000 0x1f1000 5 (some (2, 0)) ∈ (s.loadSegments .willing (fun _ => none) 2 wrapped true).2.effects ∧
      ¬ Confined interpMap (countTotalLength wrapped)
        (s.loadSegments .willing (fun _ => none) 2 wrapped true).2.effects := by
  have heffects : (loadSegments .willing (fun _ => none) ⟨interpMap, [], 0, []⟩ 2 wrapped true).2.effects =
      [.map 0x1ef000 0x1f0000 0 none, .map 0x1f0000 0x1f1000 5 (some (2, 0))] := by decide
  refine ⟨by decide, by decide, by rw [heffects]; simp, ?_⟩
  rw [heffects]
  rintro (hnil | ⟨base, -, hin⟩)
  · cases hnil
  have hlen : pageAlign (countTotalLength wrapped) = 0x1000 := by decide
  have hfirst := hin _ mem_cons_self
  have hsecond := hin _ (mem_cons_of_mem _ mem_cons_self)
  rw [hlen] at hfirst hsecond
  simp only [HostEffect.Within, HostEffect.start, HostEffect.stop] at hfirst hsecond
  omega

end Junction
