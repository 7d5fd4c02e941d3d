import Junction.ElfLoader

/-!
# The image of an ELF file

After a load, the memory of a segment holds the bytes of its file part and zeros behind them, with the protection of
the segment. The file is mapped from a page border on, so this needs a segment that begins at the same place of its
page in memory and in the file. The loader asks for that only as far as the alignment of the header goes.
-/

namespace Junction
open List LoadCall HostEffect

namespace ElfPhdr
variable {h : ElfPhdr} {f : FileRef} {base : ℕ} {files : Files} {mem : ℕ → UInt8} {prot : ℕ → Option Prot} {a : ℕ}

def pagesEnd (h : ElfPhdr) (base : ℕ) : ℕ := (h.addr base + h.memsz + 4095) / 4096 * 4096

def PagesApart (base : ℕ) (h h' : ElfPhdr) : Prop := h.pagesEnd base ≤ h'.start base ∨ h'.pagesEnd base ≤ h.start base

instance (base : ℕ) : DecidableRel (PagesApart base) := fun _ _ => inferInstanceAs (Decidable (_ ∨ _))

/-- The places of a segment whose end does not wrap and whose pages can be mapped. -/
structure Placed (h : ElfPhdr) (base : ℕ) : Prop where
  fileEnd_eq : h.fileEnd base = h.addr base + h.filesz
  memEnd_eq : h.memEnd base = h.addr base + h.memsz
  size : h.filesz ≤ h.memsz
  fileEnd_lt : h.fileEnd base + 4095 < 2 ^ 64
  memEnd_lt : h.memEnd base + 4095 < 2 ^ 64

theorem placed_of_effects (hsize : h.filesz ≤ h.memsz) (hend : h.addr base + h.memsz < 2 ^ 64)
    (hplaced : ∀ c ∈ loadOneSegment f base h, c.effect.Placed) : h.Placed base := by
  have hfile : h.fileEnd base = h.addr base + h.filesz := by rw [fileEnd, addWord_of_lt (by omega)]
  have hmem : h.memEnd base = h.addr base + h.memsz := by rw [memEnd, addWord_of_lt hend]
  have hstart := h.start_dvd base
  have hgap := h.gapEnd_dvd base
  have hgapLt : h.gapEnd base < 2 ^ 64 := pageAlign_lt _
  have hle : h.start base ≤ h.addr base := Nat.div_mul_le_self _ _
  refine ⟨hfile, hmem, hsize, ?_, ?_⟩
  · by_cases hlt : h.start base < h.fileEnd base
    · have hcall : LoadCall.mapFile f (h.start base) (h.fileEnd base - h.start base) (segmentProt h.flags)
          (pageAlignDown h.offset) ∈ loadOneSegment f base h := by
        simp [loadOneSegment, mapFile, hlt]
      obtain ⟨hpos, hle⟩ : h.start base < h.start base + pageAlign (h.fileEnd base - h.start base) ∧
        h.start base + pageAlign (h.fileEnd base - h.start base) ≤ 2 ^ 63 := hplaced _ hcall
      obtain ⟨-, hfit, -⟩ := pageAlign_spec (n := h.fileEnd base - h.start base) (by omega) (by omega)
      omega
    · omega
  · by_cases hlt : h.gapEnd base < h.memEnd base
    · have hcall : LoadCall.mapAnonymous (h.gapEnd base) (h.memEnd base - h.gapEnd base) (segmentProt h.flags) ∈
          loadOneSegment f base h := by
        simp [loadOneSegment, mapRest, hlt]
      obtain ⟨hpos, hle⟩ : h.gapEnd base < h.gapEnd base + pageAlign (h.memEnd base - h.gapEnd base) ∧
        h.gapEnd base + pageAlign (h.memEnd base - h.gapEnd base) ≤ 2 ^ 63 := hplaced _ hcall
      obtain ⟨-, hfit, -⟩ := pageAlign_spec (n := h.memEnd base - h.gapEnd base) (by omega) (by omega)
      omega
    · omega

theorem Placed.gapEnd_eq (hp : h.Placed base) : h.gapEnd base = (h.fileEnd base + 4095) / 4096 * 4096 :=
  pageAlign_eq hp.fileEnd_lt

theorem start_eq (h : ElfPhdr) (base : ℕ) : h.start base = h.addr base / 4096 * 4096 := rfl

theorem Placed.within (hp : h.Placed base) :
    ∀ c ∈ loadOneSegment f base h, c.effect.Within (h.start base) (h.pagesEnd base) := by
  have hgap := hp.gapEnd_eq
  have hfile := hp.fileEnd_eq
  have hmem := hp.memEnd_eq
  have hsize := hp.size
  have hstart := h.start_eq base
  have hmemLt := hp.memEnd_lt
  have hinside : h.Inside base (h.start base) (h.pagesEnd base) := by
    unfold pagesEnd
    refine ⟨fun hlt => ⟨le_rfl, ?_⟩, fun hlt => ?_, fun hlt => ?_⟩
    · omega
    · rw [pageAlignDown_eq]
      omega
    · rw [pageAlign_eq hmemLt]
      omega
  exact hinside.within hp.fileEnd_lt hp.memEnd_lt

/-! ### What the calls of a segment leave behind -/

theorem bytes_zeroGap : bytesAfter files mem ((zeroGap h base).map effect) a =
    if h.fileEnd base ≤ a ∧ a < h.gapEnd base then 0 else mem a := by
  unfold zeroGap
  by_cases hlt : h.fileEnd base < h.gapEnd base
  · rw [if_pos hlt]
    by_cases hw : hasFlag (segmentProt h.flags) PROT_WRITE
    · rw [if_pos hw]
      rfl
    rw [if_neg hw]
    simp only [bytesAfter, map_cons, map_nil, foldl_cons, foldl_nil, effect,
      setBytes, newByte, ite_self]
    rfl
  · rw [if_neg hlt, if_neg fun hc => hlt (hc.1.trans_lt hc.2)]
    rfl

/-- The protection of the page of the gap is what it was, if that was the protection of the segment. -/
theorem prot_zeroGap (ha : prot a = some (segmentProt h.flags) ∨ ∀ c ∈ zeroGap h base, ¬ c.effect.Covers a) :
    protAfter prot ((zeroGap h base).map effect) a = prot a := by
  rcases ha with ha | ha
  · dsimp only [zeroGap]
    split_ifs with hlt hw
    · simp [protAfter, effect, setProt, newProt]
    · simp only [protAfter, map_cons, map_nil, foldl_cons, foldl_nil, effect,
        HostEffect.setProt, HostEffect.newProt, HostEffect.Covers, HostEffect.start, HostEffect.stop, ha]
      split_ifs <;> rfl
    · rfl
  · apply protAfter_of_not_covers
    intro e he
    obtain ⟨c, hc, rfl⟩ := mem_map.mp he
    exact ha c hc

theorem effects_loadOneSegment (f : FileRef) (base : ℕ) (h : ElfPhdr) :
    (loadOneSegment f base h).map effect = (mapFile f h base).map effect ++
      (zeroGap h base).map effect ++ (mapRest h base).map effect := by
  rw [loadOneSegment, map_append, map_append]

theorem Placed.bytes (hp : h.Placed base) {i : ℕ} (hi : i < h.memsz) :
    bytesAfter files mem ((loadOneSegment f base h).map effect) (h.addr base + i) =
      if i < h.filesz then files f (pageAlignDown h.offset + (h.addr base + i - h.start base)) else 0 := by
  have hgap := hp.gapEnd_eq
  have hfile := hp.fileEnd_eq
  have hmem := hp.memEnd_eq
  have hstart := h.start_eq base
  have hround := pageAlign_eq hp.memEnd_lt
  rw [effects_loadOneSegment, bytesAfter_append, bytesAfter_append, effects_mapRest hp.memEnd_lt, bytesAfter_map_if,
    bytes_zeroGap, effects_mapFile hp.fileEnd_lt, bytesAfter_map_if]
  by_cases hrest : h.gapEnd base ≤ h.addr base + i
  · have hout : ¬ i < h.filesz := by omega
    rw [if_pos (by omega), if_neg hout]
    rfl
  rw [if_neg (by omega)]
  by_cases hin : i < h.filesz
  · rw [if_neg (by omega), if_pos (by omega), if_pos hin]
    rfl
  · rw [if_pos (by omega), if_neg hin]

theorem Placed.protection (hp : h.Placed base) (hlo : h.start base ≤ a) (hhi : a < h.pagesEnd base) :
    protAfter prot ((loadOneSegment f base h).map effect) a = some (segmentProt h.flags) := by
  have hgap := hp.gapEnd_eq
  have hmem := hp.memEnd_eq
  have hstart := h.start_eq base
  have hround := pageAlign_eq hp.memEnd_lt
  unfold pagesEnd at hhi
  rw [effects_loadOneSegment, protAfter_append, protAfter_append, effects_mapRest hp.memEnd_lt, protAfter_map_if]
  by_cases hrest : h.gapEnd base ≤ a
  · rw [if_pos (by omega)]
  have hfirst : protAfter prot ((mapFile f h base).map effect) a = some (segmentProt h.flags) := by
    rw [effects_mapFile hp.fileEnd_lt, protAfter_map_if, if_pos (by omega)]
  rw [if_neg (by omega), prot_zeroGap (.inl hfirst), hfirst]

end ElfPhdr

theorem protAfter_high {prot : ℕ → Option Prot} {effects : List HostEffect} {a : ℕ} (hplaced : ∀ e ∈ effects, e.Placed)
    (hhigh : 2 ^ 63 ≤ a) (hnone : prot a = none) : protAfter prot effects a = none := by
  induction effects generalizing prot with
  | nil => exact hnone
  | cons e effects ih =>
    obtain ⟨he, hrest⟩ := forall_mem_cons.mp hplaced
    apply ih hrest
    unfold setProt
    split_ifs with hcov
    · cases e with
      | map start stop p source => exact absurd hcov.2 (Nat.not_lt.mpr (he.2.trans hhigh))
      | protect start stop p => exact congrArg (Option.map fun _ => p) hnone
      | zero start stop => exact hnone
    · exact hnone

/-! ### The whole image -/

/-- The bytes and the protection of a segment, for the contents `files` of files and the memory before. -/
structure SegmentLoaded (files : Files) (mem : ℕ → UInt8) (prot : ℕ → Option Prot) (effects : List HostEffect)
    (f : FileRef) (base : ℕ) (h : ElfPhdr) : Prop where
  bytes : ∀ i < h.memsz, bytesAfter files mem effects (addWord (h.addr base) i) =
    if i < h.filesz then files f (h.offset + i) else 0
  pages : ∀ i < h.memsz, ∀ a, a / 4096 = addWord (h.addr base) i / 4096 →
    protAfter prot effects a = some (segmentProt h.flags)

/-- The segment does not wrap around the address space, and its file part begins at the same place of its page in
memory and in the file. -/
def SegmentSound (base : ℕ) (h : ElfPhdr) : Prop :=
  h.addr base + h.memsz < 2 ^ 64 ∧ (0 < h.filesz → h.vaddr % 4096 = h.offset % 4096)

section Image
variable {f : FileRef} {base : ℕ} {segments : List ElfPhdr} {before : List HostEffect} {h : ElfPhdr}

theorem after_segment (hh : h ∈ segments) (hdisj : segments.Pairwise (ElfPhdr.PagesApart base))
    (hplaced : ∀ h ∈ segments, h.Placed base) {files : Files} {mem : ℕ → UInt8} {prot : ℕ → Option Prot} :
    (∀ i < h.memsz, bytesAfter files mem (before ++ (segments.flatMap (loadOneSegment f base)).map effect)
        (h.addr base + i) =
      if i < h.filesz then files f (pageAlignDown h.offset + (h.addr base + i - h.start base)) else 0) ∧
      ∀ a, h.start base ≤ a → a < h.pagesEnd base →
        protAfter prot (before ++ (segments.flatMap (loadOneSegment f base)).map effect) a =
          some (segmentProt h.flags) := by
  have hwithin : ∀ h ∈ segments, ∀ e ∈ (loadOneSegment f base h).map effect,
      e.Within (h.start base) (h.pagesEnd base) := by
    intro h hh e he
    obtain ⟨c, hc, rfl⟩ := mem_map.mp he
    exact (hplaced h hh).within c hc
  obtain ⟨mem', prot', hafter⟩ := @after_items _ (fun h => (loadOneSegment f base h).map effect)
    (fun h => h.start base) (fun h => h.pagesEnd base) segments h files mem prot hh hdisj hwithin before
  have hstart := h.start_eq base
  rw [map_flatMap]
  refine ⟨fun i hi => ?_, fun a hlo hhi => ?_⟩
  · rw [(hafter _ (by omega) (by unfold ElfPhdr.pagesEnd; omega)).1, (hplaced h hh).bytes hi]
  · rw [(hafter a hlo hhi).2, (hplaced h hh).protection hlo hhi]

variable (hbase : 4096 ∣ base)
include hbase

theorem loaded_of_sound (hh : h ∈ segments) (hdisj : segments.Pairwise (ElfPhdr.PagesApart base))
    (hplaced : ∀ h ∈ segments, h.Placed base) (hsound : SegmentSound base h) (files : Files) (mem : ℕ → UInt8)
    (prot : ℕ → Option Prot) :
    SegmentLoaded files mem prot (before ++ (segments.flatMap (loadOneSegment f base)).map effect) f base h := by
  obtain ⟨hend, hpage⟩ := hsound
  obtain ⟨hbytes, hpages⟩ := @after_segment f base segments before h hh hdisj hplaced files mem prot
  have hstart := h.start_eq base
  have haddr : h.addr base % 4096 = h.vaddr % 4096 := by
    unfold ElfPhdr.addr addWord
    omega
  refine ⟨fun i hi => ?_, fun i hi a ha => ?_⟩
  · rw [addWord_of_lt (by omega), hbytes i hi]
    split_ifs with hin
    · have hplace : pageAlignDown h.offset + (h.addr base + i - h.start base) = h.offset + i := by
        rw [pageAlignDown_eq]
        omega
      rw [hplace]
    · rfl
  · rw [addWord_of_lt (by omega)] at ha
    apply hpages a
    · omega
    · unfold ElfPhdr.pagesEnd
      omega

/-- A segment whose bytes are right whatever the file holds begins at the same place of its page in both. -/
theorem sound_of_loaded (hh : h ∈ segments) (hdisj : segments.Pairwise (ElfPhdr.PagesApart base))
    (hplaced : ∀ h ∈ segments, h.Placed base) (hpos : 0 < h.filesz) {mem : ℕ → UInt8}
    (hloaded : ∀ files : Files, bytesAfter files mem
      (before ++ (segments.flatMap (loadOneSegment f base)).map effect) (h.addr base) = files f h.offset) :
    h.vaddr % 4096 = h.offset % 4096 := by
  have hsize := (hplaced h hh).size
  have hstart := h.start_eq base
  have haddr : h.addr base % 4096 = h.vaddr % 4096 := by
    unfold ElfPhdr.addr addWord
    omega
  by_contra hne
  let files : Files := fun _ k => if k = h.offset then 1 else 0
  obtain ⟨hbytes, -⟩ := @after_segment f base segments before h hh hdisj hplaced files mem fun _ => none
  have hbyte := hbytes 0 (by omega)
  have hplace : pageAlignDown h.offset + (h.addr base + 0 - h.start base) ≠ h.offset := by
    rw [pageAlignDown_eq]
    omega
  rw [if_pos hpos, Nat.add_zero, hloaded files] at hbyte
  have hone : files f h.offset = 1 := if_pos rfl
  have hzero : files f (pageAlignDown h.offset + (h.addr base - h.start base)) = 0 := if_neg hplace
  rw [hone, hzero] at hbyte
  cases hbyte

theorem segments_loaded_iff (hsize : ∀ h ∈ segments, h.filesz ≤ h.memsz)
    (hdisj : segments.Pairwise (ElfPhdr.PagesApart base)) {prot : ℕ → Option Prot}
    (hhigh : ∀ a, 2 ^ 63 ≤ a → protAfter prot before a = none)
    (hcalls : ∀ c ∈ segments.flatMap (loadOneSegment f base), c.effect.Placed) :
    (∀ files mem, ∀ h ∈ segments, SegmentLoaded files mem prot
      (before ++ (segments.flatMap (loadOneSegment f base)).map effect) f base h) ↔
      ∀ h ∈ segments, SegmentSound base h := by
  have hplaced : (∀ h ∈ segments, h.addr base + h.memsz < 2 ^ 64) → ∀ h ∈ segments, h.Placed base := by
    intro hends h hh
    apply ElfPhdr.placed_of_effects (hsize h hh) (hends h hh)
    intro c hc
    exact hcalls c (mem_flatMap.mpr ⟨h, hh, hc⟩)
  constructor
  · intro hall
    have hends : ∀ h ∈ segments, h.addr base + h.memsz < 2 ^ 64 := by
      intro h hh
      by_contra hwrap
      have haddr : h.addr base < 2 ^ 64 := Nat.mod_lt _ (by decide)
      have hlast : addWord (h.addr base) (2 ^ 64 - 1 - h.addr base) = 2 ^ 64 - 1 := by
        rw [addWord_of_lt (by omega)]
        omega
      have hpage := (hall (fun _ _ => 0) (fun _ => 0) h hh).pages (2 ^ 64 - 1 - h.addr base) (by omega) (2 ^ 64 - 1)
        (by rw [hlast])
      rw [protAfter_append, protAfter_high (fun e he => ?_) (by decide) (hhigh _ (by decide))] at hpage
      · cases hpage
      · obtain ⟨c, hc, rfl⟩ := mem_map.mp he
        exact hcalls c hc
    intro h hh
    refine ⟨hends h hh, fun hpos => ?_⟩
    refine @sound_of_loaded f base segments before h hbase hh hdisj (hplaced hends) hpos (fun _ => 0) fun files => ?_
    have haddr : addWord (h.addr base) 0 = h.addr base := Nat.mod_eq_of_lt (Nat.mod_lt _ (by decide))
    have hbyte := (hall files (fun _ => 0) h hh).bytes 0 (hpos.trans_le (hsize h hh))
    rw [if_pos hpos, haddr, Nat.add_zero] at hbyte
    exact hbyte
  · intro hsound files mem h hh
    exact loaded_of_sound hbase hh hdisj (hplaced fun h hh => (hsound h hh).1) (hsound h hh) files mem prot

end Image

/-- The memory after a load is the image of the file, for all contents of files, exactly when every segment is sound.
The entry is moved with the image. -/
theorem doELFLoad_image_iff (env : ℕ → LoadEnv) (prot : ℕ → Option Prot) (s s' : LoadState) (f : FileRef)
    (hdr : ElfHeader) (phdrs : List ElfPhdr) (interp : Status (FileRef × ElfHeader × Status (List ElfPhdr)))
    (edata : ElfData) (hrun : s.doELFLoad env prot f hdr (.ok phdrs) interp = (.ret (.ok edata), s'))
    (hhigh : ∀ a, 2 ^ 63 ≤ a → protAfter prot s.effects a = none)
    (hdisj : (loads phdrs).Pairwise (ElfPhdr.PagesApart edata.mapBase)) :
    ((∀ files mem, ∀ h ∈ loads phdrs, SegmentLoaded files mem prot s'.effects f edata.mapBase h) ∧
      edata.entryAddr = addWord hdr.entry edata.mapBase) ↔ ∀ h ∈ loads phdrs, SegmentSound edata.mapBase h := by
  obtain ⟨before, heffects, hbefore, hcalls, hbase, hvalid, hentry⟩ := LoadState.doELFLoad_eq_ok hrun
  rw [and_iff_left hentry, heffects]
  apply segments_loaded_iff hbase (fun h hh => ?_) hdisj (fun a ha => ?_) hcalls
  · exact filesz_le_of_isValid (all_eq_true.mp hvalid h (mem_of_mem_filter hh))
  · rw [protAfter_append]
    exact protAfter_high hbefore ha (hhigh a ha)

theorem doELFLoad_image_textAndData :
    let s : LoadState := ⟨MemoryMap.init 0x100000 0x100000, [], 0, []⟩
    let r := s.doELFLoad .willing (fun _ => none) 2 ⟨kETypeDynamic, 0x1040, 64, 56, 2⟩ (.ok textAndData) (.error .ENOENT)
    r.1 = .ret (.ok ⟨0x1fb000, 0x4200, 0x1fc040, 0x1fb040, 2, 56, none⟩) ∧
      ∀ files mem, ∀ h ∈ loads textAndData, SegmentLoaded files mem (fun _ => none) r.2.effects 2 0x1fb000 h := by
  intro s r
  have hok : r.1 = .ret (.ok ⟨0x1fb000, 0x4200, 0x1fc040, 0x1fb040, 2, 56, none⟩) := by decide
  have hrun : r = (.ret (.ok ⟨0x1fb000, 0x4200, 0x1fc040, 0x1fb040, 2, 56, none⟩), r.2) := by rw [← hok]
  have hiff := doELFLoad_image_iff .willing (fun _ => none) s r.2 2 ⟨kETypeDynamic, 0x1040, 64, 56, 2⟩ textAndData
    (.error .ENOENT) _ hrun (fun _ _ => rfl) (by decide)
  have hsound : ∀ h ∈ loads textAndData, SegmentSound 0x1fb000 h := by
    unfold SegmentSound
    decide
  exact ⟨hok, (hiff.mpr hsound).1⟩

def sixteenAligned : ElfPhdr := ⟨kPTypeLoad, 4, 0x10, 0x400020, 8, 8, 16, by decide⟩

/-- The byte of the file at `0x20` is found where the one at `0x10` should be. -/
theorem doELFLoad_wrong_bytes :
    let s : LoadState := ⟨MemoryMap.init 0x100000 0x100000, [], 0, []⟩
    let r := s.doELFLoad .willing (fun _ => none) 2 ⟨kETypeExec, 0x400020, 64, 56, 1⟩ (.ok [sixteenAligned])
      (.error .ENOENT)
    readPHDRs (.ok [sixteenAligned]) = .ok [sixteenAligned] ∧
      r.1 = .ret (.ok ⟨0, 0x400028, 0x400020, 0x400050, 1, 56, none⟩) ∧
      ¬ ∀ h ∈ loads [sixteenAligned], SegmentLoaded (fun _ k => UInt8.ofNat k) (fun _ => 0) (fun _ => none) r.2.effects 2
        0 h := by
  intro s r
  refine ⟨by decide, by decide, fun hall => ?_⟩
  have hbyte := (hall sixteenAligned (by decide)).bytes 0 (by decide)
  have hwrong : bytesAfter (fun _ k => UInt8.ofNat k) (fun _ => 0) r.2.effects (addWord (sixteenAligned.addr 0) 0) =
      0x20 := by decide
  rw [hwrong] at hbyte
  exact absurd hbyte (by decide)

end Junction
