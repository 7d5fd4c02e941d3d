import Junction.ElfSnapshot

/-!
# ELF snapshots and their restore

A snapshot that succeeds and is loaded again gives the process its memory back. Regions are saved by whole pages, so
behind the data of a region there are zeros from the next page on, and what stood in the last page is kept.
-/

namespace Junction
open Records List ElfTable ElfPhdr Nat LoadState

namespace SnapshotInput
variable {x : SnapshotInput} {env : SnapshotEnv}

/-! ### The bytes of the file -/

theorem cells_foldl (mem : ℕ → UInt8) (rs : List Region) (t : ElfTable) : cells (rs.foldl (addRegion mem) t).iovs =
      cells t.iovs ++ rs.flatMap fun r => range' r.start (r.saved mem) := by
  induction rs generalizing t with
  | nil => rw [foldl_nil, flatMap_nil, append_nil]
  | cons r rs ih =>
    have hstep : cells (t.addRegion mem r).iovs = cells t.iovs ++ range' r.start (r.saved mem) :=
      t.cells_iovs_add _ _ _ _
    rw [foldl_cons, ih, hstep, flatMap_cons, append_assoc]

theorem headerSize_le {t : ElfTable} (hcount : t.phdrs.length ≤ 65535) : t.headerSize ≤ pageAlign t.headerSize := by
  have hsize : t.headerSize = 64 + t.phdrs.length * 56 := rfl
  rw [pageAlign_eq (by omega)]
  omega

theorem length_headers {t : ElfTable} (hcount : t.phdrs.length ≤ 65535) :
    t.headers.length = pageAlign t.headerSize := by
  have hle := headerSize_le hcount
  have htable : (t.phdrs.flatMap write).length = elfPhdrSize * t.phdrs.length :=
    Records.length_table fun h _ => h.length_write
  have hheader : (elfSnapshotHeader t.phdrs.length).write.length = elfHeaderSize := ElfHeaderRecord.length_write rfl
  rw [headers, length_append, length_append, length_replicate, htable, hheader,
    Nat.mul_comm elfPhdrSize, ← headerSize, padding, Nat.add_sub_cancel' hle]

theorem cells_iovecs {t : ElfTable} (hcount : t.phdrs.length ≤ 65535) :
    cells t.iovecs = range' ownAddress t.headers.length ++ cells t.iovs := by
  have hle := headerSize_le hcount
  have hpadding : cells (if 0 < t.padding then [⟨ownAddress + t.headerSize, t.padding⟩] else []) =
      range' (ownAddress + t.headerSize) t.padding := by
    split_ifs with hpos
    · simp [cells, IoVec.cells]
    · rw [Nat.eq_zero_of_not_pos hpos]
      rfl
  have hfirst : cells (⟨ownAddress, elfHeaderSize⟩ :: (range t.phdrs.length).map fun i =>
      ⟨ownAddress + elfHeaderSize + i * elfPhdrSize, elfPhdrSize⟩) = range' ownAddress t.headerSize := by
    rw [cells_cons, cells_consecutive, IoVec.cells, range'_append_1]
    rfl
  rw [iovecs, cells_append, cells_append, hfirst, hpadding, range'_append_1, length_headers hcount,
    padding, Nat.add_sub_cancel' hle]

theorem snapshotElf_file (hx : x.Valid) (hcount : x.regions.length ≤ 65535)
    (hlegal : Legal false (x.snapshotElf env).writes) (hdone : (x.snapshotElf env).outcome = .done) :
    ∃ t, ElfTable.Laid x.mem t.headers.length x.regions t ∧ t.headers.length + (cells t.iovs).length < 2 ^ 63 ∧
      (x.snapshotElf env).file = t.headers ++ (cells t.iovs).map x.mem := by
  obtain ⟨t, s, htable, hwrites, hall, hfile⟩ := snapshotElf_eq_done hdone
  have hsum := Region.sum_saved_le x.mem hx.sound hx.apart
  have huser : kUserEnd = 2 ^ 47 := rfl
  have hstart : x.dataStart ≤ 2 ^ 22 := by
    have hsize : x.dataStart = pageAlign (x.regions.length * 56 + 64) := rfl
    rw [hsize, pageAlign_eq (by omega)]
    omega
  have hnil : ElfTable.Laid x.mem x.dataStart [] ⟨x.dataStart, [], []⟩ :=
    ⟨(add_zero _).symm, pageAlign_dvd _, List.Forall₂.nil⟩
  have hfits : x.dataStart + (x.regions.map (Region.saved x.mem)).sum < 2 ^ 64 := by omega
  obtain ⟨hlaid, hend⟩ := hnil.addAll hfits
  rw [← getElfPHDRs_eq_ok htable, nil_append] at hlaid
  rw [← getElfPHDRs_eq_ok htable] at hend
  dsimp only at hend
  have hphdrs : t.phdrs.length = x.regions.length := hlaid.recorded.length_eq.symm
  have hheaders : t.headers.length = x.dataStart := by
    rw [length_headers (by omega), headerSize, hphdrs, dataStart, add_comm]
  have hbound : t.headers.length + (cells t.iovs).length < 2 ^ 63 := by
    have hoffset := hlaid.offset_eq
    omega
  have hcells := @cells_iovecs t (by omega)
  have haccepted : (x.snapshotElf env).writes.accepted = cells t.iovecs := by
    rw [hwrites] at hlegal hall ⊢
    refine FullCall.accepted_writevFull ?_ hlegal hall
    rw [hcells, length_append, length_range']
    omega
  refine ⟨t, hheaders ▸ hlaid, hbound, ?_⟩
  rw [hfile, haccepted, hcells, map_append, map_contents_own, map_contents_mem]
  intro a ha
  rw [getElfPHDRs_eq_ok htable, cells_foldl] at ha
  obtain ⟨r, hr, ha⟩ := mem_flatMap.mp ha
  obtain ⟨hlo, hhi⟩ := mem_range'_1.mp ha
  have hsound := hx.sound r hr
  have hstop := hsound.stop_lt
  have hsaved := @Region.Sound.saved_le x.mem r hsound
  unfold ownAddress
  omega

/-! ### Reading the file -/

theorem checkELFLoad_headers (t : ElfTable) (data : List UInt8) :
    checkELFLoad (t.headers ++ data) false = .ok (elfSnapshotHeader t.phdrs.length) := by
  have hheader : (elfSnapshotHeader t.phdrs.length).write.length = elfHeaderSize := ElfHeaderRecord.length_write rfl
  have hfits : (elfSnapshotHeader t.phdrs.length).Fits := by
    have hlt : t.phdrs.length % 2 ^ 16 < 256 ^ 2 := mod_lt _ (by decide)
    refine ⟨rfl, ?_⟩
    simp only [ElfHeaderRecord.fields, elfSnapshotHeader, forall_mem_cons]
    refine ⟨by decide, by decide, by decide, by decide, by decide, by decide, by decide, by decide, by decide, hlt,
      by decide, by decide, by decide, by simp⟩
  have hread : readFull (t.headers ++ data) 0 elfHeaderSize = .ok (elfSnapshotHeader t.phdrs.length).write := by
    have hsplit : t.headers ++ data = [] ++ (elfSnapshotHeader t.phdrs.length).write ++
        (t.phdrs.flatMap write ++ replicate t.padding 0 ++ data) := by
      simp [headers]
    exact readFull_of_eq hsplit rfl hheader.symm
  have hback : ElfHeaderRecord.read (elfSnapshotHeader t.phdrs.length).write = elfSnapshotHeader t.phdrs.length := by
    simpa using ElfHeaderRecord.read_write hfits []
  have hvalid : (elfSnapshotHeader t.phdrs.length).isValid := rfl
  simp only [checkELFLoad, readHeader, hread, hback, hvalid, if_true]
  rfl

theorem readPHDRTable_headers {t : ElfTable} (hcount : t.phdrs.length ≤ 65535)
    (htypes : ∀ h ∈ t.phdrs, h.type = kPTypeLoad) (data : List UInt8) :
    readPHDRTable (t.headers ++ data) (elfSnapshotHeader t.phdrs.length) = .ok t.phdrs := by
  have hheader : (elfSnapshotHeader t.phdrs.length).write.length = elfHeaderSize := ElfHeaderRecord.length_write rfl
  have htable : (t.phdrs.flatMap write).length = elfPhdrSize * t.phdrs.length :=
    Records.length_table fun h _ => h.length_write
  have hphnum : (elfSnapshotHeader t.phdrs.length).phnum = t.phdrs.length := mod_eq_of_lt (by omega)
  have hphoff : (elfSnapshotHeader t.phdrs.length).phoff = elfHeaderSize := rfl
  have hread : readFull (t.headers ++ data) elfHeaderSize (elfPhdrSize * t.phdrs.length) =
      .ok (t.phdrs.flatMap write) := by
    have hsplit : t.headers ++ data = (elfSnapshotHeader t.phdrs.length).write ++ t.phdrs.flatMap write ++
        (replicate t.padding 0 ++ data) := by
      simp [headers]
    exact readFull_of_eq hsplit hheader.symm htable.symm
  have hdecode : decodeTable elfPhdrSize read t.phdrs.length (t.phdrs.flatMap write) = t.phdrs := by
    have hall := @decodeTable_append _ elfPhdrSize read write t.phdrs [] (fun h _ => h.length_write)
      (fun h hh rest => read_write (by rw [htypes h hh]; decide) rest) 0
    simpa [decodeTable] using hall
  simp [readPHDRTable, hphnum, hphoff, hread, hdecode]

/-! ### The memory after a restore -/

/-- The data of a region is in the file at the offset of its header. -/
def InFile (file : List UInt8) (mem : ℕ → UInt8) (r : Region) (h : ElfPhdr) : Prop :=
  h.vaddr = r.start ∧ h.memsz = r.size ∧ ∀ i < h.filesz, file[h.offset + i]? = some (mem (r.start + i))

variable {base : ℕ} {data : List ℕ} {r : Region} {h : ElfPhdr}

theorem fields_of_recorded (hr : r.Sound) (hrec : ElfTable.Recorded x.mem base data r h) :
    h.vaddr = r.start ∧ h.memsz = r.size ∧ h.filesz = r.saved x.mem ∧ h.addr 0 = r.start := by
  have hstop := hr.stop_lt
  have hsaved := @Region.Sound.saved_le x.mem r hr
  obtain ⟨haddr, -⟩ := @ElfTable.places_header x.mem r h.offset hr
  rw [hrec.eq]
  exact ⟨mod_eq_of_lt (by omega), mod_eq_of_lt (by omega), mod_eq_of_lt (by omega), haddr⟩

theorem inFile_of_recorded {t : ElfTable} (hr : r.Sound)
    (hrec : ElfTable.Recorded x.mem t.headers.length data r h) : InFile (t.headers ++ data.map x.mem) x.mem r h := by
  obtain ⟨hvaddr, hmemsz, hfilesz, -⟩ := fields_of_recorded hr hrec
  refine ⟨hvaddr, hmemsz, fun i hi => ?_⟩
  have hle : t.headers.length ≤ h.offset + i := hrec.le.trans (le_add_right _ _)
  have hplace : h.offset + i - t.headers.length = h.offset - t.headers.length + i := by
    have hbase := hrec.le
    omega
  rw [getElem?_append_right hle, hplace, getElem?_map, hrec.bytes i (hfilesz ▸ hi), Option.map_some]

def Headed (x : SnapshotInput) (t : ElfTable) : Prop :=
  List.Forall₂ (fun r h => r.Sound ∧ ElfTable.Recorded x.mem t.headers.length (cells t.iovs) r h) x.regions t.phdrs

section Restore
variable {lenv : ℕ → LoadEnv} {prot : ℕ → Option Prot} {f : FileRef} {files : Files} {t : ElfTable}

theorem Headed.type_eq (ht : x.Headed t) : ∀ h ∈ t.phdrs, h.type = kPTypeLoad := by
  intro h hh
  obtain ⟨r, -, -, hrec⟩ := exists_left_of_forall₂ ht hh
  rw [hrec.eq]
  rfl

theorem Headed.load (ht : x.Headed t) (hne : x.regions ≠ []) (hbound : t.headers.length + (cells t.iovs).length < 2 ^ 63)
    (henv : ∀ n, (lenv n).Grants) (s : LoadState) (interp : Status (FileRef × ElfHeader × Status (List ElfPhdr))) :
    ∃ edata s', s.doELFLoad lenv prot f (elfSnapshotHeader t.phdrs.length).toHeader (.ok t.phdrs) interp =
      (.ret (.ok edata), s') ∧ edata.mapBase = 0 := by
  have hphdrs : t.phdrs ≠ [] := by
    intro hnil
    apply hne
    apply eq_nil_of_length_eq_zero
    rw [ht.length_eq, hnil]
    rfl
  apply doELFLoad_mappable s interp henv hphdrs rfl ht.type_eq
  · intro h hh
    obtain ⟨r, -, hr, hrec⟩ := exists_left_of_forall₂ ht hh
    rw [hrec.eq]
    exact isValid_header hr h.words.1 hrec.dvd
  intro h hh
  obtain ⟨r, -, hr, hrec⟩ := exists_left_of_forall₂ ht hh
  have hstop := hrec.stop
  rw [hrec.eq]
  exact mappable_header hr hrec.dvd (by omega)

theorem Headed.loaded (ht : x.Headed t) (hapart : x.regions.Pairwise Region.Apart) (hh : h ∈ t.phdrs)
    (before : List HostEffect) (mem : ℕ → UInt8) :
    SegmentLoaded files mem prot (before ++ (t.phdrs.flatMap (loadOneSegment f 0)).map LoadCall.effect) f 0 h := by
  refine loaded_of_sound (dvd_zero _) hh ?_ (fun h hh => ?_) ?_ files mem prot
  · refine pairwise_of_forall₂ ht (fun {r r' h h'} hr hr' hregions => ?_) hapart
    rw [hr.2.eq, hr'.2.eq]
    exact pagesApart_header hr.1 hr'.1 hregions
  · obtain ⟨r, -, hr, hrec⟩ := exists_left_of_forall₂ ht hh
    rw [hrec.eq]
    exact placed_header hr
  obtain ⟨r, -, hr, hrec⟩ := exists_left_of_forall₂ ht hh
  obtain ⟨hvaddr, hmemsz, -, haddr⟩ := fields_of_recorded hr hrec
  have hstop := hr.stop_lt
  have hstart := hr.start_dvd
  have hoffset := hrec.dvd
  exact ⟨by omega, fun _ => by omega⟩

theorem putBack_of_loaded {effects : List HostEffect}
    {mem : ℕ → UInt8} (hr : r.Sound) (hrec : ElfTable.Recorded x.mem base data r h)
    (hloaded : SegmentLoaded files mem prot effects f 0 h)
    (hfile : ∀ i < h.filesz, files f (h.offset + i) = x.mem (r.start + i)) :
    r.PutBack x.mem (bytesAfter files mem effects) (protAfter prot effects) := by
  obtain ⟨-, hmemsz, hfilesz, haddr⟩ := fields_of_recorded hr hrec
  have hstop := hr.stop_lt
  refine ⟨fun i hi => ?_, fun i hi => ?_⟩
  · have hbyte := hloaded.bytes i (by omega)
    rw [haddr, addWord_of_lt (by omega)] at hbyte
    rw [hbyte, ← hfilesz]
    split_ifs with hin
    · exact hfile i hin
    · rfl
  · have hpage := hloaded.pages i (by omega) (r.start + i) (by rw [haddr, addWord_of_lt (by omega)])
    rw [hpage, hrec.eq]
    exact congrArg some (segmentProt_elfFlags r.prot)

theorem snapshotElf_putBack (hx : x.Valid) (hne : x.regions ≠ []) (hcount : x.regions.length ≤ 65535)
    (hlegal : Legal false (x.snapshotElf env).writes) (hdone : (x.snapshotElf env).outcome = .done)
    (henv : ∀ n, (lenv n).Grants) (hfile : ∀ k b, (x.snapshotElf env).file[k]? = some b → files f k = b)
    (s : LoadState) (mem : ℕ → UInt8) (interp : Status (FileRef × ElfHeader × Status (List ElfPhdr))) :
    ∃ edata s' hdr phdrs, s.loadELF lenv prot f (x.snapshotElf env).file interp = (.ret (.ok edata), s') ∧
      checkELFLoad (x.snapshotElf env).file false = .ok hdr ∧
      readPHDRTable (x.snapshotElf env).file hdr = .ok phdrs ∧
      List.Forall₂ (InFile (x.snapshotElf env).file x.mem) x.regions phdrs ∧
      ∀ r ∈ x.regions, r.PutBack x.mem (bytesAfter files mem s'.effects) (protAfter prot s'.effects) := by
  obtain ⟨t, hlaid, hbound, hbytes⟩ := snapshotElf_file hx hcount hlegal hdone
  have ht : x.Headed t := (forall₂_and_left _ _).mpr ⟨hx.sound, hlaid.recorded⟩
  have hlen : t.phdrs.length = x.regions.length := hlaid.recorded.length_eq.symm
  have hcheck := checkELFLoad_headers t ((cells t.iovs).map x.mem)
  have htable := @readPHDRTable_headers t (by omega) ht.type_eq ((cells t.iovs).map x.mem)
  obtain ⟨edata, s', hload, hbase⟩ := @Headed.load x lenv prot f t ht hne hbound henv s interp
  have hinFile : List.Forall₂ (InFile (x.snapshotElf env).file x.mem) x.regions t.phdrs := by
    rw [hbytes]
    exact ht.imp fun r h hrec => inFile_of_recorded hrec.1 hrec.2
  have hloadELF : s.loadELF lenv prot f (x.snapshotElf env).file interp = (.ret (.ok edata), s') := by
    rw [loadELF, hbytes, hcheck]
    dsimp only
    rw [htable]
    exact hload
  refine ⟨edata, s', elfSnapshotHeader t.phdrs.length, t.phdrs, hloadELF, by rw [hbytes, hcheck],
    by rw [hbytes, htable], hinFile, fun r hr => ?_⟩
  obtain ⟨h, hh, hsound, hrec⟩ := exists_right_of_forall₂ ht hr
  obtain ⟨before, heffects, -⟩ := doELFLoad_eq_ok hload
  have hloads : loads t.phdrs = t.phdrs := by
    refine filter_eq_self.mpr fun h hh => ?_
    rw [ht.type_eq h hh]
    rfl
  rw [hbase, hloads] at heffects
  rw [heffects]
  apply putBack_of_loaded hsound hrec (ht.loaded hx.apart hh _ mem)
  intro i hi
  apply hfile
  rw [hbytes]
  exact (inFile_of_recorded hsound hrec).2.2 i hi

end Restore

end SnapshotInput

/-- A snapshot that succeeds can be loaded again, and every header names the place of its data in the file. -/
theorem snapshotElf_restores (x : SnapshotInput) (env : SnapshotEnv) (lenv : ℕ → LoadEnv) (prot : ℕ → Option Prot)
    (s : LoadState) (f : FileRef) (files : Files) (mem : ℕ → UInt8)
    (interp : Status (FileRef × ElfHeader × Status (List ElfPhdr))) (hx : x.Valid) (hne : x.regions ≠ [])
    (hcount : x.regions.length ≤ 65535) (hlegal : Legal false (x.snapshotElf env).writes)
    (hdone : (x.snapshotElf env).outcome = .done) (henv : ∀ n, (lenv n).Grants)
    (hfile : ∀ k b, (x.snapshotElf env).file[k]? = some b → files f k = b) :
    ∃ edata s', s.loadELF lenv prot f (x.snapshotElf env).file interp = (.ret (.ok edata), s') ∧
      (∀ v ∈ x.vmas, (v.region x.sizes).Restored x.mem (bytesAfter files mem s'.effects) (protAfter prot s'.effects)
        (v.dataLength x.sizes)) ∧
      (∀ a ∈ x.areas, a.region.Restored x.mem (bytesAfter files mem s'.effects) (protAfter prot s'.effects)
        (pageAlign a.inUseSize)) ∧
      ∃ hdr phdrs, checkELFLoad (x.snapshotElf env).file false = .ok hdr ∧
        readPHDRTable (x.snapshotElf env).file hdr = .ok phdrs ∧
        List.Forall₂ (SnapshotInput.InFile (x.snapshotElf env).file x.mem) x.regions phdrs := by
  obtain ⟨edata, s', hdr, phdrs, hload, hcheck, htable, hinFile, hput⟩ :=
    @SnapshotInput.snapshotElf_putBack x env lenv prot f files hx hne hcount hlegal hdone henv hfile s mem interp
  refine ⟨edata, s', hload, fun v hv => ?_, fun a ha => ?_, hdr, phdrs, hcheck, htable, hinFile⟩
  · have hmem : v.region x.sizes ∈ x.regions := mem_append_left _ (mem_map_of_mem hv)
    have hrestored := (hput _ hmem).restored (hx.sound _ hmem)
    have hdata : pageAlign (v.region x.sizes).data = v.dataLength x.sizes := hx.pageAlign_dataLength hv
    rwa [hdata] at hrestored
  · have hmem : a.region ∈ x.regions := mem_append_right _ (mem_map_of_mem ha)
    exact (hput _ hmem).restored (hx.sound _ hmem)

/-- Eight bytes of a buffer of one page are in use, and an area of one page cannot be read. -/
def pageAndBuffer : SnapshotInput where
  vmas := [.anonymous 0x20000 0x1000 PROT_WRITE .kNormal]
  areas := [.oneWord]
  sizes _ := 0
  mem _ := 1

def SnapshotEnv.willing (size : ℕ) : SnapshotEnv := ⟨fun _ => .ok (), .ok (), [.ok size]⟩

theorem LoadEnv.grants_willing (n : ℕ) : (LoadEnv.willing n).Grants := ⟨rfl, HostMMap.grants_willing⟩

theorem valid_pageAndBuffer : pageAndBuffer.Valid where
  vmas := by
    intro v hv
    obtain rfl := mem_singleton.mp hv
    decide
  areas := by
    intro a ha
    obtain rfl := mem_singleton.mp ha
    decide
  apart := by decide

theorem legal_pageAndBuffer : Legal false (pageAndBuffer.snapshotElf (.willing 0x3000)).writes := by
  have hcalls : ∀ c ∈ (pageAndBuffer.snapshotElf (.willing 0x3000)).writes.calls, c.2 = .ok 0x3000 ∧
      (c.1.map IoVec.len).sum = 0x3000 := by decide
  rintro ⟨iov, reply⟩ hc
  obtain ⟨hreply, hsum⟩ := hcalls _ hc
  subst hreply
  refine ⟨?_, fun _ _ => by decide⟩
  rw [length_cells, hsum]

theorem snapshotElf_restores_pageAndBuffer :
    let r := pageAndBuffer.snapshotElf (.willing 0x3000)
    r.outcome = .done ∧ ∃ edata s', loadELF .willing (fun _ => none) ⟨MemoryMap.init 0 0, [], 0, []⟩ 7 r.file
      (.error .ENOENT) = (.ret (.ok edata), s') ∧
      protAfter (fun _ => none) s'.effects 0x20000 = some PROT_WRITE ∧
      bytesAfter (fun _ k => r.file.getD k 0) (fun _ => 0) s'.effects 0x10007 = 1 := by
  intro r
  have hdone : r.outcome = .done := by decide
  obtain ⟨edata, s', hload, hvmas, hareas, -⟩ := snapshotElf_restores pageAndBuffer (.willing 0x3000) .willing
    (fun _ => none) ⟨MemoryMap.init 0 0, [], 0, []⟩ 7 (fun _ k => r.file.getD k 0) (fun _ => 0) (.error .ENOENT)
    valid_pageAndBuffer (by decide) (by decide) legal_pageAndBuffer hdone LoadEnv.grants_willing
    (fun k b hk => by rw [getD_eq_getElem?_getD, hk, Option.getD_some])
  refine ⟨hdone, edata, s', hload, ?_, ?_⟩
  · exact (hvmas _ mem_cons_self).prot 0 (by decide)
  · exact (hareas _ mem_cons_self).data 7 (by decide)

/-- What stands behind the data of a buffer in its last page is saved and restored with it. -/
theorem snapshotElf_keeps_tail :
    let r := pageAndBuffer.snapshotElf (.willing 0x3000)
    r.outcome = .done ∧ ∃ edata s', loadELF .willing (fun _ => none) ⟨MemoryMap.init 0 0, [], 0, []⟩ 7 r.file
      (.error .ENOENT) = (.ret (.ok edata), s') ∧
      ∃ a ∈ pageAndBuffer.areas, ¬ a.region.Restored pageAndBuffer.mem
        (bytesAfter (fun _ k => r.file.getD k 0) (fun _ => 0) s'.effects) (protAfter (fun _ => none) s'.effects)
        a.inUseSize := by
  intro r
  have hdone : r.outcome = .done := by decide
  obtain ⟨edata, s', -, -, hload, -, -, -, hput⟩ := @SnapshotInput.snapshotElf_putBack pageAndBuffer (.willing 0x3000)
    .willing (fun _ => none) 7 (fun _ k => r.file.getD k 0) valid_pageAndBuffer (by decide) (by decide)
    legal_pageAndBuffer hdone LoadEnv.grants_willing
    (fun k b hk => by rw [getD_eq_getElem?_getD, hk, Option.getD_some]) ⟨MemoryMap.init 0 0, [], 0, []⟩ (fun _ => 0)
    (.error .ENOENT)
  refine ⟨hdone, edata, s', hload, _, mem_cons_self, fun hrestored => ?_⟩
  have hzero := hrestored.zeros 8 (by decide) (by decide)
  have hbyte := (hput _ (mem_append_right _ mem_cons_self)).bytes 8 (by decide)
  rw [hzero, if_pos (by decide)] at hbyte
  exact absurd hbyte (by decide)

end Junction
