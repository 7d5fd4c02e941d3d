import Junction.ElfImage
import Junction.Snapshot

/-!
# ELF files and snapshots

The file header and the table of program headers are packed records. The loader reads the file header at the beginning
of the file and the table where the header says. What is written as a header is read back as the same header.
-/

namespace Junction
open Records

def kMagicLen : ℕ := 16

def kMagicClass64 : UInt8 := 2
def kMagicData2LSB : UInt8 := 1
def kMagicVersion : UInt8 := 1
def kMachineAMD64 : ℕ := 62

/-- The sizes of `elf_header` and `elf_phdr`. -/
def elfHeaderSize : ℕ := 64
def elfPhdrSize : ℕ := 56

/-- `elf_header`. -/
structure ElfHeaderRecord where
  magic : List UInt8
  type : ℕ
  machine : ℕ
  version : ℕ
  entry : ℕ
  phoff : ℕ
  shoff : ℕ
  flags : ℕ
  ehsize : ℕ
  phsize : ℕ
  phnum : ℕ
  shsize : ℕ
  shnum : ℕ
  shstrndx : ℕ
  deriving DecidableEq

namespace ElfHeaderRecord

variable (h : ElfHeaderRecord)

def fields : List (ℕ × ℕ) :=
  [(2, h.type), (2, h.machine), (4, h.version), (8, h.entry), (8, h.phoff), (8, h.shoff), (4, h.flags), (2, h.ehsize),
    (2, h.phsize), (2, h.phnum), (2, h.shsize), (2, h.shnum), (2, h.shstrndx)]

def widths : List ℕ := [2, 2, 4, 8, 8, 8, 4, 2, 2, 2, 2, 2, 2]

def write : List UInt8 := h.magic ++ encode h.fields

def read (bytes : List UInt8) : ElfHeaderRecord :=
  let w := decode widths (bytes.drop kMagicLen)
  ⟨bytes.take kMagicLen, w.getD 0 0, w.getD 1 0, w.getD 2 0, w.getD 3 0, w.getD 4 0, w.getD 5 0, w.getD 6 0, w.getD 7 0,
    w.getD 8 0, w.getD 9 0, w.getD 10 0, w.getD 11 0, w.getD 12 0⟩

def Fits : Prop := h.magic.length = kMagicLen ∧ ∀ f ∈ h.fields, f.2 < 256 ^ f.1

theorem length_write {h : ElfHeaderRecord} (hmagic : h.magic.length = kMagicLen) : h.write.length = elfHeaderSize := by
  rw [write, List.length_append, hmagic, length_encode]
  rfl

theorem read_write {h : ElfHeaderRecord} (hfits : h.Fits) (rest : List UInt8) : read (h.write ++ rest) = h := by
  obtain ⟨hmagic, hfields⟩ := hfits
  have hdecode : decode widths (encode h.fields ++ rest) = h.fields.map Prod.snd := decode_encode_of_fits hfields rest
  rw [read, write, List.append_assoc, List.drop_left' hmagic, List.take_left' hmagic, hdecode]
  rfl

def toHeader : ElfHeader := { h with }

/-- `HeaderIsValid`. -/
def isValid (h : ElfHeaderRecord) : Bool :=
  if h.magic.getD 0 0 ≠ 0x7f ∨ h.magic.getD 1 0 ≠ 0x45 ∨ h.magic.getD 2 0 ≠ 0x4c ∨ h.magic.getD 3 0 ≠ 0x46 then false
  else if h.magic.getD 4 0 ≠ kMagicClass64 then false
  else if h.magic.getD 5 0 ≠ kMagicData2LSB then false
  else if h.magic.getD 6 0 ≠ kMagicVersion then false
  else if h.version ≠ kMagicVersion.toNat then false
  else if h.machine ≠ kMachineAMD64 then false
  else if h.phsize ≠ elfPhdrSize then false
  else if h.ehsize ≠ elfHeaderSize then false
  else true

end ElfHeaderRecord

namespace ElfPhdr

def ofWords (type : ℕ) (flags : BitVec 32) (offset vaddr filesz memsz align : ℕ) : ElfPhdr :=
  ⟨type, flags, offset % 2 ^ 64, vaddr % 2 ^ 64, filesz % 2 ^ 64, memsz % 2 ^ 64, align % 2 ^ 64,
    by refine ⟨?_, ?_, ?_, ?_, ?_⟩ <;> exact Nat.mod_lt _ (by decide)⟩

/-- The fifth field is `paddr`, which is not used. -/
def fields (h : ElfPhdr) : List (ℕ × ℕ) :=
  [(4, h.type), (4, h.flags.toNat), (8, h.offset), (8, h.vaddr), (8, 0), (8, h.filesz), (8, h.memsz), (8, h.align)]

def widths : List ℕ := [4, 4, 8, 8, 8, 8, 8, 8]

def write (h : ElfPhdr) : List UInt8 := encode h.fields

def read (bytes : List UInt8) : ElfPhdr :=
  let w := decode widths bytes
  ofWords (w.getD 0 0) (BitVec.ofNat 32 (w.getD 1 0)) (w.getD 2 0) (w.getD 3 0) (w.getD 5 0) (w.getD 6 0) (w.getD 7 0)

theorem length_write (h : ElfPhdr) : h.write.length = elfPhdrSize := length_encode h.fields

theorem ofWords_eq (h : ElfPhdr) : ofWords h.type h.flags h.offset h.vaddr h.filesz h.memsz h.align = h := by
  obtain ⟨type, flags, offset, vaddr, filesz, memsz, align, hoffset, hvaddr, hfilesz, hmemsz, halign⟩ := h
  simp only [ofWords, Nat.mod_eq_of_lt hoffset, Nat.mod_eq_of_lt hvaddr, Nat.mod_eq_of_lt hfilesz,
    Nat.mod_eq_of_lt hmemsz, Nat.mod_eq_of_lt halign]

theorem read_write {h : ElfPhdr} (htype : h.type < 2 ^ 32) (rest : List UInt8) : read (h.write ++ rest) = h := by
  have hfields : ∀ f ∈ h.fields, f.2 < 256 ^ f.1 := by
    obtain ⟨hoffset, hvaddr, hfilesz, hmemsz, halign⟩ := h.words
    have hflags : h.flags.toNat < 2 ^ 32 := h.flags.isLt
    simp only [fields, List.forall_mem_cons]
    norm_num at *
    exact ⟨htype, hflags, hoffset, hvaddr, hfilesz, hmemsz, halign⟩
  have hdecode : decode widths (encode h.fields ++ rest) = h.fields.map Prod.snd := decode_encode_of_fits hfields rest
  have hread : read (h.write ++ rest) = ofWords h.type (BitVec.ofNat 32 h.flags.toNat) h.offset h.vaddr h.filesz h.memsz
      h.align := by
    rw [read, write, hdecode]
    rfl
  rw [hread, BitVec.ofNat_toNat, BitVec.setWidth_eq, ofWords_eq]

end ElfPhdr

/-! ### Reading a file -/

def readHeader (file : List UInt8) : Status ElfHeaderRecord :=
  match readFull file 0 elfHeaderSize with
  | .error e => .error e
  | .ok bytes => if (ElfHeaderRecord.read bytes).isValid then .ok (ElfHeaderRecord.read bytes) else .error .EINVAL

def checkELFLoad (file : List UInt8) (mustBeReloc : Bool) : Status ElfHeaderRecord :=
  match readHeader file with
  | .error e => .error e
  | .ok hdr =>
    let reloc := hdr.type == kETypeDynamic
    if hdr.type ≠ kETypeExec ∧ reloc = false then .error .EINVAL
    else if reloc = false ∧ mustBeReloc = true then .error .EINVAL
    else .ok hdr

/-- The table that `ReadPHDRs` reads and checks. -/
def readPHDRTable (file : List UInt8) (hdr : ElfHeaderRecord) : Status (List ElfPhdr) :=
  match readFull file hdr.phoff (elfPhdrSize * hdr.phnum) with
  | .error e => .error e
  | .ok bytes => .ok (decodeTable elfPhdrSize ElfPhdr.read hdr.phnum bytes)

/-- `LoadELF`, on a file with the given bytes. -/
def LoadState.loadELF (env : ℕ → LoadEnv) (prot : ℕ → Option Prot) (s : LoadState) (f : FileRef) (file : List UInt8)
    (interp : Status (FileRef × ElfHeader × Status (List ElfPhdr))) : Outcome ElfData × LoadState :=
  match checkELFLoad file false with
  | .error e => (.ret (.error e), s)
  | .ok hdr => s.doELFLoad env prot f hdr.toHeader (readPHDRTable file hdr) interp

end Junction

/-! ### `SnapshotElf` writes one loadable segment for each region, and everything as one vector -/

namespace Junction

/-- The program headers and the vectors of the data so far, and the offset of the next data. -/
structure ElfTable where
  offset : ℕ
  phdrs : List ElfPhdr
  iovs : List IoVec

def elfFlags (p : Prot) : BitVec 32 :=
  (if hasFlag p PROT_EXEC then kFlagExec else 0) ||| (if hasFlag p PROT_WRITE then kFlagWrite else 0) |||
    (if hasFlag p PROT_READ then kFlagRead else 0)

namespace ElfTable

def add (t : ElfTable) (flags : BitVec 32) (start filesz memsz : ℕ) : ElfTable where
  offset := addWord t.offset filesz
  phdrs := t.phdrs ++ [.ofWords kPTypeLoad flags t.offset start filesz memsz kPageSize]
  iovs := if filesz = 0 then t.iovs else t.iovs ++ [⟨start, filesz⟩]

def addVma (mem : ℕ → UInt8) (sizes : FileRef → ℕ) (t : ElfTable) (v : VMArea) : ElfTable :=
  t.add (elfFlags v.prot) v.start (pageAlign (getMinSize mem v.start (v.dataLength sizes))) v.length

def addArea (mem : ℕ → UInt8) (t : ElfTable) (a : FSMemoryArea) : ElfTable :=
  t.add (kFlagRead ||| kFlagWrite) a.ptr (pageAlign (getMinSize mem a.ptr a.inUseSize)) a.maxSize

end ElfTable

namespace SnapshotInput
variable (x : SnapshotInput) (env : SnapshotEnv)

/-- The loop of `GetElfPHDRs` over the areas of the process. -/
def addVmas : ElfTable → ProtectState → List VMArea → Status ElfTable × ProtectState
  | t, s, [] => (.ok t, s)
  | t, s, v :: vmas =>
    match s.makeReadable env.protect (v.region x.sizes) with
    | (.error e, s) => (.error e, s)
    | (.ok _, s) => addVmas (t.addVma x.mem x.sizes v) s vmas

def getElfPHDRs : Status ElfTable × ProtectState :=
  let total := x.vmas.length + x.areas.length
  match x.addVmas env ⟨pageAlign (total * elfPhdrSize + elfHeaderSize), [], []⟩ ⟨0, []⟩ x.vmas with
  | (.error e, s) => (.error e, s)
  | (.ok t, s) => (.ok (x.areas.foldl (ElfTable.addArea x.mem) t), s)

end SnapshotInput

/-- The file header of a snapshot with `n` segments. -/
def elfSnapshotHeader (n : ℕ) : ElfHeaderRecord where
  magic := [0x7f, 0x45, 0x4c, 0x46, kMagicClass64, kMagicData2LSB, kMagicVersion] ++ List.replicate 9 0
  type := kETypeExec
  machine := kMachineAMD64
  version := kMagicVersion.toNat
  entry := 0
  phoff := elfHeaderSize
  shoff := 0
  flags := 0
  ehsize := elfHeaderSize
  phsize := elfPhdrSize
  phnum := n % 2 ^ 16
  shsize := 0
  shnum := 0
  shstrndx := 0

namespace ElfTable

variable (t : ElfTable)

def headerSize : ℕ := elfHeaderSize + t.phdrs.length * elfPhdrSize

def padding : ℕ := pageAlign t.headerSize - t.headerSize

def headers : List UInt8 :=
  (elfSnapshotHeader t.phdrs.length).write ++ t.phdrs.flatMap ElfPhdr.write ++ List.replicate t.padding 0

def iovecs : List IoVec :=
  ⟨ownAddress, elfHeaderSize⟩ ::
    (List.range t.phdrs.length).map (fun i => ⟨ownAddress + elfHeaderSize + i * elfPhdrSize, elfPhdrSize⟩) ++
    (if 0 < t.padding then [⟨ownAddress + t.headerSize, t.padding⟩] else []) ++ t.iovs

end ElfTable

/-- How a snapshot ended, the calls that wrote the file, its bytes, and what became of the protections. -/
structure SnapshotResult where
  outcome : Progress
  writes : IoRun
  file : List UInt8
  effects : List HostEffect

def SnapshotInput.snapshotElf (x : SnapshotInput) (env : SnapshotEnv) : SnapshotResult :=
  match x.getElfPHDRs env with
  | (.error e, s) => ⟨.failed e, ⟨[], .waiting⟩, [], s.effects⟩
  | (.ok t, s) =>
    match env.opened with
    | .error e => ⟨.failed e, ⟨[], .waiting⟩, [], s.effects⟩
    | .ok _ =>
      let writes := (FullCall.writevFull t.iovecs).run env.replies
      let file := writes.accepted.map (contents x.mem t.headers)
      match writes.outcome with
      | .failed e => ⟨.failed e, writes, file, s.effects⟩
      | .waiting => ⟨.waiting, writes, file, s.effects⟩
      | .done =>
        match s.restoreVMAProtections env.protect (x.vmas.map (VMArea.region x.sizes)) with
        | (.error e, s) => ⟨.failed e, writes, file, s.effects⟩
        | (.ok _, s) => ⟨.done, writes, file, s.effects⟩

/-! ### Where the data ends up -/

open Records List

theorem cells_consecutive (base len n : ℕ) :
    cells ((range n).map fun i => ⟨base + i * len, len⟩) = range' base (n * len) := by
  induction n with
  | zero => rw [Nat.zero_mul]; rfl
  | succ n ih =>
    rw [range_succ, map_append, cells_append, ih, Nat.succ_mul, ← range'_append_1]
    simp [cells, IoVec.cells]

/-! ### Offsets -/

namespace ElfTable
variable {mem : ℕ → UInt8} {base : ℕ} {t : ElfTable} {r : Region} {rs : List Region}

def addRegion (mem : ℕ → UInt8) (t : ElfTable) (r : Region) : ElfTable :=
  t.add (elfFlags r.prot) r.start (r.saved mem) r.size

theorem addArea_eq (t : ElfTable) (a : FSMemoryArea) : t.addArea mem a = t.addRegion mem a.region := by
  have hflags : elfFlags (PROT_READ ||| PROT_WRITE) = kFlagRead ||| kFlagWrite := by decide
  change _ = t.add (elfFlags (PROT_READ ||| PROT_WRITE)) a.ptr _ a.maxSize
  rw [hflags]
  rfl

theorem cells_iovs_add (t : ElfTable) (flags : BitVec 32) (start filesz memsz : ℕ) :
    cells (t.add flags start filesz memsz).iovs = cells t.iovs ++ range' start filesz := by
  unfold add
  split_ifs with hzero
  · rw [hzero, range'_zero, append_nil]
  · rw [cells_append]
    simp [cells, IoVec.cells]

/-- The header of a region whose data begins at `off`. -/
def header (mem : ℕ → UInt8) (r : Region) (off : ℕ) : ElfPhdr :=
  .ofWords kPTypeLoad (elfFlags r.prot) off r.start (r.saved mem) r.size kPageSize

/-- The header of a region, with the addresses of its data at its offset behind `base`. -/
structure Recorded (mem : ℕ → UInt8) (base : ℕ) (data : List ℕ) (r : Region) (h : ElfPhdr) : Prop where
  eq : h = header mem r h.offset
  le : base ≤ h.offset
  dvd : 4096 ∣ h.offset
  stop : h.offset + r.saved mem ≤ base + data.length
  bytes : ∀ i < r.saved mem, data[h.offset - base + i]? = some (r.start + i)

theorem Recorded.append {data : List ℕ} {h : ElfPhdr} (hr : Recorded mem base data r h) (more : List ℕ) :
    Recorded mem base (data ++ more) r h := { hr with
  stop := hr.stop.trans (by rw [length_append]; omega)
  bytes i hi := getElem?_append_of_some (hr.bytes i hi) }

structure Laid (mem : ℕ → UInt8) (base : ℕ) (rs : List Region) (t : ElfTable) : Prop where
  offset_eq : t.offset = base + (cells t.iovs).length
  dvd : 4096 ∣ t.offset
  recorded : List.Forall₂ (Recorded mem base (cells t.iovs)) rs t.phdrs

theorem Laid.add (hl : Laid mem base rs t) (hfits : t.offset + r.saved mem < 2 ^ 64) :
    Laid mem base (rs ++ [r]) (t.addRegion mem r) := by
  have hcells : cells (t.addRegion mem r).iovs = cells t.iovs ++ range' r.start (r.saved mem) :=
    cells_iovs_add t _ _ _ _
  have hoffset : (t.addRegion mem r).offset = t.offset + r.saved mem := addWord_of_lt hfits
  have hlen : (cells (t.addRegion mem r).iovs).length = (cells t.iovs).length + r.saved mem := by
    rw [hcells, length_append, length_range']
  have hstart := hl.offset_eq
  have hword : (header mem r t.offset).offset = t.offset := Nat.mod_eq_of_lt (by omega)
  refine ⟨by omega, hoffset ▸ hl.dvd.add (r.dvd_saved mem), ?_⟩
  have hnew : Recorded mem base (cells (t.addRegion mem r).iovs) r (header mem r t.offset) := by
    refine ⟨by rw [hword], by omega, hword.symm ▸ hl.dvd, by omega, fun i hi => ?_⟩
    have hplace : (header mem r t.offset).offset - base + i = (cells t.iovs).length + i := by omega
    rw [hplace, hcells, getElem?_append_right (Nat.le_add_right _ _), Nat.add_sub_cancel_left]
    simp [hi]
  have hold : List.Forall₂ (Recorded mem base (cells (t.addRegion mem r).iovs)) rs t.phdrs :=
    hl.recorded.imp fun r h hr => hcells ▸ hr.append _
  exact rel_append hold (List.Forall₂.cons hnew List.Forall₂.nil)

theorem Laid.addAll (hl : Laid mem base rs t) {more : List Region}
    (hfits : t.offset + (more.map (Region.saved mem)).sum < 2 ^ 64) :
    Laid mem base (rs ++ more) (more.foldl (addRegion mem) t) ∧
      (more.foldl (addRegion mem) t).offset = t.offset + (more.map (Region.saved mem)).sum := by
  induction more generalizing rs t with
  | nil => exact ⟨by simpa using hl, rfl⟩
  | cons r more ih =>
    rw [map_cons, sum_cons] at hfits ⊢
    have hoffset : (t.addRegion mem r).offset = t.offset + r.saved mem := addWord_of_lt (by omega)
    have hstep : Laid mem base (rs ++ [r]) (t.addRegion mem r) := hl.add (by omega)
    obtain ⟨hlaid, hend⟩ := ih hstep (by omega)
    rw [foldl_cons]
    refine ⟨?_, by omega⟩
    rw [append_assoc, singleton_append] at hlaid
    exact hlaid

end ElfTable

/-! ### The table of a snapshot -/

namespace SnapshotInput
variable {x : SnapshotInput} {env : SnapshotEnv}

theorem addVmas_eq_ok {t t' : ElfTable} {s s' : ProtectState} {vmas : List VMArea}
    (h : x.addVmas env t s vmas = (.ok t', s')) :
    t' = (vmas.map (VMArea.region x.sizes)).foldl (ElfTable.addRegion x.mem) t := by
  induction vmas generalizing t s with
  | nil =>
    obtain ⟨ht, -⟩ := Prod.mk.inj h
    exact (Except.ok.inj ht).symm
  | cons v vmas ih =>
    rw [addVmas] at h
    split at h
    · cases (Prod.mk.inj h).1
    · exact ih h

def dataStart (x : SnapshotInput) : ℕ := pageAlign (x.regions.length * elfPhdrSize + elfHeaderSize)

theorem getElfPHDRs_eq_ok {t : ElfTable} {s : ProtectState} (h : x.getElfPHDRs env = (.ok t, s)) :
    t = x.regions.foldl (ElfTable.addRegion x.mem) ⟨x.dataStart, [], []⟩ := by
  have hcount : x.regions.length = x.vmas.length + x.areas.length := by simp [regions]
  have hareas : ∀ (areas : List FSMemoryArea) (t : ElfTable), areas.foldl (ElfTable.addArea x.mem) t =
      (areas.map FSMemoryArea.region).foldl (ElfTable.addRegion x.mem) t := by
    intro areas t
    rw [foldl_map]
    congr 1
    funext t a
    exact t.addArea_eq a
  unfold getElfPHDRs at h
  dsimp only at h
  split at h
  · cases (Prod.mk.inj h).1
  rename_i hvmas
  obtain ⟨ht, -⟩ := Prod.mk.inj h
  rw [← Except.ok.inj ht, hareas, addVmas_eq_ok hvmas, regions, foldl_append, dataStart, hcount]

theorem snapshotElf_eq_done (h : (x.snapshotElf env).outcome = .done) : ∃ t s, x.getElfPHDRs env = (.ok t, s) ∧
      (x.snapshotElf env).writes = (FullCall.writevFull t.iovecs).run env.replies ∧
      (x.snapshotElf env).writes.outcome = .done ∧
      (x.snapshotElf env).file = (x.snapshotElf env).writes.accepted.map (contents x.mem t.headers) := by
  unfold snapshotElf at h ⊢
  cases htable : x.getElfPHDRs env with
  | mk result s =>
    rw [htable] at h
    cases result with
    | error e => cases h
    | ok t =>
      refine ⟨t, s, rfl, ?_⟩
      dsimp only at h ⊢
      cases hopen : env.opened with
      | error e =>
        rw [hopen] at h
        cases h
      | ok u =>
        rw [hopen] at h
        cases hwrites : ((FullCall.writevFull t.iovecs).run env.replies).outcome with
        | failed | waiting =>
          rw [hwrites] at h
          cases h
        | done =>
          dsimp only
          split <;> exact ⟨rfl, hwrites, rfl⟩

end SnapshotInput

/-! ### Restoring

A host that maps what it can map gives every region its protection, the bytes that were saved, and zeros behind them. -/

open MemoryMap Records List Nat ElfPhdr

/-! ### Loads that are granted -/

structure LoadEnv.Grants (env : LoadEnv) : Prop where
  uninterrupted : env.mmap.interrupted = false
  host : env.mmap.host.Grants

namespace LoadState
variable {env : ℕ → LoadEnv} {prot : ℕ → Option Prot}

theorem call_mappable {c : LoadCall} (s : LoadState) (henv : ∀ n, (env n).Grants) (hc : c.Mappable) :
    ∃ s', s.call env prot c = (.ret (.ok ()), s') := by
  obtain ⟨hint, hhost⟩ := henv s.calls
  have hdone : ∀ {a : MMapArgs} {e : HostEffect}, (∃ r, (s.mm.mmap s.pool a (env s.calls).mmap).1 = .ret (.ok r)) →
      ∃ s', andThen (s.mmap env a) (fun _ s => (.ret (.ok ()), s.record e)) = ((.ret (.ok ()), s') : Outcome Unit × _) := by
    rintro a e ⟨r, hr⟩
    have hmap : s.mmap env a = (.ret (.ok r), (s.mmap env a).2) := Prod.ext hr rfl
    rw [hmap]
    exact ⟨_, rfl⟩
  cases c with
  | mapFile f start len p off =>
    obtain ⟨hstart, hlen, hpos, hend, hoff, hsum⟩ := hc
    have hbound : start + len ≤ 2 ^ 47 := hend
    have halign : pageAlign len = len := pageAlign_of_dvd hlen (by omega)
    have hword : (BitVec.ofNat 64 off).toNat = off := by
      rw [BitVec.toNat_ofNat]
      exact mod_eq_of_lt (by omega)
    have hvalid : addressValid start len := (addressValid_iff (by omega)).mpr ⟨hpos, hstart⟩
    have hfix : hasFlag ((MAP_DENYWRITE ||| MAP_FIXED ||| MAP_PRIVATE) &&& ~~~MAP_POPULATE) MAP_FIXED := by
      decide
    have hpopulate : hasFlag (MAP_DENYWRITE ||| MAP_FIXED ||| MAP_PRIVATE) MAP_POPULATE = false := by decide
    have hfile : ¬ hasFlag ((MAP_DENYWRITE ||| MAP_FIXED ||| MAP_PRIVATE) &&& ~~~MAP_POPULATE) MAP_ANONYMOUS := by
      decide
    obtain ⟨r, hr⟩ := hhost start (pageAlign len) p ((MAP_DENYWRITE ||| MAP_FIXED ||| MAP_PRIVATE) &&& ~~~MAP_POPULATE)
      (some f) (BitVec.ofNat 64 off) hstart (by omega) (by omega) (by omega) (by omega)
    apply hdone
    exact mmap_fixed_of_host s.mm s.pool hvalid hint hfix hpopulate (fun h => absurd h hfile) fun _ => ⟨f, r, rfl, hr⟩
  | mapAnonymous start len p =>
    obtain ⟨hstart, hlen, hpos, hend⟩ := hc
    have hbound : start + len ≤ 2 ^ 47 := hend
    have halign : pageAlign len = len := pageAlign_of_dvd hlen (by omega)
    have hvalid : addressValid start len := (addressValid_iff (by omega)).mpr ⟨hpos, hstart⟩
    have hfix : hasFlag ((MAP_FIXED ||| MAP_PRIVATE ||| MAP_ANONYMOUS) &&& ~~~MAP_POPULATE) MAP_FIXED := by
      decide
    have hpopulate : hasFlag (MAP_FIXED ||| MAP_PRIVATE ||| MAP_ANONYMOUS) MAP_POPULATE = false := by decide
    have hanon : ¬ hasFlag ((MAP_FIXED ||| MAP_PRIVATE ||| MAP_ANONYMOUS) &&& ~~~MAP_POPULATE) MAP_ANONYMOUS = false := by
      decide
    have hzero : (0 : BitVec 64).toNat = 0 := rfl
    apply hdone
    refine mmap_fixed_of_host s.mm s.pool hvalid hint hfix hpopulate (fun _ => ?_) fun h => absurd h hanon
    exact hhost start (pageAlign len) p _ none 0 hstart (by omega) (by omega) (by omega) (by omega)
  | protect | zero => exact hc.elim

theorem run_mappable {calls : List LoadCall} (s : LoadState) (henv : ∀ n, (env n).Grants)
    (hcalls : ∀ c ∈ calls, c.Mappable) : ∃ s', s.run env prot calls = (.ret (.ok ()), s') := by
  induction calls generalizing s with
  | nil => exact ⟨s, rfl⟩
  | cons c calls ih =>
    obtain ⟨hc, hrest⟩ := forall_mem_cons.mp hcalls
    obtain ⟨s', hs'⟩ := @call_mappable env prot c s henv hc
    obtain ⟨s'', hs''⟩ := ih s' hrest
    refine ⟨s'', ?_⟩
    have hstep : s.run env prot (c :: calls) = andThen (s.call env prot c) fun _ s => s.run env prot calls := rfl
    rw [hstep, hs']
    exact hs''

theorem doELFLoad_mappable {f : FileRef} {hdr : ElfHeader} {phdrs : List ElfPhdr} (s : LoadState)
    (interp : Status (FileRef × ElfHeader × Status (List ElfPhdr))) (henv : ∀ n, (env n).Grants)
    (hne : phdrs ≠ []) (htype : hdr.type = kETypeExec) (hloads : ∀ h ∈ phdrs, h.type = kPTypeLoad)
    (hvalid : ∀ h ∈ phdrs, h.isValid) (hcalls : ∀ h ∈ phdrs, ∀ c ∈ loadOneSegment f 0 h, c.Mappable) :
    ∃ edata s', s.doELFLoad env prot f hdr (.ok phdrs) interp = (.ret (.ok edata), s') ∧ edata.mapBase = 0 := by
  have hall : loads phdrs = phdrs := by
    refine filter_eq_self.mpr fun h hh => ?_
    rw [hloads h hh]
    rfl
  have hnone : ∀ type, type ≠ kPTypeLoad → findPHDRByType phdrs type = none := by
    intro type hne
    refine find?_eq_none.mpr fun h hh => ?_
    rw [hloads h hh, beq_iff_eq]
    exact hne.symm
  have hread : readPHDRs (.ok phdrs) = .ok phdrs := if_pos (all_eq_true.mpr hvalid)
  have hrun : ∀ c ∈ (loads phdrs).flatMap (loadOneSegment f 0), c.Mappable := by
    intro c hc
    rw [hall] at hc
    obtain ⟨h, hh, hc⟩ := mem_flatMap.mp hc
    exact hcalls h hh c hc
  obtain ⟨s', hs'⟩ := @run_mappable env prot _ s henv hrun
  have hload : s.loadSegments env prot f phdrs (hdr.type == kETypeDynamic) =
      (.ret (.ok (0, countTotalLength phdrs)), s') := by
    have hfixed : (hdr.type == kETypeDynamic) = false := by
      rw [htype]
      rfl
    unfold loadSegments
    simp [hfixed, Bool.false_eq_true, andThen, hs']
  obtain ⟨h, rest, rfl⟩ := exists_cons_of_ne_nil hne
  unfold doELFLoad
  simp only [hread, hnone kPTypeInterp (by decide), hnone kPTypeSelf (by decide), andThen, hload, head?_cons,
    Option.none_or]
  exact ⟨_, _, rfl, rfl⟩

end LoadState

/-! ### The segments of a snapshot -/

theorem segmentProt_elfFlags (p : Prot) : segmentProt (elfFlags p) = hostProt p := by
  have hflags : ∀ a b c : Bool, segmentProt ((if a then kFlagExec else 0) ||| (if b then kFlagWrite else 0) |||
      (if c then kFlagRead else 0)) =
      (if c then PROT_READ else 0) ||| (if b then PROT_WRITE else 0) ||| (if a then PROT_EXEC else 0) := by
    decide
  rw [elfFlags, hflags, hostProt_eq]

namespace ElfTable
variable {mem : ℕ → UInt8} {r : Region} {off : ℕ} {f : FileRef}

variable (hr : r.Sound)
include hr

theorem words_header : (header mem r off).vaddr = r.start ∧ (header mem r off).filesz = r.saved mem ∧
      (header mem r off).memsz = r.size := by
  have hstop := hr.stop_lt
  have hsaved := @Region.Sound.saved_le mem r hr
  exact ⟨mod_eq_of_lt (by omega), mod_eq_of_lt (by omega), mod_eq_of_lt (by omega)⟩

/-- The places of the segment of a region: nothing is moved, and the saved part ends with a page. -/
theorem places_header : (header mem r off).addr 0 = r.start ∧ (header mem r off).start 0 = r.start ∧
      (header mem r off).fileEnd 0 = r.start + r.saved mem ∧ (header mem r off).gapEnd 0 = r.start + r.saved mem ∧
      (header mem r off).memEnd 0 = r.stop := by
  have hstop := hr.stop_lt
  have hsaved := @Region.Sound.saved_le mem r hr
  obtain ⟨hvaddr, hfilesz, hmemsz⟩ := @words_header mem r off hr
  have haddr : (header mem r off).addr 0 = r.start := by
    rw [addr, hvaddr, addWord_of_lt (by omega), add_zero]
  have hend : (header mem r off).fileEnd 0 = r.start + r.saved mem := by
    rw [fileEnd, haddr, hfilesz, addWord_of_lt (by omega)]
  refine ⟨haddr, ?_, hend, ?_, ?_⟩
  · rw [start, haddr, pageAlignDown_eq, Nat.div_mul_cancel hr.start_dvd]
  · rw [gapEnd, hend, pageAlign_of_dvd (hr.start_dvd.add (r.dvd_saved mem)) (by omega)]
  · rw [memEnd, haddr, hmemsz, addWord_of_lt (by omega)]
    rfl

theorem loadOneSegment_header (hoff : off < 2 ^ 64) (hd : 4096 ∣ off) : loadOneSegment f 0 (header mem r off) =
      (if 0 < r.saved mem then [.mapFile f r.start (r.saved mem) (hostProt r.prot) off] else []) ++
        if r.saved mem < r.size then
          [.mapAnonymous (r.start + r.saved mem) (r.size - r.saved mem) (hostProt r.prot)]
        else [] := by
  obtain ⟨haddr, hstart, hfile, hgap, hmem⟩ := @places_header mem r off hr
  have hoffset : pageAlignDown (header mem r off).offset = off := by
    have hword : (header mem r off).offset = off := mod_eq_of_lt hoff
    rw [hword, pageAlignDown_eq, Nat.div_mul_cancel hd]
  have hflags : segmentProt (header mem r off).flags = hostProt r.prot := segmentProt_elfFlags r.prot
  have hzero : zeroGap (header mem r off) 0 = [] := by
    unfold zeroGap
    rw [hfile, hgap, if_neg (lt_irrefl _)]
  rw [loadOneSegment, hzero, append_nil, mapFile, mapRest, hstart, hfile, hgap, hmem, hoffset, hflags, Region.stop]
  congr 1
  · refine if_congr (by omega) ?_ rfl
    rw [Nat.add_sub_cancel_left]
  · refine if_congr (by omega) ?_ rfl
    rw [Nat.add_sub_add_left]

theorem mappable_header (hd : 4096 ∣ off) (hend : off + r.saved mem < 2 ^ 63) :
    ∀ c ∈ loadOneSegment f 0 (header mem r off), c.Mappable := by
  have hsaved := @Region.Sound.saved_le mem r hr
  have hpages := r.dvd_saved mem
  have hstop := hr.stop_le
  unfold Region.stop at hstop
  rw [loadOneSegment_header hr (by omega) hd]
  intro c hc
  rcases mem_append.mp hc with hc | hc
  · split_ifs at hc with hpos
    · obtain rfl := mem_singleton.mp hc
      exact ⟨hr.start_dvd, hpages, hpos, by omega, hd, hend⟩
    · cases hc
  split_ifs at hc with hlt
  · obtain rfl := mem_singleton.mp hc
    exact ⟨hr.start_dvd.add hpages, Nat.dvd_sub hr.size_dvd hpages, Nat.sub_pos_of_lt hlt, by omega⟩
  · cases hc

theorem isValid_header (hoff : off < 2 ^ 64) (hd : 4096 ∣ off) : (header mem r off).isValid := by
  have hsaved := @Region.Sound.saved_le mem r hr
  have hstart := hr.start_dvd
  obtain ⟨hvaddr, hfilesz, hmemsz⟩ := @words_header mem r off hr
  have hoffset : (header mem r off).offset = off := mod_eq_of_lt hoff
  have halign : (header mem r off).align = 4096 := rfl
  have hpow : hasSingleBit 4096 := by decide
  have hsize : ¬ r.size < r.saved mem := not_lt.mpr hsaved
  have hsame : r.start % 4096 = off % 4096 := by omega
  simp [isValid, hfilesz, hmemsz, hvaddr, hoffset, halign, hpow, hsize, hsame]

theorem placed_header : (header mem r off).Placed 0 := by
  obtain ⟨haddr, -, hfile, -, hmem⟩ := @places_header mem r off hr
  have hstop := hr.stop_lt
  have hsaved := @Region.Sound.saved_le mem r hr
  obtain ⟨-, hfilesz, hmemsz⟩ := @words_header mem r off hr
  unfold Region.stop at hmem
  exact ⟨by rw [hfile, haddr, hfilesz], by rw [hmem, haddr, hmemsz], by rw [hfilesz, hmemsz]; exact hsaved, by omega,
    by omega⟩

theorem pagesApart_header {r' : Region} {off' : ℕ} (hr' : r'.Sound) (h : r.Apart r') :
    ElfPhdr.PagesApart 0 (header mem r off) (header mem r' off') := by
  have hpages : ∀ {r : Region} {off : ℕ}, r.Sound → (header mem r off).pagesEnd 0 = r.stop := by
    intro r off hr
    have hmemsz := (@words_header mem r off hr).2.2
    have hdvd : 4096 ∣ r.start + r.size := hr.start_dvd.add hr.size_dvd
    rw [pagesEnd, (@places_header mem r off hr).1, hmemsz, Region.stop]
    omega
  rw [ElfPhdr.PagesApart, hpages hr, hpages hr', (@places_header mem r off hr).2.1, (@places_header mem r' off' hr').2.1]
  exact h

end ElfTable

end Junction
