import Junction.Snapshot

/-!
# JIF files and snapshots

A JIF file has a header, a table of program headers, the names of reference files, interval trees, and the data. The
sections begin on page borders that the header determines. A node of an interval tree has three intervals, and unused
ones are filled with one bits.
-/

namespace Junction
open Records

def kUInt64Max : ℕ := 2 ^ 64 - 1
def kUInt32Max : ℕ := 2 ^ 32 - 1
def kJifVersion : ℕ := 4

/-- The sizes of `jif_header`, `jif_phdr` and `jif_itree_node_t`. -/
def jifHeaderSize : ℕ := 40
def jifPhdrSize : ℕ := 37
def jifNodeSize : ℕ := 72

def kJIFFlagExec : BitVec 32 := 1
def kJIFFlagWrite : BitVec 32 := 2
def kJIFFlagRead : BitVec 32 := 4

def jifProtToLinuxProt (jprot : BitVec 32) : Prot :=
  (if hasFlag jprot kJIFFlagExec then PROT_EXEC else 0) ||| (if hasFlag jprot kJIFFlagWrite then PROT_WRITE else 0) |||
    (if hasFlag jprot kJIFFlagRead then PROT_READ else 0)

def linuxProtToJIFProt (lprot : Prot) : BitVec 32 :=
  (if hasFlag lprot PROT_EXEC then kJIFFlagExec else 0) ||| (if hasFlag lprot PROT_WRITE then kJIFFlagWrite else 0) |||
    (if hasFlag lprot PROT_READ then kJIFFlagRead else 0)

/-! ### The header -/

structure JifHeader where
  magic : List UInt8
  nPheaders : ℕ
  stringsSize : ℕ
  itreesSize : ℕ
  ordSize : ℕ
  version : ℕ
  nWritePrefetch : ℕ
  nTotalPrefetch : ℕ
  deriving DecidableEq

namespace JifHeader

def fields (h : JifHeader) : List (ℕ × ℕ) :=
  [(4, h.nPheaders), (4, h.stringsSize), (4, h.itreesSize), (4, h.ordSize), (4, h.version), (8, h.nWritePrefetch),
    (8, h.nTotalPrefetch)]

def widths : List ℕ := [4, 4, 4, 4, 4, 8, 8]

def write (h : JifHeader) : List UInt8 := h.magic ++ encode h.fields

def read (bytes : List UInt8) : JifHeader :=
  let w := decode widths (bytes.drop 4)
  ⟨bytes.take 4, w.getD 0 0, w.getD 1 0, w.getD 2 0, w.getD 3 0, w.getD 4 0, w.getD 5 0, w.getD 6 0⟩

def pheaderOffset : ℕ := jifHeaderSize
def stringsOffset (h : JifHeader) : ℕ := pageAlign (pheaderOffset + h.nPheaders * jifPhdrSize)
def itreesOffset (h : JifHeader) : ℕ := h.stringsOffset + h.stringsSize
def ordOffset (h : JifHeader) : ℕ := h.itreesOffset + h.itreesSize
def dataOffset (h : JifHeader) : ℕ := h.ordOffset + h.ordSize

/-- `HeaderIsValid`. -/
def isValid (h : JifHeader) : Bool :=
  h.magic.getD 0 0 == 0x77 && h.magic.getD 1 0 == 0x4a && h.magic.getD 2 0 == 0x49 && h.magic.getD 3 0 == 0x46 &&
    h.version == kJifVersion

theorem length_write {h : JifHeader} (hmagic : h.magic.length = 4) : h.write.length = jifHeaderSize := by
  rw [write, List.length_append, hmagic, length_encode]
  rfl

theorem read_write {h : JifHeader} (hmagic : h.magic.length = 4) (hfields : ∀ f ∈ h.fields, f.2 < 256 ^ f.1)
    (rest : List UInt8) : read (h.write ++ rest) = h := by
  have hdecode : decode widths (encode h.fields ++ rest) = h.fields.map Prod.snd := decode_encode_of_fits hfields rest
  rw [read, write, List.append_assoc, List.drop_left' hmagic, List.take_left' hmagic, hdecode]
  rfl

end JifHeader

/-! ### Program headers -/

structure JifPhdr where
  vbegin : ℕ
  vend : ℕ
  refOffset : ℕ
  itreeIdx : ℕ
  itreeNNodes : ℕ
  pathnameOffset : ℕ
  prot : ℕ
  deriving DecidableEq

namespace JifPhdr

variable (h : JifPhdr)

def fields : List (ℕ × ℕ) :=
  [(8, h.vbegin), (8, h.vend), (8, h.refOffset), (4, h.itreeIdx), (4, h.itreeNNodes), (4, h.pathnameOffset), (1, h.prot)]

def widths : List ℕ := [8, 8, 8, 4, 4, 4, 1]

def write : List UInt8 := encode h.fields

def read (bytes : List UInt8) : JifPhdr :=
  let w := decode widths bytes
  ⟨w.getD 0 0, w.getD 1 0, w.getD 2 0, w.getD 3 0, w.getD 4 0, w.getD 5 0, w.getD 6 0⟩

def hasRefFile : Bool := h.refOffset != kUInt64Max

def len : ℕ := subWord h.vend h.vbegin

def isValid : Bool :=
  if isPageAligned h.vbegin = false ∨ isPageAligned h.vend = false then false
  else if h.vend < h.vbegin then false
  else if h.hasRefFile then
    if isPageAligned h.refOffset = false then false
    else if h.pathnameOffset = kUInt32Max then false
    else true
  else true

theorem length_write : h.write.length = jifPhdrSize := length_encode h.fields

theorem read_write {h : JifPhdr} (hfields : ∀ f ∈ h.fields, f.2 < 256 ^ f.1) (rest : List UInt8) :
    read (h.write ++ rest) = h := by
  have hdecode : decode widths (encode h.fields ++ rest) = h.fields.map Prod.snd := decode_encode_of_fits hfields rest
  rw [read, write, hdecode]
  rfl

end JifPhdr

/-! ### Interval trees -/

structure JifInterval where
  start : ℕ
  stop : ℕ
  offset : ℕ
  deriving DecidableEq

namespace JifInterval

def empty : JifInterval := ⟨kUInt64Max, kUInt64Max, kUInt64Max⟩

variable (i : JifInterval)

def isValid : Bool := i.start != kUInt64Max

def hasOffset : Bool := i.offset != kUInt64Max

def len : ℕ := subWord i.stop i.start

def fields : List (ℕ × ℕ) := [(8, i.start), (8, i.stop), (8, i.offset)]

end JifInterval

structure JifITreeNode where
  first : JifInterval
  second : JifInterval
  third : JifInterval
  deriving DecidableEq

namespace JifITreeNode

variable (n : JifITreeNode)

def ranges : List JifInterval := [n.first, n.second, n.third]

def fields : List (ℕ × ℕ) := n.first.fields ++ n.second.fields ++ n.third.fields

def widths : List ℕ := [8, 8, 8, 8, 8, 8, 8, 8, 8]

def write : List UInt8 := encode n.fields

def read (bytes : List UInt8) : JifITreeNode :=
  let w := decode widths bytes
  ⟨⟨w.getD 0 0, w.getD 1 0, w.getD 2 0⟩, ⟨w.getD 3 0, w.getD 4 0, w.getD 5 0⟩, ⟨w.getD 6 0, w.getD 7 0, w.getD 8 0⟩⟩

theorem length_write : n.write.length = jifNodeSize := length_encode n.fields

theorem read_write {n : JifITreeNode} (hfields : ∀ f ∈ n.fields, f.2 < 256 ^ f.1) (rest : List UInt8) :
    read (n.write ++ rest) = n := by
  have hdecode : decode widths (encode n.fields ++ rest) = n.fields.map Prod.snd := decode_encode_of_fits hfields rest
  rw [read, write, hdecode]
  rfl

end JifITreeNode

/-- The test of `ITreeValid` on one interval, between the bounds of its subtree. -/
def JifInterval.within (i : JifInterval) (min max : ℕ) : Bool :=
  !(i.isValid && (decide (i.start < min) || decide (max < i.stop)))

/-- `ITreeValid`: in front of each interval, between two of them and behind the last one there is a subtree. -/
def itreeValid (tree : List JifITreeNode) (min max nodeIdx : ℕ) : Bool :=
  if hidx : nodeIdx < tree.length then
    let n := tree[nodeIdx]
    itreeValid tree min n.first.start (nodeIdx * 4 + 1) && n.first.within min max &&
      itreeValid tree n.first.stop n.second.start (nodeIdx * 4 + 2) && n.second.within n.first.stop max &&
      itreeValid tree n.second.stop n.third.start (nodeIdx * 4 + 3) && n.third.within n.second.stop max &&
      itreeValid tree n.third.stop max (nodeIdx * 4 + 4)
  else true
termination_by tree.length - nodeIdx

theorem itreeValid_single (n : JifITreeNode) (min max : ℕ) :
    itreeValid [n] min max 0 = (n.first.within min max && n.second.within n.first.stop max &&
      n.third.within n.second.stop max) := by
  have hleaf : ∀ lo hi i, itreeValid [n] lo hi (0 * 4 + (i + 1)) := by
    intro lo hi i
    rw [itreeValid, dif_neg (by simp)]
  have hone := hleaf min n.first.start 0
  have htwo := hleaf n.first.stop n.second.start 1
  have hthree := hleaf n.second.stop n.third.start 2
  have hfour := hleaf n.third.stop max 3
  rw [itreeValid, dif_pos (by simp)]
  simp [List.getElem_cons_zero, hone, htwo, hthree, hfour, Bool.true_and, Bool.and_true]

/-!
### The loader

The answers of the host are an input. A header that is not valid ends the program, and so does a tree that is not.
-/

open Records

structure JifData where
  hdr : JifHeader
  phdrs : List JifPhdr
  strings : List UInt8
  itrees : List JifITreeNode

/-! ### Reading the sections -/

section Sections
variable (file : List UInt8)

/-- `ReadHeader`. -/
def readJifHeader : Status JifHeader :=
  match readFull file 0 jifHeaderSize with
  | .error e => .error e
  | .ok bytes => if (JifHeader.read bytes).isValid then .ok (JifHeader.read bytes) else .error .EINVAL

/-- `ReadPHDRs`. -/
def readJifPHDRs (hdr : JifHeader) : Outcome (List JifPhdr) :=
  match readFull file JifHeader.pheaderOffset (jifPhdrSize * hdr.nPheaders) with
  | .error e => .ret (.error e)
  | .ok bytes =>
    let phdrs := decodeTable jifPhdrSize JifPhdr.read hdr.nPheaders bytes
    if phdrs.all JifPhdr.isValid then .ret (.ok phdrs) else .panic

def readJifStrings (hdr : JifHeader) : Status (List UInt8) := readFull file hdr.stringsOffset hdr.stringsSize

/-- `ReadITrees`: as many whole nodes as the section has room for. -/
def readJifITrees (hdr : JifHeader) : Status (List JifITreeNode) :=
  let n := hdr.itreesSize / jifNodeSize
  match readFull file hdr.itreesOffset (jifNodeSize * n) with
  | .error e => .error e
  | .ok bytes => .ok (decodeTable jifNodeSize JifITreeNode.read n bytes)

/-- `ReadOrd`, up to the chunks, which a load does not use. -/
def readJifOrd (hdr : JifHeader) : Status Unit :=
  match readFull file hdr.ordOffset (hdr.ordSize / 24 * 24) with
  | .error e => .error e
  | .ok _ => .ok ()

def parseJIF : Outcome JifData :=
  match readJifHeader file with
  | .error e => .ret (.error e)
  | .ok hdr =>
    match readJifPHDRs file hdr with
    | .panic => .panic
    | .ret (.error e) => .ret (.error e)
    | .ret (.ok phdrs) =>
      match readJifStrings file hdr with
      | .error e => .ret (.error e)
      | .ok strings =>
        match readJifITrees file hdr with
        | .error e => .ret (.error e)
        | .ok itrees =>
          match readJifOrd file hdr with
          | .error e => .ret (.error e)
          | .ok _ => .ret (.ok ⟨hdr, phdrs, strings, itrees⟩)

end Sections

/-! ### Mapping -/

def stringAt (strings : List UInt8) (pos : ℕ) : List UInt8 := (strings.drop pos).takeWhile (· != 0)

/-- `KernelFile::Open` for reading, answers of mmap(2), and `MAP_POPULATE` if the configuration asks for it. -/
structure JifLoadEnv where
  openFile : List UInt8 → Status FileRef
  host : ℕ → HostMMap
  flags : Flags

structure JifLoadState where
  calls : ℕ
  effects : List HostEffect

namespace JifPhdr

variable (h : JifPhdr)

def tree (itrees : List JifITreeNode) : List JifITreeNode := (itrees.drop h.itreeIdx).take h.itreeNNodes

def overlay (jifFile : FileRef) (i : JifInterval) : LoadCall :=
  let prot := jifProtToLinuxProt (BitVec.ofNat 32 h.prot)
  if i.hasOffset then .mapFile jifFile i.start i.len prot i.offset else .mapAnonymous i.start i.len prot

def overlays (jifFile : FileRef) (itrees : List JifITreeNode) : List LoadCall :=
  (((h.tree itrees).flatMap JifITreeNode.ranges).filter JifInterval.isValid).map (h.overlay jifFile)

def backing (openFile : List UInt8 → Status FileRef) (strings : List UInt8) : Status LoadCall :=
  let prot := jifProtToLinuxProt (BitVec.ofNat 32 h.prot)
  if h.hasRefFile then
    match openFile (stringAt strings h.pathnameOffset) with
    | .error e => .error e
    | .ok f => .ok (.mapFile f h.vbegin h.len prot h.refOffset)
  else .ok (.mapAnonymous h.vbegin h.len prot)

end JifPhdr

namespace JifLoadState
variable (env : JifLoadEnv)

def call (s : JifLoadState) (c : LoadCall) : Status Unit × JifLoadState :=
  let answer : Status ℕ :=
    match c with
    | .mapFile f start len prot off =>
      (env.host s.calls).call start len prot (env.flags ||| MAP_FIXED ||| MAP_PRIVATE) (some f) (BitVec.ofNat 64 off)
    | .mapAnonymous start len prot =>
      (env.host s.calls).call start len prot (env.flags ||| MAP_ANONYMOUS ||| MAP_FIXED ||| MAP_PRIVATE) none 0
    | .protect _ _ _ => .error .EINVAL
    | .zero _ _ => .error .EINVAL
  match answer with
  | .error e => (.error e, { s with calls := s.calls + 1 })
  | .ok _ => (.ok (), ⟨s.calls + 1, s.effects ++ [c.effect]⟩)

def run : JifLoadState → List LoadCall → Status Unit × JifLoadState
  | s, [] => (.ok (), s)
  | s, c :: calls =>
    match s.call env c with
    | (.error e, s) => (.error e, s)
    | (.ok _, s) => run s calls

/-- `LoadPhdr`. The tree is tested after the whole region is mapped. -/
def loadPhdr (s : JifLoadState) (jif : JifData) (jifFile : FileRef) (h : JifPhdr) : Outcome Unit × JifLoadState :=
  match h.backing env.openFile jif.strings with
  | .error e => (.ret (.error e), s)
  | .ok c =>
    match s.run env [c] with
    | (.error e, s) => (.ret (.error e), s)
    | (.ok _, s) =>
      if h.itreeNNodes = 0 then (.ret (.ok ()), s)
      else if itreeValid (h.tree jif.itrees) h.vbegin h.vend 0 = false then (.panic, s)
      else
        let r := s.run env (h.overlays jifFile jif.itrees)
        (.ret r.1, r.2)

def loadPhdrs (jif : JifData) (jifFile : FileRef) : JifLoadState → List JifPhdr → Outcome Unit × JifLoadState
  | s, [] => (.ret (.ok ()), s)
  | s, h :: phdrs =>
    match s.loadPhdr env jif jifFile h with
    | (.ret (.ok _), s) => loadPhdrs jif jifFile s phdrs
    | (.ret (.error e), s) => (.ret (.error e), s)
    | (.panic, s) => (.panic, s)

def loadJIF (s : JifLoadState) (jifFile : FileRef) (file : List UInt8) : Outcome Unit × JifLoadState :=
  match parseJIF file with
  | .ret (.error e) => (.ret (.error e), s)
  | .panic => (.panic, s)
  | .ret (.ok jif) => loadPhdrs env jif jifFile s jif.phdrs

end JifLoadState

end Junction

/-! ### Snapshots

The saved part of a region becomes an interval of its tree. A file is mapped again under its name, and where the region
is zero at its end, a second interval hides it. `GetJifVmaData` does not look at the status of `AddPhdr`. -/

namespace Junction

structure JifInput extends SnapshotInput where
  /-- The names of the files that a snapshot may refer to. -/
  names : FileRef → Option (List UInt8)

/-- The arguments of `AddPhdr`. -/
structure JifRegion where
  region : Region
  refOffset : ℕ
  name : List UInt8

/-- The answers of writev(2) for the data come after those for the other sections. -/
structure JifEnv extends SnapshotEnv where
  dataReplies : List (Status ℕ)

namespace JifInput

def vmaRegion (x : JifInput) (v : VMArea) : JifRegion :=
  let r := { v.region x.sizes with prot := v.prot &&& 0xff }
  match v.type, v.file.bind x.names with
  | .kFile, some name => ⟨r, v.offset.toNat, name⟩
  | _, _ => ⟨r, kUInt64Max, []⟩

def areaRegion (a : FSMemoryArea) : JifRegion := ⟨a.region, kUInt64Max, []⟩

/-- The regions in the order in which headers are made for them. -/
def jifRegions (x : JifInput) : List JifRegion :=
  (x.vmas.mergeSort fun v w => decide (v.start ≤ w.start)).map x.vmaRegion ++ x.areas.map areaRegion

end JifInput

/-! ### Program headers -/

structure JifBuild where
  phdrs : List JifPhdr
  strings : List UInt8
  itrees : List JifITreeNode
  iovs : List IoVec
  dataSize : ℕ

namespace JifRegion

/-- The intervals of a region whose data begins at `off`. -/
def intervals (mem : ℕ → UInt8) (q : JifRegion) (off : ℕ) : List JifInterval :=
  let r := q.region
  (if r.saved mem = 0 then [] else [⟨r.start, addWord r.start (r.saved mem), off⟩]) ++
    if q.refOffset ≠ kUInt64Max ∧ r.saved mem < r.data then
      [⟨addWord r.start (r.saved mem), addWord r.start r.data, kUInt64Max⟩]
    else []

def node (mem : ℕ → UInt8) (q : JifRegion) (off : ℕ) : JifITreeNode :=
  let ivals := q.intervals mem off
  ⟨ivals.getD 0 .empty, ivals.getD 1 .empty, ivals.getD 2 .empty⟩

/-- The header of a region whose tree and name are at the given places. -/
def header (mem : ℕ → UInt8) (q : JifRegion) (treeIdx namePos : ℕ) : JifPhdr where
  vbegin := q.region.start
  vend := addWord q.region.start q.region.size
  refOffset := q.refOffset
  itreeIdx := treeIdx % 2 ^ 32
  itreeNNodes := if q.intervals mem 0 = [] then 0 else 1
  pathnameOffset := if q.name = [] then kUInt32Max else namePos % 2 ^ 32
  prot := (linuxProtToJIFProt q.region.prot).toNat

end JifRegion

namespace JifBuild

def add (mem : ℕ → UInt8) (b : JifBuild) (q : JifRegion) : JifBuild where
  phdrs := b.phdrs ++ [q.header mem b.itrees.length b.strings.length]
  strings := if q.name = [] then b.strings else b.strings ++ (q.name ++ [0])
  itrees := if q.intervals mem b.dataSize = [] then b.itrees else b.itrees ++ [q.node mem b.dataSize]
  iovs := if q.region.saved mem = 0 then b.iovs else b.iovs ++ [⟨q.region.start, q.region.saved mem⟩]
  dataSize := addWord b.dataSize (q.region.saved mem)

/-- `AddPhdr`: nothing is added if the region cannot be made readable. -/
def addPhdr (env : JifEnv) (mem : ℕ → UInt8) (s : ProtectState) (b : JifBuild) (q : JifRegion) :
    Status Unit × ProtectState × JifBuild :=
  match s.makeReadable env.protect q.region with
  | (.error e, s) => (.error e, s, b)
  | (.ok _, s) => (.ok (), s, b.add mem q)

/-- The loops of `GetJifVmaData`, which drop the status. -/
def addPhdrs (env : JifEnv) (mem : ℕ → UInt8) : ProtectState → JifBuild → List JifRegion → ProtectState × JifBuild
  | s, b, [] => (s, b)
  | s, b, q :: qs =>
    let r := b.addPhdr env mem s q
    addPhdrs env mem r.2.1 r.2.2 qs

def header (b : JifBuild) : JifHeader where
  magic := [0x77, 0x4a, 0x49, 0x46]
  nPheaders := b.phdrs.length % 2 ^ 32
  stringsSize := pageAlign b.strings.length % 2 ^ 32
  itreesSize := pageAlign (b.itrees.length * jifNodeSize) % 2 ^ 32
  ordSize := 0
  version := kJifVersion
  nWritePrefetch := 0
  nTotalPrefetch := 0

end JifBuild

def JifInterval.shift (off : ℕ) (i : JifInterval) : JifInterval :=
  if i.hasOffset then { i with offset := addWord i.offset off } else i

def JifITreeNode.shift (off : ℕ) (n : JifITreeNode) : JifITreeNode :=
  ⟨n.first.shift off, n.second.shift off, n.third.shift off⟩

/-! ### The file -/

/-- Vectors over Junction's own buffers, one behind the other, and the bytes they hold. -/
structure OwnVectors where
  bytes : List UInt8
  iovs : List IoVec

namespace OwnVectors

def add (o : OwnVectors) (b : List UInt8) : OwnVectors :=
  ⟨o.bytes ++ b, o.iovs ++ [⟨ownAddress + o.bytes.length, b.length⟩]⟩

/-- `Pad`, to a page border. -/
def pad (o : OwnVectors) : OwnVectors :=
  if o.bytes.length % kPageSize = 0 then o
  else o.add (List.replicate (kPageSize - o.bytes.length % kPageSize) 0)

end OwnVectors

/-- The sections in front of the data. The section of orderings is empty. -/
def JifBuild.sections (b : JifBuild) : OwnVectors :=
  let o : OwnVectors := ⟨[], []⟩
  let o := ((o.add b.header.write).add (b.phdrs.flatMap JifPhdr.write)).pad
  let o := (o.add b.strings).pad
  let o := (o.add ((b.itrees.map (JifITreeNode.shift b.header.dataOffset)).flatMap JifITreeNode.write)).pad
  (o.add []).pad

structure JifResult where
  outcome : Progress
  writes : IoRun
  dataWrites : IoRun
  file : List UInt8
  effects : List HostEffect

namespace JifInput

def getJifVmaData (x : JifInput) (env : JifEnv) : ProtectState × JifBuild :=
  JifBuild.addPhdrs env x.mem ⟨0, []⟩ ⟨[], [], [], [], 0⟩ x.jifRegions

def snapshotJIF (x : JifInput) (env : JifEnv) : JifResult :=
  let none : IoRun := ⟨[], .waiting⟩
  let (s, b) := x.getJifVmaData env
  match env.opened with
  | .error e => ⟨.failed e, none, none, [], s.effects⟩
  | .ok _ =>
    let o := b.sections
    if kUInt32Max < o.bytes.length then ⟨.failed .EINVAL, none, none, [], s.effects⟩
    else
      let writes := (FullCall.writevFull o.iovs).run env.replies
      let file := writes.accepted.map (contents x.mem o.bytes)
      match writes.outcome with
      | .failed e => ⟨.failed e, writes, none, file, s.effects⟩
      | .waiting => ⟨.waiting, writes, none, file, s.effects⟩
      | .done =>
        let dataWrites := (FullCall.writevFull b.iovs).run env.dataReplies
        let file := file ++ dataWrites.accepted.map (contents x.mem o.bytes)
        match dataWrites.outcome with
        | .failed e => ⟨.failed e, writes, dataWrites, file, s.effects⟩
        | .waiting => ⟨.waiting, writes, dataWrites, file, s.effects⟩
        | .done =>
          match s.restoreVMAProtections env.protect (x.vmas.map (VMArea.region x.sizes)) with
          | (.error e, s) => ⟨.failed e, writes, dataWrites, file, s.effects⟩
          | (.ok _, s) => ⟨.done, writes, dataWrites, file, s.effects⟩

end JifInput

/-!
### The layout

What a header points to stays where it is. The borders of the sections are those that the header computes, as long as
the sections together are shorter than four gigabytes.
-/

open Records List

/-! ### What a header points to -/

structure JifRegion.Sound (q : JifRegion) : Prop where
  region : q.region.Sound
  named : q.refOffset = kUInt64Max ↔ q.name = []
  nul : 0 ∉ q.name
  offset : q.refOffset ≠ kUInt64Max → 4096 ∣ q.refOffset ∧ q.refOffset + q.region.size < 2 ^ 63 ∧ 4096 ∣ q.region.data

theorem JifRegion.intervals_eq_nil {mem : ℕ → UInt8} {q : JifRegion} (off off' : ℕ) :
    q.intervals mem off = [] ↔ q.intervals mem off' = [] := by
  unfold intervals
  by_cases hzero : q.region.saved mem = 0
  · simp [hzero]
  · simp [hzero]

namespace JifBuild
variable {mem : ℕ → UInt8} {b : JifBuild} {q : JifRegion} {qs : List JifRegion} {h : JifPhdr}

/-- The tree, the name and the data of a region in their sections. -/
structure Recorded (mem : ℕ → UInt8) (b : JifBuild) (q : JifRegion) (h : JifPhdr) (treeIdx namePos off : ℕ) : Prop where
  eq : h = q.header mem treeIdx namePos
  tree : q.intervals mem off ≠ [] → b.itrees[treeIdx]? = some (q.node mem off)
  name : q.name ≠ [] → (q.name ++ [0]) <+: b.strings.drop namePos
  dvd : 4096 ∣ off
  stop : off + q.region.saved mem ≤ (cells b.iovs).length
  bytes : ∀ i < q.region.saved mem, (cells b.iovs)[off + i]? = some (q.region.start + i)

structure Grown (b b' : JifBuild) : Prop where
  itrees : b.itrees <+: b'.itrees
  strings : b.strings <+: b'.strings
  data : cells b.iovs <+: cells b'.iovs

theorem Recorded.mono {b' : JifBuild} {treeIdx namePos off : ℕ} (hr : Recorded mem b q h treeIdx namePos off)
    (hgrown : Grown b b') : Recorded mem b' q h treeIdx namePos off := by
  obtain ⟨trees, htrees⟩ := hgrown.itrees
  obtain ⟨strings, hstrings⟩ := hgrown.strings
  obtain ⟨data, hdata⟩ := hgrown.data
  refine ⟨hr.eq, fun hne => ?_, fun hne => ?_, hr.dvd, ?_, fun i hi => ?_⟩
  · rw [← htrees]
    exact getElem?_append_of_some (hr.tree hne)
  · have hname := hr.name hne
    have hle : namePos ≤ b.strings.length := by
      by_contra hlt
      rw [drop_eq_nil_of_le (by omega), prefix_nil] at hname
      simp at hname
    rw [← hstrings, drop_append_of_le_length hle]
    exact hname.trans (prefix_append _ _)
  · rw [← hdata, length_append]
    exact hr.stop.trans (Nat.le_add_right _ _)
  · rw [← hdata]
    exact getElem?_append_of_some (hr.bytes i hi)

structure Laid (mem : ℕ → UInt8) (qs : List JifRegion) (b : JifBuild) : Prop where
  dataSize_eq : b.dataSize = (cells b.iovs).length
  dvd : 4096 ∣ b.dataSize
  recorded : List.Forall₂ (fun q h => ∃ treeIdx namePos off, Recorded mem b q h treeIdx namePos off) qs b.phdrs

theorem cells_iovs_add (b : JifBuild) (q : JifRegion) :
    cells (b.add mem q).iovs = cells b.iovs ++ range' q.region.start (q.region.saved mem) := by
  dsimp only [add]
  split_ifs with hzero
  · rw [hzero, range'_zero, append_nil]
  · rw [cells_append]
    simp [cells, IoVec.cells]

theorem grown_add (b : JifBuild) (q : JifRegion) : Grown b (b.add mem q) := by
  refine ⟨?_, ?_, ⟨_, (cells_iovs_add b q).symm⟩⟩
  all_goals
    dsimp only [add]
    split_ifs
    · exact prefix_rfl
    · exact prefix_append _ _

theorem recorded_add (hsize : b.dataSize = (cells b.iovs).length) (hdvd : 4096 ∣ b.dataSize) :
    Recorded mem (b.add mem q) q (q.header mem b.itrees.length b.strings.length) b.itrees.length b.strings.length
      b.dataSize := by
  have hcells := @cells_iovs_add mem b q
  refine ⟨rfl, fun hne => ?_, fun hne => ?_, hdvd, ?_, fun i hi => ?_⟩
  · have hadd : (b.add mem q).itrees = b.itrees ++ [q.node mem b.dataSize] := if_neg hne
    rw [hadd, getElem?_append_right le_rfl, Nat.sub_self]
    rfl
  · have hadd : (b.add mem q).strings = b.strings ++ (q.name ++ [0]) := if_neg hne
    rw [hadd, drop_left]
  · rw [hcells, length_append, length_range', hsize]
  · rw [hcells, hsize, getElem?_append_right (Nat.le_add_right _ _), Nat.add_sub_cancel_left]
    simp [hi]

theorem Laid.add (hl : Laid mem qs b) (hfits : b.dataSize + q.region.saved mem < 2 ^ 64) :
    Laid mem (qs ++ [q]) (b.add mem q) := by
  have hsize : (b.add mem q).dataSize = b.dataSize + q.region.saved mem := addWord_of_lt hfits
  have hlen : (cells (b.add mem q).iovs).length = (cells b.iovs).length + q.region.saved mem := by
    rw [cells_iovs_add, length_append, length_range']
  have hstart := hl.dataSize_eq
  refine ⟨by omega, hsize ▸ hl.dvd.add (q.region.dvd_saved mem), ?_⟩
  have hold : List.Forall₂ (fun q' h => ∃ treeIdx namePos off, Recorded mem (b.add mem q) q' h treeIdx namePos off) qs
      b.phdrs := by
    refine hl.recorded.imp fun q' h hr => ?_
    obtain ⟨treeIdx, namePos, off, hr⟩ := hr
    exact ⟨treeIdx, namePos, off, hr.mono (b.grown_add q)⟩
  exact rel_append hold (List.Forall₂.cons ⟨_, _, _, recorded_add hl.dataSize_eq hl.dvd⟩ List.Forall₂.nil)

theorem Laid.addAll (hl : Laid mem qs b) {more : List JifRegion}
    (hfits : b.dataSize + (more.map fun q => q.region.saved mem).sum < 2 ^ 64) :
    Laid mem (qs ++ more) (more.foldl (JifBuild.add mem) b) ∧
      (more.foldl (JifBuild.add mem) b).dataSize = b.dataSize + (more.map fun q => q.region.saved mem).sum := by
  induction more generalizing qs b with
  | nil => exact ⟨by simpa using hl, rfl⟩
  | cons q more ih =>
    rw [map_cons, sum_cons] at hfits ⊢
    have hsize : (b.add mem q).dataSize = b.dataSize + q.region.saved mem := addWord_of_lt (by omega)
    have hstep : Laid mem (qs ++ [q]) (b.add mem q) := hl.add (by omega)
    obtain ⟨hlaid, hend⟩ := ih hstep (by omega)
    rw [append_assoc, singleton_append] at hlaid
    exact ⟨hlaid, by rw [foldl_cons]; omega⟩

theorem addPhdrs_eq {env : JifEnv} (henv : ∀ n, env.protect n = .ok ()) (s : ProtectState) (b : JifBuild)
    (qs : List JifRegion) : (addPhdrs env mem s b qs).2 = qs.foldl (JifBuild.add mem) b := by
  induction qs generalizing s b with
  | nil => rfl
  | cons q qs ih =>
    have hreadable : ∃ s', s.makeReadable env.protect q.region = (.ok (), s') := by
      unfold ProtectState.makeReadable ProtectState.kernelMProtect
      split_ifs
      · exact ⟨_, by rw [henv]⟩
      · exact ⟨s, rfl⟩
    obtain ⟨s', hs'⟩ := hreadable
    have hstep : b.addPhdr env mem s q = (.ok (), s', b.add mem q) := by
      unfold addPhdr
      rw [hs']
    rw [addPhdrs, hstep, foldl_cons]
    exact ih s' (b.add mem q)

end JifBuild

/-! ### Sections -/

def pagePadding (n : ℕ) : ℕ := (4096 - n % 4096) % 4096

theorem pageAlign_eq_add {n : ℕ} (h : n + 4095 < 2 ^ 64) : pageAlign n = n + pagePadding n := by
  rw [pageAlign_eq h, pagePadding]
  omega

namespace OwnVectors
variable {o : OwnVectors}

theorem bytes_pad (o : OwnVectors) : o.pad.bytes = o.bytes ++ replicate (pagePadding o.bytes.length) 0 := by
  have hpage : kPageSize = 4096 := rfl
  unfold pad pagePadding
  rw [hpage]
  split_ifs with hzero
  · rw [hzero]
    simp
  have hlt : 4096 - o.bytes.length % 4096 < 4096 := by omega
  rw [Nat.mod_eq_of_lt hlt]
  rfl

def Tight (o : OwnVectors) : Prop := cells o.iovs = List.range' ownAddress o.bytes.length

theorem Tight.add (ho : o.Tight) (b : List UInt8) : (o.add b).Tight := by
  unfold Tight OwnVectors.add
  rw [cells_append, ho, length_append, ← range'_append_1]
  simp [cells, IoVec.cells]

theorem Tight.pad (ho : o.Tight) : o.pad.Tight := by
  unfold OwnVectors.pad
  split_ifs
  · exact ho
  · exact ho.add _

end OwnVectors

namespace JifBuild
variable (b : JifBuild)

def trees : List UInt8 := (b.itrees.map (JifITreeNode.shift b.header.dataOffset)).flatMap JifITreeNode.write

def table : List UInt8 := b.phdrs.flatMap JifPhdr.write

theorem tight_sections : b.sections.Tight := by
  have hnil : (⟨[], []⟩ : OwnVectors).Tight := rfl
  exact ((((((hnil.add _).add _).pad.add _).pad.add _).pad.add _).pad)

theorem length_table : b.table.length = jifPhdrSize * b.phdrs.length := Records.length_table fun h _ => h.length_write

theorem length_trees : b.trees.length = jifNodeSize * b.itrees.length := by
  rw [trees, Records.length_table fun n _ => n.length_write, length_map]

theorem length_header : b.header.write.length = jifHeaderSize := JifHeader.length_write rfl

theorem bytes_sections : b.sections.bytes = b.header.write ++ b.table ++
    replicate (pagePadding (jifHeaderSize + b.table.length)) 0 ++ b.strings ++
    replicate (pagePadding b.strings.length) 0 ++ b.trees ++ replicate (pagePadding b.trees.length) 0 := by
  have hpad : ∀ {m n : ℕ}, 4096 ∣ m → pagePadding (m + n) = pagePadding n := by
    intro m n hm
    unfold pagePadding
    omega
  have hfill : ∀ n, 4096 ∣ n + pagePadding n := by
    intro n
    unfold pagePadding
    omega
  let first := b.header.write ++ b.table ++ replicate (pagePadding (jifHeaderSize + b.table.length)) 0
  let second := first ++ b.strings ++ replicate (pagePadding b.strings.length) 0
  let third := second ++ b.trees ++ replicate (pagePadding b.trees.length) 0
  have hfirst : 4096 ∣ first.length := by
    simp only [first, length_append, length_replicate, length_header]
    exact hfill _
  have hsecond : 4096 ∣ second.length := by
    simp only [second, length_append, length_replicate, Nat.add_assoc]
    exact hfirst.add (hfill _)
  have hthird : 4096 ∣ third.length := by
    simp only [third, length_append, length_replicate, Nat.add_assoc]
    exact hsecond.add (hfill _)
  have hbytes : ∀ (o : OwnVectors) (s : List UInt8), 4096 ∣ o.bytes.length →
      (o.add s).pad.bytes = o.bytes ++ s ++ replicate (pagePadding s.length) 0 := by
    intro o s ho
    rw [OwnVectors.bytes_pad]
    simp [OwnVectors.add, length_append, hpad ho]
  have hone : (((⟨[], []⟩ : OwnVectors).add b.header.write).add b.table).pad.bytes = first := by
    rw [OwnVectors.bytes_pad]
    simp [OwnVectors.add, nil_append, length_append, length_header, first]
  have htwo : (((((⟨[], []⟩ : OwnVectors).add b.header.write).add b.table).pad).add b.strings).pad.bytes = second := by
    rw [hbytes _ _ (by rw [hone]; exact hfirst), hone]
  have hthree : (((((((⟨[], []⟩ : OwnVectors).add b.header.write).add b.table).pad).add b.strings).pad).add
      b.trees).pad.bytes = third := by
    rw [hbytes _ _ (by rw [htwo]; exact hsecond), htwo]
  have hlast : b.sections.bytes = third ++ [] ++ replicate (pagePadding 0) 0 := by
    have heq : b.sections = ((((((((⟨[], []⟩ : OwnVectors).add b.header.write).add b.table).pad).add b.strings).pad).add
      b.trees).pad.add []).pad := rfl
    rw [heq, hbytes _ _ (by rw [hthree]; exact hthird), hthree]
    rfl
  rw [hlast]
  simp [third, second, first, pagePadding]

end JifBuild

end Junction
