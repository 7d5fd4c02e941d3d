import Junction.JifSnapshot

/-!
# Reading a JIF snapshot back

A file whose sections are shorter than four gigabytes is read back as it was written: the header, the program headers,
the names and the trees. The padding of a section is read with it, as further bytes or nodes that no header points to.
-/

namespace Junction.JifBuild
open Records List JifITreeNode Nat
variable {b : JifBuild}

structure Sized (b : JifBuild) : Prop where
  nPheaders : b.header.nPheaders = b.phdrs.length
  stringsSize : b.header.stringsSize = b.strings.length + pagePadding b.strings.length
  itreesSize : b.header.itreesSize = b.trees.length + pagePadding b.trees.length
  stringsOffset : b.header.stringsOffset =
    jifHeaderSize + b.table.length + pagePadding (jifHeaderSize + b.table.length)
  dataOffset : b.header.dataOffset = b.sections.bytes.length

theorem length_sections (b : JifBuild) : b.sections.bytes.length =
    jifHeaderSize + b.table.length + pagePadding (jifHeaderSize + b.table.length) +
      (b.strings.length + pagePadding b.strings.length) + (b.trees.length + pagePadding b.trees.length) := by
  rw [bytes_sections]
  simp only [length_append, length_replicate, length_header]
  omega

theorem sized_of_le (hlen : b.sections.bytes.length ≤ kUInt32Max) : b.Sized := by
  have hmax : kUInt32Max = 2 ^ 32 - 1 := rfl
  have hsections := b.length_sections
  have htable := b.length_table
  have htrees := b.length_trees
  have hcount : b.table.length = 37 * b.phdrs.length := b.length_table
  have hn : b.header.nPheaders = b.phdrs.length := mod_eq_of_lt (by omega)
  have hstrings : b.header.stringsSize = b.strings.length + pagePadding b.strings.length := by
    have hdef : b.header.stringsSize = pageAlign b.strings.length % 2 ^ 32 := rfl
    rw [hdef, pageAlign_eq_add (by omega)]
    exact mod_eq_of_lt (by omega)
  have hitrees : b.header.itreesSize = b.trees.length + pagePadding b.trees.length := by
    have hdef : b.header.itreesSize = pageAlign (b.itrees.length * jifNodeSize) % 2 ^ 32 := rfl
    rw [hdef, mul_comm, ← htrees, pageAlign_eq_add (by omega)]
    exact mod_eq_of_lt (by omega)
  have hoffset : b.header.stringsOffset =
      jifHeaderSize + b.table.length + pagePadding (jifHeaderSize + b.table.length) := by
    have hsize : JifHeader.pheaderOffset + b.header.nPheaders * jifPhdrSize = jifHeaderSize + b.table.length := by
      rw [hn, mul_comm, ← htable]
      rfl
    rw [JifHeader.stringsOffset, hsize]
    exact pageAlign_eq_add (by omega)
  refine ⟨hn, hstrings, hitrees, hoffset, ?_⟩
  have hord : b.header.ordSize = 0 := rfl
  rw [JifHeader.dataOffset, JifHeader.ordOffset, JifHeader.itreesOffset, hord, hoffset, hstrings, hitrees, hsections,
    add_zero]

/-! ### The sections one by one -/

variable (data : List UInt8)

theorem readJifHeader_sections (b : JifBuild) : readJifHeader (b.sections.bytes ++ data) = .ok b.header := by
  have hfields : ∀ f ∈ b.header.fields, f.2 < 256 ^ f.1 := by
    have hn : b.header.nPheaders < 2 ^ 32 := mod_lt _ (by decide)
    have hstrings : b.header.stringsSize < 2 ^ 32 := mod_lt _ (by decide)
    have hitrees : b.header.itreesSize < 2 ^ 32 := mod_lt _ (by decide)
    have hversion : kJifVersion < 256 ^ 4 := by decide
    simp only [JifHeader.fields, forall_mem_cons]
    exact ⟨hn, hstrings, hitrees, Nat.pow_pos (by decide), hversion, Nat.pow_pos (by decide), Nat.pow_pos (by decide),
      by simp⟩
  have hread : readFull (b.sections.bytes ++ data) 0 jifHeaderSize = .ok b.header.write := by
    have hsplit : b.sections.bytes ++ data = [] ++ b.header.write ++
        (b.table ++ replicate (pagePadding (jifHeaderSize + b.table.length)) 0 ++ b.strings ++
          replicate (pagePadding b.strings.length) 0 ++ b.trees ++ replicate (pagePadding b.trees.length) 0 ++
          data) := by
      simp [bytes_sections]
    exact readFull_of_eq hsplit rfl b.length_header.symm
  have hback : JifHeader.read b.header.write = b.header := by
    have hrest := @JifHeader.read_write b.header rfl hfields []
    rwa [append_nil] at hrest
  have hvalid : b.header.isValid := rfl
  simp only [readJifHeader, hread, hback, hvalid, if_true]

variable (hsized : b.Sized)
include hsized

theorem readJifPHDRs_sections (hvalid : ∀ h ∈ b.phdrs, h.isValid)
    (hfits : ∀ h ∈ b.phdrs, ∀ f ∈ h.fields, f.2 < 256 ^ f.1) :
    readJifPHDRs (b.sections.bytes ++ data) b.header = .ret (.ok b.phdrs) := by
  have hread : readFull (b.sections.bytes ++ data) JifHeader.pheaderOffset (jifPhdrSize * b.phdrs.length) =
      .ok b.table := by
    have hsplit : b.sections.bytes ++ data = b.header.write ++ b.table ++
        (replicate (pagePadding (jifHeaderSize + b.table.length)) 0 ++ b.strings ++
          replicate (pagePadding b.strings.length) 0 ++ b.trees ++ replicate (pagePadding b.trees.length) 0 ++
          data) := by
      simp [bytes_sections]
    exact readFull_of_eq hsplit b.length_header.symm b.length_table.symm
  have hdecode : decodeTable jifPhdrSize JifPhdr.read b.phdrs.length b.table = b.phdrs := by
    have hall := @decodeTable_append _ jifPhdrSize JifPhdr.read JifPhdr.write b.phdrs [] (fun h _ => h.length_write)
      (fun h hh rest => JifPhdr.read_write (hfits h hh) rest) 0
    simpa [decodeTable, table] using hall
  simp only [readJifPHDRs, hsized.nPheaders, hread, hdecode, all_eq_true.mpr hvalid, if_true]

theorem readJifStrings_sections : readJifStrings (b.sections.bytes ++ data) b.header =
    .ok (b.strings ++ replicate (pagePadding b.strings.length) 0) := by
  have hsplit : b.sections.bytes ++ data =
      (b.header.write ++ b.table ++ replicate (pagePadding (jifHeaderSize + b.table.length)) 0) ++
        (b.strings ++ replicate (pagePadding b.strings.length) 0) ++
        (b.trees ++ replicate (pagePadding b.trees.length) 0 ++ data) := by
    simp [bytes_sections]
  apply readFull_of_eq hsplit
  · rw [hsized.stringsOffset, length_append, length_append, length_header, length_replicate]
  · rw [hsized.stringsSize, length_append, length_replicate]

theorem readJifITrees_sections
    (hfits : ∀ n ∈ b.itrees.map (shift b.header.dataOffset), ∀ f ∈ n.fields, f.2 < 256 ^ f.1) :
    ∃ more, readJifITrees (b.sections.bytes ++ data) b.header =
      .ok (b.itrees.map (shift b.header.dataOffset) ++ more) := by
  let nodes := b.itrees.map (shift b.header.dataOffset)
  have htrees : b.trees.length = 72 * nodes.length := by
    rw [length_trees, length_map]
    rfl
  let n := b.header.itreesSize / jifNodeSize
  have hn : n = (b.trees.length + pagePadding b.trees.length) / 72 := congrArg (· / 72) hsized.itreesSize
  obtain ⟨extra, hextra⟩ : ∃ extra, n = nodes.length + extra := Nat.exists_eq_add_of_le (by omega)
  obtain ⟨rest, hrest⟩ : ∃ rest, pagePadding b.trees.length = 72 * extra + rest := Nat.exists_eq_add_of_le (by omega)
  have hread : readFull (b.sections.bytes ++ data) b.header.itreesOffset (jifNodeSize * n) =
      .ok (b.trees ++ replicate (72 * extra) 0) := by
    have hsplit : b.sections.bytes ++ data =
        (b.header.write ++ b.table ++ replicate (pagePadding (jifHeaderSize + b.table.length)) 0 ++ b.strings ++
          replicate (pagePadding b.strings.length) 0) ++
          (b.trees ++ replicate (72 * extra) 0) ++ (replicate rest 0 ++ data) := by
      have hzeros : replicate (pagePadding b.trees.length) (0 : UInt8) =
          replicate (72 * extra) 0 ++ replicate rest 0 := by
        rw [hrest, replicate_add]
      rw [bytes_sections, hzeros]
      simp only [append_assoc]
    apply readFull_of_eq hsplit
    · rw [JifHeader.itreesOffset, hsized.stringsOffset, hsized.stringsSize]
      simp only [length_append, length_header, length_replicate]
      omega
    have hsize : jifNodeSize = 72 := rfl
    rw [length_append, length_replicate, hsize]
    omega
  refine ⟨decodeTable jifNodeSize read extra (replicate (72 * extra) 0), ?_⟩
  have hdecode := @decodeTable_append _ jifNodeSize read write nodes
    (replicate (72 * extra) 0) (fun n _ => n.length_write) (fun n hn rest => read_write (hfits n hn) rest)
    extra
  rw [← hextra] at hdecode
  have hall : readJifITrees (b.sections.bytes ++ data) b.header =
      .ok (decodeTable jifNodeSize read n (b.trees ++ replicate (72 * extra) 0)) := by
    dsimp only [readJifITrees]
    rw [hread]
  rw [hall]
  exact congrArg Except.ok hdecode

theorem parseJIF_sections (hvalid : ∀ h ∈ b.phdrs, h.isValid) (hphdrs : ∀ h ∈ b.phdrs, ∀ f ∈ h.fields, f.2 < 256 ^ f.1)
    (hnodes : ∀ n ∈ b.itrees.map (shift b.header.dataOffset), ∀ f ∈ n.fields, f.2 < 256 ^ f.1) :
    ∃ more, parseJIF (b.sections.bytes ++ data) = .ret (.ok ⟨b.header, b.phdrs,
      b.strings ++ replicate (pagePadding b.strings.length) 0,
      b.itrees.map (shift b.header.dataOffset) ++ more⟩) := by
  obtain ⟨more, hmore⟩ := readJifITrees_sections data hsized hnodes
  have hord : readJifOrd (b.sections.bytes ++ data) b.header = .ok () := by
    have hzero : b.header.ordSize = 0 := rfl
    simp [readJifOrd, readFull, hzero]
  refine ⟨more, ?_⟩
  simp only [parseJIF, readJifHeader_sections data b, readJifPHDRs_sections data hsized hvalid hphdrs,
    readJifStrings_sections data hsized, hmore, hord]

end Junction.JifBuild

/-! ### Restoring

What a program header makes the loader map: the whole region, then the saved part, and then zero pages over the rest of
a reference file's data. -/

namespace Junction
open List JifInterval

/-! ### Mappings that are granted -/

namespace JifLoadState
variable {env : JifLoadEnv}

theorem call_mappable {c : LoadCall} (s : JifLoadState) (henv : ∀ n, (env.host n).Grants) (hc : c.Mappable) :
    ∃ s', s.call env c = (.ok (), s') ∧ s'.effects = s.effects ++ [c.effect] := by
  cases c with
  | mapFile f start len p off =>
    obtain ⟨hstart, hlen, hpos, hend, hoff, hsum⟩ := hc
    have hword : (BitVec.ofNat 64 off).toNat = off := by
      rw [BitVec.toNat_ofNat]
      exact Nat.mod_eq_of_lt (by omega)
    obtain ⟨r, hr⟩ := henv s.calls start len p (env.flags ||| MAP_FIXED ||| MAP_PRIVATE) (some f) (BitVec.ofNat 64 off)
      hstart hpos hend (by omega) (by omega)
    exact ⟨⟨s.calls + 1, s.effects ++ [(LoadCall.mapFile f start len p off).effect]⟩, by simp only [call, hr], rfl⟩
  | mapAnonymous start len p =>
    obtain ⟨hstart, hlen, hpos, hend⟩ := hc
    have hbound : start + len ≤ 2 ^ 47 := hend
    have hzero : (0 : BitVec 64).toNat = 0 := rfl
    obtain ⟨r, hr⟩ := henv s.calls start len p (env.flags ||| MAP_ANONYMOUS ||| MAP_FIXED ||| MAP_PRIVATE) none 0
      hstart hpos hend (by omega) (by omega)
    exact ⟨⟨s.calls + 1, s.effects ++ [(LoadCall.mapAnonymous start len p).effect]⟩, by simp only [call, hr], rfl⟩
  | protect | zero => exact hc.elim

theorem run_mappable {calls : List LoadCall} (s : JifLoadState) (henv : ∀ n, (env.host n).Grants)
    (hcalls : ∀ c ∈ calls, c.Mappable) :
    ∃ s', s.run env calls = (.ok (), s') ∧ s'.effects = s.effects ++ calls.map LoadCall.effect := by
  induction calls generalizing s with
  | nil => exact ⟨s, rfl, (append_nil _).symm⟩
  | cons c calls ih =>
    obtain ⟨hc, hrest⟩ := forall_mem_cons.mp hcalls
    obtain ⟨t, ht, heffects⟩ := s.call_mappable henv hc
    obtain ⟨s', hs', hend⟩ := ih t hrest
    refine ⟨s', ?_, ?_⟩
    · rw [run, ht]
      exact hs'
    · rw [hend, heffects, append_assoc, map_cons, singleton_append]

theorem loadPhdr_mappable {jif : JifData} {jifFile : FileRef} {h : JifPhdr} {c : LoadCall} (s : JifLoadState)
    (henv : ∀ n, (env.host n).Grants) (hbacking : h.backing env.openFile jif.strings = .ok c) (hc : c.Mappable)
    (htree : h.itreeNNodes ≠ 0 → itreeValid (h.tree jif.itrees) h.vbegin h.vend 0)
    (hcalls : ∀ c ∈ h.overlays jifFile jif.itrees, c.Mappable) :
    ∃ s', s.loadPhdr env jif jifFile h = (.ret (.ok ()), s') ∧
      s'.effects = s.effects ++ (c :: h.overlays jifFile jif.itrees).map LoadCall.effect := by
  obtain ⟨t, ht, hfirst⟩ := @run_mappable env [c] s henv (forall_mem_singleton.mpr hc)
  obtain ⟨s', hs', hend⟩ := t.run_mappable henv hcalls
  unfold loadPhdr
  simp only [hbacking, ht]
  by_cases hzero : h.itreeNNodes = 0
  · have hnil : h.overlays jifFile jif.itrees = [] := by
      rw [JifPhdr.overlays, JifPhdr.tree, hzero, take_zero]
      rfl
    rw [if_pos hzero, hnil]
    exact ⟨t, rfl, hfirst⟩
  have hvalid : ¬ itreeValid (h.tree jif.itrees) h.vbegin h.vend 0 = false := by
    rw [htree hzero]
    nofun
  rw [if_neg hzero, if_neg hvalid, hs']
  refine ⟨s', rfl, ?_⟩
  rw [hend, hfirst, append_assoc, map_cons, map_cons, map_nil, singleton_append]

end JifLoadState

/-! ### The tree of a region -/

theorem jifProtToLinuxProt_linuxProtToJIFProt (p : Prot) : jifProtToLinuxProt (linuxProtToJIFProt p) = hostProt p := by
  have hflags : ∀ a b c : Bool, jifProtToLinuxProt ((if a then kJIFFlagExec else 0) |||
      (if b then kJIFFlagWrite else 0) ||| (if c then kJIFFlagRead else 0)) =
      (if c then PROT_READ else 0) ||| (if b then PROT_WRITE else 0) ||| (if a then PROT_EXEC else 0) := by
    decide
  rw [linuxProtToJIFProt, hflags, hostProt_eq]

namespace JifInterval
variable {i : JifInterval} {off min max : ℕ}

theorem shift_empty (off : ℕ) : empty.shift off = empty := by
  have hnone : empty.hasOffset = false := by decide
  rw [shift, hnone]
  rfl

theorem start_shift (off : ℕ) (i : JifInterval) : (i.shift off).start = i.start := by
  unfold shift
  split_ifs <;> rfl

theorem stop_shift (off : ℕ) (i : JifInterval) : (i.shift off).stop = i.stop := by
  unfold shift
  split_ifs <;> rfl

theorem within_of_le (hlo : min ≤ i.start) (hhi : i.stop ≤ max) : i.within min max := by
  simp [within, Nat.not_lt.mpr hlo, Nat.not_lt.mpr hhi]

theorem within_empty : empty.within min max := by
  have hnot : empty.isValid = false := by decide
  rw [within, hnot]
  rfl

end JifInterval

namespace JifRegion
variable {mem : ℕ → UInt8} {q : JifRegion} {off shift : ℕ}

def dataInterval (mem : ℕ → UInt8) (q : JifRegion) (off : ℕ) : List JifInterval :=
  if q.region.saved mem = 0 then [] else [⟨q.region.start, q.region.start + q.region.saved mem, off⟩]

/-- The second interval, if the data of a reference file ends with zeros. -/
def zeroInterval (mem : ℕ → UInt8) (q : JifRegion) : List JifInterval :=
  if q.refOffset ≠ kUInt64Max ∧ q.region.saved mem < q.region.data then
    [⟨q.region.start + q.region.saved mem, q.region.start + q.region.data, kUInt64Max⟩]
  else []

variable (hq : q.region.Sound)
include hq

theorem intervals_eq (off : ℕ) : q.intervals mem off = q.dataInterval mem off ++ q.zeroInterval mem := by
  have hstop := hq.stop_lt
  have hsaved := @Region.Sound.saved_le mem q.region hq
  have hdata := hq.data_le
  have hfirst : addWord q.region.start (q.region.saved mem) = q.region.start + q.region.saved mem :=
    addWord_of_lt (by omega)
  have hsecond : addWord q.region.start q.region.data = q.region.start + q.region.data := addWord_of_lt (by omega)
  simp [intervals, dataInterval, zeroInterval, hfirst, hsecond]

theorem interval_le {i : JifInterval} (hi : i ∈ q.intervals mem off) :
    q.region.start ≤ i.start ∧ i.stop ≤ q.region.stop ∧ i.start < i.stop := by
  have hsaved := @Region.Sound.saved_le mem q.region hq
  have hdata := hq.data_le
  have hstop := q.region.stop_eq
  rw [intervals_eq hq, dataInterval, zeroInterval] at hi
  rcases mem_append.mp hi with hi | hi
  · split_ifs at hi with hzero
    · cases hi
    · obtain rfl := mem_singleton.mp hi
      exact ⟨le_rfl, by dsimp only; omega, by dsimp only; omega⟩
  split_ifs at hi with hcond
  · obtain rfl := mem_singleton.mp hi
    exact ⟨by dsimp only; omega, by dsimp only; omega, by dsimp only; omega⟩
  · cases hi

theorem isValid_interval {i : JifInterval} (hi : i ∈ q.intervals mem off) : i.isValid := by
  obtain ⟨-, hstop, hlt⟩ := interval_le hq hi
  have hend := hq.stop_lt
  have hmax : kUInt64Max = 2 ^ 64 - 1 := rfl
  have hregion := q.region.stop_eq
  have hne : i.start ≠ kUInt64Max := by omega
  simp [isValid, hne]

theorem intervals_cases (off : ℕ) : q.intervals mem off = [] ∨
    (∃ i, q.intervals mem off = [i]) ∨ ∃ i j, q.intervals mem off = [i, j] ∧ i.stop ≤ j.start := by
  rw [intervals_eq hq, dataInterval, zeroInterval]
  split_ifs
  · exact .inr (.inl ⟨_, rfl⟩)
  · exact .inl rfl
  · exact .inr (.inr ⟨_, _, rfl, le_rfl⟩)
  · exact .inr (.inl ⟨_, rfl⟩)

theorem filter_ranges_node (off shift : ℕ) : ((q.node mem off).shift shift).ranges.filter isValid =
      (q.intervals mem off).map (JifInterval.shift shift) := by
  have hempty : empty.isValid = false := by decide
  have hvalid : ∀ i ∈ q.intervals mem off, (i.shift shift).isValid := by
    intro i hi
    rw [isValid, start_shift]
    exact isValid_interval hq hi
  rcases @intervals_cases mem q hq off with hnil | ⟨i, hone⟩ | ⟨i, j, htwo, -⟩
  · simp [node, JifITreeNode.shift, JifITreeNode.ranges, hnil, shift_empty, hempty]
  · rw [hone] at hvalid
    simp [node, JifITreeNode.shift, JifITreeNode.ranges, hone, shift_empty, hempty, hvalid i (by simp)]
  rw [htwo] at hvalid
  simp [node, JifITreeNode.shift, JifITreeNode.ranges, htwo, shift_empty, hempty,
    hvalid i (by simp), hvalid j (by simp)]

theorem itreeValid_node (off shift : ℕ) : itreeValid [(q.node mem off).shift shift] q.region.start q.region.stop 0 := by
  have hwithin : ∀ i ∈ q.intervals mem off, (i.shift shift).within q.region.start q.region.stop := by
    intro i hi
    obtain ⟨hlo, hhi, -⟩ := interval_le hq hi
    exact within_of_le (by rwa [start_shift]) (by rwa [stop_shift])
  rw [itreeValid_single]
  rcases @intervals_cases mem q hq off with hnil | ⟨i, hone⟩ | ⟨i, j, htwo, hle⟩
  · simp [node, JifITreeNode.shift, hnil, shift_empty, within_empty]
  · rw [hone] at hwithin
    simp [node, JifITreeNode.shift, hone, shift_empty, within_empty, hwithin i (by simp)]
  have hsecond : (j.shift shift).within (i.shift shift).stop q.region.stop := by
    obtain ⟨-, hhi, -⟩ := @interval_le mem q off hq j (by rw [htwo]; simp)
    exact within_of_le (by rwa [start_shift, stop_shift]) (by rwa [stop_shift])
  rw [htwo] at hwithin
  simp [node, JifITreeNode.shift, htwo, shift_empty, within_empty, hwithin i (by simp), hsecond]

omit hq

/-! ### The calls of a region -/

/-- The mapping of the saved part, which is at `place` in the file. -/
def dataCalls (mem : ℕ → UInt8) (q : JifRegion) (jifFile : FileRef) (place : ℕ) : List LoadCall :=
  if q.region.saved mem ≠ 0 then [.mapFile jifFile q.region.start (q.region.saved mem) (hostProt q.region.prot) place]
  else []

def zeroCalls (mem : ℕ → UInt8) (q : JifRegion) : List LoadCall :=
  if q.refOffset ≠ kUInt64Max ∧ q.region.saved mem < q.region.data then
    [.mapAnonymous (q.region.start + q.region.saved mem) (q.region.data - q.region.saved mem) (hostProt q.region.prot)]
  else []

include hq

theorem overlay_intervals (hplace : off + shift < 2 ^ 63) {h : JifPhdr} (jifFile : FileRef)
    (hprot : jifProtToLinuxProt (BitVec.ofNat 32 h.prot) = hostProt q.region.prot) :
    ((q.intervals mem off).map (JifInterval.shift shift)).map (h.overlay jifFile) =
      q.dataCalls mem jifFile (off + shift) ++ q.zeroCalls mem := by
  have hstop := hq.stop_lt
  have hsaved := @Region.Sound.saved_le mem q.region hq
  have hdata := hq.data_le
  have hmax : kUInt64Max = 2 ^ 64 - 1 := rfl
  rw [intervals_eq hq, map_append, map_append, dataInterval, zeroInterval, dataCalls, zeroCalls]
  congr 1
  · by_cases hzero : q.region.saved mem = 0
    · rw [if_pos hzero, if_neg (not_not.mpr hzero)]
      rfl
    rw [if_neg hzero, if_pos hzero]
    have hoff : off ≠ kUInt64Max := by omega
    have hsum : addWord off shift = off + shift := addWord_of_lt (by omega)
    have hplace' : off + shift ≠ kUInt64Max := by omega
    have hlen : subWord (q.region.start + q.region.saved mem) q.region.start = q.region.saved mem := by
      rw [subWord_of_le (by omega) (by omega), Nat.add_sub_cancel_left]
    simp [JifInterval.shift, JifInterval.hasOffset, hoff, hsum, JifPhdr.overlay, hplace', hprot, JifInterval.len, hlen]
  · split_ifs with hcond
    · have hlen : subWord (q.region.start + q.region.data) (q.region.start + q.region.saved mem) =
          q.region.data - q.region.saved mem := by
        rw [subWord_of_le (by omega) (by omega), Nat.add_sub_add_left]
      simp [JifInterval.shift, JifInterval.hasOffset, JifPhdr.overlay, hprot, JifInterval.len, hlen]
    · rfl

end JifRegion

end Junction
