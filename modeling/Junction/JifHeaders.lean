import Junction.JifParse

/-!
# The program headers of a JIF snapshot

Every header of a snapshot fits into its record, finds its tree and its name in the sections, and passes the checks of
the loader. The mappings that it asks for can be made, and they put the region back.
-/

namespace Junction
open List Nat LoadCall HostEffect

/-- The sections are short enough for the sizes and positions in the headers. -/
structure JifBuild.Short (b : JifBuild) : Prop where
  itrees : b.itrees.length < 2 ^ 32
  strings : b.strings.length < 2 ^ 32
  sections : b.sections.bytes.length < 2 ^ 32

theorem JifBuild.short_of_le {b : JifBuild} (hlen : b.sections.bytes.length ≤ kUInt32Max) : b.Short := by
  have hmax : kUInt32Max = 2 ^ 32 - 1 := rfl
  have hsections := b.length_sections
  have htrees : b.trees.length = 72 * b.itrees.length := b.length_trees
  exact ⟨by omega, by omega, by omega⟩

namespace JifBuild.Recorded
variable {mem : ℕ → UInt8} {b : JifBuild} {q : JifRegion} {h : JifPhdr} {treeIdx namePos off : ℕ}

variable (hr : Recorded mem b q h treeIdx namePos off)
include hr

theorem vend_eq (hq : q.Sound) : h.vend = q.region.stop := by
  have hstop := hq.region.stop_lt
  rw [hr.eq]
  exact addWord_of_lt (by omega)

theorem vbegin_eq : h.vbegin = q.region.start := by
  rw [hr.eq]
  rfl

theorem refOffset_eq : h.refOffset = q.refOffset := by
  rw [hr.eq]
  rfl

theorem len_eq (hq : q.Sound) : h.len = q.region.size := by
  have hstop := hq.region.stop_lt
  have hregion := q.region.stop_eq
  rw [JifPhdr.len, hr.vend_eq hq, hr.vbegin_eq, subWord_of_le (by omega) (by omega)]
  omega

theorem prot_eq : jifProtToLinuxProt (BitVec.ofNat 32 h.prot) = hostProt q.region.prot := by
  have hprot : h.prot = (linuxProtToJIFProt q.region.prot).toNat := by
    rw [hr.eq]
    rfl
  rw [hprot, BitVec.ofNat_toNat, BitVec.setWidth_eq, jifProtToLinuxProt_linuxProtToJIFProt]

theorem tree_eq (hshort : b.Short) (f : JifITreeNode → JifITreeNode) (more : List JifITreeNode) :
    h.tree (b.itrees.map f ++ more) = if q.intervals mem off = [] then [] else [f (q.node mem off)] := by
  have hcount : h.itreeNNodes = if q.intervals mem 0 = [] then 0 else 1 := by
    rw [hr.eq]
    rfl
  have hidx : h.itreeIdx = treeIdx % 2 ^ 32 := by
    rw [hr.eq]
    rfl
  unfold JifPhdr.tree
  by_cases hnil : q.intervals mem off = []
  · rw [hcount, if_pos ((JifRegion.intervals_eq_nil off 0).mp hnil), if_pos hnil, take_zero]
  have hne : ¬ q.intervals mem 0 = [] := fun h0 => hnil ((JifRegion.intervals_eq_nil 0 off).mp h0)
  obtain ⟨hlt, hnode⟩ := List.getElem?_eq_some_iff.mp (hr.tree hnil)
  have hitrees := hshort.itrees
  have hlt' : treeIdx < (b.itrees.map f ++ more).length := by
    rw [length_append, length_map]
    omega
  have hget : (b.itrees.map f ++ more)[treeIdx] = f (q.node mem off) := by
    rw [getElem_append_left (by rw [length_map]; exact hlt), getElem_map, hnode]
  rw [hcount, if_neg hne, if_neg hnil, hidx, mod_eq_of_lt (by omega), drop_eq_getElem_cons hlt', hget]
  rfl

theorem stringAt_eq (hq : q.Sound) (hshort : b.Short) (hne : q.name ≠ []) (more : List UInt8) :
    stringAt (b.strings ++ more) h.pathnameOffset = q.name ∧ h.pathnameOffset < b.strings.length := by
  obtain ⟨rest, hrest⟩ := hr.name hne
  have hlt : namePos < b.strings.length := by
    by_contra hge
    rw [drop_eq_nil_of_le (by omega)] at hrest
    simp at hrest
  have hstrings := hshort.strings
  have hpos : h.pathnameOffset = namePos := by
    rw [hr.eq]
    change (if q.name = [] then kUInt32Max else namePos % 2 ^ 32) = namePos
    rw [if_neg hne, mod_eq_of_lt (by omega)]
  have hall : ∀ c ∈ q.name, (c != 0) := by
    intro c hc
    rw [bne_iff_ne]
    rintro rfl
    exact hq.nul hc
  rw [hpos]
  refine ⟨?_, hlt⟩
  rw [stringAt, drop_append_of_le_length hlt.le, ← hrest, append_assoc, append_assoc, takeWhile_append_of_pos hall]
  simp

theorem isValid (hq : q.Sound) (hshort : b.Short) : h.isValid := by
  have hstop := hq.region.stop_lt
  have hregion := q.region.stop_eq
  have hbegin : isPageAligned h.vbegin := by
    rw [hr.vbegin_eq]
    exact (isPageAligned_iff (by omega)).mpr hq.region.start_dvd
  have hend : isPageAligned h.vend := by
    rw [hr.vend_eq hq]
    exact (isPageAligned_iff (by omega)).mpr (hq.region.start_dvd.add hq.region.size_dvd)
  have horder : ¬ h.vend < h.vbegin := by
    rw [hr.vend_eq hq, hr.vbegin_eq]
    omega
  unfold JifPhdr.isValid
  rw [if_neg (by rw [hbegin, hend]; nofun), if_neg horder]
  split_ifs with href halign hname
  · have hne : q.refOffset ≠ kUInt64Max := by
      rw [← hr.refOffset_eq]
      simpa [JifPhdr.hasRefFile] using href
    obtain ⟨hdvd, hlt, -⟩ := hq.offset hne
    rw [hr.refOffset_eq, ← Bool.not_eq_true] at halign
    exact absurd ((isPageAligned_iff (by omega)).mpr hdvd) halign
  · have hne : q.refOffset ≠ kUInt64Max := by
      rw [← hr.refOffset_eq]
      simpa [JifPhdr.hasRefFile] using href
    have hnamed : q.name ≠ [] := fun hnil => hne (hq.named.mpr hnil)
    obtain ⟨-, hlt⟩ := hr.stringAt_eq hq hshort hnamed []
    have hstrings := hshort.strings
    have hmax : kUInt32Max = 2 ^ 32 - 1 := rfl
    omega
  · rfl
  · rfl

theorem fits (hq : q.Sound) : ∀ f ∈ h.fields, f.2 < 256 ^ f.1 := by
  have hstop := hq.region.stop_lt
  have hregion := q.region.stop_eq
  have hmax : kUInt64Max = 2 ^ 64 - 1 := rfl
  have hbegin : h.vbegin < 256 ^ 8 := by
    rw [hr.vbegin_eq]
    omega
  have hend : h.vend < 256 ^ 8 := by
    rw [hr.vend_eq hq]
    omega
  have href : h.refOffset < 256 ^ 8 := by
    rw [hr.refOffset_eq]
    by_cases hne : q.refOffset = kUInt64Max
    · omega
    · have hoffset := hq.offset hne
      omega
  have hidx : h.itreeIdx < 256 ^ 4 := by
    rw [hr.eq]
    exact mod_lt _ (by decide)
  have hcount : h.itreeNNodes < 256 ^ 4 := by
    rw [hr.eq]
    change (if q.intervals mem 0 = [] then 0 else 1) < 256 ^ 4
    split_ifs <;> decide
  have hpath : h.pathnameOffset < 256 ^ 4 := by
    rw [hr.eq]
    change (if q.name = [] then kUInt32Max else namePos % 2 ^ 32) < 256 ^ 4
    split_ifs
    · decide
    · exact mod_lt _ (by decide)
  have hprot : h.prot < 256 ^ 1 := by
    have hbits : ∀ a b c : Bool, ((if a then kJIFFlagExec else 0) ||| (if b then kJIFFlagWrite else 0) |||
        (if c then kJIFFlagRead else 0)).toNat < 256 ^ 1 := by
      decide
    rw [hr.eq]
    exact hbits _ _ _
  simp only [JifPhdr.fields, forall_mem_cons]
  exact ⟨hbegin, hend, href, hidx, hcount, hpath, hprot, by simp⟩

end JifBuild.Recorded

/-! ### Nodes -/

def JifInterval.Words (i : JifInterval) : Prop := i.start < 2 ^ 64 ∧ i.stop < 2 ^ 64 ∧ i.offset < 2 ^ 64

def JifITreeNode.Words (n : JifITreeNode) : Prop := n.first.Words ∧ n.second.Words ∧ n.third.Words

theorem JifInterval.Words.shift {i : JifInterval} (h : i.Words) (off : ℕ) : (i.shift off).Words := by
  unfold JifInterval.shift
  split_ifs
  · exact ⟨h.1, h.2.1, mod_lt _ (by decide)⟩
  · exact h

theorem JifITreeNode.Words.fits {n : JifITreeNode} (h : n.Words) (off : ℕ) :
    ∀ f ∈ (n.shift off).fields, f.2 < 256 ^ f.1 := by
  have hpow : (256 : ℕ) ^ 8 = 2 ^ 64 := by norm_num
  obtain ⟨hfirst, hsecond, hthird⟩ := h
  have hone := hfirst.shift off
  have htwo := hsecond.shift off
  have hthree := hthird.shift off
  simp only [JifITreeNode.fields, JifInterval.fields, JifITreeNode.shift, cons_append, nil_append,
    forall_mem_cons, hpow]
  exact ⟨hone.1, hone.2.1, hone.2.2, htwo.1, htwo.2.1, htwo.2.2, hthree.1, hthree.2.1, hthree.2.2, by simp⟩

theorem JifRegion.words_node {mem : ℕ → UInt8} {q : JifRegion} {off : ℕ} (hstart : q.region.start < 2 ^ 64)
    (hoff : off < 2 ^ 64) : (q.node mem off).Words := by
  have hmax : kUInt64Max < 2 ^ 64 := by decide
  have hempty : JifInterval.empty.Words := ⟨hmax, hmax, hmax⟩
  have hall : ∀ i ∈ q.intervals mem off, i.Words := by
    intro i hi
    rcases mem_append.mp hi with hi | hi
    · split_ifs at hi
      · cases hi
      · obtain rfl := mem_singleton.mp hi
        exact ⟨hstart, mod_lt _ (by decide), hoff⟩
    split_ifs at hi
    · obtain rfl := mem_singleton.mp hi
      exact ⟨mod_lt _ (by decide), mod_lt _ (by decide), hmax⟩
    · cases hi
  have hget : ∀ k, ((q.intervals mem off).getD k .empty).Words := by
    intro k
    rw [getD_eq_getElem?_getD]
    cases hk : (q.intervals mem off)[k]? with
    | none => exact hempty
    | some i => exact hall i (mem_of_getElem? hk)
  exact ⟨hget 0, hget 1, hget 2⟩

theorem JifBuild.words_foldl {mem : ℕ → UInt8} {qs : List JifRegion} {b : JifBuild}
    (hqs : ∀ q ∈ qs, q.region.start < 2 ^ 64) (hb : ∀ n ∈ b.itrees, n.Words) (hsize : b.dataSize < 2 ^ 64) :
    ∀ n ∈ (qs.foldl (JifBuild.add mem) b).itrees, n.Words := by
  induction qs generalizing b with
  | nil => exact hb
  | cons q qs ih =>
    obtain ⟨hq, hrest⟩ := forall_mem_cons.mp hqs
    apply ih hrest
    · intro n hn
      unfold JifBuild.add at hn
      dsimp only at hn
      split_ifs at hn
      · exact hb n hn
      rcases mem_append.mp hn with hn | hn
      · exact hb n hn
      · obtain rfl := mem_singleton.mp hn
        exact JifRegion.words_node hq hsize
    · exact mod_lt _ (by decide)

/-! ### The mappings of a header -/

def JifPhdr.calls (h : JifPhdr) (openFile : List UInt8 → Status FileRef) (jif : JifData) (jifFile : FileRef) :
    List LoadCall :=
  match h.backing openFile jif.strings with
  | .error _ => []
  | .ok c => c :: h.overlays jifFile jif.itrees

theorem JifLoadState.loadPhdrs_mappable {env : JifLoadEnv} {jif : JifData} {jifFile : FileRef} {phdrs : List JifPhdr}
    (s : JifLoadState) (henv : ∀ n, (env.host n).Grants)
    (hbacking : ∀ h ∈ phdrs, ∃ c, h.backing env.openFile jif.strings = .ok c)
    (htree : ∀ h ∈ phdrs, itreeValid (h.tree jif.itrees) h.vbegin h.vend 0)
    (hcalls : ∀ h ∈ phdrs, ∀ c ∈ h.calls env.openFile jif jifFile, c.Mappable) :
    ∃ s', loadPhdrs env jif jifFile s phdrs = (.ret (.ok ()), s') ∧
      s'.effects = s.effects ++ phdrs.flatMap fun h => (h.calls env.openFile jif jifFile).map effect := by
  induction phdrs generalizing s with
  | nil => exact ⟨s, rfl, (append_nil _).symm⟩
  | cons h phdrs ih =>
    obtain ⟨⟨c, hc⟩, hbacking⟩ := forall_mem_cons.mp hbacking
    obtain ⟨hvalid, htree⟩ := forall_mem_cons.mp htree
    obtain ⟨hfirst, hcalls⟩ := forall_mem_cons.mp hcalls
    have hlist : h.calls env.openFile jif jifFile = c :: h.overlays jifFile jif.itrees := by
      unfold JifPhdr.calls
      rw [hc]
    rw [hlist] at hfirst
    obtain ⟨hmap, hover⟩ := forall_mem_cons.mp hfirst
    obtain ⟨t, ht, heffects⟩ := s.loadPhdr_mappable henv hc hmap (fun _ => hvalid) hover
    obtain ⟨s', hs', hend⟩ := ih t hbacking htree hcalls
    refine ⟨s', ?_, ?_⟩
    · rw [loadPhdrs, ht]
      exact hs'
    · rw [hend, heffects, flatMap_cons, hlist, append_assoc]

namespace JifRegion
variable {mem : ℕ → UInt8} {q : JifRegion} {g jifFile : FileRef} {place : ℕ}

/-- The mapping of the whole region, to the file `g` if it has a reference file. -/
def backingCall (q : JifRegion) (g : FileRef) : LoadCall :=
  if q.refOffset = kUInt64Max then .mapAnonymous q.region.start q.region.size (hostProt q.region.prot)
  else .mapFile g q.region.start q.region.size (hostProt q.region.prot) q.refOffset

def calls (mem : ℕ → UInt8) (q : JifRegion) (g jifFile : FileRef) (place : ℕ) : List LoadCall :=
  q.backingCall g :: (q.dataCalls mem jifFile place ++ q.zeroCalls mem)

theorem mappable_calls (hq : q.Sound) (hd : 4096 ∣ place) (hend : place + q.region.saved mem < 2 ^ 63) :
    ∀ c ∈ q.calls mem g jifFile place, c.Mappable := by
  have hsaved := @Region.Sound.saved_le mem q.region hq.region
  have hdata := hq.region.data_le
  have hstop : q.region.start + q.region.size ≤ kUserEnd := hq.region.stop_le
  have hpages := q.region.dvd_saved mem
  refine forall_mem_cons.mpr ⟨?_, forall_mem_append.mpr ⟨fun c hc => ?_, fun c hc => ?_⟩⟩
  · unfold backingCall
    split_ifs with href
    · exact ⟨hq.region.start_dvd, hq.region.size_dvd, hq.region.size_pos, hstop⟩
    · obtain ⟨hoff, hsum, -⟩ := hq.offset href
      exact ⟨hq.region.start_dvd, hq.region.size_dvd, hq.region.size_pos, hstop, hoff, hsum⟩
  · unfold dataCalls at hc
    split_ifs at hc with hne
    · obtain rfl := mem_singleton.mp hc
      exact ⟨hq.region.start_dvd, hpages, pos_of_ne_zero hne, by omega, hd, hend⟩
    · cases hc
  unfold zeroCalls at hc
  split_ifs at hc with hcond
  · obtain rfl := mem_singleton.mp hc
    obtain ⟨-, -, hdvd⟩ := hq.offset hcond.1
    exact ⟨hq.region.start_dvd.add hpages, dvd_sub hdvd hpages, by omega, by omega⟩
  · cases hc

theorem effects_calls (hq : q.Sound) : (q.calls mem g jifFile place).map effect =
    [.map q.region.start q.region.stop (hostProt q.region.prot)
      (if q.refOffset = kUInt64Max then none else some (g, q.refOffset))] ++
    (if q.region.saved mem ≠ 0 then [.map q.region.start (q.region.start + q.region.saved mem) (hostProt q.region.prot)
      (some (jifFile, place))] else []) ++
    if q.refOffset ≠ kUInt64Max ∧ q.region.saved mem < q.region.data then
      [.map (q.region.start + q.region.saved mem) (q.region.start + q.region.data) (hostProt q.region.prot) none]
    else [] := by
  have hstop := hq.region.stop_lt
  have hsaved := @Region.Sound.saved_le mem q.region hq.region
  have hdata := hq.region.data_le
  have hsize : pageAlign q.region.size = q.region.size := pageAlign_of_dvd hq.region.size_dvd (by omega)
  have hpages : pageAlign (q.region.saved mem) = q.region.saved mem :=
    pageAlign_of_dvd (q.region.dvd_saved mem) (by omega)
  have hback : (q.backingCall g).effect = .map q.region.start q.region.stop (hostProt q.region.prot)
      (if q.refOffset = kUInt64Max then none else some (g, q.refOffset)) := by
    unfold backingCall
    split_ifs <;> simp only [effect, hsize, Region.stop]
  rw [calls, map_cons, hback, map_append, append_assoc, singleton_append]
  congr 2
  · unfold dataCalls
    split_ifs
    · simp [map_cons, map_nil, effect, hpages]
    · rfl
  unfold zeroCalls
  split_ifs with hcond
  · obtain ⟨-, -, hdvd⟩ := hq.offset hcond.1
    have hrest : pageAlign (q.region.data - q.region.saved mem) = q.region.data - q.region.saved mem :=
      pageAlign_of_dvd (dvd_sub hdvd (q.region.dvd_saved mem)) (by omega)
    have hend : q.region.start + q.region.saved mem + (q.region.data - q.region.saved mem) =
        q.region.start + q.region.data := by omega
    simp [map_cons, map_nil, effect, hrest, hend]
  · rfl

theorem bytes_calls (hq : q.Sound) {files : Files} {mem' : ℕ → UInt8} {i : ℕ} (hi : i < q.region.size) :
    bytesAfter files mem' ((q.calls mem g jifFile place).map effect) (q.region.start + i) =
      if i < q.region.saved mem then files jifFile (place + i)
      else if q.refOffset = kUInt64Max then 0
      else if i < q.region.data then 0
      else files g (q.refOffset + i) := by
  have hstop := q.region.stop_eq
  have hplace : q.region.start + i - q.region.start = i := Nat.add_sub_cancel_left _ _
  rw [effects_calls hq, bytesAfter_append, bytesAfter_append, bytesAfter_map_if, bytesAfter_map_if]
  by_cases hin : i < q.region.saved mem
  · rw [if_neg (by omega), if_pos (by omega), if_pos hin]
    simp [newByte, hplace]
  rw [if_neg hin]
  by_cases href : q.refOffset = kUInt64Max
  · rw [if_neg (fun hc => hc.1.1 href), if_neg (by omega), if_pos href, if_pos href,
      bytesAfter_map (by omega) (by omega)]
    rfl
  rw [if_neg href, if_neg href]
  by_cases hdata : i < q.region.data
  · rw [if_pos ⟨⟨href, by omega⟩, by omega, by omega⟩, if_pos hdata]
    rfl
  · rw [if_neg (by omega), if_neg (by omega), if_neg hdata, bytesAfter_map (by omega) (by omega)]
    simp [newByte, hplace]

theorem prot_calls (hq : q.Sound) {prot' : ℕ → Option Prot} {i : ℕ} (hi : i < q.region.size) :
    protAfter prot' ((q.calls mem g jifFile place).map effect) (q.region.start + i) =
      some (hostProt q.region.prot) := by
  have hstop := q.region.stop_eq
  rw [effects_calls hq, protAfter_append, protAfter_append, protAfter_map_if, protAfter_map_if,
    protAfter_map (by omega) (by omega), ite_self, ite_self]

theorem within_calls (hq : q.Sound) :
    ∀ e ∈ (q.calls mem g jifFile place).map effect, e.Within q.region.start q.region.stop := by
  have hstop := q.region.stop_eq
  have hsaved := @Region.Sound.saved_le mem q.region hq.region
  have hdata := hq.region.data_le
  rw [effects_calls hq]
  refine forall_mem_append.mpr ⟨forall_mem_append.mpr ⟨forall_mem_singleton.mpr ⟨le_rfl, le_rfl⟩, ?_⟩, ?_⟩
  · intro e he
    split_ifs at he
    · obtain rfl := mem_singleton.mp he
      exact ⟨le_rfl, by simp only [stop]; omega⟩
    · cases he
  intro e he
  split_ifs at he
  · obtain rfl := mem_singleton.mp he
    exact ⟨by simp only [start]; omega, by simp only [stop]; omega⟩
  · cases he

end JifRegion

open JifBuild FullCall

/-! ### What a snapshot is taken of -/

/-- The areas are a valid set of mappings of the process, and the buffers are disjoint from them and from one another. A
file is mapped from a page of it on. -/
structure JifInput.Valid (x : JifInput) : Prop where
  mappings : mappingsValid (x.vmas.map fun v => (v.stop, v)) = true
  vmas : ∀ v ∈ x.vmas, v.stop ≤ kUserEnd
  areas : ∀ a ∈ x.areas, a.ptr + a.maxSize ≤ kUserEnd
  apart : ∀ v ∈ x.vmas, ∀ a ∈ x.areas, (v.region x.sizes).Apart a.region
  areasApart : (x.areas.map FSMemoryArea.region).Pairwise Region.Apart
  offsets : ∀ v ∈ x.vmas, v.type = .kFile → 4096 ∣ v.offset.toNat ∧ v.offset.toNat + v.length < 2 ^ 63
  names : ∀ f name, x.names f = some name → name ≠ [] ∧ 0 ∉ name

theorem JifInput.region_vmaRegion (x : JifInput) (v : VMArea) :
    (x.vmaRegion v).region = { v.region x.sizes with prot := v.prot &&& 0xff } := by
  unfold vmaRegion
  split <;> rfl

namespace JifInput.Valid
variable {x : JifInput} (hx : x.Valid)
include hx

theorem vma_bounds : ∀ v ∈ x.vmas, 4096 ∣ v.start ∧ 4096 ∣ v.stop ∧ v.start < v.stop ∧ v.stop ≤ kUserEnd := by
  intro v hv
  obtain ⟨hlt, hstart, hstop⟩ := (of_mappingsValid hx.mappings).1 (v.stop, v) (mem_map_of_mem hv)
  exact ⟨hstart, hstop, hlt, hx.vmas v hv⟩

theorem stop_region {v : VMArea} (hv : v ∈ x.vmas) : (v.region x.sizes).stop = v.stop := by
  obtain ⟨-, -, hlt, hend⟩ := hx.vma_bounds v hv
  have huser : kUserEnd = 2 ^ 47 := rfl
  have hlen : v.length = v.stop - v.start := subWord_of_le hlt.le (by omega)
  change v.start + v.length = v.stop
  omega

theorem base : x.toSnapshotInput.Valid := by
  refine ⟨hx.vma_bounds, hx.areas, pairwise_append.mpr ⟨?_, hx.areasApart, ?_⟩⟩
  · have hpairs := pairwise_map.mp (of_mappingsValid hx.mappings).2
    refine pairwise_map.mpr (hpairs.imp_of_mem fun {v w} hv hw hle => .inl ?_)
    rw [hx.stop_region hv]
    exact hle
  intro r hr r' hr'
  obtain ⟨v, hv, rfl⟩ := mem_map.mp hr
  obtain ⟨a, ha, rfl⟩ := mem_map.mp hr'
  exact hx.apart v hv a ha

theorem sound_vmaRegion {v : VMArea} (hv : v ∈ x.vmas) : (x.vmaRegion v).Sound := by
  have hregion := hx.base.sound (v.region x.sizes) (mem_append_left _ (mem_map_of_mem hv))
  have hsound : Region.Sound { v.region x.sizes with prot := v.prot &&& 0xff } := { hregion with }
  unfold vmaRegion
  split
  · rename_i name htype hname
    obtain ⟨f, -, hf⟩ := Option.bind_eq_some_iff.mp hname
    obtain ⟨hne, hnul⟩ := hx.names f name hf
    obtain ⟨hoff, hsum⟩ := hx.offsets v hv htype
    have hmax : kUInt64Max = 2 ^ 64 - 1 := rfl
    refine ⟨hsound, iff_of_false (by dsimp only; omega) hne, hnul, fun _ => ⟨hoff, hsum, ?_⟩⟩
    exact VMArea.dvd_dataLength hregion.size_dvd x.sizes
  · exact ⟨hsound, iff_of_true rfl rfl, by simp, fun hne => absurd rfl hne⟩

theorem sound_jifRegions : ∀ q ∈ x.jifRegions, q.Sound := by
  intro q hq
  rcases mem_append.mp hq with hq | hq
  · obtain ⟨v, hv, rfl⟩ := mem_map.mp hq
    exact hx.sound_vmaRegion (mem_mergeSort.mp hv)
  obtain ⟨a, ha, rfl⟩ := mem_map.mp hq
  exact ⟨hx.base.sound a.region (mem_append_right _ (mem_map_of_mem ha)), iff_of_true rfl rfl, by
    simp [areaRegion], fun hne => absurd rfl hne⟩

theorem apart_jifRegions : (x.jifRegions.map JifRegion.region).Pairwise Region.Apart := by
  have hsymm : ∀ {r r' : Region}, r.Apart r' → r'.Apart r := Or.symm
  have hbase : (x.vmas.map x.vmaRegion ++ x.areas.map areaRegion).Pairwise fun q q' => q.region.Apart q'.region := by
    obtain ⟨hvmas, hareas, hboth⟩ := pairwise_append.mp hx.base.apart
    refine pairwise_append.mpr ⟨?_, ?_, ?_⟩
    · refine pairwise_map.mpr ((pairwise_map.mp hvmas).imp fun {v w} h => ?_)
      rw [x.region_vmaRegion, x.region_vmaRegion]
      exact h
    · exact pairwise_map.mpr (pairwise_map.mp hareas)
    intro q hq q' hq'
    obtain ⟨v, hv, rfl⟩ := mem_map.mp hq
    obtain ⟨a, ha, rfl⟩ := mem_map.mp hq'
    rw [x.region_vmaRegion]
    exact hx.apart v hv a ha
  have hperm : x.jifRegions.Perm (x.vmas.map x.vmaRegion ++ x.areas.map areaRegion) :=
    ((mergeSort_perm _ _).map _).append_right _
  exact pairwise_map.mpr ((hperm.pairwise_iff fun {_ _} h => hsymm h).mpr hbase)

theorem sum_saved_le : (x.jifRegions.map fun q => q.region.saved x.mem).sum ≤ kUserEnd := by
  have hsound : ∀ r ∈ x.jifRegions.map JifRegion.region, r.Sound := by
    intro r hr
    obtain ⟨q, hq, rfl⟩ := mem_map.mp hr
    exact (hx.sound_jifRegions q hq).region
  have hsum := Region.sum_saved_le x.mem hsound hx.apart_jifRegions
  rwa [map_map] at hsum

end JifInput.Valid

/-! ### The file

A snapshot that succeeds has written its sections and then the data of all regions. -/

namespace JifInput
variable {x : JifInput} {env : JifEnv}

theorem snapshotJIF_eq_done (h : (x.snapshotJIF env).outcome = .done) :
    (x.getJifVmaData env).2.sections.bytes.length ≤ kUInt32Max ∧
      (x.snapshotJIF env).writes = (writevFull (x.getJifVmaData env).2.sections.iovs).run env.replies ∧
      (x.snapshotJIF env).writes.outcome = .done ∧
      (x.snapshotJIF env).dataWrites = (writevFull (x.getJifVmaData env).2.iovs).run env.dataReplies ∧
      (x.snapshotJIF env).dataWrites.outcome = .done ∧
      (x.snapshotJIF env).file =
        (x.snapshotJIF env).writes.accepted.map (contents x.mem (x.getJifVmaData env).2.sections.bytes) ++
        (x.snapshotJIF env).dataWrites.accepted.map (contents x.mem (x.getJifVmaData env).2.sections.bytes) := by
  unfold snapshotJIF at h ⊢
  generalize x.getJifVmaData env = built at h ⊢
  obtain ⟨s, b⟩ := built
  dsimp only at h ⊢
  cases hopen : env.opened with
  | error e =>
    rw [hopen] at h
    cases h
  | ok u =>
    rw [hopen] at h
    by_cases hlong : kUInt32Max < b.sections.bytes.length
    · rw [if_pos hlong] at h
      cases h
    rw [if_neg hlong] at h ⊢
    refine ⟨Nat.le_of_not_lt hlong, ?_⟩
    cases hwrites : ((writevFull b.sections.iovs).run env.replies).outcome with
    | failed | waiting =>
      rw [hwrites] at h
      cases h
    | done =>
      rw [hwrites] at h
      cases hdata : ((writevFull b.iovs).run env.dataReplies).outcome with
      | failed | waiting =>
        rw [hdata] at h
        cases h
      | done =>
        dsimp only
        split <;> exact ⟨rfl, hwrites, rfl, hdata, rfl⟩

/-- The writes of a snapshot are answered as writev(2) answers. -/
def LegalWrites (r : JifResult) : Prop := Legal false r.writes ∧ Legal false r.dataWrites

theorem laid_getJifVmaData (hx : x.Valid) (hprotect : ∀ n, env.protect n = .ok ()) :
    JifBuild.Laid x.mem x.jifRegions (x.getJifVmaData env).2 ∧
      (cells (x.getJifVmaData env).2.iovs).length ≤ kUserEnd ∧
      (∀ a ∈ cells (x.getJifVmaData env).2.iovs, a < ownAddress) ∧ ∀ n ∈ (x.getJifVmaData env).2.itrees, n.Words := by
  have hsum := hx.sum_saved_le
  have huser : kUserEnd = 2 ^ 47 := rfl
  have hall : (x.getJifVmaData env).2 = x.jifRegions.foldl (add x.mem) ⟨[], [], [], [], 0⟩ :=
    addPhdrs_eq hprotect _ _ _
  have hnil : JifBuild.Laid x.mem [] ⟨[], [], [], [], 0⟩ := ⟨rfl, dvd_zero _, List.Forall₂.nil⟩
  have hfits : 0 + (x.jifRegions.map fun q => q.region.saved x.mem).sum < 2 ^ 64 := by omega
  obtain ⟨hlaid, hsize⟩ := hnil.addAll hfits
  rw [nil_append] at hlaid
  have hcells : ∀ (qs : List JifRegion) (b : JifBuild), cells (qs.foldl (add x.mem) b).iovs =
      cells b.iovs ++ qs.flatMap fun q => range' q.region.start (q.region.saved x.mem) := by
    intro qs
    induction qs with
    | nil => exact fun b => (append_nil _).symm
    | cons q qs ih =>
      intro b
      rw [foldl_cons, ih, cells_iovs_add, flatMap_cons, append_assoc]
  rw [hall]
  refine ⟨hlaid, ?_, fun a ha => ?_, ?_⟩
  · rw [← hlaid.dataSize_eq, hsize]
    exact (Nat.zero_add _).trans_le hsum
  · rw [hcells] at ha
    obtain ⟨q, hq, ha⟩ := mem_flatMap.mp ha
    obtain ⟨-, hhi⟩ := mem_range'_1.mp ha
    have hsound := (hx.sound_jifRegions q hq).region
    have hstop := hsound.stop_lt
    have hsaved := @Region.Sound.saved_le x.mem q.region hsound
    unfold ownAddress
    omega
  · apply words_foldl _ (by simp) (by decide)
    intro q hq
    have hstop := (hx.sound_jifRegions q hq).region.stop_lt
    omega

theorem snapshotJIF_file (hx : x.Valid) (hprotect : ∀ n, env.protect n = .ok ())
    (hlegal : LegalWrites (x.snapshotJIF env)) (hdone : (x.snapshotJIF env).outcome = .done) :
    (x.snapshotJIF env).file = (x.getJifVmaData env).2.sections.bytes ++ (cells (x.getJifVmaData env).2.iovs).map x.mem := by
  obtain ⟨hshort, hwrites, hall, hdata, hrest, hfile⟩ := snapshotJIF_eq_done hdone
  obtain ⟨-, hlen, hcells, -⟩ := laid_getJifVmaData hx hprotect
  obtain ⟨hlegal, hlegalData⟩ := hlegal
  have huser : kUserEnd = 2 ^ 47 := rfl
  have hmax : kUInt32Max = 2 ^ 32 - 1 := rfl
  have hown : cells (x.getJifVmaData env).2.sections.iovs =
      range' ownAddress (x.getJifVmaData env).2.sections.bytes.length := tight_sections _
  have hfirst : (x.snapshotJIF env).writes.accepted = cells (x.getJifVmaData env).2.sections.iovs := by
    rw [hwrites] at hlegal hall ⊢
    refine accepted_writevFull ?_ hlegal hall
    rw [hown, length_range']
    omega
  have hsecond : (x.snapshotJIF env).dataWrites.accepted = cells (x.getJifVmaData env).2.iovs := by
    rw [hdata] at hlegalData hrest ⊢
    exact accepted_writevFull (by omega) hlegalData hrest
  rw [hfile, hfirst, hsecond, hown, map_contents_own, map_contents_mem hcells]

end JifInput

end Junction
