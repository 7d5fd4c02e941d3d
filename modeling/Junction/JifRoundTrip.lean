import Junction.JifHeaders

/-!
# JIF snapshots and their restore

A snapshot that succeeds and is loaded again gives every region its data and its protection. Every header is read back
as it was written. Regions are saved by whole pages, so in a region without a reference file there are zeros from the
page behind its data on, and what stood in the last page is kept.
-/

namespace Junction
open List JifRegion JifInterval Option

/-- What a header of a file says about its region, and what it finds where it points to. -/
structure JifPhdr.AsWritten (file : List UInt8) (mem : ℕ → UInt8) (jif : JifData) (q : JifRegion) (h : JifPhdr) :
    Prop where
  vbegin : h.vbegin = q.region.start
  vend : h.vend = q.region.stop
  refOffset : h.refOffset = q.refOffset
  prot : jifProtToLinuxProt (BitVec.ofNat 32 h.prot) = hostProt q.region.prot
  valid : h.isValid = true
  tree : itreeValid (h.tree jif.itrees) h.vbegin h.vend 0 = true
  name : q.refOffset ≠ kUInt64Max → stringAt jif.strings h.pathnameOffset = q.name
  data : ∀ n ∈ h.tree jif.itrees, ∀ i ∈ n.ranges, i.isValid = true → i.hasOffset = true →
    ∀ k < i.len, file[i.offset + k]? = some (mem (i.start + k))

section Restore
variable {mem : ℕ → UInt8} {b : JifBuild} {q : JifRegion} {h : JifPhdr} {treeIdx namePos off : ℕ}
  {strings : List UInt8} {itrees : List JifITreeNode}

/-- The file in which a header is read back: the sections and the data, with the offsets made absolute. -/
def JifBuild.file (b : JifBuild) (mem : ℕ → UInt8) : List UInt8 := b.sections.bytes ++ (cells b.iovs).map mem

def JifBuild.parsed (b : JifBuild) (strings : List UInt8) (itrees : List JifITreeNode) : JifData :=
  ⟨b.header, b.phdrs, b.strings ++ strings, b.itrees.map (JifITreeNode.shift b.sections.bytes.length) ++ itrees⟩

theorem JifBuild.Recorded.data_eq (hr : Recorded mem b q h treeIdx namePos off) {k : ℕ} (hk : k < q.region.saved mem) :
    (b.file mem)[off + b.sections.bytes.length + k]? = some (mem (q.region.start + k)) := by
  have hplace : off + b.sections.bytes.length + k - b.sections.bytes.length = off + k := by omega
  rw [file, getElem?_append_right (by omega), hplace, getElem?_map, hr.bytes k hk, map_some]

theorem JifBuild.Recorded.tree_parsed (hr : Recorded mem b q h treeIdx namePos off) (hshort : b.Short) :
    h.tree (b.parsed strings itrees).itrees =
      if q.intervals mem off = [] then [] else [(q.node mem off).shift b.sections.bytes.length] :=
  hr.tree_eq hshort _ itrees

theorem JifBuild.Recorded.asWritten (hr : Recorded mem b q h treeIdx namePos off) (hq : q.Sound) (hshort : b.Short)
    (hplace : off + b.sections.bytes.length < 2 ^ 63) :
    JifPhdr.AsWritten (b.file mem) mem (b.parsed strings itrees) q h where
  vbegin := hr.vbegin_eq
  vend := hr.vend_eq hq
  refOffset := hr.refOffset_eq
  prot := hr.prot_eq
  valid := hr.isValid hq hshort
  tree := by
    rw [hr.tree_parsed hshort, hr.vbegin_eq, hr.vend_eq hq]
    split_ifs with hnil
    · rw [itreeValid, dif_neg (by simp)]
    · exact itreeValid_node hq.region off _
  name href := (hr.stringAt_eq hq hshort (fun hnil => href (hq.named.mpr hnil)) strings).1
  data n hn i hi hvalid hoffset k hk := by
    rw [hr.tree_parsed hshort] at hn
    split_ifs at hn with hnil
    · cases hn
    obtain rfl := mem_singleton.mp hn
    have hmem : i ∈ (q.intervals mem off).map (shift b.sections.bytes.length) := by
      rw [← filter_ranges_node hq.region]
      exact mem_filter.mpr ⟨hi, hvalid⟩
    obtain ⟨j, hj, rfl⟩ := mem_map.mp hmem
    rw [intervals_eq hq.region, dataInterval, zeroInterval] at hj
    rcases mem_append.mp hj with hj | hj
    · split_ifs at hj with hzero
      · cases hj
      obtain rfl := mem_singleton.mp hj
      have hstop := hq.region.stop_lt
      have hsaved := @Region.Sound.saved_le mem q.region hq.region
      have hmax : kUInt64Max = 2 ^ 64 - 1 := rfl
      have hshift : shift b.sections.bytes.length ⟨q.region.start, q.region.start + q.region.saved mem, off⟩ =
          ⟨q.region.start, q.region.start + q.region.saved mem, off + b.sections.bytes.length⟩ := by
        have hne : off ≠ kUInt64Max := by omega
        have hsum : addWord off b.sections.bytes.length = off + b.sections.bytes.length := addWord_of_lt (by omega)
        simp [shift, hasOffset, hne, hsum]
      rw [hshift] at hk ⊢
      rw [len, subWord_of_le (by dsimp only; omega) (by dsimp only; omega), Nat.add_sub_cancel_left] at hk
      exact hr.data_eq hk
    · split_ifs at hj with hcond
      · obtain rfl := mem_singleton.mp hj
        have hnone : (shift b.sections.bytes.length
            ⟨q.region.start + q.region.saved mem, q.region.start + q.region.data, kUInt64Max⟩).hasOffset = false := by
          simp [shift, hasOffset]
        rw [hnone] at hoffset
        cases hoffset
      · cases hj

theorem JifBuild.Recorded.calls_eq (hr : Recorded mem b q h treeIdx namePos off) (hq : q.Sound) (hshort : b.Short)
    (hplace : off + b.sections.bytes.length < 2 ^ 63) {openFile : List UInt8 → Status FileRef} {g : FileRef}
    (hopen : q.name ≠ [] → openFile q.name = .ok g) (jifFile : FileRef) :
    h.backing openFile (b.parsed strings itrees).strings = .ok (q.backingCall g) ∧
      h.calls openFile (b.parsed strings itrees) jifFile = q.calls mem g jifFile (off + b.sections.bytes.length) := by
  have hbacking : h.backing openFile (b.parsed strings itrees).strings = .ok (q.backingCall g) := by
    unfold JifPhdr.backing backingCall JifPhdr.hasRefFile
    rw [hr.refOffset_eq, hr.prot_eq, hr.len_eq hq, hr.vbegin_eq]
    by_cases href : q.refOffset = kUInt64Max
    · simp [href]
    have hnamed : q.name ≠ [] := fun hnil => href (hq.named.mpr hnil)
    have hstring : stringAt (b.parsed strings itrees).strings h.pathnameOffset = q.name :=
      (hr.stringAt_eq hq hshort hnamed strings).1
    simp [href, hstring, hopen hnamed]
  refine ⟨hbacking, ?_⟩
  have hover : h.overlays jifFile (b.parsed strings itrees).itrees =
      q.dataCalls mem jifFile (off + b.sections.bytes.length) ++ q.zeroCalls mem := by
    rw [← overlay_intervals hq.region hplace jifFile hr.prot_eq, JifPhdr.overlays, hr.tree_parsed hshort]
    split_ifs with hnil
    · rw [hnil]
      rfl
    · rw [flatMap_singleton, filter_ranges_node hq.region]
  unfold JifPhdr.calls
  rw [hbacking]
  rw [hover]
  rfl

end Restore

/-! ### Loading a snapshot -/

/-- A region after a load: its data, its protection, and zeros behind the pages that were saved unless a reference file
is behind it. -/
structure JifRegion.PutBack (q : JifRegion) (mem mem' : ℕ → UInt8) (prot' : ℕ → Option Prot) : Prop where
  bytes : ∀ i < q.region.size, q.refOffset = kUInt64Max ∨ i < q.region.data →
    mem' (q.region.start + i) = if i < q.region.saved mem then mem (q.region.start + i) else 0
  prot : ∀ i < q.region.size, prot' (q.region.start + i) = some (hostProt q.region.prot)

def JifBuild.Headed (b : JifBuild) (mem : ℕ → UInt8) (qs : List JifRegion) : Prop :=
  List.Forall₂ (fun q h => q.Sound ∧ ∃ treeIdx namePos off, Recorded mem b q h treeIdx namePos off) qs b.phdrs

namespace JifBuild.Headed
variable {b : JifBuild} {mem : ℕ → UInt8} {qs : List JifRegion} {strings : List UInt8} {itrees : List JifITreeNode}
  {openFile : List UInt8 → Status FileRef} {refFile : JifRegion → FileRef} {jifFile : FileRef}

theorem place_lt {q : JifRegion} {h : JifPhdr} {treeIdx namePos off : ℕ}
    (hr : Recorded mem b q h treeIdx namePos off) (hshort : b.Short) (hlen : (cells b.iovs).length ≤ kUserEnd) :
    off + b.sections.bytes.length + q.region.saved mem < 2 ^ 63 := by
  have hstop := hr.stop
  have hsections := hshort.sections
  have huser : kUserEnd = 2 ^ 47 := rfl
  omega

variable (hb : b.Headed mem qs)
include hb

theorem asWritten (hshort : b.Short) (hlen : (cells b.iovs).length ≤ kUserEnd) :
    List.Forall₂ (JifPhdr.AsWritten (b.file mem) mem (b.parsed strings itrees)) qs b.phdrs := by
  refine hb.imp fun q h hq => ?_
  obtain ⟨hq, treeIdx, namePos, off, hr⟩ := hq
  have hplace := place_lt hr hshort hlen
  exact hr.asWritten hq hshort (by omega)

theorem calls (hshort : b.Short) (hlen : (cells b.iovs).length ≤ kUserEnd)
    (hopen : ∀ q ∈ qs, q.name ≠ [] → openFile q.name = .ok (refFile q)) :
    List.Forall₂ (fun q h => q.Sound ∧ h.vbegin = q.region.start ∧ h.vend = q.region.stop ∧
      h.backing openFile (b.parsed strings itrees).strings = .ok (q.backingCall (refFile q)) ∧
      ∃ place, 4096 ∣ place ∧ place + q.region.saved mem < 2 ^ 63 ∧
        h.calls openFile (b.parsed strings itrees) jifFile = q.calls mem (refFile q) jifFile place ∧
        ∀ i < q.region.saved mem, (b.file mem)[place + i]? = some (mem (q.region.start + i))) qs b.phdrs := by
  have hboth := (forall₂_and_left _ _).mpr ⟨hopen, hb⟩
  refine hboth.imp fun q h hq => ?_
  obtain ⟨hopen, hq, treeIdx, namePos, off, hr⟩ := hq
  have hplace := place_lt hr hshort hlen
  obtain ⟨hbacking, hcalls⟩ := @Recorded.calls_eq mem b q h treeIdx namePos off strings itrees hr hq hshort (by omega)
    openFile (refFile q) hopen jifFile
  refine ⟨hq, hr.vbegin_eq, hr.vend_eq hq, hbacking, off + b.sections.bytes.length, ?_, hplace, hcalls,
    fun i hi => hr.data_eq hi⟩
  have hdvd : 4096 ∣ b.sections.bytes.length := by
    have hfill : ∀ n, 4096 ∣ n + pagePadding n := by
      intro n
      unfold pagePadding
      omega
    rw [length_sections]
    exact ((hfill _).add (hfill _)).add (hfill _)
  exact hr.dvd.add hdvd

theorem parse (hle : b.sections.bytes.length ≤ kUInt32Max) (hwords : ∀ n ∈ b.itrees, n.Words) :
    ∃ strings itrees, parseJIF (b.file mem) = .ret (.ok (b.parsed strings itrees)) := by
  have hshort := JifBuild.short_of_le hle
  have hsized := JifBuild.sized_of_le hle
  have hheaders : ∀ h ∈ b.phdrs, h.isValid ∧ ∀ f ∈ h.fields, f.2 < 256 ^ f.1 := by
    intro h hh
    obtain ⟨q, -, hq, treeIdx, namePos, off, hr⟩ := exists_left_of_forall₂ hb hh
    exact ⟨hr.isValid hq hshort, hr.fits hq⟩
  have hnodes : ∀ n ∈ b.itrees.map (JifITreeNode.shift b.header.dataOffset), ∀ f ∈ n.fields, f.2 < 256 ^ f.1 := by
    intro n hn
    obtain ⟨m, hm, rfl⟩ := mem_map.mp hn
    exact (hwords m hm).fits _
  obtain ⟨more, hparse⟩ := JifBuild.parseJIF_sections ((cells b.iovs).map mem) hsized (fun h hh => (hheaders h hh).1)
    (fun h hh => (hheaders h hh).2) hnodes
  rw [hsized.dataOffset] at hparse
  exact ⟨_, more, hparse⟩

theorem load (hshort : b.Short) (hlen : (cells b.iovs).length ≤ kUserEnd)
    (hapart : (qs.map region).Pairwise Region.Apart) {env : JifLoadEnv} (henv : ∀ n, (env.host n).Grants)
    (hopen : ∀ q ∈ qs, q.name ≠ [] → env.openFile q.name = .ok (refFile q)) {files : Files}
    (hfile : ∀ k c, (b.file mem)[k]? = some c → files jifFile k = c) (s : JifLoadState) :
    ∃ s', JifLoadState.loadPhdrs env (b.parsed strings itrees) jifFile s b.phdrs = (.ret (.ok ()), s') ∧
      ∀ mem' prot, ∀ q ∈ qs, q.PutBack mem (bytesAfter files mem' s'.effects) (protAfter prot s'.effects) := by
  have hcalls := @calls b mem qs strings itrees env.openFile refFile jifFile hb hshort hlen hopen
  have hwritten := @asWritten b mem qs strings itrees hb hshort hlen
  have hwithin : ∀ h ∈ b.phdrs, ∀ e ∈ (h.calls env.openFile (b.parsed strings itrees) jifFile).map LoadCall.effect,
      e.Within h.vbegin h.vend := by
    intro h hh
    obtain ⟨q, -, hq, hbegin, hend, -, place, -, -, hlist, -⟩ := exists_left_of_forall₂ hcalls hh
    rw [hlist, hbegin, hend]
    exact within_calls hq
  have hdisj : b.phdrs.Pairwise fun h h' => h.vend ≤ h'.vbegin ∨ h'.vend ≤ h.vbegin := by
    refine pairwise_of_forall₂ hcalls (fun {q q' h h'} hq hq' hap => ?_) (pairwise_map.mp hapart)
    rw [hq.2.1, hq.2.2.1, hq'.2.1, hq'.2.2.1]
    exact hap
  obtain ⟨s', hload, heffects⟩ := @JifLoadState.loadPhdrs_mappable env (b.parsed strings itrees) jifFile b.phdrs s henv
    (fun h hh => by
      obtain ⟨q, -, -, -, -, hbacking, -⟩ := exists_left_of_forall₂ hcalls hh
      exact ⟨_, hbacking⟩)
    (fun h hh => by
      obtain ⟨q, -, hq⟩ := exists_left_of_forall₂ hwritten hh
      exact hq.tree)
    (fun h hh => by
      obtain ⟨q, -, hq, -, -, -, place, hdvd, hplace, hlist, -⟩ := exists_left_of_forall₂ hcalls hh
      rw [hlist]
      exact mappable_calls hq hdvd hplace)
  refine ⟨s', hload, fun mem' prot q hq => ?_⟩
  obtain ⟨h, hh, hsound, hbegin, hend, -, place, -, -, hlist, hdata⟩ := exists_right_of_forall₂ hcalls hq
  obtain ⟨mem'', prot'', hafter⟩ := @after_items JifPhdr
    (fun h => (h.calls env.openFile (b.parsed strings itrees) jifFile).map LoadCall.effect) JifPhdr.vbegin JifPhdr.vend
    b.phdrs h files mem' prot hh hdisj hwithin s.effects
  have hstop := q.region.stop_eq
  have hregion : ∀ i < q.region.size, h.vbegin ≤ q.region.start + i ∧ q.region.start + i < h.vend := by
    intro i hi
    rw [hbegin, hend]
    omega
  rw [← heffects, hlist] at hafter
  refine ⟨fun i hi hcase => ?_, fun i hi => ?_⟩
  · rw [(hafter _ (hregion i hi).1 (hregion i hi).2).1, bytes_calls hsound hi]
    split_ifs with hsaved href hin
    · exact hfile _ _ (hdata i hsaved)
    · rfl
    · rfl
    · exact absurd hcase (by tauto)
  · rw [(hafter _ (hregion i hi).1 (hregion i hi).2).2, prot_calls hsound hi]

end JifBuild.Headed

namespace JifInput
variable {x : JifInput} {env : JifEnv} {lenv : JifLoadEnv} {prot : ℕ → Option Prot} {jifFile : FileRef} {files : Files}

theorem name_jifRegions {q : JifRegion} (hq : q ∈ x.jifRegions) (hne : q.name ≠ []) : ∃ f, x.names f = some q.name := by
  rcases mem_append.mp hq with hq | hq
  · obtain ⟨v, -, rfl⟩ := mem_map.mp hq
    unfold vmaRegion at hne ⊢
    split at hne
    · rename_i name htype hname
      obtain ⟨f, -, hf⟩ := bind_eq_some_iff.mp hname
      exact ⟨f, hf⟩
    · exact absurd rfl hne
  · obtain ⟨a, -, rfl⟩ := mem_map.mp hq
    exact absurd rfl hne

theorem snapshotJIF_putBack (hx : x.Valid) (hprotect : ∀ n, env.protect n = .ok ())
    (hlegal : LegalWrites (x.snapshotJIF env)) (hdone : (x.snapshotJIF env).outcome = .done)
    (henv : ∀ n, (lenv.host n).Grants) (hopen : ∀ f name, x.names f = some name → ∃ g, lenv.openFile name = .ok g)
    (hfile : ∀ k c, (x.snapshotJIF env).file[k]? = some c → files jifFile k = c) (s : JifLoadState) :
    ∃ jif s', parseJIF (x.snapshotJIF env).file = .ret (.ok jif) ∧
      s.loadJIF lenv jifFile (x.snapshotJIF env).file = (.ret (.ok ()), s') ∧
      (∃ strings itrees, jif = (x.getJifVmaData env).2.parsed strings itrees) ∧
      List.Forall₂ (JifPhdr.AsWritten (x.snapshotJIF env).file x.mem jif) x.jifRegions jif.phdrs ∧
      ∀ mem prot, ∀ q ∈ x.jifRegions, q.PutBack x.mem (bytesAfter files mem s'.effects) (protAfter prot s'.effects) := by
  obtain ⟨hlaid, hlen, -, hwords⟩ := laid_getJifVmaData hx hprotect
  obtain ⟨hle, -⟩ := snapshotJIF_eq_done hdone
  have hbytes : (x.snapshotJIF env).file = (x.getJifVmaData env).2.file x.mem := snapshotJIF_file hx hprotect hlegal hdone
  rw [hbytes] at hfile ⊢
  generalize (x.getJifVmaData env).2 = b at *
  have hshort := JifBuild.short_of_le hle
  have hb : b.Headed x.mem x.jifRegions := (forall₂_and_left _ _).mpr ⟨hx.sound_jifRegions, hlaid.recorded⟩
  have hnames : ∀ q ∈ x.jifRegions, q.name ≠ [] →
      lenv.openFile q.name = .ok ((lenv.openFile q.name).toOption.getD 0) := by
    intro q hq hne
    obtain ⟨f, hf⟩ := name_jifRegions hq hne
    obtain ⟨g, hg⟩ := hopen f q.name hf
    rw [hg]
    rfl
  obtain ⟨strings, itrees, hparse⟩ := hb.parse hle hwords
  obtain ⟨s', hload, hput⟩ := @JifBuild.Headed.load b x.mem x.jifRegions strings itrees _ jifFile hb hshort hlen
    hx.apart_jifRegions lenv henv hnames files hfile s
  refine ⟨b.parsed strings itrees, s', hparse, ?_, ⟨strings, itrees, rfl⟩, hb.asWritten hshort hlen, hput⟩
  unfold JifLoadState.loadJIF
  rw [hparse]
  exact hload

/-- An area after a load. The zeros are those behind its data, if no reference file is mapped there. -/
structure VMARestored (x : JifInput) (v : VMArea) (mem' : ℕ → UInt8) (prot' : ℕ → Option Prot) : Prop where
  data : ∀ i < v.dataLength x.sizes, mem' (v.start + i) = x.mem (v.start + i)
  zeros : (x.vmaRegion v).refOffset = kUInt64Max → ∀ i, v.dataLength x.sizes ≤ i → i < v.length → mem' (v.start + i) = 0
  prot : ∀ i < v.length, prot' (v.start + i) = some (hostProt v.prot)

theorem hostProt_and_byte (p : Prot) : hostProt (p &&& 0xff) = hostProt p := by
  unfold hostProt
  rw [BitVec.and_assoc]
  congr 1

theorem vmaRestored_of_putBack (hx : x.Valid) {v : VMArea} (hv : v ∈ x.vmas) {mem' : ℕ → UInt8}
    {prot' : ℕ → Option Prot} (hput : (x.vmaRegion v).PutBack x.mem mem' prot') : x.VMARestored v mem' prot' := by
  have hsound := hx.base.sound (v.region x.sizes) (mem_append_left _ (mem_map_of_mem hv))
  have hpages : pageAlign (v.region x.sizes).data = v.dataLength x.sizes := hx.base.pageAlign_dataLength hv
  obtain ⟨hbytes, hprot⟩ := hput
  rw [x.region_vmaRegion] at hbytes hprot
  have hbyte : ∀ i < v.length, (x.vmaRegion v).refOffset = kUInt64Max ∨ i < v.dataLength x.sizes →
      mem' (v.start + i) = if i < (v.region x.sizes).saved x.mem then x.mem (v.start + i) else 0 := hbytes
  refine ⟨fun i hi => ?_, fun href i hlo hhi => ?_, fun i hi => ?_⟩
  · rw [hbyte i (hi.trans_le (v.dataLength_le x.sizes)) (.inr hi)]
    split_ifs with hsaved
    · rfl
    · exact (hsound.eq_zero (Nat.le_of_not_lt hsaved) hi).symm
  · have hle := @Region.Sound.saved_le_data x.mem (v.region x.sizes) hsound
    rw [hbyte i hhi (.inl href), if_neg (by omega)]
  · rw [← hostProt_and_byte]
    exact hprot i hi

end JifInput

/-- A JIF snapshot that succeeds can be loaded again, with the bytes and protections of its regions. -/
theorem snapshotJIF_restores (x : JifInput) (env : JifEnv) (lenv : JifLoadEnv) (prot : ℕ → Option Prot)
    (s : JifLoadState) (jifFile : FileRef) (files : Files) (mem : ℕ → UInt8) (hx : x.Valid)
    (hprotect : ∀ n, env.protect n = .ok ()) (hlegal : JifInput.LegalWrites (x.snapshotJIF env))
    (hdone : (x.snapshotJIF env).outcome = .done) (henv : ∀ n, (lenv.host n).Grants)
    (hopen : ∀ f name, x.names f = some name → ∃ g, lenv.openFile name = .ok g)
    (hfile : ∀ k c, (x.snapshotJIF env).file[k]? = some c → files jifFile k = c) :
    ∃ jif s', parseJIF (x.snapshotJIF env).file = .ret (.ok jif) ∧
      s.loadJIF lenv jifFile (x.snapshotJIF env).file = (.ret (.ok ()), s') ∧
      (∀ v ∈ x.vmas, x.VMARestored v (bytesAfter files mem s'.effects) (protAfter prot s'.effects)) ∧
      (∀ a ∈ x.areas, a.region.Restored x.mem (bytesAfter files mem s'.effects) (protAfter prot s'.effects)
        (pageAlign a.inUseSize)) ∧
      (∃ strings itrees, jif = (x.getJifVmaData env).2.parsed strings itrees) ∧
      List.Forall₂ (JifPhdr.AsWritten (x.snapshotJIF env).file x.mem jif) x.jifRegions jif.phdrs := by
  obtain ⟨jif, s', hparse, hload, hparsed, hwritten, hput⟩ :=
    @JifInput.snapshotJIF_putBack x env lenv jifFile files hx hprotect hlegal hdone henv hopen hfile s
  refine ⟨jif, s', hparse, hload, fun v hv => ?_, fun a ha => ?_, hparsed, hwritten⟩
  · have hmem : x.vmaRegion v ∈ x.jifRegions := mem_append_left _ (mem_map_of_mem (mem_mergeSort.mpr hv))
    exact JifInput.vmaRestored_of_putBack hx hv (hput mem prot _ hmem)
  have hmem : JifInput.areaRegion a ∈ x.jifRegions := mem_append_right _ (mem_map_of_mem ha)
  have hregion := hput mem prot _ hmem
  refine Region.PutBack.restored ⟨fun i hi => hregion.bytes i hi (.inl rfl), hregion.prot⟩ ?_
  exact hx.base.sound _ (mem_append_right _ (mem_map_of_mem ha))

/-- Eight bytes of a buffer of one page are in use, and an area of one page shows a file of which nothing is left. -/
def fileAndBuffer : JifInput where
  vmas := [.fileBacked 0x20000 0x1000 PROT_READ 3 0x1000]
  areas := [.oneWord]
  sizes _ := 0x1800
  mem a := if a < 0x20000 then 1 else 0
  names f := if f = 3 then some [97, 98] else none

/-- Everything is granted. The sections and the data are written with one call each. -/
def JifEnv.willing (sections data : ℕ) : JifEnv := ⟨⟨fun _ => .ok (), .ok (), [.ok sections]⟩, [.ok data]⟩

def JifLoadEnv.willing : JifLoadEnv := ⟨fun _ => .ok 3, fun _ => .willing, 0⟩

theorem valid_fileAndBuffer : fileAndBuffer.Valid where
  mappings := by decide
  vmas := by
    intro v hv
    obtain rfl := mem_singleton.mp hv
    decide
  areas := by
    intro a ha
    obtain rfl := mem_singleton.mp ha
    decide
  apart := by
    intro v hv a ha
    obtain rfl := mem_singleton.mp hv
    obtain rfl := mem_singleton.mp ha
    decide
  areasApart := by decide
  offsets := by
    intro v hv _
    obtain rfl := mem_singleton.mp hv
    decide
  names := by
    intro f name hname
    unfold fileAndBuffer at hname
    dsimp only at hname
    split_ifs at hname
    obtain rfl := some.inj hname
    decide

theorem calls_fileAndBuffer :
    let r := fileAndBuffer.snapshotJIF (.willing 0x3000 0x1000)
    r.outcome = .done ∧
      (∀ c ∈ r.writes.calls, c.2 = .ok 0x3000 ∧ (c.1.map IoVec.len).sum = 0x3000) ∧
      ∀ c ∈ r.dataWrites.calls, c.2 = .ok 0x1000 ∧ (c.1.map IoVec.len).sum = 0x1000 := by
  decide +kernel

theorem legal_fileAndBuffer : JifInput.LegalWrites (fileAndBuffer.snapshotJIF (.willing 0x3000 0x1000)) := by
  obtain ⟨-, hsections, hdata⟩ := calls_fileAndBuffer
  have hanswered : ∀ {t : IoRun} {n : ℕ}, 0 < n → n < 2 ^ 63 →
      (∀ c ∈ t.calls, c.2 = .ok n ∧ (c.1.map IoVec.len).sum = n) → Legal false t := by
    rintro t n hpos hlt hcalls ⟨iov, reply⟩ hc
    obtain ⟨hreply, hsum⟩ := hcalls _ hc
    subst hreply
    refine ⟨?_, fun _ _ => ?_⟩
    · rw [length_cells, hsum]
    · omega
  exact ⟨hanswered (by decide) (by decide) hsections, hanswered (by decide) (by decide) hdata⟩

theorem snapshotJIF_restores_fileAndBuffer :
    let r := fileAndBuffer.snapshotJIF (.willing 0x3000 0x1000)
    r.outcome = .done ∧ ∃ s', JifLoadState.loadJIF .willing ⟨0, []⟩ 7 r.file = (.ret (.ok ()), s') ∧
      protAfter (fun _ => none) s'.effects 0x20000 = some PROT_READ ∧
      bytesAfter (fun f k => if f = 7 then r.file.getD k 0 else 9) (fun _ => 5) s'.effects 0x20000 = 0 ∧
      bytesAfter (fun f k => if f = 7 then r.file.getD k 0 else 9) (fun _ => 5) s'.effects 0x10007 = 1 := by
  intro r
  have hdone : r.outcome = .done := calls_fileAndBuffer.1
  obtain ⟨jif, s', -, hload, hvmas, hareas, -⟩ := snapshotJIF_restores fileAndBuffer (.willing 0x3000 0x1000) .willing
    (fun _ => none) ⟨0, []⟩ 7 (fun f k => if f = 7 then r.file.getD k 0 else 9) (fun _ => 5) valid_fileAndBuffer
    (fun _ => rfl) legal_fileAndBuffer hdone (fun _ => HostMMap.grants_willing) (fun _ _ _ => ⟨3, rfl⟩)
    (fun k c hk => by rw [if_pos rfl, getD_eq_getElem?_getD, hk, getD_some])
  refine ⟨hdone, s', hload, ?_, ?_, ?_⟩
  · exact (hvmas _ mem_cons_self).prot 0 (by decide)
  · exact (hvmas _ mem_cons_self).data 0 (by decide)
  · exact (hareas _ mem_cons_self).data 7 (by decide)

/-- What stands behind the data of a buffer in its last page is saved and restored with it. -/
theorem snapshotJIF_keeps_tail :
    let r := fileAndBuffer.snapshotJIF (.willing 0x3000 0x1000)
    r.outcome = .done ∧ ∃ s', JifLoadState.loadJIF .willing ⟨0, []⟩ 7 r.file = (.ret (.ok ()), s') ∧
      ∃ a ∈ fileAndBuffer.areas, ¬ a.region.Restored fileAndBuffer.mem
        (bytesAfter (fun _ k => r.file.getD k 0) (fun _ => 0) s'.effects) (protAfter (fun _ => none) s'.effects)
        a.inUseSize := by
  intro r
  have hdone : r.outcome = .done := calls_fileAndBuffer.1
  obtain ⟨jif, s', -, hload, -, -, hput⟩ := @JifInput.snapshotJIF_putBack fileAndBuffer (.willing 0x3000 0x1000)
    .willing 7 (fun _ k => r.file.getD k 0) valid_fileAndBuffer (fun _ => rfl) legal_fileAndBuffer hdone
    (fun _ => HostMMap.grants_willing) (fun _ _ _ => ⟨3, rfl⟩)
    (fun k c hk => by rw [getD_eq_getElem?_getD, hk, getD_some]) ⟨0, []⟩
  refine ⟨hdone, s', hload, _, mem_cons_self, fun hrestored => ?_⟩
  have hzero := hrestored.zeros 8 (by decide) (by decide)
  have hmem : JifInput.areaRegion ⟨0x10000, 8, 0x1000, by decide, by decide, by decide, by decide⟩ ∈
      fileAndBuffer.jifRegions := mem_append_right _ mem_cons_self
  have hbyte := (hput (fun _ => 0) (fun _ => none) _ hmem).bytes 8 (by decide) (.inl rfl)
  have hnonzero : (if 8 < (FSMemoryArea.region ⟨0x10000, 8, 0x1000, by decide, by decide, by decide, by decide⟩).saved
      fileAndBuffer.mem then fileAndBuffer.mem (0x10000 + 8) else 0) = 1 := by decide
  exact absurd (hzero.symm.trans (hbyte.trans hnonzero)) (by decide)

end Junction
