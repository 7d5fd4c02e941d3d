import Junction.ElfLoader
import Junction.FullTransfer
import Junction.Library.ByteStores

/-!
# What a snapshot saves

A snapshot saves the memory areas of a process and the buffers of its memory files. A region has a size, a part of it
that holds data, and a protection. Of the data it saves the pages up to the last word that is not zero. An area that
cannot be read is made readable first and gets its protection back when everything is written. Junction's own buffers
are given addresses behind the address space, so that they are apart from every region.
-/

namespace Junction
open ByteStores List Nat

def kUserEnd : ℕ := 2 ^ 47

def minWords (mem : ℕ → UInt8) (buf : ℕ) : ℕ → ℕ
  | 0 => 0
  | n + 1 => if readWord mem (buf + 8 * n) ≠ 0 then n + 1 else minWords mem buf n

def getMinSize (mem : ℕ → UInt8) (buf len : ℕ) : ℕ := minWords mem buf ((len + 7) / 8) * 8

/-- `DataLength`, for files of the given sizes. -/
def VMArea.dataLength (v : VMArea) (sizes : FileRef → ℕ) : ℕ :=
  match v.type, v.file with
  | .kFile, some f =>
    if sizes f < v.offset.toNat then 0 else min (pageAlign (sizes f - v.offset.toNat)) v.length
  | _, _ => v.length

structure FSMemoryArea where
  ptr : ℕ
  inUseSize : ℕ
  maxSize : ℕ
  ptr_dvd : 4096 ∣ ptr
  maxSize_dvd : 4096 ∣ maxSize
  maxSize_pos : 0 < maxSize
  inUseSize_le : inUseSize ≤ maxSize

/-- Eight bytes of a buffer of one page. -/
def FSMemoryArea.oneWord : FSMemoryArea := ⟨0x10000, 8, 0x1000, by decide, by decide, by decide, by decide⟩

structure Region where
  start : ℕ
  size : ℕ
  data : ℕ
  prot : Prot
  deriving DecidableEq

def VMArea.region (sizes : FileRef → ℕ) (v : VMArea) : Region := ⟨v.start, v.length, v.dataLength sizes, v.prot⟩

def FSMemoryArea.region (a : FSMemoryArea) : Region := ⟨a.ptr, a.maxSize, a.inUseSize, PROT_READ ||| PROT_WRITE⟩

/-- What a snapshot is taken of: areas, buffers, the sizes of files and the memory. -/
structure SnapshotInput where
  vmas : List VMArea
  areas : List FSMemoryArea
  sizes : FileRef → ℕ
  mem : ℕ → UInt8

/-- What the host decides during a snapshot: the answers of mprotect(2), of opening the file, and of writev(2). -/
structure SnapshotEnv where
  protect : ℕ → Status Unit
  opened : Status Unit
  replies : List (Status ℕ)

namespace Region

def stop (r : Region) : ℕ := r.start + r.size

theorem stop_eq (r : Region) : r.stop = r.start + r.size := rfl

def Apart (r r' : Region) : Prop := r.stop ≤ r'.start ∨ r'.stop ≤ r.start

instance : DecidableRel Apart := fun _ _ => inferInstanceAs (Decidable (_ ∨ _))

structure Sound (r : Region) : Prop where
  start_dvd : 4096 ∣ r.start
  size_dvd : 4096 ∣ r.size
  size_pos : 0 < r.size
  data_le : r.data ≤ r.size
  stop_le : r.stop ≤ kUserEnd

def saved (mem : ℕ → UInt8) (r : Region) : ℕ := pageAlign (getMinSize mem r.start r.data)

end Region

def SnapshotInput.regions (x : SnapshotInput) : List Region :=
  x.vmas.map (VMArea.region x.sizes) ++ x.areas.map FSMemoryArea.region

/-- The areas and buffers are made of whole pages of the process and are pairwise disjoint. -/
structure SnapshotInput.Valid (x : SnapshotInput) : Prop where
  vmas : ∀ v ∈ x.vmas, 4096 ∣ v.start ∧ 4096 ∣ v.stop ∧ v.start < v.stop ∧ v.stop ≤ kUserEnd
  areas : ∀ a ∈ x.areas, a.ptr + a.maxSize ≤ kUserEnd
  apart : x.regions.Pairwise Region.Apart

/-! ### The part that is saved -/

section Saved
variable {mem : ℕ → UInt8} {buf n i : ℕ}

theorem minWords_le (mem : ℕ → UInt8) (buf n : ℕ) : minWords mem buf n ≤ n := by
  induction n with
  | zero => exact le_rfl
  | succ n ih =>
    rw [minWords]
    split_ifs
    · exact le_rfl
    · exact ih.trans (le_succ n)

theorem getMinSize_le (mem : ℕ → UInt8) (buf len : ℕ) : getMinSize mem buf len ≤ (len + 7) / 8 * 8 :=
  mul_le_mul_right 8 (minWords_le mem buf _)

theorem readWord_eq_zero_of_minWords_le (hlo : minWords mem buf n ≤ i) (hhi : i < n) :
    readWord mem (buf + 8 * i) = 0 := by
  induction n with
  | zero => cases hhi
  | succ n ih =>
    rw [minWords] at hlo
    split_ifs at hlo with hword
    · exact absurd hhi (not_lt.mpr hlo)
    rcases Nat.lt_succ_iff_lt_or_eq.mp hhi with hlt | rfl
    · exact ih hlo hlt
    · exact not_not.mp hword

theorem eq_zero_of_ofBytes {bytes : List UInt8} (h : ofBytes bytes = 0) : ∀ b ∈ bytes, b = 0 := by
  induction bytes with
  | nil => nofun
  | cons b bytes ih =>
    rw [ofBytes, Nat.add_eq_zero_iff, Nat.mul_eq_zero] at h
    obtain ⟨hb, hrest⟩ := h
    refine forall_mem_cons.mpr ⟨UInt8.toNat_inj.mp hb, ih ?_⟩
    exact hrest.resolve_left (by decide)

theorem eq_zero_of_readWord {a : ℕ} (h : readWord mem a = 0) (hi : i < 8) : mem (a + i) = 0 := by
  apply eq_zero_of_ofBytes h
  exact mem_map.mpr ⟨i, mem_range.mpr hi, rfl⟩

theorem eq_zero_of_getMinSize_le {len : ℕ} (hlo : getMinSize mem buf len ≤ i) (hhi : i < len) : mem (buf + i) = 0 := by
  have hword : readWord mem (buf + 8 * (i / 8)) = 0 := by
    apply @readWord_eq_zero_of_minWords_le mem buf ((len + 7) / 8)
    · unfold getMinSize at hlo
      omega
    · omega
  have hbyte := eq_zero_of_readWord hword (mod_lt i (by decide : 0 < 8))
  rwa [add_assoc, div_add_mod] at hbyte

end Saved

namespace Region
variable {mem : ℕ → UInt8} {r : Region}

theorem dvd_saved (mem : ℕ → UInt8) (r : Region) : 4096 ∣ r.saved mem := pageAlign_dvd _

theorem Sound.stop_lt (h : r.Sound) : r.start + r.size ≤ 2 ^ 47 := h.stop_le

theorem Sound.saved_le_data (h : r.Sound) : r.saved mem ≤ pageAlign r.data := by
  have hstop := h.stop_lt
  have hdata := h.data_le
  have hmin := getMinSize_le mem r.start r.data
  rw [saved, pageAlign_eq (by omega), pageAlign_eq (by omega)]
  omega

theorem Sound.saved_le (h : r.Sound) : r.saved mem ≤ r.size := by
  have hstop := h.stop_lt
  have hbound := pageAlign_le h.data_le h.size_dvd (by omega)
  exact h.saved_le_data.trans hbound.2

theorem Sound.eq_zero (h : r.Sound) {i : ℕ} (hlo : r.saved mem ≤ i) (hhi : i < r.data) : mem (r.start + i) = 0 := by
  have hstop := h.stop_lt
  have hdata := h.data_le
  have hmin := getMinSize_le mem r.start r.data
  apply eq_zero_of_getMinSize_le _ hhi
  rw [saved, pageAlign_eq (by omega)] at hlo
  omega

theorem sum_size_le {rs : List Region} (hsound : ∀ r ∈ rs, r.Sound) (hapart : rs.Pairwise Apart) :
    (rs.map size).sum ≤ kUserEnd := by
  let addresses : List ℕ := rs.flatMap fun r => range' r.start r.size
  have hnodup : addresses.Nodup := by
    refine nodup_flatMap.mpr ⟨fun r _ => nodup_range', hapart.imp fun {r r'} h a ha ha' => ?_⟩
    obtain ⟨hlo, hhi⟩ := mem_range'_1.mp ha
    obtain ⟨hlo', hhi'⟩ := mem_range'_1.mp ha'
    simp only [Apart, stop] at h
    omega
  have hsub : addresses ⊆ range kUserEnd := by
    intro a ha
    obtain ⟨r, hr, ha⟩ := mem_flatMap.mp ha
    obtain ⟨hlo, hhi⟩ := mem_range'_1.mp ha
    exact mem_range.mpr (hhi.trans_le (hsound r hr).stop_le)
  have hlen : addresses.length = (rs.map size).sum := by
    rw [length_flatMap]
    simp [length_range']
  rw [← hlen]
  simpa using (hnodup.subperm hsub).length_le

theorem sum_saved_le (mem : ℕ → UInt8) {rs : List Region} (hsound : ∀ r ∈ rs, r.Sound) (hapart : rs.Pairwise Apart) :
    (rs.map (saved mem)).sum ≤ kUserEnd :=
  (sum_le_sum fun r hr => (hsound r hr).saved_le).trans (sum_size_le hsound hapart)

end Region

theorem VMArea.dataLength_le (v : VMArea) (sizes : FileRef → ℕ) : v.dataLength sizes ≤ v.length := by
  unfold dataLength
  split
  · split_ifs
    · exact zero_le _
    · exact min_le_right _ _
  · exact le_rfl

theorem VMArea.dvd_dataLength {v : VMArea} (hlen : 4096 ∣ v.length) (sizes : FileRef → ℕ) :
    4096 ∣ v.dataLength sizes := by
  unfold dataLength
  split
  · split_ifs
    · exact dvd_zero _
    rcases min_choice (pageAlign (sizes _ - v.offset.toNat)) v.length with hmin | hmin
    · rw [hmin]
      exact pageAlign_dvd _
    · rw [hmin]
      exact hlen
  · exact hlen

theorem SnapshotInput.Valid.sound {x : SnapshotInput} (hx : x.Valid) : ∀ r ∈ x.regions, r.Sound := by
  intro r hr
  rcases mem_append.mp hr with hr | hr
  · obtain ⟨v, hv, rfl⟩ := mem_map.mp hr
    obtain ⟨hstart, hstop, hlt, hend⟩ := hx.vmas v hv
    have hbound : v.stop < 2 ^ 64 := hend.trans_lt (by decide)
    have hlen : v.length = v.stop - v.start := subWord_of_le hlt.le hbound
    refine ⟨hstart, ?_, ?_, v.dataLength_le x.sizes, ?_⟩
    · change 4096 ∣ v.length
      rw [hlen]
      exact dvd_sub hstop hstart
    · change 0 < v.length
      omega
    · change v.start + v.length ≤ kUserEnd
      omega
  · obtain ⟨a, ha, rfl⟩ := mem_map.mp hr
    exact ⟨a.ptr_dvd, a.maxSize_dvd, a.maxSize_pos, a.inUseSize_le, hx.areas a ha⟩

/-! ### Protections -/

def hostProt (p : Prot) : Prot := p &&& (PROT_READ ||| PROT_WRITE ||| PROT_EXEC)

theorem hostProt_eq (p : Prot) : hostProt p =
    (if hasFlag p PROT_READ then PROT_READ else 0) ||| (if hasFlag p PROT_WRITE then PROT_WRITE else 0) |||
      (if hasFlag p PROT_EXEC then PROT_EXEC else 0) := by
  have hbit : ∀ i : ℕ, (if hasFlag p (BitVec.twoPow 32 i) then BitVec.twoPow 32 i else 0) = p &&& BitVec.twoPow 32 i := by
    intro i
    split_ifs with hflag
    · rw [hasFlag, BitVec.and_twoPow] at hflag
      rw [BitVec.and_twoPow]
      split_ifs at hflag ⊢ with hi
      · rfl
      · cases hflag
    · simpa [hasFlag] using Eq.symm (by simpa [hasFlag] using hflag)
  have hread : (if hasFlag p PROT_READ then PROT_READ else 0) = p &&& PROT_READ := hbit 0
  have hwrite : (if hasFlag p PROT_WRITE then PROT_WRITE else 0) = p &&& PROT_WRITE := hbit 1
  have hexec : (if hasFlag p PROT_EXEC then PROT_EXEC else 0) = p &&& PROT_EXEC := hbit 2
  rw [hread, hwrite, hexec, hostProt, BitVec.and_or_distrib_left, BitVec.and_or_distrib_left]

/-- The calls of `KernelMProtect` that were made and what those that succeeded did. -/
structure ProtectState where
  calls : ℕ
  effects : List HostEffect

namespace ProtectState
variable (env : ℕ → Status Unit)

def kernelMProtect (s : ProtectState) (addr len : ℕ) (p : Prot) : Status Unit × ProtectState :=
  match env s.calls with
  | .error e => (.error e, { s with calls := s.calls + 1 })
  | .ok _ => (.ok (), ⟨s.calls + 1, s.effects ++ [.protect addr (addr + len) p]⟩)

/-- Makes the data of a region readable, if it has data and is not readable. -/
def makeReadable (s : ProtectState) (r : Region) : Status Unit × ProtectState :=
  if r.data ≠ 0 ∧ hasFlag r.prot PROT_READ = false then s.kernelMProtect env r.start r.data (r.prot ||| PROT_READ)
  else (.ok (), s)

/-- `RestoreVMAProtections`, on the regions of the areas. -/
def restoreVMAProtections : ProtectState → List Region → Status Unit × ProtectState
  | s, [] => (.ok (), s)
  | s, r :: rs =>
    if hasFlag r.prot PROT_READ then restoreVMAProtections s rs
    else if r.data = 0 then restoreVMAProtections s rs
    else
      match s.kernelMProtect env r.start r.data r.prot with
      | (.error e, s) => (.error e, s)
      | (.ok _, s) => restoreVMAProtections s rs

end ProtectState

/-! ### Junction's own buffers -/

def ownAddress : ℕ := 2 ^ 64

/-- The memory that a vector is written from: that of the process, and `own` at `ownAddress`. -/
def contents (mem : ℕ → UInt8) (own : List UInt8) (a : ℕ) : UInt8 :=
  if a < ownAddress then mem a else own.getD (a - ownAddress) 0

section Contents
variable {mem : ℕ → UInt8} {own : List UInt8}

theorem map_contents_own (mem : ℕ → UInt8) (own : List UInt8) :
    (range' ownAddress own.length).map (contents mem own) = own := by
  apply ext_getElem
  · rw [length_map, length_range']
  intro i hi hi'
  have hnot : ¬ ownAddress + i < ownAddress := by omega
  rw [getElem_map, getElem_range'_1, contents, if_neg hnot, Nat.add_sub_cancel_left,
    getD_eq_getElem?_getD, getElem?_eq_getElem hi', Option.getD_some]

theorem map_contents_mem {data : List ℕ} (h : ∀ a ∈ data, a < ownAddress) : data.map (contents mem own) = data.map mem :=
  map_congr_left fun a ha => if_pos (h a ha)

end Contents

/-! ### Mappings that the host makes -/

def HostMMap.Grants (host : HostMMap) : Prop :=
  ∀ addr len prot flags file (off : BitVec 64), 4096 ∣ addr → 0 < len → addr + len ≤ kUserEnd → 4096 ∣ off.toNat →
    off.toNat + len < 2 ^ 63 → ∃ r, host.call addr len prot flags file off = .ok r

theorem HostMMap.grants_willing : HostMMap.willing.Grants :=
  fun addr _ _ _ _ _ hd hpos hend _ _ => ⟨addr, if_pos ⟨hd, hpos, hend.trans (by decide)⟩⟩

def LoadCall.Mappable : LoadCall → Prop
  | mapFile _ start len _ off =>
    4096 ∣ start ∧ 4096 ∣ len ∧ 0 < len ∧ start + len ≤ kUserEnd ∧ 4096 ∣ off ∧ off + len < 2 ^ 63
  | mapAnonymous start len _ => 4096 ∣ start ∧ 4096 ∣ len ∧ 0 < len ∧ start + len ≤ kUserEnd
  | protect _ _ _ => False
  | zero _ _ => False

/-! ### What a restore should do -/

namespace Region
variable {r : Region} {mem mem' : ℕ → UInt8} {prot' : ℕ → Option Prot}

/-- The data of a region is what it was and there are zeros from `rest` on. The protection is that of the region. -/
structure Restored (r : Region) (mem mem' : ℕ → UInt8) (prot' : ℕ → Option Prot) (rest : ℕ) : Prop where
  data : ∀ i < r.data, mem' (r.start + i) = mem (r.start + i)
  zeros : ∀ i, rest ≤ i → i < r.size → mem' (r.start + i) = 0
  prot : ∀ i < r.size, prot' (r.start + i) = some (hostProt r.prot)

/-- The pages that were saved are what they were and there are zeros behind them. -/
structure PutBack (r : Region) (mem mem' : ℕ → UInt8) (prot' : ℕ → Option Prot) : Prop where
  bytes : ∀ i < r.size, mem' (r.start + i) = if i < r.saved mem then mem (r.start + i) else 0
  prot : ∀ i < r.size, prot' (r.start + i) = some (hostProt r.prot)

theorem PutBack.restored (h : r.PutBack mem mem' prot') (hr : r.Sound) :
    r.Restored mem mem' prot' (pageAlign r.data) where
  data i hi := by
    rw [h.bytes i (hi.trans_le hr.data_le)]
    split_ifs with hsaved
    · rfl
    · exact (hr.eq_zero (Nat.le_of_not_lt hsaved) hi).symm
  zeros i hlo hhi := by
    rw [h.bytes i hhi, if_neg (not_lt.mpr (hr.saved_le_data.trans hlo))]
  prot := h.prot

end Region

theorem SnapshotInput.Valid.pageAlign_dataLength {x : SnapshotInput} (hx : x.Valid) {v : VMArea} (hv : v ∈ x.vmas) :
    pageAlign (v.dataLength x.sizes) = v.dataLength x.sizes := by
  have hsound := hx.sound (v.region x.sizes) (mem_append_left _ (mem_map_of_mem hv))
  have hstop := hsound.stop_lt
  have hdata : v.dataLength x.sizes ≤ (v.region x.sizes).size := hsound.data_le
  exact pageAlign_of_dvd (VMArea.dvd_dataLength hsound.size_dvd x.sizes) (by omega)

/-! ### Lists that correspond -/

section Correspondence
variable {α β : Type} {R : α → β → Prop} {l : List α} {l' : List β}

theorem getElem?_append_of_some {l l' : List α} {i : ℕ} {x : α} (h : l[i]? = some x) : (l ++ l')[i]? = some x := by
  have hlt : i < l.length := (List.getElem?_eq_some_iff.mp h).1
  rw [getElem?_append_left hlt, h]

variable (h : List.Forall₂ R l l')
include h

theorem exists_right_of_forall₂ {x : α} (hx : x ∈ l) : ∃ y ∈ l', R x y := by
  induction h with
  | nil => cases hx
  | @cons a b l l' hab _ ih =>
    rcases mem_cons.mp hx with rfl | hx
    · exact ⟨b, mem_cons_self, hab⟩
    · obtain ⟨y, hy, hxy⟩ := ih hx
      exact ⟨y, mem_cons_of_mem b hy, hxy⟩

theorem exists_left_of_forall₂ {y : β} (hy : y ∈ l') : ∃ x ∈ l, R x y := by
  have hflip : List.Forall₂ (flip R) l' l := List.Forall₂.flip h
  exact exists_right_of_forall₂ hflip hy

theorem pairwise_of_forall₂ {P : α → α → Prop} {Q : β → β → Prop}
    (hstep : ∀ {x x' y y'}, R x y → R x' y' → P x x' → Q y y') (hl : l.Pairwise P) : l'.Pairwise Q := by
  induction h with
  | nil => exact List.Pairwise.nil
  | @cons a b l l' hab hrest ih =>
    obtain ⟨ha, hl⟩ := pairwise_cons.mp hl
    refine pairwise_cons.mpr ⟨fun y hy => ?_, ih hl⟩
    obtain ⟨x, hx, hxy⟩ := exists_left_of_forall₂ hrest hy
    exact hstep hab hxy (ha x hx)

end Correspondence

end Junction
