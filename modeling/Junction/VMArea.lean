import Junction.IntervalSetInvariants

/-!
# Memory areas as labelled intervals

A `VMArea` labels each address it contains with its protection, type, traced bit, file and the file
offset of the address. The offset of an area without a file is never read, so it is no part of the
label. `MappingsMergeable` compares what a `VMArea` shows at its end with what the next one shows at
its start, which makes the type a lawful interval type.
-/

namespace Junction
open HalfOpen IntervalData IntervalCover

inductive VMType
  | kNormal
  | kHeap
  | kStack
  | kFile
  deriving DecidableEq, Repr

structure VMArea where
  start : ℕ
  stop : ℕ
  prot : BitVec 32
  traced : Bool
  type : VMType
  file : Option FileRef
  offset : BitVec 64
  deriving DecidableEq, Repr

namespace VMArea

/-- `VMArea(addr, len, prot, type)`. The source leaves the offset of such an area unset. -/
def anonymous (addr len : ℕ) (prot : BitVec 32) (type : VMType) : VMArea :=
  ⟨addr, addWord addr len, prot, false, type, none, 0⟩

/-- `VMArea(addr, len, prot, file, offset)`. -/
def fileBacked (addr len : ℕ) (prot : BitVec 32) (file : FileRef) (offset : BitVec 64) : VMArea :=
  ⟨addr, addWord addr len, prot, false, .kFile, some file, offset⟩

def length (v : VMArea) : ℕ := subWord v.stop v.start

def trimTail (v : VMArea) (newEnd : ℕ) : VMArea := { v with stop := newEnd }

def trimHead (v : VMArea) (newStart : ℕ) : VMArea :=
  { v with
    start := newStart
    offset := if v.type = .kFile then v.offset + BitVec.ofNat 64 (subWord newStart v.start)
      else v.offset }

end VMArea

def mappingsMergeable (lhs rhs : VMArea) : Bool :=
  if lhs.stop ≠ rhs.start ∨ lhs.type ≠ rhs.type ∨ lhs.prot ≠ rhs.prot then false
  else if lhs.traced ≠ rhs.traced then false
  else if lhs.type = .kFile then
    if lhs.offset + BitVec.ofNat 64 lhs.length ≠ rhs.offset then false
    else if lhs.file ≠ rhs.file then false
    else true
  else true

instance : IntervalData VMArea where
  getStart v := v.start
  getEnd v := v.stop
  trimTail := VMArea.trimTail
  trimHead := VMArea.trimHead
  tryMergeRight rhs lhs :=
    if mappingsMergeable lhs rhs then some { rhs with start := lhs.start, offset := lhs.offset }
    else none

variable (v : VMArea)

@[simp] theorem VMArea.getStart_eq : getStart v = v.start := rfl

@[simp] theorem VMArea.getEnd_eq : getEnd v = v.stop := rfl

structure Attrs where
  prot : BitVec 32
  type : VMType
  traced : Bool
  file : Option FileRef
  deriving DecidableEq, Repr

structure PageAttr where
  attrs : Attrs
  fileOffset : Option (BitVec 64)
  deriving DecidableEq, Repr

structure Edge where
  pos : ℕ
  attrs : Attrs
  fileOffset : Option (BitVec 64)
  deriving DecidableEq, Repr

namespace VMArea

def attrs (v : VMArea) : Attrs :=
  { v with file := if v.type = .kFile then v.file else none }

/-- The file offset of the address `a`, for areas backed by a file. -/
def fileOffset (v : VMArea) (a : ℕ) : Option (BitVec 64) :=
  if v.type = .kFile then some (v.offset + (BitVec.ofNat 64 a - BitVec.ofNat 64 v.start)) else none

def pageAttr (v : VMArea) (a : ℕ) : PageAttr := ⟨v.attrs, v.fileOffset a⟩

def edge (v : VMArea) (a : ℕ) : Edge := ⟨a, v.attrs, v.fileOffset a⟩

end VMArea

theorem ofNat_subWord (a b : ℕ) : BitVec.ofNat 64 (subWord a b) = BitVec.ofNat 64 a - BitVec.ofNat 64 b := by
  apply BitVec.eq_of_toNat_eq
  simp only [subWord, BitVec.toNat_ofNat, BitVec.toNat_sub]
  omega

theorem VMArea.fileOffset_trimHead (s a : ℕ) : (v.trimHead s).fileOffset a = v.fileOffset a := by
  by_cases hf : v.type = .kFile
  · simp only [fileOffset, trimHead, if_pos hf, ofNat_subWord, Option.some.injEq]
    ring
  · simp [fileOffset, trimHead, if_neg hf]

theorem mappingsMergeable_iff (lhs rhs : VMArea) :
    mappingsMergeable lhs rhs ↔ lhs.edge lhs.stop = rhs.edge rhs.start := by
  obtain ⟨s, e, p, tr, ty, f, o⟩ := lhs
  obtain ⟨s', e', p', tr', ty', f', o'⟩ := rhs
  simp only [mappingsMergeable, VMArea.edge, VMArea.attrs, VMArea.fileOffset, VMArea.length,
    ofNat_subWord, Edge.mk.injEq, Attrs.mk.injEq]
  by_cases hty : ty = ty'
  · subst hty
    by_cases hf : ty = .kFile
    · simp [hf]
      tauto
    · simp [hf]
      tauto
  · simp [hty]

variable {rhs lhs : VMArea}

theorem tryMergeRight_eq_some {m : VMArea} (h : tryMergeRight rhs lhs = some m) :
    lhs.edge lhs.stop = rhs.edge rhs.start ∧ m = { rhs with start := lhs.start, offset := lhs.offset } := by
  simp only [tryMergeRight, Option.ite_none_right_eq_some, Option.some.injEq] at h
  exact ⟨(mappingsMergeable_iff lhs rhs).1 h.1, h.2.symm⟩

theorem VMArea.attrs_eq_of_edge {a b : ℕ} (h : lhs.edge a = rhs.edge b) : lhs.attrs = rhs.attrs := congrArg Edge.attrs h

variable (h : lhs.edge lhs.stop = rhs.edge rhs.start)
include h

theorem VMArea.fileOffset_merge (a : ℕ) : lhs.fileOffset a = rhs.fileOffset a ∧
      ({ rhs with start := lhs.start, offset := lhs.offset } : VMArea).fileOffset a = lhs.fileOffset a := by
  have htype : lhs.type = rhs.type := congrArg Attrs.type (VMArea.attrs_eq_of_edge h)
  have hpos : lhs.stop = rhs.start := congrArg Edge.pos h
  have hoff : lhs.fileOffset lhs.stop = rhs.fileOffset rhs.start := congrArg Edge.fileOffset h
  simp only [fileOffset, htype] at hoff ⊢
  by_cases hf : rhs.type = .kFile
  · simp only [if_pos hf, Option.some.injEq, hpos, sub_self, add_zero] at hoff ⊢
    refine ⟨?_, trivial⟩
    rw [← hoff]
    ring
  · simp [if_neg hf, and_self]

theorem VMArea.edge_merge (a : ℕ) :
    ({ rhs with start := lhs.start, offset := lhs.offset } : VMArea).edge a = rhs.edge a ∧ lhs.edge a = rhs.edge a := by
  obtain ⟨hoff, hmerged⟩ := fileOffset_merge h a
  simp only [edge, hmerged, hoff, attrs_eq_of_edge h]
  exact ⟨rfl, trivial⟩

omit h

instance : LawfulIntervalData VMArea PageAttr Edge where
  attr := VMArea.pageAttr
  leftEdge v := v.edge v.start
  rightEdge v := v.edge v.stop
  getStart_trimTail _ _ := rfl
  getEnd_trimTail _ _ := rfl
  attr_trimTail _ _ _ := rfl
  leftEdge_trimTail _ _ := rfl
  getStart_trimHead _ _ := rfl
  getEnd_trimHead _ _ := rfl
  attr_trimHead v s a _ _ := by
    simp only [trimHead, VMArea.pageAttr, VMArea.fileOffset_trimHead]
    rfl
  rightEdge_trimHead v s _ _ := by
    simp only [trimHead, VMArea.edge, VMArea.fileOffset_trimHead]
    rfl
  tryMergeRight_eq_none_iff rhs lhs := by
    rw [ne_eq, ← mappingsMergeable_iff]
    simp [tryMergeRight]
  getEnd_eq_getStart_of_merge rhs lhs m h := congrArg Edge.pos (tryMergeRight_eq_some h).1
  getStart_merge rhs lhs m h := by rw [(tryMergeRight_eq_some h).2]; rfl
  getEnd_merge rhs lhs m h := by rw [(tryMergeRight_eq_some h).2]; rfl
  attr_merge_left rhs lhs m a h _ := by
    obtain ⟨hedge, rfl⟩ := tryMergeRight_eq_some h
    simp only [VMArea.pageAttr, (VMArea.fileOffset_merge hedge a).2, VMArea.attrs_eq_of_edge hedge]
    rfl
  attr_merge_right rhs lhs m a h _ _ := by
    obtain ⟨hedge, rfl⟩ := tryMergeRight_eq_some h
    obtain ⟨hoff, hmerged⟩ := VMArea.fileOffset_merge hedge a
    simp only [VMArea.pageAttr, hmerged, hoff]
    rfl
  leftEdge_merge rhs lhs m h := by
    obtain ⟨hedge, rfl⟩ := tryMergeRight_eq_some h
    obtain ⟨hmerged, hsame⟩ := VMArea.edge_merge hedge lhs.start
    rw [hsame, ← hmerged]
  rightEdge_merge rhs lhs m h _ _ := by
    obtain ⟨hedge, rfl⟩ := tryMergeRight_eq_some h
    exact (VMArea.edge_merge hedge rhs.stop).1

end Junction

/-!
### The page-attribute map

The areas of a process stand for one partial function from addresses to page attributes.
-/

namespace Junction
open HalfOpen IntervalCover ExclusiveIntervalSet

def PageMap := ℕ → Option PageAttr

namespace PageMap

def removeRange (f : PageMap) (start stop : ℕ) : PageMap :=
  fun a => if start ≤ a ∧ a < stop then none else f a

def overwrite (f : PageMap) (v : VMArea) : PageMap :=
  fun a => if v.start ≤ a ∧ a < v.stop then some (v.pageAttr a) else f a

/-- Rewrites the attributes of the mapped addresses of a range that satisfy `reads`. File offsets
are kept. -/
def updateRange (f : PageMap) (start stop : ℕ) (reads : Attrs → Bool) (writes : Attrs → Attrs) :
    PageMap :=
  fun a => if start ≤ a ∧ a < stop then
      (f a).map fun p => if reads p.attrs then { p with attrs := writes p.attrs } else p
    else f a

end PageMap

def pageMap (l : List (ℕ × VMArea)) : PageMap := attrAt l

variable {l : List (ℕ × VMArea)}

theorem pageMap_eq_some_iff (hl : WellFormed l) {a : ℕ} {p : PageAttr} :
    pageMap l a = some p ↔ AttrMaps l a p := value_eq_some_iff hl.separated

/-- A check and a change of areas that read and write nothing but attributes: neither the bounds of
the area nor the file offset of an address. -/
structure AttrChange where
  check : VMArea → Bool
  change : VMArea → VMArea
  reads : Attrs → Bool
  writes : Attrs → Attrs
  check_eq (v : VMArea) : check v = reads v.attrs
  start_change (v : VMArea) : (change v).start = v.start
  stop_change (v : VMArea) : (change v).stop = v.stop
  attrs_change (v : VMArea) : (change v).attrs = writes v.attrs
  fileOffset_change (v : VMArea) (a : ℕ) : (change v).fileOffset a = v.fileOffset a

namespace AttrChange

def toUpdate (u : AttrChange) : AttrUpdate VMArea where
  check := u.check
  change := u.change
  reads p := u.reads p.attrs
  writes p := { p with attrs := u.writes p.attrs }
  check_eq v _ := u.check_eq v
  getStart_change := u.start_change
  getEnd_change := u.stop_change
  attr_change v a := by
    change PageAttr.mk _ _ = _
    rw [u.attrs_change, u.fileOffset_change]
    rfl

/-- The change of `MemoryMap::Modify`. `TracerModifyProt` differs from the plain assignment in its
kernel calls only. -/
def setProt (prot : BitVec 32) : AttrChange where
  check v := decide (v.prot ≠ prot)
  change v := { v with prot := prot }
  reads p := decide (p.prot ≠ prot)
  writes p := { p with prot := prot }
  check_eq _ := rfl
  start_change _ := rfl
  stop_change _ := rfl
  attrs_change _ := rfl
  fileOffset_change _ _ := rfl

/-- The change of `EndTracing`, which leaves an area that is not traced as it is. -/
def untrace : AttrChange where
  check _ := true
  change v := if v.traced then { v with traced := false } else v
  reads _ := true
  writes p := { p with traced := false }
  check_eq _ := rfl
  start_change v := by by_cases h : v.traced <;> simp [h]
  stop_change v := by by_cases h : v.traced <;> simp [h]
  attrs_change v := by
    by_cases h : v.traced
    · simp only [h, if_true]
      rfl
    · simp only [h, Bool.false_eq_true, if_false]
      simp [VMArea.attrs, h]
  fileOffset_change v a := by
    by_cases h : v.traced
    · simp only [h, if_true]
      rfl
    · simp [h, Bool.false_eq_true]

end AttrChange

theorem pageMap_clear (hl : WellFormed l) {start stop : ℕ} (hss : start < stop) :
    pageMap (Cursor.entries (clear l start stop)) = (pageMap l).removeRange start stop := by
  obtain ⟨hwf, hmaps⟩ := clear_spec hl hss.le
  funext a
  apply Option.ext
  intro p
  rw [pageMap_eq_some_iff hwf, hmaps a p, ← pageMap_eq_some_iff hl, PageMap.removeRange]
  by_cases ha : start ≤ a ∧ a < stop
  · simp [ha]
  · simp [ha]

theorem pageMap_insert (hl : WellFormed l) {v : VMArea}
    (hv : v.start < v.stop) : pageMap (insert l v) = (pageMap l).overwrite v := by
  obtain ⟨hwf, hmaps⟩ := insert_spec hl hv
  funext a
  apply Option.ext
  intro p
  rw [pageMap_eq_some_iff hwf, hmaps a p, ← pageMap_eq_some_iff hl, PageMap.overwrite]
  change (v.start ≤ a ∧ a < v.stop ∧ v.pageAttr a = p) ∨ (pageMap l a = some p ∧ ¬ (v.start ≤ a ∧ a < v.stop)) ↔ _
  by_cases ha : v.start ≤ a ∧ a < v.stop
  · simp [ha]
  · rw [if_neg ha]
    tauto

theorem pageMap_modify (u : AttrChange) (hl : WellFormed l) {start stop : ℕ} (hss : start < stop) :
    pageMap (modify l start stop u.check u.change) = (pageMap l).updateRange start stop u.reads u.writes := by
  obtain ⟨hwf, hmaps⟩ := modify_spec u.toUpdate hl hss
  change WellFormed (modify l start stop u.check u.change) at hwf
  funext a
  apply Option.ext
  intro p
  rw [pageMap_eq_some_iff hwf]
  refine (hmaps a p).trans ?_
  simp only [← pageMap_eq_some_iff hl, PageMap.updateRange, AttrUpdate.apply]
  by_cases ha : start ≤ a ∧ a < stop
  · simp only [ha, and_self, true_and, if_true, Option.map_eq_some_iff]
    rfl
  · simp [ha]

/-- On every set whose entries are keyed by their end, non-empty and disjoint, the three operations
act on the page-attribute map as their names say and leave such a set. -/
theorem vmareas_refine_pageMap {l : List (ℕ × VMArea)} (hl : WellFormed l) : (∀ start stop, start < stop →
      WellFormed (Cursor.entries (clear l start stop)) ∧
        pageMap (Cursor.entries (clear l start stop)) = (pageMap l).removeRange start stop) ∧
    (∀ v : VMArea, v.start < v.stop → WellFormed (insert l v) ∧ pageMap (insert l v) = (pageMap l).overwrite v) ∧
    (∀ (u : AttrChange) (start stop : ℕ), start < stop → WellFormed (modify l start stop u.check u.change) ∧
        pageMap (modify l start stop u.check u.change) = (pageMap l).updateRange start stop u.reads u.writes) := by
  refine ⟨?_, ?_, ?_⟩
  · intro start stop hss
    exact ⟨(clear_spec hl hss.le).1, pageMap_clear hl hss⟩
  · intro v hv
    exact ⟨(insert_spec hl hv).1, pageMap_insert hl hv⟩
  · intro u start stop hss
    exact ⟨(modify_spec u.toUpdate hl hss).1, pageMap_modify u hl hss⟩

/-- A file mapping of two pages whose first page is made read-only. -/
def twoPages : List (ℕ × VMArea) := [(0x3000, .fileBacked 0x1000 0x2000 3 7 0)]

theorem wellFormed_twoPages : WellFormed twoPages := wellFormed_cons.2 ⟨by decide, by simp, wellFormed_nil⟩

theorem vmareas_refine_pageMap_twoPages : WellFormed twoPages ∧
      pageMap (modify twoPages 0x1000 0x2000 (AttrChange.setProt 1).check (AttrChange.setProt 1).change) 0x2000 =
        some ⟨⟨3, .kFile, false, some 7⟩, some 0x1000⟩ := by
  refine ⟨wellFormed_twoPages, ?_⟩
  rw [((vmareas_refine_pageMap wellFormed_twoPages).2.2 _ 0x1000 0x2000 (by decide)).2]
  decide

end Junction

/-! ### Valid sets of memory areas, as the source asserts them after each change of `vmareas_` -/

namespace Junction
open HalfOpen IntervalData ExclusiveIntervalSet LawfulIntervalData VMArea AttrChange

/-- The loop of `MappingsValid` from the entry behind `prev` on. -/
def mappingsValidLoop : ℕ → VMArea → List (ℕ × VMArea) → Bool
  | _, _, [] => true
  | lastEnd, prev, (key, vma) :: rest =>
    if key ≠ vma.stop then false
    else if vma.stop ≤ vma.start then false
    else if isPageAligned vma.start = false ∨ isPageAligned vma.stop = false then false
    else if vma.type = .kFile ∧ vma.file = none then false
    else if vma.type ≠ .kFile ∧ vma.file ≠ none then false
    else if vma.start < lastEnd then false
    else if mappingsMergeable prev vma then false
    else mappingsValidLoop vma.stop vma rest

/-- `MappingsValid(vmareas)`. At the first entry `prev` is the entry itself. -/
def mappingsValid (vmareas : List (ℕ × VMArea)) : Bool :=
  match vmareas with
  | [] => true
  | e :: rest => mappingsValidLoop 0 e.2 (e :: rest)

/-- The conditions of `MappingsValid` on one area. -/
structure VMArea.Sound (v : VMArea) : Prop where
  start_dvd : 4096 ∣ v.start
  stop_dvd : 4096 ∣ v.stop
  stop_lt : v.stop < 2 ^ 64
  file_iff : v.type = .kFile ↔ v.file ≠ none

variable {l : List (ℕ × VMArea)}

theorem mappingsValidLoop_of (hwf : WellFormed l) (hco : Coalesced l)
    (hs : ∀ e ∈ l, e.2.Sound) (lastEnd : ℕ) (prev : VMArea) (hlast : ∀ e ∈ l, lastEnd ≤ e.2.start)
    (hprev : ∀ e ∈ l.head?, mappingsMergeable prev e.2 = false) : mappingsValidLoop lastEnd prev l := by
  induction l generalizing lastEnd prev with
  | nil => rfl
  | cons e rest ih =>
    obtain ⟨key, v⟩ := e
    obtain ⟨⟨hkey, hne⟩, hsep, hrest⟩ := wellFormed_cons.1 hwf
    obtain ⟨hnext, hrestco⟩ := coalesced_cons.1 hco
    obtain ⟨hv, hsrest⟩ := List.forall_mem_cons.1 hs
    have hkey' : key = v.stop := hkey
    have hne' : v.start < v.stop := hne
    have hlt : v.start < 2 ^ 64 := hne'.trans hv.stop_lt
    have h₁ : isPageAligned v.start := (isPageAligned_iff hlt).2 hv.start_dvd
    have h₂ : isPageAligned v.stop := (isPageAligned_iff hv.stop_lt).2 hv.stop_dvd
    have h₃ : ¬ (v.type = .kFile ∧ v.file = none) := fun h => hv.file_iff.1 h.1 h.2
    have h₄ : ¬ (v.type ≠ .kFile ∧ v.file ≠ none) := fun h => h.1 (hv.file_iff.2 h.2)
    have h₅ : ¬ v.start < lastEnd := Nat.not_lt.2 (hlast (key, v) (by simp))
    have h₆ : mappingsMergeable prev v = false := hprev (key, v) (by simp)
    have hloop := ih hrest hrestco hsrest v.stop v hsep fun y hy => by
      rw [Bool.eq_false_iff, ne_eq, mappingsMergeable_iff]
      exact hnext y hy
    simp only [mappingsValidLoop, hkey', h₁, h₂, h₆, hloop, if_neg h₃, if_neg h₄, if_neg h₅,
      Nat.not_le.2 hne', ne_eq, not_true_eq_false, if_false, reduceCtorEq, or_self,
      Bool.false_eq_true]

theorem mappingsValid_of (hwf : WellFormed l) (hco : Coalesced l) (hs : ∀ e ∈ l, e.2.Sound) : mappingsValid l := by
  cases l with
  | nil => rfl
  | cons e rest =>
    apply mappingsValidLoop_of hwf hco hs 0 e.2 (fun _ _ => Nat.zero_le _)
    intro y hy
    rw [List.head?_cons, Option.mem_some_iff] at hy
    rw [← hy, Bool.eq_false_iff, ne_eq, mappingsMergeable_iff]
    intro hedge
    have hne := (wellFormed_cons.1 hwf).1.2
    have hpos : e.2.stop = e.2.start := congrArg Edge.pos hedge
    simp only [getStart_eq, getEnd_eq] at hne
    omega

theorem of_mappingsValidLoop {lastEnd : ℕ} {prev : VMArea} (h : mappingsValidLoop lastEnd prev l) :
    (∀ e ∈ l, lastEnd ≤ e.2.start ∧ e.2.start < e.2.stop ∧ 4096 ∣ e.2.start ∧ 4096 ∣ e.2.stop) ∧
      l.Pairwise fun e e' => e.2.stop ≤ e'.2.start := by
  induction l generalizing lastEnd prev with
  | nil => exact ⟨nofun, List.Pairwise.nil⟩
  | cons e rest ih =>
    obtain ⟨key, v⟩ := e
    have hdvd : ∀ {a : ℕ}, isPageAligned a → 4096 ∣ a := by
      intro a ha
      have heq : pageAlign a = a := by simpa [isPageAligned] using ha
      exact heq ▸ pageAlign_dvd a
    rw [mappingsValidLoop] at h
    split_ifs at h with hkey hempty halign hfile hnone hlast hmerge
    obtain ⟨hrest, hpairs⟩ := ih h
    rw [not_or, Bool.not_eq_false, Bool.not_eq_false] at halign
    have hlt : v.start < v.stop := Nat.lt_of_not_le hempty
    have hle : lastEnd ≤ v.start := Nat.le_of_not_lt hlast
    refine ⟨List.forall_mem_cons.mpr ⟨⟨hle, hlt, hdvd halign.1, hdvd halign.2⟩, fun e he => ?_⟩, ?_⟩
    · obtain ⟨hstart, hothers⟩ := hrest e he
      exact ⟨by omega, hothers⟩
    · exact List.pairwise_cons.mpr ⟨fun e he => (hrest e he).1, hpairs⟩

theorem of_mappingsValid (h : mappingsValid l) : (∀ e ∈ l, e.2.start < e.2.stop ∧ 4096 ∣ e.2.start ∧ 4096 ∣ e.2.stop) ∧
      l.Pairwise fun e e' => e.2.stop ≤ e'.2.start := by
  cases l with
  | nil => exact ⟨nofun, List.Pairwise.nil⟩
  | cons e rest =>
    obtain ⟨hall, hpairs⟩ := of_mappingsValidLoop h
    exact ⟨fun e he => (hall e he).2, hpairs⟩

variable {addr len : ℕ} (prot : BitVec 32)

theorem VMArea.sound_anonymous {type : VMType}
    (hd : 4096 ∣ addr) (hl : 4096 ∣ len) (hb : addr + len < 2 ^ 64) (ht : type ≠ .kFile) :
    (anonymous addr len prot type).Sound := by
  refine ⟨hd, ?_, ?_, by simp [anonymous, ht]⟩
  · simpa [anonymous, addWord_of_lt hb] using hd.add hl
  · simpa [anonymous, addWord_of_lt hb] using hb

theorem VMArea.sound_fileBacked (file : FileRef)
    (off : BitVec 64) (hd : 4096 ∣ addr) (hl : 4096 ∣ len) (hb : addr + len < 2 ^ 64) :
    (fileBacked addr len prot file off).Sound := by
  refine ⟨hd, ?_, ?_, by simp [fileBacked]⟩
  · simpa [fileBacked, addWord_of_lt hb] using hd.add hl
  · simpa [fileBacked, addWord_of_lt hb] using hb

variable {v : VMArea} {c : ℕ}

theorem VMArea.Sound.cut (h : v.Sound) (hc : 4096 ∣ c) (hlt : c < 2 ^ 64) :
    (v.trimTail c).Sound ∧ (v.trimHead c).Sound :=
  ⟨⟨h.start_dvd, hc, hlt, h.file_iff⟩, { h with start_dvd := hc }⟩

theorem VMArea.sound_leftCutClosed (hc : 4096 ∣ c) (hlt : c < 2 ^ 64) :
    LeftCutClosed VMArea.Sound c := fun _ h _ => h.cut hc hlt

theorem VMArea.sound_rightCutClosed (hc : 4096 ∣ c) (hlt : c < 2 ^ 64) :
    RightCutClosed VMArea.Sound c := fun _ h _ => h.cut hc hlt

theorem VMArea.sound_mergeClosed : MergeClosed VMArea.Sound := by
  intro rhs lhs m hr hl hm
  rw [(tryMergeRight_eq_some hm).2]
  exact { hr with start_dvd := hl.start_dvd }

theorem VMArea.edge_eq_of_traced {w : VMArea} {a b : ℕ} (ht : v.traced = w.traced)
    (h : ({ v with traced := true } : VMArea).edge a = ({ w with traced := true } : VMArea).edge b) :
    v.edge a = w.edge b := by
  simp only [edge, attrs, fileOffset, Edge.mk.injEq, Attrs.mk.injEq] at h ⊢
  exact ⟨h.1, ⟨h.2.1.1, h.2.1.2.1, ht, h.2.1.2.2.2⟩, h.2.2⟩

def VMArea.Untraced (v : VMArea) : Prop := v.traced = false

theorem VMArea.untraced_leftCutClosed (c : ℕ) : LeftCutClosed VMArea.Untraced c := fun _ h _ => ⟨h, h⟩

theorem VMArea.untraced_rightCutClosed (c : ℕ) : RightCutClosed VMArea.Untraced c := fun _ h _ => ⟨h, h⟩

theorem VMArea.untraced_mergeClosed : MergeClosed VMArea.Untraced := by
  intro rhs lhs m hr _ hm
  rw [(tryMergeRight_eq_some hm).2]
  exact hr

/-- A change of the protection never makes a cut-off part mergeable with the part it came from. -/
theorem setProt_splits : (setProt prot).toUpdate.Splits := by
  have hne : ∀ t : VMArea, (setProt prot).toUpdate.check t → t.prot ≠ prot :=
    fun t h => by simpa [toUpdate, setProt] using h
  refine ⟨?_, ?_, ?_⟩
  · intro t s ht hedge
    exact hne t ht (congrArg (fun e : Edge => e.attrs.prot) hedge)
  · intro t s e ht hedge
    exact hne t ht (congrArg (fun e : Edge => e.attrs.prot) hedge)
  · intro t e ht hedge
    exact hne t ht (congrArg (fun e : Edge => e.attrs.prot) hedge).symm

/-- A set of areas that `MappingsValid` accepts. -/
structure AreasValid (l : List (ℕ × VMArea)) : Prop where
  wf : WellFormed l
  coalesced : Coalesced l
  sound : ∀ e ∈ l, e.2.Sound

variable {start stop : ℕ}

variable (h : AreasValid l)
include h

theorem AreasValid.clear (hs : 4096 ∣ start) (he : 4096 ∣ stop) (hlt : stop < 2 ^ 64) (hss : start < stop) :
    AreasValid (Cursor.entries (clear l start stop)) where
  wf := (clear_spec h.wf hss.le).1
  coalesced := clear_coalesced h.wf h.coalesced hss
  sound := forall_clear (sound_leftCutClosed hs (hss.trans hlt)) (sound_rightCutClosed he hlt) h.sound

theorem AreasValid.insert (hv : v.start < v.stop) (hsound : v.Sound) : AreasValid (insert l v) where
  wf := (insert_spec h.wf hv).1
  coalesced := insert_coalesced h.wf h.coalesced hv
  sound := forall_insert h.wf hv (sound_leftCutClosed hsound.start_dvd (hv.trans hsound.stop_lt))
    (sound_rightCutClosed hsound.stop_dvd hsound.stop_lt) sound_mergeClosed h.sound hsound

theorem AreasValid.setProt (hs : 4096 ∣ start) (he : 4096 ∣ stop) (hlt : stop < 2 ^ 64) (hss : start < stop) :
    AreasValid (modify l start stop (setProt prot).check (setProt prot).change) where
  wf := (modify_spec (AttrChange.setProt prot).toUpdate h.wf hss).1
  coalesced := modify_coalesced (AttrChange.setProt prot).toUpdate h.wf h.coalesced hss fun _ _ _ => setProt_splits prot
  sound := forall_modify (sound_leftCutClosed hs (hss.trans hlt)) (sound_rightCutClosed he hlt) sound_mergeClosed
    (fun _ h => { h with }) h.sound

omit h

theorem AttrChange.untrace_change (v : VMArea) : untrace.change v = { v with traced := false } := by
  by_cases h : v.traced
  · simp [untrace, h]
  obtain ⟨s, e, p, tr, ty, f, o⟩ := v
  simp only [Bool.not_eq_true] at h
  simp [untrace, h]

/-- `EndTracing` covers the whole address space, so it cuts no area. -/
theorem sound_untrace (h : ∀ e ∈ l, e.2.Sound) :
    ∀ e ∈ modify l 0 (2 ^ 64 - 1) untrace.check untrace.change, e.2.Sound := by
  apply forall_modify ?_ ?_ sound_mergeClosed ?_ h
  · intro t _ hlt
    exact absurd hlt (Nat.not_lt_zero _)
  · intro t ht hcut
    have hlt := ht.stop_lt
    simp only [getEnd_eq] at hcut
    omega
  intro t ht
  rw [untrace_change]
  exact { ht with }

include h

theorem AreasValid.untrace :
    AreasValid (modify l 0 (2 ^ 64 - 1) AttrChange.untrace.check AttrChange.untrace.change) where
  wf := (modify_spec AttrChange.untrace.toUpdate h.wf (by decide)).1
  coalesced := by
    apply modify_coalesced AttrChange.untrace.toUpdate h.wf h.coalesced (by decide)
    intro e he hcut
    have hlt := (h.sound e he).stop_lt
    simp only [getStart_eq, getEnd_eq] at hcut
    omega
  sound := sound_untrace h.sound

theorem untraced_of_untrace : ∀ e ∈ modify l 0 (2 ^ 64 - 1) untrace.check untrace.change, e.2.Untraced := by
  intro e he
  have hss : 0 < 2 ^ 64 - 1 := by decide
  obtain ⟨hwf, hmaps⟩ := modify_spec untrace.toUpdate h.wf hss
  have hne : e.2.start < e.2.stop := hwf.nonempty e he
  have hlt := (h.untrace.sound e he).stop_lt
  obtain ⟨w, -, hv⟩ := (hmaps e.2.start (e.2.pageAttr e.2.start)).1 ⟨e, he, ⟨le_rfl, hne⟩, rfl⟩
  have hin : (0 ≤ e.2.start ∧ e.2.start < 2 ^ 64 - 1) ∧ untrace.toUpdate.reads w := ⟨by omega, rfl⟩
  rw [AttrUpdate.apply, if_pos hin] at hv
  exact (congrArg (fun p : PageAttr => p.attrs.traced) hv).symm

end Junction
