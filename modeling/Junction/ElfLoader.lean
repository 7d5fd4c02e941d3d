import Junction.MemoryMapCalls

/-!
# ELF object files

The headers of an ELF file as the loader reads them, the checks it makes on them, and the layout it computes for a
segment. All sums are sums of machine words.
-/

namespace Junction

def PROT_EXEC : BitVec 32 := 4
def MAP_DENYWRITE : Flags := 0x800

def kETypeExec : ℕ := 2
def kETypeDynamic : ℕ := 3

def kPTypeLoad : ℕ := 1
def kPTypeInterp : ℕ := 3
def kPTypeSelf : ℕ := 6

def kFlagExec : BitVec 32 := 1
def kFlagWrite : BitVec 32 := 2
def kFlagRead : BitVec 32 := 4

structure ElfHeader where
  type : ℕ
  entry : ℕ
  phoff : ℕ
  phsize : ℕ
  phnum : ℕ
  deriving DecidableEq

structure ElfPhdr where
  type : ℕ
  flags : BitVec 32
  offset : ℕ
  vaddr : ℕ
  filesz : ℕ
  memsz : ℕ
  align : ℕ
  words : offset < 2 ^ 64 ∧ vaddr < 2 ^ 64 ∧ filesz < 2 ^ 64 ∧ memsz < 2 ^ 64 ∧ align < 2 ^ 64 := by decide
  deriving DecidableEq

structure InterpData where
  mapBase : ℕ
  mapLen : ℕ
  entryAddr : ℕ
  deriving DecidableEq

structure ElfData where
  mapBase : ℕ
  mapLen : ℕ
  entryAddr : ℕ
  phdrAddr : ℕ
  phdrNum : ℕ
  phdrEntsz : ℕ
  interp : Option InterpData
  deriving DecidableEq

def hasSingleBit (n : ℕ) : Bool := 2 ^ n.log2 == n

/-- The test of `ReadPHDRs` on one header. -/
def ElfPhdr.isValid (h : ElfPhdr) : Bool :=
  !(decide (h.memsz < h.filesz) || (decide (1 < h.align) &&
    (!hasSingleBit h.align || decide (h.vaddr % h.align ≠ h.offset % h.align))))

/-- `ReadPHDRs`, on the table that was read. -/
def readPHDRs (table : Status (List ElfPhdr)) : Status (List ElfPhdr) :=
  match table with
  | .error e => .error e
  | .ok phdrs => if phdrs.all ElfPhdr.isValid then .ok phdrs else .error .EINVAL

variable (phdrs : List ElfPhdr)

def loads : List ElfPhdr := phdrs.filter fun h => h.type == kPTypeLoad

def countTotalLength : ℕ :=
  phdrs.foldl (fun len h => if h.type = kPTypeLoad then max len (addWord h.vaddr h.memsz) else len) 0

def findPHDRByType (type : ℕ) : Option ElfPhdr := phdrs.find? fun h => h.type == type

def segmentProt (flags : BitVec 32) : BitVec 32 :=
  (if hasFlag flags kFlagExec then PROT_EXEC else 0) ||| (if hasFlag flags kFlagWrite then PROT_WRITE else 0) |||
    (if hasFlag flags kFlagRead then PROT_READ else 0)

def pageAlignDown (addr : ℕ) : ℕ := addr / kPageSize * kPageSize

namespace ElfPhdr
variable (h : ElfPhdr) (mapOff : ℕ)

def addr : ℕ := addWord h.vaddr mapOff

def start : ℕ := pageAlignDown (h.addr mapOff)
def fileEnd : ℕ := addWord (h.addr mapOff) h.filesz
def gapEnd : ℕ := pageAlign (h.fileEnd mapOff)
def memEnd : ℕ := addWord (h.addr mapOff) h.memsz

end ElfPhdr

end Junction

/-!
### The loader

The first call that fails ends the load. What a call does to the memory of the process is recorded when it succeeds. The
answers of the host are an input, and a store to a page that is not writable ends the program.
-/

namespace Junction
open MemoryMap

inductive LoadCall
  | mapFile (f : FileRef) (start len : ℕ) (prot : Prot) (off : ℕ)
  | mapAnonymous (start len : ℕ) (prot : Prot)
  | protect (addr len : ℕ) (prot : Prot)
  | zero (start stop : ℕ)
  deriving DecidableEq

def LoadCall.effect : LoadCall → HostEffect
  | mapFile f start len prot off => .map start (start + pageAlign len) prot (some (f, off))
  | mapAnonymous start len prot => .map start (start + pageAlign len) prot none
  | protect addr len prot => .protect addr (addr + len) prot
  | zero start stop => .zero start stop

def mapFile (f : FileRef) (h : ElfPhdr) (mapOff : ℕ) : List LoadCall :=
  if h.start mapOff < h.fileEnd mapOff then
    [.mapFile f (h.start mapOff) (h.fileEnd mapOff - h.start mapOff) (segmentProt h.flags) (pageAlignDown h.offset)]
  else []

/-- The page of the gap is made writable for the store, if it is not. -/
def zeroGap (h : ElfPhdr) (mapOff : ℕ) : List LoadCall :=
  let prot := segmentProt h.flags
  let page := pageAlignDown (h.fileEnd mapOff)
  if h.fileEnd mapOff < h.gapEnd mapOff then
    if hasFlag prot PROT_WRITE then [.zero (h.fileEnd mapOff) (h.gapEnd mapOff)]
    else [.protect page kPageSize (prot ||| PROT_WRITE), .zero (h.fileEnd mapOff) (h.gapEnd mapOff),
      .protect page kPageSize prot]
  else []

def mapRest (h : ElfPhdr) (mapOff : ℕ) : List LoadCall :=
  if h.gapEnd mapOff < h.memEnd mapOff then
    [.mapAnonymous (h.gapEnd mapOff) (h.memEnd mapOff - h.gapEnd mapOff) (segmentProt h.flags)]
  else []

/-- The calls of `LoadOneSegment`. -/
def loadOneSegment (f : FileRef) (mapOff : ℕ) (h : ElfPhdr) : List LoadCall :=
  mapFile f h mapOff ++ zeroGap h mapOff ++ mapRest h mapOff

/-! ### Calls -/

structure LoadEnv where
  mmap : MMapEnv
  protect : Status Unit

structure LoadState where
  mm : MemoryMap
  pool : MemAreas
  /-- The number of calls that were made. -/
  calls : ℕ
  effects : List HostEffect
  deriving DecidableEq

namespace LoadState

def andThen {α β : Type} (r : Outcome α × LoadState) (k : α → LoadState → Outcome β × LoadState) :
    Outcome β × LoadState :=
  match r with
  | (.ret (.ok x), s) => k x s
  | (.ret (.error e), s) => (.ret (.error e), s)
  | (.panic, s) => (.panic, s)

def record (s : LoadState) (e : HostEffect) : LoadState := { s with effects := s.effects ++ [e] }

variable (env : ℕ → LoadEnv) (prot : ℕ → Option Prot)

def mmap (s : LoadState) (a : MMapArgs) : Outcome ℕ × LoadState :=
  let r := s.mm.mmap s.pool a (env s.calls).mmap
  (r.1, { s with mm := r.2.1, pool := r.2.2, calls := s.calls + 1 })

def mprotect (s : LoadState) (addr len : ℕ) (p : Prot) : Outcome Unit × LoadState :=
  let r := s.mm.mprotect addr len p (env s.calls).mmap.interrupted (env s.calls).protect
  (.ret r.1, { s with mm := r.2, calls := s.calls + 1 })

/-- Whether a store to an address goes through, for the protections `prot` before the load. -/
def writable (s : LoadState) (a : ℕ) : Bool :=
  match protAfter prot s.effects a with
  | some p => hasFlag p PROT_WRITE
  | none => false

variable (s : LoadState)

def call (c : LoadCall) : Outcome Unit × LoadState :=
  match c with
  | .mapFile f start len p off =>
    andThen (s.mmap env ⟨start, len, p, MAP_DENYWRITE ||| MAP_FIXED ||| MAP_PRIVATE, some f, BitVec.ofNat 64 off⟩)
      fun _ s => (.ret (.ok ()), s.record c.effect)
  | .mapAnonymous start len p =>
    andThen (s.mmap env ⟨start, len, p, MAP_FIXED ||| MAP_PRIVATE ||| MAP_ANONYMOUS, none, 0⟩)
      fun _ s => (.ret (.ok ()), s.record c.effect)
  | .protect addr len p => andThen (s.mprotect env addr len p) fun _ s => (.ret (.ok ()), s.record c.effect)
  | .zero start _ => if s.writable prot start then (.ret (.ok ()), s.record c.effect) else (.panic, s)

def run : LoadState → List LoadCall → Outcome Unit × LoadState
  | s, [] => (.ret (.ok ()), s)
  | s, c :: calls => andThen (s.call env prot c) fun _ s => run s calls

def reserve (mapLen : ℕ) : Outcome ℕ × LoadState :=
  andThen (s.mmap env ⟨0, mapLen, PROT_NONE, MAP_PRIVATE ||| MAP_ANONYMOUS, none, 0⟩) fun base s =>
    (.ret (.ok base), s.record (.map base (base + pageAlign mapLen) PROT_NONE none))

def loadSegments (f : FileRef) (phdrs : List ElfPhdr) (reloc : Bool) : Outcome (ℕ × ℕ) × LoadState :=
  let mapLen := countTotalLength phdrs
  andThen (if reloc then s.reserve env mapLen else (.ret (.ok 0), s)) fun mapOff s =>
    andThen (s.run env prot ((loads phdrs).flatMap (loadOneSegment f mapOff))) fun _ s => (.ret (.ok (mapOff, mapLen)), s)

/-- `LoadInterp`, on what opening and reading the interpreter gives. -/
def loadInterp (s : LoadState) (interp : Status (FileRef × ElfHeader × Status (List ElfPhdr))) :
    Outcome InterpData × LoadState :=
  match interp with
  | .error e => (.ret (.error e), s)
  | .ok (f, hdr, table) =>
    if hdr.type ≠ kETypeDynamic then (.ret (.error .EINVAL), s)
    else
      match readPHDRs table with
      | .error e => (.ret (.error e), s)
      | .ok phdrs => andThen (s.loadSegments env prot f phdrs true) fun image s =>
        (.ret (.ok ⟨image.1, image.2, addWord hdr.entry image.1⟩), s)

/-- `interp` is what becomes of reading the path of the interpreter and the file there. The first header of an empty
table is not defined, and the model ends there. -/
def doELFLoad (s : LoadState) (f : FileRef) (hdr : ElfHeader) (table : Status (List ElfPhdr))
    (interp : Status (FileRef × ElfHeader × Status (List ElfPhdr))) : Outcome ElfData × LoadState :=
  match readPHDRs table with
  | .error e => (.ret (.error e), s)
  | .ok phdrs =>
    let loaded : Outcome (Option InterpData) × LoadState :=
      match findPHDRByType phdrs kPTypeInterp with
      | some _ => andThen (s.loadInterp env prot interp) fun data s => (.ret (.ok (some data)), s)
      | none => (.ret (.ok none), s)
    andThen loaded fun data s =>
      andThen (s.loadSegments env prot f phdrs (hdr.type == kETypeDynamic)) fun image s =>
        match (findPHDRByType phdrs kPTypeSelf).or phdrs.head? with
        | none => (.panic, s)
        | some phdr => (.ret (.ok ⟨image.1, image.2, addWord hdr.entry image.1,
            subWord (addWord (addWord phdr.vaddr image.1) hdr.phoff) phdr.offset, hdr.phnum, hdr.phsize, data⟩), s)

end LoadState

/-! ### The ranges of one segment -/

open List

theorem pageAlign_spec {n : ℕ} (hn : n < 2 ^ 64) (hpos : 0 < pageAlign n) :
    4096 ∣ pageAlign n ∧ n ≤ pageAlign n ∧ pageAlign n < n + 4096 := by
  simp only [pageAlign, addWord, kPageSize] at *
  omega

theorem add_pageAlign_sub {a b : ℕ} (ha : 4096 ∣ a) (hab : a ≤ b) (hb : b + 4095 < 2 ^ 64) :
    a + pageAlign (b - a) = pageAlign b := by
  rw [pageAlign_eq (by omega), pageAlign_eq hb]
  omega

theorem pageAlignDown_eq (a : ℕ) : pageAlignDown a = a / 4096 * 4096 := rfl

theorem pageAlignDown_add {a : ℕ} (ha : a + 4095 < 2 ^ 64) (hlt : a < pageAlign a) :
    pageAlignDown a + 4096 = pageAlign a := by
  rw [pageAlign_eq ha] at hlt ⊢
  rw [pageAlignDown_eq]
  omega

theorem filesz_le_of_isValid {h : ElfPhdr} (hvalid : h.isValid) : h.filesz ≤ h.memsz := by
  simp only [ElfPhdr.isValid, Bool.not_eq_true', Bool.or_eq_false_iff, decide_eq_false_iff_not] at hvalid
  exact Nat.le_of_not_lt hvalid.1

theorem readPHDRs_eq_ok {table phdrs : List ElfPhdr} (h : readPHDRs (.ok table) = .ok phdrs) :
    table = phdrs ∧ phdrs.all ElfPhdr.isValid := by
  rw [readPHDRs] at h
  split_ifs at h with hvalid
  obtain rfl := Except.ok.inj h
  exact ⟨rfl, hvalid⟩

namespace ElfPhdr
variable {h : ElfPhdr} {f : FileRef} {mapOff lo hi : ℕ}

structure Inside (h : ElfPhdr) (mapOff lo hi : ℕ) : Prop where
  file : h.start mapOff < h.fileEnd mapOff → lo ≤ h.start mapOff ∧ h.gapEnd mapOff ≤ hi
  gap : h.fileEnd mapOff < h.gapEnd mapOff → lo ≤ pageAlignDown (h.fileEnd mapOff) ∧ h.gapEnd mapOff ≤ hi
  rest : h.gapEnd mapOff < h.memEnd mapOff → lo ≤ h.gapEnd mapOff ∧ pageAlign (h.memEnd mapOff) ≤ hi

theorem start_dvd (h : ElfPhdr) (mapOff : ℕ) : 4096 ∣ h.start mapOff := ⟨_, Nat.mul_comm _ _⟩

theorem gapEnd_dvd (h : ElfPhdr) (mapOff : ℕ) : 4096 ∣ h.gapEnd mapOff := pageAlign_dvd _

theorem effects_mapFile (hfile : h.fileEnd mapOff + 4095 < 2 ^ 64) : (mapFile f h mapOff).map LoadCall.effect =
    if h.start mapOff < h.fileEnd mapOff then
      [.map (h.start mapOff) (h.gapEnd mapOff) (segmentProt h.flags) (some (f, pageAlignDown h.offset))] else [] := by
  unfold mapFile
  split_ifs with hlt
  · rw [map_singleton, LoadCall.effect, add_pageAlign_sub (h.start_dvd mapOff) hlt.le hfile]
    rfl
  · rfl

theorem effects_mapRest (hmem : h.memEnd mapOff + 4095 < 2 ^ 64) : (mapRest h mapOff).map LoadCall.effect =
    if h.gapEnd mapOff < h.memEnd mapOff then
      [.map (h.gapEnd mapOff) (pageAlign (h.memEnd mapOff)) (segmentProt h.flags) none] else [] := by
  unfold mapRest
  split_ifs with hlt
  · rw [map_singleton, LoadCall.effect, add_pageAlign_sub (h.gapEnd_dvd mapOff) hlt.le hmem]
  · rfl

theorem effect_zeroGap {c : LoadCall} (hc : c ∈ zeroGap h mapOff) :
    h.fileEnd mapOff < h.gapEnd mapOff ∧ (c.effect = .zero (h.fileEnd mapOff) (h.gapEnd mapOff) ∨
      ∃ p, c.effect = .protect (pageAlignDown (h.fileEnd mapOff)) (pageAlignDown (h.fileEnd mapOff) + 4096) p) := by
  unfold zeroGap at hc
  dsimp only at hc
  split_ifs at hc with hlt hw
  · obtain rfl := mem_singleton.mp hc
    exact ⟨hlt, .inl rfl⟩
  · simp only [mem_cons, not_mem_nil, or_false] at hc
    rcases hc with rfl | rfl | rfl
    · exact ⟨hlt, .inr ⟨_, rfl⟩⟩
    · exact ⟨hlt, .inl rfl⟩
    · exact ⟨hlt, .inr ⟨_, rfl⟩⟩
  · cases hc

theorem Inside.within (hin : h.Inside mapOff lo hi) (hfile : h.fileEnd mapOff + 4095 < 2 ^ 64)
    (hmem : h.memEnd mapOff + 4095 < 2 ^ 64) : ∀ c ∈ loadOneSegment f mapOff h, c.effect.Within lo hi := by
  intro c hc
  rcases mem_append.mp hc with hc | hc
  · rcases mem_append.mp hc with hc | hc
    · have he := mem_map_of_mem (f := LoadCall.effect) hc
      rw [effects_mapFile hfile] at he
      split_ifs at he with hlt
      · rw [mem_singleton.mp he]
        exact hin.file hlt
      · cases he
    obtain ⟨hlt, heffect⟩ := effect_zeroGap hc
    obtain ⟨hlo, hhi⟩ := hin.gap hlt
    have hdown : pageAlignDown (h.fileEnd mapOff) ≤ h.fileEnd mapOff := Nat.div_mul_le_self _ _
    rcases heffect with heffect | ⟨p, heffect⟩
    · rw [heffect]
      exact ⟨hlo.trans hdown, hhi⟩
    · rw [heffect, pageAlignDown_add hfile hlt]
      exact ⟨hlo, hhi⟩
  · have he := mem_map_of_mem (f := LoadCall.effect) hc
    rw [effects_mapRest hmem] at he
    split_ifs at he with hlt
    · rw [mem_singleton.mp he]
      exact hin.rest hlt
    · cases he

end ElfPhdr

/-! ### Runs

A call that succeeds has its effect and nothing else does. -/

open MemoryMap List

/-- What the host has promised about a range that it has mapped. -/
def HostEffect.Placed : HostEffect → Prop
  | map start stop _ _ => start < stop ∧ stop ≤ 2 ^ 63
  | protect _ _ _ => True
  | zero _ _ => True

namespace LoadState
variable {env : ℕ → LoadEnv} {prot : ℕ → Option Prot} {s s' : LoadState}

variable {α β : Type} {r : Outcome α × LoadState} {k : α → LoadState → Outcome β × LoadState}

theorem andThen_eq_ok {y : β}
    (h : andThen r k = (.ret (.ok y), s')) : ∃ x s, r = (.ret (.ok x), s) ∧ k x s = (.ret (.ok y), s') := by
  obtain ⟨o, s⟩ := r
  match o with
  | .ret (.ok x) => exact ⟨x, s, rfl, h⟩
  | .ret (.error e) => cases h
  | .panic => cases h

theorem andThen_of_ne (h : ∀ x, r.1 ≠ .ret (.ok x)) : (andThen r k).2 = r.2 ∧ ∀ y, (andThen r k).1 ≠ .ret (.ok y) := by
  obtain ⟨o, s⟩ := r
  match o with
  | .ret (.ok x) => exact absurd rfl (h x)
  | .ret (.error e) => exact ⟨rfl, nofun⟩
  | .panic => exact ⟨rfl, nofun⟩

@[simp] theorem effects_mmap (s : LoadState) (a : MMapArgs) : (s.mmap env a).2.effects = s.effects := rfl

@[simp] theorem effects_mprotect (s : LoadState) (addr len : ℕ) (p : Prot) :
    (s.mprotect env addr len p).2.effects = s.effects := rfl

/-- A call that was made has its effect, or fails and has none. -/
def Answered (s : LoadState) (c : LoadCall) (r : Outcome Unit × LoadState) : Prop :=
  (r.1 = .ret (.ok ()) ∧ r.2.effects = s.effects ++ [c.effect] ∧ c.effect.Placed) ∨
    ((∀ u, r.1 ≠ .ret (.ok u)) ∧ r.2.effects = s.effects)

theorem answered_andThen {c : LoadCall} (heffects : r.2.effects = s.effects)
    (hplaced : ∀ x, r.1 = .ret (.ok x) → c.effect.Placed) :
    Answered s c (andThen r fun _ s => (.ret (.ok ()), s.record c.effect)) := by
  by_cases hok : ∃ x, r.1 = .ret (.ok x)
  · obtain ⟨x, hx⟩ := hok
    obtain ⟨o, t⟩ := r
    obtain rfl : o = .ret (.ok x) := hx
    refine .inl ⟨rfl, ?_, hplaced x rfl⟩
    rw [← heffects]
    rfl
  · obtain ⟨hstate, hne⟩ := @andThen_of_ne α Unit r (fun _ s => (.ret (.ok ()), s.record c.effect))
      fun x hx => hok ⟨x, hx⟩
    exact .inr ⟨hne, by rw [hstate, heffects]⟩

theorem answered_call (s : LoadState) (c : LoadCall) : Answered s c (s.call env prot c) := by
  cases c with
  | mapFile f start len p off =>
    have hfix : hasFlag ((MAP_DENYWRITE ||| MAP_FIXED ||| MAP_PRIVATE) &&& ~~~MAP_POPULATE) MAP_FIXED := by
      decide
    apply answered_andThen (effects_mmap s _)
    intro x hx
    obtain ⟨-, -, hpos, hle⟩ := mmap_fixed_ok hfix hx
    exact ⟨Nat.lt_add_of_pos_right hpos, hle⟩
  | mapAnonymous start len p =>
    have hfix : hasFlag ((MAP_FIXED ||| MAP_PRIVATE ||| MAP_ANONYMOUS) &&& ~~~MAP_POPULATE) MAP_FIXED := by
      decide
    apply answered_andThen (effects_mmap s _)
    intro x hx
    obtain ⟨-, -, hpos, hle⟩ := mmap_fixed_ok hfix hx
    exact ⟨Nat.lt_add_of_pos_right hpos, hle⟩
  | protect addr len p =>
    apply answered_andThen (effects_mprotect s addr len p)
    intro x hx
    trivial
  | zero start stop =>
    dsimp only [call]
    split_ifs with hw
    · exact .inl ⟨rfl, rfl, trivial⟩
    · exact .inr ⟨nofun, rfl⟩

theorem effects_run (s : LoadState) (calls : List LoadCall) :
    ∃ done, done <+: calls ∧ (s.run env prot calls).2.effects = s.effects ++ done.map LoadCall.effect ∧
      (∀ c ∈ done, c.effect.Placed) ∧ (∀ u, (s.run env prot calls).1 = .ret (.ok u) → done = calls) := by
  induction calls generalizing s with
  | nil => exact ⟨[], nil_prefix, by simp [run], nofun, fun _ _ => rfl⟩
  | cons c calls ih =>
    have hstep : s.run env prot (c :: calls) = andThen (s.call env prot c) fun _ s => s.run env prot calls := rfl
    rcases @answered_call env prot s c with ⟨hok, heffects, hplaced⟩ | ⟨hne, heffects⟩
    · have hcall : s.call env prot c = (.ret (.ok ()), (s.call env prot c).2) := Prod.ext hok rfl
      have hrun : s.run env prot (c :: calls) = (s.call env prot c).2.run env prot calls := by
        rw [hstep, hcall]
        rfl
      obtain ⟨done, hpre, hdone, hall, hlast⟩ := ih (s.call env prot c).2
      rw [hrun]
      refine ⟨c :: done, cons_prefix_cons.mpr ⟨rfl, hpre⟩, ?_, forall_mem_cons.mpr ⟨hplaced, hall⟩, ?_⟩
      · rw [hdone, heffects, map_cons, append_assoc, singleton_append]
      · intro u hu
        rw [hlast u hu]
    · obtain ⟨hstate, hfail⟩ := @andThen_of_ne _ Unit (s.call env prot c) (fun _ s => s.run env prot calls) hne
      rw [hstep]
      refine ⟨[], nil_prefix, ?_, nofun, fun u hu => absurd hu (hfail u)⟩
      rw [hstate, heffects, map_nil, append_nil]

variable {mapLen : ℕ}

theorem reserve_eq_ok {base : ℕ} (h : s.reserve env mapLen = (.ret (.ok base), s')) :
    s'.effects = s.effects ++ [.map base (base + pageAlign mapLen) PROT_NONE none] ∧
      ExclusiveIntervalSet.findFreeBack s.mm.vmareas (pageAlign mapLen) s.mm.mmEnd s.mm.brkAddr = .ok base ∧
      4096 ∣ base ∧ 0 < pageAlign mapLen ∧ base + pageAlign mapLen ≤ 2 ^ 63 := by
  obtain ⟨x, t, hmap, hrest⟩ := andThen_eq_ok h
  obtain ⟨hx, rfl⟩ := Prod.mk.inj hrest
  obtain rfl := Except.ok.inj (Outcome.ret.inj hx)
  have hcall : (s.mm.mmap s.pool ⟨0, mapLen, PROT_NONE, MAP_PRIVATE ||| MAP_ANONYMOUS, none, 0⟩ (env s.calls).mmap).1 =
      .ret (.ok x) := congrArg Prod.fst hmap
  have hfix : ¬ hasFlag ((MAP_PRIVATE ||| MAP_ANONYMOUS) &&& ~~~MAP_POPULATE) MAP_FIXED := by decide
  have hspec := mmap_anywhere_ok rfl hfix hcall
  refine ⟨?_, hspec⟩
  have heffects : t.effects = s.effects := by
    rw [← @effects_mmap env s ⟨0, mapLen, PROT_NONE, MAP_PRIVATE ||| MAP_ANONYMOUS, none, 0⟩, hmap]
  rw [record, heffects]

theorem effects_of_reserve_ne (h : ∀ x, (s.reserve env mapLen).1 ≠ .ret (.ok x)) :
    (s.reserve env mapLen).2.effects = s.effects := by
  by_cases hok : ∃ x, (s.mmap env ⟨0, mapLen, PROT_NONE, MAP_PRIVATE ||| MAP_ANONYMOUS, none, 0⟩).1 = .ret (.ok x)
  · obtain ⟨x, hx⟩ := hok
    refine absurd ?_ (h x)
    have hcall : s.mmap env ⟨0, mapLen, PROT_NONE, MAP_PRIVATE ||| MAP_ANONYMOUS, none, 0⟩ =
        (.ret (.ok x), (s.mmap env ⟨0, mapLen, PROT_NONE, MAP_PRIVATE ||| MAP_ANONYMOUS, none, 0⟩).2) :=
      Prod.ext hx rfl
    rw [reserve, hcall]
    rfl
  · obtain ⟨hstate, -⟩ := @andThen_of_ne _ ℕ (s.mmap env ⟨0, mapLen, PROT_NONE, MAP_PRIVATE ||| MAP_ANONYMOUS, none, 0⟩)
      (fun base s => (.ret (.ok base), s.record (.map base (base + pageAlign mapLen) PROT_NONE none)))
      fun x hx => hok ⟨x, hx⟩
    rw [reserve, hstate, effects_mmap]

/-! ### Loads that succeed -/

section Loads
variable {f : FileRef} {phdrs : List ElfPhdr} {base len : ℕ}

theorem loadSegments_eq_ok {reloc : Bool} (h : s.loadSegments env prot f phdrs reloc = (.ret (.ok (base, len)), s')) :
    ∃ before, s'.effects = s.effects ++ before ++ ((loads phdrs).flatMap (loadOneSegment f base)).map LoadCall.effect ∧
      (∀ e ∈ before, e.Placed) ∧ (∀ c ∈ (loads phdrs).flatMap (loadOneSegment f base), c.effect.Placed) ∧
      4096 ∣ base := by
  obtain ⟨x, t, hres, hrest⟩ := andThen_eq_ok h
  obtain ⟨u, t', hrun, hlast⟩ := andThen_eq_ok hrest
  obtain ⟨hpair, rfl⟩ := Prod.mk.inj hlast
  obtain ⟨rfl, -⟩ := Prod.mk.inj (Except.ok.inj (Outcome.ret.inj hpair))
  obtain ⟨done, -, heffects, hplaced, hall⟩ := @effects_run env prot t ((loads phdrs).flatMap (loadOneSegment f x))
  obtain rfl := hall u (congrArg Prod.fst hrun)
  rw [hrun] at heffects
  cases reloc with
  | true =>
    obtain ⟨hfirst, -, hbase, hpos, hbound⟩ := reserve_eq_ok hres
    refine ⟨[.map x (x + pageAlign (countTotalLength phdrs)) PROT_NONE none], by rw [heffects, hfirst], ?_, hplaced,
      hbase⟩
    exact forall_mem_singleton.mpr ⟨Nat.lt_add_of_pos_right hpos, hbound⟩
  | false =>
    obtain ⟨hx, rfl⟩ := Prod.mk.inj hres
    obtain rfl := Except.ok.inj (Outcome.ret.inj hx)
    exact ⟨[], by rw [heffects, append_nil], nofun, hplaced, dvd_zero _⟩

variable {interp : Status (FileRef × ElfHeader × Status (List ElfPhdr))}

theorem loadInterp_eq_ok {data : InterpData} (h : s.loadInterp env prot interp = (.ret (.ok data), s')) :
    ∃ effects, s'.effects = s.effects ++ effects ∧ ∀ e ∈ effects, e.Placed := by
  unfold loadInterp at h
  match interp with
  | .error e => cases h
  | .ok (g, hdr, table) =>
    dsimp only at h
    by_cases htype : hdr.type ≠ kETypeDynamic
    · rw [if_pos htype] at h
      cases h
    rw [if_neg htype] at h
    cases hread : readPHDRs table with
    | error e =>
      rw [hread] at h
      cases h
    | ok phdrs =>
      rw [hread] at h
      obtain ⟨⟨x, n⟩, t, hload, hlast⟩ := andThen_eq_ok h
      obtain ⟨-, rfl⟩ := Prod.mk.inj hlast
      obtain ⟨before, heffects, hbefore, hplaced, -⟩ := loadSegments_eq_ok hload
      refine ⟨before ++ ((loads phdrs).flatMap (loadOneSegment g x)).map LoadCall.effect, ?_, ?_⟩
      · rw [heffects, append_assoc]
      · exact forall_mem_append.mpr ⟨hbefore, forall_mem_map.mpr hplaced⟩

theorem doELFLoad_eq_ok {hdr : ElfHeader}
    {edata : ElfData} (h : s.doELFLoad env prot f hdr (.ok phdrs) interp = (.ret (.ok edata), s')) :
    ∃ before, s'.effects = s.effects ++ before ++
        ((loads phdrs).flatMap (loadOneSegment f edata.mapBase)).map LoadCall.effect ∧
      (∀ e ∈ before, e.Placed) ∧
      (∀ c ∈ (loads phdrs).flatMap (loadOneSegment f edata.mapBase), c.effect.Placed) ∧
      4096 ∣ edata.mapBase ∧ phdrs.all ElfPhdr.isValid ∧
      edata.entryAddr = addWord hdr.entry edata.mapBase := by
  unfold doELFLoad at h
  cases hread : readPHDRs (.ok phdrs) with
  | error e =>
    rw [hread] at h
    cases h
  | ok table =>
    obtain ⟨rfl, hvalid⟩ := readPHDRs_eq_ok hread
    rw [hread] at h
    obtain ⟨data, t, hinterp, hload⟩ := andThen_eq_ok h
    obtain ⟨⟨x, n⟩, t', hsegments, hlast⟩ := andThen_eq_ok hload
    obtain ⟨before, heffects, hbefore, hplaced, hbase⟩ := loadSegments_eq_ok hsegments
    have hfirst : ∃ effects, t.effects = s.effects ++ effects ∧ ∀ e ∈ effects, e.Placed := by
      cases hfind : findPHDRByType phdrs kPTypeInterp with
      | none =>
        rw [hfind] at hinterp
        obtain ⟨-, rfl⟩ := Prod.mk.inj hinterp
        exact ⟨[], (append_nil _).symm, nofun⟩
      | some phdr =>
        rw [hfind] at hinterp
        obtain ⟨y, u, hy, hu⟩ := andThen_eq_ok hinterp
        obtain ⟨-, rfl⟩ := Prod.mk.inj hu
        exact loadInterp_eq_ok hy
    obtain ⟨effects, hset, hall⟩ := hfirst
    cases hself : (findPHDRByType phdrs kPTypeSelf).or phdrs.head? with
    | none =>
      rw [hself] at hlast
      cases hlast
    | some phdr =>
      rw [hself] at hlast
      obtain ⟨hdata, rfl⟩ := Prod.mk.inj hlast
      obtain rfl := Except.ok.inj (Outcome.ret.inj hdata)
      refine ⟨effects ++ before, ?_, forall_mem_append.mpr ⟨hall, hbefore⟩, hplaced, hbase, hvalid, rfl⟩
      rw [heffects, hset, append_assoc s.effects]

end Loads

end LoadState

def LoadEnv.willing : ℕ → LoadEnv := fun _ => ⟨⟨false, .willing, .ok (), (0, 0)⟩, .ok ()⟩

/-- Two pages of code, and data that ends with a part that is not in the file. -/
def textAndData : List ElfPhdr :=
  [⟨kPTypeLoad, 5, 0, 0, 0x1200, 0x1200, 0x1000, by decide⟩,
    ⟨kPTypeLoad, 6, 0x1200, 0x2200, 0x300, 0x2000, 0x1000, by decide⟩]

end Junction
