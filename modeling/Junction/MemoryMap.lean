import Junction.VMArea

/-!
# Memory maps

The operations of `MemoryMap` on a process's areas and on `mem_areas_`, the set of address ranges
that all processes share. A call of the host is an argument: its answer is arbitrary up to what
mmap(2) promises. `MMPanic` ends the program, so a panicking call has an outcome of its own.
-/

namespace Junction
open ExclusiveIntervalSet

abbrev Flags := BitVec 32

def hasFlag (flags flag : Flags) : Bool := flags &&& flag != 0

theorem hasFlag_or_left {flags flag : Flags} (other : Flags) (h : hasFlag flags flag) :
    hasFlag (flags ||| other) flag := by
  simp only [hasFlag, bne_iff_ne, ne_eq, BitVec.and_or_distrib_right] at h ⊢
  exact fun hzero => h (BitVec.or_eq_zero_iff.1 hzero).1

theorem hasFlag_or_self (flags : Flags) {flag : Flags} (h : flag ≠ 0) : hasFlag (flags ||| flag) flag := by
  simp only [hasFlag, bne_iff_ne, ne_eq, BitVec.and_or_distrib_right, BitVec.and_self]
  exact fun hzero => h (BitVec.or_eq_zero_iff.1 hzero).2

def MAP_PRIVATE : Flags := 0x2
def MAP_FIXED : Flags := 0x10
def MAP_ANONYMOUS : Flags := 0x20
def MAP_POPULATE : Flags := 0x8000
def MAP_STACK : Flags := 0x20000
def MAP_FIXED_NOREPLACE : Flags := 0x100000
def PROT_NONE : BitVec 32 := 0
def PROT_READ : BitVec 32 := 1
def PROT_WRITE : BitVec 32 := 2

def kVirtualAreaMax : ℕ := 0x500000000000

/-- The host's mmap(2). It refuses empty ranges and ranges that leave the lower half of the address
space, and answers with a page-aligned address, with `MAP_FIXED` with the requested one. -/
structure HostMMap where
  call (addr len : ℕ) (prot : BitVec 32) (flags : Flags) (file : Option FileRef)
    (off : BitVec 64) : Status ℕ
  fixed {addr len prot flags file off r} : call addr len prot flags file off = .ok r →
    hasFlag flags MAP_FIXED = true → r = addr
  aligned {addr len prot flags file off r} : call addr len prot flags file off = .ok r → 4096 ∣ r
  nonempty {addr len prot flags file off r} : call addr len prot flags file off = .ok r → 0 < len
  bounded {addr len prot flags file off r} : call addr len prot flags file off = .ok r →
    r + len ≤ 2 ^ 63

/-- `KernelMMap` and `KernelMMapFixed` map anonymous private memory. -/
def HostMMap.anonymous (host : HostMMap) (addr len : ℕ) (prot : BitVec 32) (flags : Flags) :
    Status ℕ :=
  host.call addr len prot (flags ||| MAP_ANONYMOUS ||| MAP_PRIVATE) none 0

inductive Outcome (α : Type)
  | ret (status : Status α)
  | panic
  deriving DecidableEq

abbrev MemAreas := List (ℕ × SimpleInterval)

structure MemoryMap where
  mmStart : ℕ
  mmEnd : ℕ
  brkAddr : ℕ
  vmareas : List (ℕ × VMArea)
  /-- Whether `tracer_` is set. -/
  tracing : Bool
  isFakeMap : Bool
  deriving DecidableEq, Repr

def addressValid (addr len : ℕ) : Bool := decide (0 < len) && isPageAligned addr

/-- The end of `AddressToBounds(addr, len)`; the start is `addr`. -/
def boundsEnd (addr len : ℕ) : ℕ := pageAlign (addWord addr len)

namespace MemoryMap

/-- `MemoryMap(base, len)`. -/
def init (base len : ℕ) : MemoryMap := ⟨base, addWord base len, base, [], false, false⟩

/-- `Clear(start, end)`. -/
def clearRange (mm : MemoryMap) (start stop : ℕ) : MemoryMap :=
  { mm with vmareas := Cursor.entries (clear mm.vmareas start stop) }

/-- `Insert(vma)`. -/
def insertArea (mm : MemoryMap) (vma : VMArea) : MemoryMap :=
  { mm with vmareas := insert mm.vmareas vma }

variable (mm : MemoryMap)

def containedInMapBounds (addr len : ℕ) : Bool :=
  decide (mm.mmStart ≤ addr ∧ boundsEnd addr len ≤ mm.mmEnd)

/-- `MunmapCheck(addr, len)`: gives the parts outside the map's own region back to the pool. -/
def munmapCheck (mm : MemoryMap) (pool : MemAreas) (addr len : ℕ) : MemAreas :=
  let stop := boundsEnd addr len
  if mm.mmStart ≤ addr ∧ stop ≤ mm.mmEnd then pool
  else
    let pool := if addr < mm.mmStart then Cursor.entries (clear pool addr (min stop mm.mmStart))
      else pool
    if mm.mmEnd < stop then Cursor.entries (clear pool (max mm.mmEnd addr) stop) else pool

/-- The choice of an address by `MMap` without `MAP_FIXED`: the address, the flags for the host, the
pool, and whether the range was reserved from the pool. -/
def chooseAddress (mm : MemoryMap) (pool : MemAreas) (addr len : ℕ) (flags : Flags)
    (undef : ℕ × ℕ) : Status (ℕ × Flags × MemAreas × Bool) :=
  let hintEnd := boundsEnd addr len
  let global : Status ℕ :=
    if addr ≠ 0 ∧ (mm.mmEnd < hintEnd ∨ addr < mm.mmStart) then
      findFreeRange pool addr len kVirtualAreaMax 0 undef.1
    else .error .EPERM
  match global with
  | .ok a => .ok (a, flags ||| MAP_FIXED_NOREPLACE ||| MAP_FIXED,
      insert pool ⟨a, addWord a len⟩, true)
  | .error _ =>
    match findFreeRange mm.vmareas addr len mm.mmEnd mm.brkAddr undef.2 with
    | .ok a => .ok (a, flags ||| MAP_FIXED, pool, false)
    | .error e => .error e

structure MMapArgs where
  addr : ℕ
  len : ℕ
  prot : BitVec 32
  flags : Flags
  file : Option FileRef
  off : BitVec 64

/-- What the environment decides during one `MMap`: the lock wait, the host's answers, and the two
undefined reads of `FindFreeRange`. -/
structure MMapEnv where
  interrupted : Bool
  host : HostMMap
  populate : Status Unit
  undef : ℕ × ℕ

/-- The end of `MMap` once the host has answered. `fail` is what the pool becomes when
`clean_on_err` runs, `populateEINTR` whether the requested read-ahead was interrupted. -/
def finishMap (mm : MemoryMap) (pool fail : MemAreas) (populateEINTR : Bool) (raddr : Status ℕ)
    (vma : ℕ → VMArea) : Outcome ℕ × MemoryMap × MemAreas :=
  match raddr with
  | .error e => if e = .EEXIST then (.panic, mm, pool) else (.ret (.error e), mm, fail)
  | .ok raddr =>
    (.ret (if populateEINTR then .error .EINTR else .ok raddr),
      mm.insertArea (vma raddr), pool)

/-- The second half of `MMap`: the host call at the chosen address. -/
def mapAt (mm : MemoryMap) (pool fail : MemAreas) (a : MMapArgs) (env : MMapEnv)
    (addr len : ℕ) (flags : Flags) : Outcome ℕ × MemoryMap × MemAreas :=
  let populateEINTR := hasFlag a.flags MAP_POPULATE && decide (env.populate = .error .EINTR)
  if hasFlag flags MAP_ANONYMOUS then
    let type := if hasFlag flags MAP_STACK then VMType.kStack else .kNormal
    mm.finishMap pool fail populateEINTR (env.host.anonymous addr len a.prot flags)
      fun raddr => .anonymous raddr len a.prot type
  else
    match a.file with
    | none => (.ret (.error .EBADF), mm, fail)
    | some f =>
      mm.finishMap pool fail populateEINTR (env.host.call addr len a.prot flags (some f) a.off)
        fun raddr => .fileBacked raddr len a.prot f a.off

def mmap (pool : MemAreas) (a : MMapArgs) (env : MMapEnv) :
    Outcome ℕ × MemoryMap × MemAreas :=
  if addressValid a.addr a.len = false then (.ret (.error .EINVAL), mm, pool)
  else
    let flags := a.flags &&& ~~~MAP_POPULATE
    let len := pageAlign a.len
    if env.interrupted then (.ret (.error .EINTR), mm, pool)
    else if hasFlag flags MAP_FIXED then mm.mapAt pool pool a env a.addr len flags
    else
      match mm.chooseAddress pool a.addr len flags env.undef with
      | .error e => (.ret (.error e), mm, pool)
      | .ok (addr, flags, pool, reserved) =>
        let fail := if reserved then Cursor.entries (clear pool addr (addWord addr len))
          else pool
        mm.mapAt pool fail a env addr len flags

def munmap (pool : MemAreas) (addr len : ℕ) (interrupted : Bool)
    (host : Status Unit) : Status Unit × MemoryMap × MemAreas :=
  if addressValid addr len = false then (.error .EINVAL, mm, pool)
  else if interrupted then (.error .EINTR, mm, pool)
  else
    match host with
    | .error e => (.error e, mm, pool)
    | .ok _ =>
      let mm := mm.clearRange addr (boundsEnd addr len)
      (.ok (), mm, mm.munmapCheck pool addr len)

/-- `Modify(start, end, prot)`. -/
def modifyProt (mm : MemoryMap) (start stop : ℕ) (prot : BitVec 32) : MemoryMap :=
  let u := AttrChange.setProt prot
  { mm with vmareas := modify mm.vmareas start stop u.check u.change }

def mprotect (addr len : ℕ) (prot : BitVec 32) (interrupted : Bool)
    (host : Status Unit) : Status Unit × MemoryMap :=
  if addressValid addr len = false then (.error .EINVAL, mm)
  else if interrupted then (.error .EINTR, mm)
  else
    match (if mm.tracing then .ok () else host) with
    | .error e => (.error e, mm)
    | .ok _ => (.ok (), mm.modifyProt addr (boundsEnd addr len) prot)

/-- Whether the first area that ends above the break starts below the new one. -/
def breakBlocked (mm : MemoryMap) (newbrk : ℕ) : Bool :=
  match firstAbove mm.vmareas mm.brkAddr with
  | .ok vma => decide (vma.start < pageAlign newbrk)
  | .error _ => false

def setBreak (mm : MemoryMap) (newbrk : ℕ) (interrupted : Bool) (host : HostMMap) :
    Status ℕ × MemoryMap :=
  if newbrk < mm.mmStart ∨ mm.mmEnd ≤ newbrk then (.ok mm.brkAddr, mm)
  else if interrupted then (.error .EINTR, mm)
  else
    let oldbrk := mm.brkAddr
    if pageAlign oldbrk = pageAlign newbrk then (.ok newbrk, { mm with brkAddr := newbrk })
    else if mm.breakBlocked newbrk then (.ok oldbrk, mm)
    else if oldbrk < newbrk then
      let addr := pageAlign oldbrk
      let len := subWord (pageAlign newbrk) (pageAlign oldbrk)
      match host.anonymous addr len (PROT_READ ||| PROT_WRITE) MAP_FIXED with
      | .error _ => (.ok oldbrk, mm)
      | .ok _ =>
        let vma := .anonymous addr len (PROT_READ ||| PROT_WRITE) .kHeap
        (.ok newbrk, { mm.insertArea vma with brkAddr := newbrk })
    else
      let addr := pageAlign newbrk
      let len := subWord (pageAlign oldbrk) (pageAlign newbrk)
      match host.anonymous addr len PROT_NONE MAP_FIXED with
      | .error _ => (.ok oldbrk, mm)
      | .ok _ => (.ok newbrk, { mm.clearRange addr (boundsEnd addr len) with brkAddr := newbrk })

/-- `EnableTracing`. The host protections it removes are not part of the map. -/
def enableTracing (mm : MemoryMap) : MemoryMap :=
  { mm with
    tracing := true
    vmareas := mm.vmareas.map fun e => (e.1, { e.2 with traced := true }) }

def endTracing : Status Unit × MemoryMap :=
  if mm.tracing = false then (.error .ENODATA, mm)
  else
    let u := AttrChange.untrace
    (.ok (), { mm with
      vmareas := modify mm.vmareas 0 (2 ^ 64 - 1) u.check u.change
      tracing := false })

/-- `UnmapAll()`. A failing munmap(2) is logged and nothing else. -/
def unmapAll (mm : MemoryMap) (pool : MemAreas) : MemoryMap × MemAreas :=
  ({ mm with vmareas := [] },
    mm.vmareas.foldl (fun pool e => mm.munmapCheck pool e.2.start e.2.length) pool)

/-- `~MemoryMap()`, as its effect on the pool. -/
def destroy (mm : MemoryMap) (pool : MemAreas) : MemAreas :=
  if mm.isFakeMap then pool
  else
    let pool := mm.vmareas.foldl (fun pool e =>
      if mm.containedInMapBounds e.2.start e.2.length then pool
      else mm.munmapCheck pool e.2.start e.2.length) pool
    Cursor.entries (clear pool mm.mmStart mm.mmEnd)

/-- `Create(len)`. On a failed host call the source reads `*ret` of an error status; `undef` is what
that yields. -/
def create (pool : MemAreas) (len : ℕ) (host : HostMMap) (undef : ℕ) :
    Outcome MemoryMap × MemAreas :=
  match findFreeRange pool 0 len kVirtualAreaMax 0 0 with
  | .error e => (.ret (.error e), pool)
  | .ok base =>
    let reserved := insert pool (⟨base, addWord base len⟩ : SimpleInterval)
    match host.anonymous base len PROT_NONE MAP_FIXED_NOREPLACE with
    | .error e =>
      if undef ≠ base then (.panic, reserved)
      else (.ret (.error e), Cursor.entries (clear reserved base (addWord base len)))
    | .ok r => if r ≠ base then (.panic, reserved) else (.ret (.ok (init r len)), reserved)

end MemoryMap
end Junction

/-! ### Contents and protections of the memory, and what host calls do to them -/

namespace Junction
open List

abbrev Prot := BitVec 32

abbrev Files := FileRef → ℕ → UInt8

/-- What a host call has done. A range is mapped to a file from an offset on, or to zero pages. -/
inductive HostEffect
  | map (start stop : ℕ) (prot : Prot) (source : Option (FileRef × ℕ))
  | protect (start stop : ℕ) (prot : Prot)
  | zero (start stop : ℕ)
  deriving DecidableEq

namespace HostEffect

def start : HostEffect → ℕ
  | map start _ _ _ => start
  | protect start _ _ => start
  | zero start _ => start

def stop : HostEffect → ℕ
  | map _ stop _ _ => stop
  | protect _ stop _ => stop
  | zero _ stop => stop

def Covers (e : HostEffect) (a : ℕ) : Prop := e.start ≤ a ∧ a < e.stop

instance (e : HostEffect) (a : ℕ) : Decidable (e.Covers a) := inferInstanceAs (Decidable (_ ∧ _))

def Within (lo hi : ℕ) (e : HostEffect) : Prop := lo ≤ e.start ∧ e.stop ≤ hi

/-- The byte at an address that the effect covers, if it was `b`. -/
def newByte (files : Files) (a : ℕ) (b : UInt8) : HostEffect → UInt8
  | map start _ _ (some (f, off)) => files f (off + (a - start))
  | map _ _ _ none => 0
  | protect _ _ _ => b
  | zero _ _ => 0

/-- The protection of an address that the effect covers, if it was `p`. -/
def newProt (p : Option Prot) : HostEffect → Option Prot
  | map _ _ prot _ => some prot
  | protect _ _ prot => p.map fun _ => prot
  | zero _ _ => p

def setBytes (files : Files) (mem : ℕ → UInt8) (e : HostEffect) : ℕ → UInt8 := fun a =>
  if e.Covers a then e.newByte files a (mem a) else mem a

def setProt (prot : ℕ → Option Prot) (e : HostEffect) : ℕ → Option Prot := fun a =>
  if e.Covers a then e.newProt (prot a) else prot a

end HostEffect

def bytesAfter (files : Files) (mem : ℕ → UInt8) (effects : List HostEffect) : ℕ → UInt8 :=
  effects.foldl (HostEffect.setBytes files) mem

def protAfter (prot : ℕ → Option Prot) (effects : List HostEffect) : ℕ → Option Prot :=
  effects.foldl HostEffect.setProt prot

section Effects
variable {files : Files} {mem : ℕ → UInt8} {prot : ℕ → Option Prot} {effects : List HostEffect} {a : ℕ}

theorem bytesAfter_append (files : Files) (mem : ℕ → UInt8) (effects later : List HostEffect) :
    bytesAfter files mem (effects ++ later) = bytesAfter files (bytesAfter files mem effects) later :=
  foldl_append

theorem protAfter_append (prot : ℕ → Option Prot) (effects later : List HostEffect) :
    protAfter prot (effects ++ later) = protAfter (protAfter prot effects) later := foldl_append

theorem bytesAfter_of_not_covers (h : ∀ e ∈ effects, ¬ e.Covers a) : bytesAfter files mem effects a = mem a := by
  induction effects generalizing mem with
  | nil => rfl
  | cons e effects ih =>
    obtain ⟨he, hrest⟩ := forall_mem_cons.mp h
    have hstep : bytesAfter files mem (e :: effects) = bytesAfter files (e.setBytes files mem) effects := rfl
    rw [hstep, ih hrest, HostEffect.setBytes, if_neg he]

theorem protAfter_of_not_covers (h : ∀ e ∈ effects, ¬ e.Covers a) : protAfter prot effects a = prot a := by
  induction effects generalizing prot with
  | nil => rfl
  | cons e effects ih =>
    obtain ⟨he, hrest⟩ := forall_mem_cons.mp h
    have hstep : protAfter prot (e :: effects) = protAfter (e.setProt prot) effects := rfl
    rw [hstep, ih hrest, HostEffect.setProt, if_neg he]

variable {source : Option (FileRef × ℕ)} {lo hi : ℕ} {p : Prot}

theorem bytesAfter_map (hlo : lo ≤ a) (hhi : a < hi) :
    bytesAfter files mem [.map lo hi p source] a = (HostEffect.map lo hi p source).newByte files a (mem a) :=
  if_pos ⟨hlo, hhi⟩

theorem protAfter_map (hlo : lo ≤ a) (hhi : a < hi) :
    protAfter prot [.map lo hi p source] a = some p := if_pos ⟨hlo, hhi⟩

variable {c : Prop}

theorem bytesAfter_map_if [Decidable c] : bytesAfter files mem (if c then [.map lo hi p source] else []) a =
      if c ∧ lo ≤ a ∧ a < hi then (HostEffect.map lo hi p source).newByte files a (mem a) else mem a := by
  by_cases hc : c
  · rw [if_pos hc]
    exact if_congr (and_iff_right hc).symm rfl rfl
  · rw [if_neg hc, if_neg fun h => hc h.1]
    rfl

theorem protAfter_map_if [Decidable c] :
    protAfter prot (if c then [.map lo hi p source] else []) a = if c ∧ lo ≤ a ∧ a < hi then some p else prot a := by
  by_cases hc : c
  · rw [if_pos hc]
    exact if_congr (and_iff_right hc).symm rfl rfl
  · rw [if_neg hc, if_neg fun h => hc h.1]
    rfl

end Effects

/-! ### Effects of disjoint items -/

section Items
variable {α : Type} {effectsOf : α → List HostEffect} {lo hi : α → ℕ} {items : List α} {x : α} {files : Files}
  {mem : ℕ → UInt8} {prot : ℕ → Option Prot}

theorem split_items (hx : x ∈ items) (hdisj : items.Pairwise fun x y => hi x ≤ lo y ∨ hi y ≤ lo x)
    (hwithin : ∀ y ∈ items, ∀ e ∈ effectsOf y, e.Within (lo y) (hi y)) :
    ∃ left right, items.flatMap effectsOf = left ++ effectsOf x ++ right ∧
      ∀ a, lo x ≤ a → a < hi x → ∀ e ∈ right, ¬ e.Covers a := by
  obtain ⟨l, r, rfl⟩ := append_of_mem hx
  refine ⟨l.flatMap effectsOf, r.flatMap effectsOf, ?_, fun a hlo hhi e he => ?_⟩
  · rw [flatMap_append, flatMap_cons, append_assoc]
  obtain ⟨y, hy, he⟩ := mem_flatMap.mp he
  have hmem : y ∈ l ++ x :: r := mem_append_right _ (mem_cons_of_mem _ hy)
  obtain ⟨hstart, hstop⟩ := hwithin y hmem e he
  rintro ⟨hcovers, hcovers'⟩
  rcases rel_of_pairwise_cons (pairwise_append.mp hdisj).2.1 hy with hle | hle <;> omega

theorem after_items (hx : x ∈ items) (hdisj : items.Pairwise fun x y => hi x ≤ lo y ∨ hi y ≤ lo x)
    (hwithin : ∀ y ∈ items, ∀ e ∈ effectsOf y, e.Within (lo y) (hi y)) (before : List HostEffect) :
    ∃ mem' prot', ∀ a, lo x ≤ a → a < hi x →
      bytesAfter files mem (before ++ items.flatMap effectsOf) a = bytesAfter files mem' (effectsOf x) a ∧
        protAfter prot (before ++ items.flatMap effectsOf) a = protAfter prot' (effectsOf x) a := by
  obtain ⟨left, right, heq, hright⟩ := split_items hx hdisj hwithin
  refine ⟨bytesAfter files mem (before ++ left), protAfter prot (before ++ left), fun a hlo hhi => ?_⟩
  have hassoc : before ++ items.flatMap effectsOf = before ++ left ++ effectsOf x ++ right := by
    rw [heq, append_assoc, append_assoc, append_assoc]
  rw [hassoc]
  constructor
  · rw [bytesAfter_append, bytesAfter_of_not_covers (hright a hlo hhi), bytesAfter_append]
  · rw [protAfter_append, protAfter_of_not_covers (hright a hlo hhi), protAfter_append]

end Items

end Junction
