import Junction.Base
import Junction.Library.Run

/-!
# Record locks

The holders of the locks on a file are a list of ranges with inclusive bounds, in no particular order. A
request clears the range of its process first, which can split a lock: the right fragment stays in its
place, and the left fragments are put at the end. Offsets are 64-bit integers.
-/

namespace Junction

/-- `l_type`. -/
inductive FlockType
  | read
  | write
  | unlock
  deriving DecidableEq

/-- `l_whence`. -/
inductive Whence
  | set
  | cur
  | end_
  | other
  deriving DecidableEq

/-- What the caller of `fcntl` asks for, and what it gets back. -/
structure Flock where
  l_type : FlockType
  l_whence : Whence
  l_start : ℤ
  l_len : ℤ
  l_pid : ℤ
  deriving DecidableEq

structure AdvisoryLock where
  type : FlockType
  start : ℤ
  end_ : ℤ
  pid : ℤ
  deriving DecidableEq

/-- The caller: its process and the offset and size of its file. -/
structure LockCaller where
  pid : ℤ
  off : ℤ
  size : ℤ
  deriving DecidableEq

def wrapOff (x : ℤ) : ℤ := x.bmod (2 ^ 64)

def maxOff : ℤ := 2 ^ 63 - 1

def fromFlock (fl : Flock) (caller : LockCaller) : AdvisoryLock :=
  let start :=
    match fl.l_whence with
    | .set => fl.l_start
    | .cur => wrapOff (fl.l_start + caller.off)
    | .end_ => wrapOff (fl.l_start + caller.size)
    | .other => -1
  { type := fl.l_type
    start := start
    end_ := if fl.l_len ≠ 0 then wrapOff (start + fl.l_len - 1) else maxOff
    pid := caller.pid }

namespace AdvisoryLock

/-- `ValidateAdvisoryLock`. -/
def Valid (al : AdvisoryLock) : Prop := 0 ≤ al.start ∧ al.start ≤ al.end_

instance : DecidablePred Valid := fun _ => inferInstanceAs (Decidable (_ ∧ _))

def overlaps (al : AdvisoryLock) (start end_ : ℤ) : Bool := start ≤ al.end_ && end_ ≥ al.start

def conflicts (al o : AdvisoryLock) : Bool :=
  if !al.overlaps o.start o.end_ then false
  else if o.pid = al.pid then false
  else o.type ≠ .read || al.type ≠ .read

/-- The loop of `ClearRange`: the locks that are left in place, the left fragments, and whether there was
anything to clear. -/
def clearLoop (start end_ pid : ℤ) :
    List AdvisoryLock → List AdvisoryLock × List AdvisoryLock × Bool
  | [] => ([], [], false)
  | cur :: holders =>
    let r := clearLoop start end_ pid holders
    if cur.pid ≠ pid || !cur.overlaps start end_ then (cur :: r.1, r.2.1, r.2.2)
    else
      (if end_ < cur.end_ then { cur with start := end_ + 1 } :: r.1 else r.1,
        if start > cur.start then { cur with end_ := start - 1 } :: r.2.1 else r.2.1, true)

def clearRange (start end_ pid : ℤ) (holders : List AdvisoryLock) : Bool × List AdvisoryLock :=
  let r := clearLoop start end_ pid holders
  (r.2.2, r.1 ++ r.2.1)

variable (holders : List AdvisoryLock)

def anyConflicts (al : AdvisoryLock) : Bool :=
  holders.any fun lck => lck.conflicts al

def getConflict (al : AdvisoryLock) : Option AdvisoryLock :=
  holders.find? fun lck => lck.conflicts al

/-- The end of `DoSet`, once nothing is in the way. -/
def setLock (holders : List AdvisoryLock) (al : AdvisoryLock) : List AdvisoryLock :=
  (clearRange al.start al.end_ al.pid holders).2 ++ [al]

/-- `DoSet`, if it runs to its end alone. A request that has to wait then returns only when it is
interrupted. -/
def doSet (holders : List AdvisoryLock) (fl : Flock) (wait : Bool) (caller : LockCaller) :
    Status Unit × List AdvisoryLock :=
  let al := fromFlock fl caller
  if ¬al.Valid then (.error .EINVAL, holders)
  else if al.type = .unlock then (.ok (), (clearRange al.start al.end_ al.pid holders).2)
  else if anyConflicts holders al then (.error (if wait then .EINTR else .EAGAIN), holders)
  else (.ok (), setLock holders al)

def dropLocksForPid (pid : ℤ) : List AdvisoryLock :=
  holders.filter fun al => al.pid ≠ pid

end AdvisoryLock

inductive LockCall
  | doSet (fl : Flock) (wait : Bool) (caller : LockCaller)
  | dropLocksForPid (pid : ℤ)

namespace LockCall

def run (holders : List AdvisoryLock) : LockCall → List AdvisoryLock
  | .doSet fl wait caller => (AdvisoryLock.doSet holders fl wait caller).2
  | .dropLocksForPid pid => AdvisoryLock.dropLocksForPid holders pid

end LockCall
end Junction

/-! ### The locks as a map from processes and offsets to lock types -/

namespace Junction.AdvisoryLock
open List

def Covers (al : AdvisoryLock) (byte : ℤ) : Prop := al.start ≤ byte ∧ byte ≤ al.end_

instance (al : AdvisoryLock) : DecidablePred al.Covers := fun _ => inferInstanceAs (Decidable (_ ∧ _))

variable (holders : List AdvisoryLock)

def lockAt (pid byte : ℤ) : Option FlockType :=
  (holders.find? fun al => decide (al.pid = pid ∧ al.Covers byte)).map AdvisoryLock.type

/-- Two locks on a common byte are read locks of different processes. -/
def Compatible (a b : AdvisoryLock) : Prop :=
  ∀ byte, a.Covers byte → b.Covers byte → a.pid ≠ b.pid ∧ a.type = .read ∧ b.type = .read

structure Sound : Prop where
  range : ∀ al ∈ holders, al.start ≤ al.end_
  type : ∀ al ∈ holders, al.type ≠ .unlock
  compatible : holders.Pairwise Compatible

variable {a b : AdvisoryLock}

theorem Compatible.symm (h : Compatible a b) : Compatible b a := by
  intro byte hb ha
  obtain ⟨hpid, hread, hread'⟩ := h byte ha hb
  exact ⟨hpid.symm, hread', hread⟩

instance : Std.Symm Compatible := ⟨fun _ _ => Compatible.symm⟩

theorem overlaps_iff {al : AdvisoryLock} {start end_ : ℤ} (hal : al.start ≤ al.end_) (h : start ≤ end_) :
    al.overlaps start end_ ↔ ∃ byte, al.Covers byte ∧ start ≤ byte ∧ byte ≤ end_ := by
  simp only [overlaps, Bool.and_eq_true, decide_eq_true_eq, Covers]
  constructor
  · rintro ⟨h₁, h₂⟩
    exact ⟨max al.start start, by omega⟩
  · rintro ⟨byte, ⟨h₁, h₂⟩, h₃, h₄⟩
    omega

section Clear
variable {start end_ pid : ℤ}

def pieces (start end_ pid : ℤ) (cur : AdvisoryLock) : List AdvisoryLock :=
  if cur.pid ≠ pid || !cur.overlaps start end_ then [cur]
  else (if end_ < cur.end_ then [{ cur with start := end_ + 1 }] else []) ++
    if start > cur.start then [{ cur with end_ := start - 1 }] else []

theorem clearRange_perm : (clearRange start end_ pid holders).2.Perm (holders.flatMap (pieces start end_ pid)) := by
  induction holders with
  | nil => rfl
  | cons cur holders ih =>
    rw [flatMap_cons]
    refine List.Perm.trans ?_ (ih.append_left _)
    simp only [clearRange, clearLoop, pieces]
    split_ifs
    · rfl
    · exact (perm_middle.cons _)
    · rfl
    · exact perm_middle
    · rfl

theorem mem_clearRange {holders : List AdvisoryLock} {al : AdvisoryLock} :
    al ∈ (clearRange start end_ pid holders).2 ↔ ∃ cur ∈ holders, al ∈ pieces start end_ pid cur := by
  rw [(clearRange_perm holders).mem_iff, mem_flatMap]

variable {cur al : AdvisoryLock}

def Hit (start end_ pid : ℤ) (cur : AdvisoryLock) : Prop :=
  cur.pid = pid ∧ start ≤ cur.end_ ∧ cur.start ≤ end_

theorem mem_pieces : al ∈ pieces start end_ pid cur ↔ ¬Hit start end_ pid cur ∧ al = cur ∨
    Hit start end_ pid cur ∧ (end_ < cur.end_ ∧ al = { cur with start := end_ + 1 } ∨
      cur.start < start ∧ al = { cur with end_ := start - 1 }) := by
  have hhit : (decide (cur.pid ≠ pid) || !cur.overlaps start end_) ↔ ¬Hit start end_ pid cur := by
    simp [overlaps, Hit, or_iff_not_imp_left]
  unfold pieces
  by_cases h : Hit start end_ pid cur
  · rw [if_neg (fun hc => hhit.1 hc h), mem_append]
    simp [h]
  · rw [if_pos (hhit.2 h)]
    simp [h]

theorem part_of_mem_pieces (hcur : cur.start ≤ cur.end_) (hal : al ∈ pieces start end_ pid cur) :
    al.pid = cur.pid ∧ al.type = cur.type ∧ cur.start ≤ al.start ∧ al.start ≤ al.end_ ∧ al.end_ ≤ cur.end_ := by
  rcases mem_pieces.1 hal with ⟨-, rfl⟩ | ⟨⟨-, hend, hstart⟩, ⟨hlt, rfl⟩ | ⟨hlt, rfl⟩⟩
  · exact ⟨rfl, rfl, le_refl _, hcur, le_refl _⟩
  · exact ⟨rfl, rfl, by dsimp only; omega, by dsimp only; omega, le_refl _⟩
  · exact ⟨rfl, rfl, le_refl _, by dsimp only; omega, by dsimp only; omega⟩

theorem covers_pieces (byte : ℤ) : (∃ al ∈ pieces start end_ pid cur, al.Covers byte) ↔
      cur.Covers byte ∧ ¬(cur.pid = pid ∧ start ≤ byte ∧ byte ≤ end_) := by
  simp only [mem_pieces]
  constructor
  · rintro ⟨al, ⟨hhit, rfl⟩ | ⟨⟨hpid, hend, hstart⟩, ⟨hlt, rfl⟩ | ⟨hlt, rfl⟩⟩, hcover⟩
    · refine ⟨hcover, fun ⟨hpid, hbyte⟩ => hhit ⟨hpid, ?_⟩⟩
      simp only [Covers] at hcover
      omega
    · simp only [Covers] at hcover ⊢
      omega
    · simp only [Covers] at hcover ⊢
      omega
  rintro ⟨hcover, hout⟩
  by_cases hhit : Hit start end_ pid cur
  · simp only [Covers] at hcover
    rcases Int.lt_or_le byte start with hbyte | hbyte
    · exact ⟨_, .inr ⟨hhit, .inr ⟨by omega, rfl⟩⟩, by simp only [Covers]; omega⟩
    have hafter : end_ < byte := by
      by_contra hle
      exact hout ⟨hhit.1, hbyte, by omega⟩
    exact ⟨_, .inr ⟨hhit, .inl ⟨by omega, rfl⟩⟩, by simp only [Covers]; omega⟩
  · exact ⟨cur, .inl ⟨hhit, rfl⟩, hcover⟩

theorem Compatible.mono {a' b' : AdvisoryLock} (h : Compatible a b)
    (ha : a'.pid = a.pid ∧ a'.type = a.type ∧ a.start ≤ a'.start ∧ a'.start ≤ a'.end_ ∧ a'.end_ ≤ a.end_)
    (hb : b'.pid = b.pid ∧ b'.type = b.type ∧ b.start ≤ b'.start ∧ b'.start ≤ b'.end_ ∧ b'.end_ ≤ b.end_) :
    Compatible a' b' := by
  intro byte hbyte hbyte'
  obtain ⟨hpid, htype, hbounds⟩ := ha
  obtain ⟨hpid', htype', hbounds'⟩ := hb
  rw [hpid, hpid', htype, htype']
  simp only [Covers] at hbyte hbyte'
  exact h byte ⟨by omega, by omega⟩ ⟨by omega, by omega⟩

theorem pieces_pairwise (h : start ≤ end_) : (pieces start end_ pid cur).Pairwise Compatible := by
  unfold pieces
  split_ifs
  · exact pairwise_singleton _ _
  · refine pairwise_pair.2 fun byte hright hleft => ?_
    simp only [Covers] at hright hleft
    omega
  · exact pairwise_singleton _ _
  · exact pairwise_singleton _ _
  · exact List.Pairwise.nil

theorem Sound.clearRange {holders : List AdvisoryLock} (hs : Sound holders) (h : start ≤ end_) :
    Sound (clearRange start end_ pid holders).2 where
  range al hal := by
    obtain ⟨cur, hcur, hal⟩ := mem_clearRange.1 hal
    exact (part_of_mem_pieces (hs.range cur hcur) hal).2.2.2.1
  type al hal := by
    obtain ⟨cur, hcur, hal⟩ := mem_clearRange.1 hal
    rw [(part_of_mem_pieces (hs.range cur hcur) hal).2.1]
    exact hs.type cur hcur
  compatible := by
    refine ((clearRange_perm holders).pairwise_iff Compatible.symm).2 (pairwise_flatMap.2
      ⟨fun cur _ => pieces_pairwise h, hs.compatible.imp_of_mem ?_⟩)
    intro a b ha hb hab x hx y hy
    exact hab.mono (part_of_mem_pieces (hs.range a ha) hx) (part_of_mem_pieces (hs.range b hb) hy)

end Clear

section Map
variable {holders : List AdvisoryLock} {start end_ pid p byte : ℤ} {type : FlockType} {al : AdvisoryLock}

theorem Sound.unique (h : Sound holders) (ha : a ∈ holders) (hb : b ∈ holders)
    (hpid : a.pid = b.pid) (hbyte : a.Covers byte) (hbyte' : b.Covers byte) : a = b := by
  by_contra hne
  exact (h.compatible.forall ha hb hne byte hbyte hbyte').1 hpid

theorem lockAt_eq_some_iff (h : Sound holders) : lockAt holders p byte = some type ↔
    ∃ al ∈ holders, al.pid = p ∧ al.Covers byte ∧ al.type = type := by
  rw [lockAt, Option.map_eq_some_iff]
  constructor
  · rintro ⟨al, hfind, htype⟩
    obtain ⟨hpid, hbyte⟩ : al.pid = p ∧ al.Covers byte := by simpa using find?_some hfind
    exact ⟨al, mem_of_find?_eq_some hfind, hpid, hbyte, htype⟩
  rintro ⟨al, hal, hpid, hbyte, htype⟩
  cases hfind : holders.find? fun al => decide (al.pid = p ∧ al.Covers byte) with
  | none => exact absurd (decide_eq_true ⟨hpid, hbyte⟩) (find?_eq_none.1 hfind al hal)
  | some x =>
    obtain ⟨hpid', hbyte'⟩ : x.pid = p ∧ x.Covers byte := by simpa using find?_some hfind
    have hx := h.unique (mem_of_find?_eq_some hfind) hal (hpid'.trans hpid.symm) hbyte' hbyte
    exact ⟨x, rfl, hx ▸ htype⟩

theorem lockAt_eq_ite {holders' : List AdvisoryLock} {cond : Prop} [Decidable cond] (h : Sound holders)
    (h' : Sound holders') (hmem : ∀ type, (∃ al ∈ holders', al.pid = p ∧ al.Covers byte ∧ al.type = type) ↔
      ¬cond ∧ ∃ al ∈ holders, al.pid = p ∧ al.Covers byte ∧ al.type = type) :
    lockAt holders' p byte = if cond then none else lockAt holders p byte := by
  refine Option.ext fun type => ?_
  rw [lockAt_eq_some_iff h', hmem]
  split_ifs with hcond
  · simp [hcond]
  · simp [hcond, lockAt_eq_some_iff h]

theorem exists_clearRange (h : Sound holders) (type : FlockType) :
    (∃ al ∈ (clearRange start end_ pid holders).2, al.pid = p ∧ al.Covers byte ∧ al.type = type) ↔
      ¬(p = pid ∧ start ≤ byte ∧ byte ≤ end_) ∧ ∃ al ∈ holders, al.pid = p ∧ al.Covers byte ∧ al.type = type := by
  constructor
  · rintro ⟨al, hal, rfl, hbyte, rfl⟩
    obtain ⟨cur, hcur, hpiece⟩ := mem_clearRange.1 hal
    obtain ⟨hpid, htype, -⟩ := part_of_mem_pieces (h.range cur hcur) hpiece
    obtain ⟨hcover, hout⟩ := (covers_pieces byte).1 ⟨al, hpiece, hbyte⟩
    exact ⟨hpid ▸ hout, cur, hcur, hpid.symm, hcover, htype.symm⟩
  rintro ⟨hout, cur, hcur, rfl, hbyte, rfl⟩
  obtain ⟨al, hpiece, hcover⟩ := (covers_pieces byte).2 ⟨hbyte, hout⟩
  obtain ⟨hpid, htype, -⟩ := part_of_mem_pieces (h.range cur hcur) hpiece
  exact ⟨al, mem_clearRange.2 ⟨cur, hcur, hpiece⟩, hpid, hcover, htype⟩

theorem conflicts_iff {lck : AdvisoryLock} (hlck : lck.start ≤ lck.end_) (hal : al.start ≤ al.end_) :
    lck.conflicts al ↔ (∃ byte, lck.Covers byte ∧ al.Covers byte) ∧ lck.pid ≠ al.pid ∧
      (lck.type ≠ .read ∨ al.type ≠ .read) := by
  rw [← show _ ↔ ∃ byte, lck.Covers byte ∧ al.Covers byte from overlaps_iff hlck hal]
  unfold conflicts
  by_cases hover : lck.overlaps al.start al.end_
  · by_cases hpid : al.pid = lck.pid
    · simp [hover, hpid]
    · simp [hover, hpid, Ne.symm hpid, or_comm]
  · simp [hover]

theorem Sound.setLock (h : Sound holders) (hrange : al.start ≤ al.end_) (htype : al.type ≠ .unlock)
    (hfree : anyConflicts holders al = false) : Sound (setLock holders al) := by
  have hclear : Sound (AdvisoryLock.clearRange al.start al.end_ al.pid holders).2 := h.clearRange hrange
  refine ⟨fun x hx => ?_, fun x hx => ?_, pairwise_append.2
    ⟨hclear.compatible, pairwise_singleton _ _, fun x hx y hy => ?_⟩⟩
  · rcases mem_append.1 hx with hx | hx
    · exact hclear.range x hx
    · exact (mem_singleton.1 hx) ▸ hrange
  · rcases mem_append.1 hx with hx | hx
    · exact hclear.type x hx
    · exact (mem_singleton.1 hx) ▸ htype
  obtain rfl := mem_singleton.1 hy
  intro byte hbyte hbyte'
  obtain ⟨hout, cur, hcur, hpid, hcover, htype'⟩ := (exists_clearRange h x.type).1 ⟨x, hx, rfl, hbyte, rfl⟩
  have hne : x.pid ≠ y.pid := fun heq => hout ⟨heq, hbyte'⟩
  have hnot : ¬cur.conflicts y := by
    simpa using any_eq_false.1 hfree cur hcur
  rw [conflicts_iff (h.range cur hcur) hrange, hpid, htype'] at hnot
  have hread : ¬(x.type ≠ .read ∨ y.type ≠ .read) := fun htypes => hnot ⟨⟨byte, hcover, hbyte'⟩, hne, htypes⟩
  simp only [not_or, not_not] at hread
  exact ⟨hne, hread⟩

theorem lockAt_setLock (h : Sound holders) (hrange : al.start ≤ al.end_) (htype : al.type ≠ .unlock)
    (hfree : anyConflicts holders al = false) : lockAt (setLock holders al) p byte =
      if p = al.pid ∧ al.start ≤ byte ∧ byte ≤ al.end_ then some al.type
      else lockAt holders p byte := by
  refine Option.ext fun type => ?_
  rw [lockAt_eq_some_iff (h.setLock hrange htype hfree)]
  have hsplit : (∃ x ∈ setLock holders al, x.pid = p ∧ x.Covers byte ∧ x.type = type) ↔
      (∃ x ∈ (clearRange al.start al.end_ al.pid holders).2, x.pid = p ∧ x.Covers byte ∧ x.type = type) ∨
        (al.pid = p ∧ al.Covers byte ∧ al.type = type) := by
    simp [AdvisoryLock.setLock, or_and_right, exists_or]
  rw [hsplit, exists_clearRange h]
  split_ifs with hcond
  · obtain ⟨rfl, hbyte⟩ := hcond
    simp [hbyte, Covers]
  rw [lockAt_eq_some_iff h]
  have hnot : ¬(al.pid = p ∧ al.Covers byte ∧ al.type = type) := fun ⟨hp, hb, _⟩ => hcond ⟨hp.symm, hb⟩
  simp [hcond, hnot]

theorem Sound.dropLocksForPid (h : Sound holders) (pid : ℤ) : Sound (dropLocksForPid holders pid) where
  range al hal := h.range al (mem_filter.1 hal).1
  type al hal := h.type al (mem_filter.1 hal).1
  compatible := h.compatible.sublist filter_sublist

theorem lockAt_dropLocksForPid (h : Sound holders) :
    lockAt (dropLocksForPid holders pid) p byte = if p = pid then none else lockAt holders p byte := by
  refine lockAt_eq_ite h (h.dropLocksForPid pid) fun type => ?_
  simp only [AdvisoryLock.dropLocksForPid, mem_filter, decide_eq_true_eq]
  constructor
  · rintro ⟨al, ⟨hal, hpid⟩, rfl, hrest⟩
    exact ⟨hpid, al, hal, rfl, hrest⟩
  · rintro ⟨hpid, al, hal, rfl, hrest⟩
    exact ⟨al, ⟨hal, hpid⟩, rfl, hrest⟩

/-- Another process has a lock on the range that excludes the new one. -/
def Blocked (holders : List AdvisoryLock) (al : AdvisoryLock) : Prop :=
  ∃ pid byte type, pid ≠ al.pid ∧ al.Covers byte ∧ lockAt holders pid byte = some type ∧
    (type = .write ∨ al.type = .write)

theorem anyConflicts_iff (h : Sound holders) (hrange : al.start ≤ al.end_) (htype : al.type ≠ .unlock) :
    anyConflicts holders al ↔ Blocked holders al := by
  have hwrite : ∀ t : FlockType, t ≠ .unlock → (t ≠ .read ↔ t = .write) := by
    intro t ht
    cases t with
    | read | write => decide
    | unlock => exact absurd rfl ht
  rw [anyConflicts, any_eq_true]
  constructor
  · rintro ⟨lck, hlck, hconf⟩
    obtain ⟨⟨byte, hbyte, hbyte'⟩, hpid, htypes⟩ := (conflicts_iff (h.range lck hlck) hrange).1 hconf
    refine ⟨lck.pid, byte, lck.type, hpid, hbyte', (lockAt_eq_some_iff h).2 ⟨lck, hlck, rfl, hbyte, rfl⟩, ?_⟩
    rwa [← hwrite _ (h.type lck hlck), ← hwrite _ htype]
  rintro ⟨pid, byte, type, hpid, hbyte, hlock, htypes⟩
  obtain ⟨lck, hlck, rfl, hbyte', rfl⟩ := (lockAt_eq_some_iff h).1 hlock
  refine ⟨lck, hlck, (conflicts_iff (h.range lck hlck) hrange).2 ⟨⟨byte, hbyte', hbyte⟩, hpid, ?_⟩⟩
  rwa [hwrite _ (h.type lck hlck), hwrite _ htype]

end Map

theorem doSet_cases (fl : Flock) (wait : Bool) (caller : LockCaller) :
    ¬(fromFlock fl caller).Valid ∧ doSet holders fl wait caller = (.error .EINVAL, holders) ∨
    (fromFlock fl caller).Valid ∧
      (fl.l_type = .unlock ∧ doSet holders fl wait caller = (.ok (), (clearRange (fromFlock fl caller).start
          (fromFlock fl caller).end_ caller.pid holders).2) ∨
        fl.l_type ≠ .unlock ∧ (anyConflicts holders (fromFlock fl caller) ∧
            doSet holders fl wait caller = (.error (if wait then .EINTR else .EAGAIN), holders) ∨
          anyConflicts holders (fromFlock fl caller) = false ∧
            doSet holders fl wait caller = (.ok (), setLock holders (fromFlock fl caller)))) := by
  unfold doSet
  by_cases hvalid : (fromFlock fl caller).Valid
  · rw [if_neg (not_not.2 hvalid)]
    refine .inr ⟨hvalid, ?_⟩
    by_cases hunlock : (fromFlock fl caller).type = .unlock
    · rw [if_pos hunlock]
      exact .inl ⟨hunlock, rfl⟩
    rw [if_neg hunlock]
    refine .inr ⟨hunlock, ?_⟩
    cases anyConflicts holders (fromFlock fl caller) with
    | true => exact .inl ⟨rfl, rfl⟩
    | false => exact .inr ⟨rfl, rfl⟩
  · exact .inl ⟨hvalid, if_pos hvalid⟩

theorem doSet_error {fl : Flock} {wait : Bool} {caller : LockCaller} {err : Error}
    (h : (doSet holders fl wait caller).1 = .error err) : (doSet holders fl wait caller).2 = holders := by
  rcases doSet_cases holders fl wait caller with ⟨-, hset⟩ | ⟨-, ⟨-, hset⟩ | ⟨-, ⟨-, hset⟩ | ⟨-, hset⟩⟩⟩
  · rw [hset]
  · rw [hset] at h
    cases h
  · rw [hset]
  · rw [hset] at h
    cases h

/-- What the holders and the calls on them mean for the map of the locks. -/
structure IsLockMap : Prop where
  disjoint : ∀ pid, (holders.filter fun al => al.pid = pid).Pairwise
    fun a b => a.overlaps b.start b.end_ = false
  exclusive : ∀ p q byte, p ≠ q → lockAt holders p byte = some .write → lockAt holders q byte = none
  invalid : ∀ fl wait caller, ¬(fromFlock fl caller).Valid →
    doSet holders fl wait caller = (.error .EINVAL, holders)
  failed : ∀ fl wait caller err, (doSet holders fl wait caller).1 = .error err →
    (doSet holders fl wait caller).2 = holders
  lock : ∀ fl wait caller, fl.l_type ≠ .unlock → (doSet holders fl wait caller).1 = .ok () →
    ∀ p byte, lockAt (doSet holders fl wait caller).2 p byte =
      if p = caller.pid ∧ (fromFlock fl caller).Covers byte then some fl.l_type
      else lockAt holders p byte
  again : ∀ fl caller, fl.l_type ≠ .unlock → (fromFlock fl caller).Valid →
    ((doSet holders fl false caller).1 = .error .EAGAIN ↔ Blocked holders (fromFlock fl caller)) ∧
    ∀ wait, ((doSet holders fl wait caller).1 = .ok () ↔ ¬Blocked holders (fromFlock fl caller))
  unlock : ∀ fl wait caller, fl.l_type = .unlock → (fromFlock fl caller).Valid →
    (doSet holders fl wait caller).1 = .ok () ∧ ∀ p byte, lockAt (doSet holders fl wait caller).2 p byte =
      if p = caller.pid ∧ (fromFlock fl caller).Covers byte then none else lockAt holders p byte
  drop : ∀ pid p byte, lockAt (dropLocksForPid holders pid) p byte =
    if p = pid then none else lockAt holders p byte

namespace Sound
variable {holders : List AdvisoryLock} (h : Sound holders)
include h

theorem disjoint (pid : ℤ) : (holders.filter fun al => al.pid = pid).Pairwise
    fun a b => a.overlaps b.start b.end_ = false := by
  refine (h.compatible.sublist filter_sublist).imp_of_mem fun {a b} ha hb hab => ?_
  obtain ⟨ha, hpa⟩ := mem_filter.1 ha
  obtain ⟨hb, hpb⟩ := mem_filter.1 hb
  rw [Bool.eq_false_iff]
  intro hover
  obtain ⟨byte, hbyte, hbyte'⟩ := (overlaps_iff (h.range a ha) (h.range b hb)).1 hover
  exact (hab byte hbyte hbyte').1 ((of_decide_eq_true hpa).trans (of_decide_eq_true hpb).symm)

theorem exclusive {p q byte : ℤ} (hpq : p ≠ q) (hwrite : lockAt holders p byte = some .write) :
    lockAt holders q byte = none := by
  rw [Option.eq_none_iff_forall_ne_some]
  intro type hq
  obtain ⟨a, ha, rfl, hbyte, htype⟩ := (lockAt_eq_some_iff h).1 hwrite
  obtain ⟨b, hb, rfl, hbyte', -⟩ := (lockAt_eq_some_iff h).1 hq
  have hab := h.compatible.forall ha hb (fun heq => hpq (heq ▸ rfl)) byte hbyte hbyte'
  exact absurd (htype.symm.trans hab.2.1) (by decide)

theorem doSet (fl : Flock) (wait : Bool) (caller : LockCaller) : Sound (doSet holders fl wait caller).2 := by
  rcases doSet_cases holders fl wait caller with
    ⟨-, heq⟩ | ⟨hvalid, ⟨-, heq⟩ | ⟨hlock, ⟨-, heq⟩ | ⟨hfree, heq⟩⟩⟩
  · exact heq ▸ h
  · exact heq ▸ h.clearRange hvalid.2
  · exact heq ▸ h
  · exact heq ▸ h.setLock hvalid.2 hlock hfree

variable {fl : Flock} {caller : LockCaller}

theorem lock {wait : Bool} (hlock : fl.l_type ≠ .unlock)
    (hok : (AdvisoryLock.doSet holders fl wait caller).1 = .ok ()) (p byte : ℤ) :
    lockAt (AdvisoryLock.doSet holders fl wait caller).2 p byte =
      if p = caller.pid ∧ (fromFlock fl caller).Covers byte then some fl.l_type
      else lockAt holders p byte := by
  rcases doSet_cases holders fl wait caller with
    ⟨-, heq⟩ | ⟨hvalid, ⟨hunlock, -⟩ | ⟨-, ⟨-, heq⟩ | ⟨hfree, heq⟩⟩⟩
  · rw [heq] at hok
    cases hok
  · exact absurd hunlock hlock
  · rw [heq] at hok
    cases hok
  · rw [heq]
    exact lockAt_setLock h hvalid.2 hlock hfree

theorem again (hlock : fl.l_type ≠ .unlock)
    (hvalid : (fromFlock fl caller).Valid) : ((AdvisoryLock.doSet holders fl false caller).1 = .error .EAGAIN ↔
      Blocked holders (fromFlock fl caller)) ∧
    ∀ wait, ((AdvisoryLock.doSet holders fl wait caller).1 = .ok () ↔ ¬Blocked holders (fromFlock fl caller)) := by
  rw [← anyConflicts_iff h hvalid.2 hlock]
  have hcases : ∀ wait, anyConflicts holders (fromFlock fl caller) ∧
        (AdvisoryLock.doSet holders fl wait caller).1 = .error (if wait then .EINTR else .EAGAIN) ∨
      anyConflicts holders (fromFlock fl caller) = false ∧ (AdvisoryLock.doSet holders fl wait caller).1 = .ok () := by
    intro wait
    rcases doSet_cases holders fl wait caller with
      ⟨hnot, -⟩ | ⟨-, ⟨hunlock, -⟩ | ⟨-, ⟨hconf, heq⟩ | ⟨hfree, heq⟩⟩⟩
    · exact absurd hvalid hnot
    · exact absurd hunlock hlock
    · exact .inl ⟨hconf, heq ▸ rfl⟩
    · exact .inr ⟨hfree, heq ▸ rfl⟩
  constructor
  · rcases hcases false with ⟨hconf, heq⟩ | ⟨hfree, heq⟩
    · simp [hconf, heq]
    · simp [hfree, heq]
  intro wait
  rcases hcases wait with ⟨hconf, heq⟩ | ⟨hfree, heq⟩
  · simp [hconf, heq]
  · simp [hfree, heq]

theorem isLockMap : IsLockMap holders where
  disjoint := h.disjoint
  exclusive _ _ _ := h.exclusive
  invalid fl wait caller hinvalid := if_pos hinvalid
  failed _ _ _ _ := doSet_error holders
  lock _ _ _ := h.lock
  again _ _ := h.again
  unlock fl wait caller hunlock hvalid := by
    have heq : AdvisoryLock.doSet holders fl wait caller = _ := (if_neg (not_not.2 hvalid)).trans (if_pos hunlock)
    rw [heq]
    exact ⟨rfl, fun p byte => lockAt_eq_ite h (h.clearRange hvalid.2) (exists_clearRange h)⟩
  drop pid p byte := lockAt_dropLocksForPid h

theorem run (call : LockCall) : Sound (call.run holders) := by
  cases call with
  | doSet fl wait caller => exact h.doSet fl wait caller
  | dropLocksForPid pid => exact h.dropLocksForPid pid

end Sound

/-- After every sequence of calls the holders are a map of locks, and the next call does to it what it is
to do. -/
theorem recordLocks_isLockMap (calls : List LockCall) : IsLockMap (Run.exec LockCall.run [] calls) := by
  have hstep : ∀ holders call, Sound holders → Sound (LockCall.run holders call) := fun _ call h => h.run call
  have hstart : Sound [] := ⟨nofun, nofun, List.Pairwise.nil⟩
  exact (Run.invariant_run hstep hstart calls).isLockMap

end Junction.AdvisoryLock
