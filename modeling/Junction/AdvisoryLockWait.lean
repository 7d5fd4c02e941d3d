import Junction.AdvisoryLock
import Junction.TimedWait

/-!
# Waiting for a record lock

`fcntl(F_SETLKW)` waits on a waker of its own, while those who release locks wake the queue of the file.
After the wait, and also for `F_GETLK`, the control flow of `DoFlocks` runs on into the default case. A turn
under the lock of the file is one step.
-/

namespace Junction
open AdvisoryLock

/-- The commands that `DoFlocks` tells apart. -/
inductive FlockOp
  | setlk
  | setlkw
  | getlk
  | other
  deriving DecidableEq

/-- A thread in `fcntl(F_SETLKW)`; at `through` its `DoSet` has returned. Whether the call has set its lock
and whether it has changed the holders is noted, and no step depends on it. -/
structure LockWait where
  fl : Flock
  caller : LockCaller
  waker : ThreadWaker Unit
  place : WaitPlace
  set : Bool
  changed : Bool

def LockWait.request (t : LockWait) : AdvisoryLock := fromFlock t.fl t.caller

/-- An `fcntl` that has returned, with the holders at its last turn. -/
structure FlockReturn (ι : Type) where
  thread : ι
  op : FlockOp
  inode : Bool
  fl : Flock
  caller : LockCaller
  answer : ℤ
  out : Flock
  holders : List AdvisoryLock
  set : Bool
  changed : Bool

structure AdvisoryLockContext (ι : Type) where
  holders_ : List AdvisoryLock
  waiters_ : WaitQueue ι
  threads : ι → Option LockWait
  returns : List (FlockReturn ι)

def doGet (holders : List AdvisoryLock) (fl : Flock) (caller : LockCaller) : Status Unit × Flock :=
  let al := fromFlock fl caller
  if ¬al.Valid then (.error .EINVAL, fl)
  else
    match getConflict holders al with
    | none => (.ok (), { fl with l_type := .unlock })
    | some c => (.ok (), ⟨c.type, .set, c.start, wrapOff (c.end_ - c.start + 1), c.pid⟩)

namespace AdvisoryLockContext
variable {ι : Type} [DecidableEq ι]

def setThread (s : AdvisoryLockContext ι) (i : ι) (t : Option LockWait) : AdvisoryLockContext ι :=
  { s with threads := Function.update s.threads i t }

def finish (s : AdvisoryLockContext ι) (e : FlockReturn ι) : AdvisoryLockContext ι :=
  { s.setThread e.thread none with returns := s.returns ++ [e] }

/-- The queue of the file is spliced and its threads run again, if there was something to release. -/
def release (s : AdvisoryLockContext ι) (done : Bool) : AdvisoryLockContext ι :=
  if done then
    let r := Wakeable.wakeAll s.waiters_
    { s with
      waiters_ := r.2
      threads := fun i =>
        if i ∈ r.1 then
          (s.threads i).map fun t => { t with place := if t.place = .parked then .woken else t.place }
        else s.threads i }
  else s

def doUnlocks (s : AdvisoryLockContext ι) (al : AdvisoryLock) : AdvisoryLockContext ι :=
  let r := clearRange al.start al.end_ al.pid s.holders_
  { s with holders_ := r.2 }.release r.1

/-- `DoSet` without waiting. -/
def trySet (s : AdvisoryLockContext ι) (fl : Flock) (caller : LockCaller) :
    Status Unit × AdvisoryLockContext ι :=
  let al := fromFlock fl caller
  if ¬al.Valid then (.error .EINVAL, s)
  else if al.type = .unlock then (.ok (), s.doUnlocks al)
  else if anyConflicts s.holders_ al then (.error .EAGAIN, s)
  else (.ok (), { s with holders_ := setLock s.holders_ al })

/-- A turn of `WaitInterruptible` and what `DoSet` does after it. -/
def pass (s : AdvisoryLockContext ι) (i : ι) (t : LockWait) (resumed signal : Bool) :
    AdvisoryLockContext ι :=
  match waitInterruptible () resumed (!anyConflicts s.holders_ t.request) signal t.waker with
  | (.park, w) => s.setThread i (some { t with waker := w, place := .parked })
  | (.through true, w) =>
    let holders := setLock s.holders_ t.request
    { s with holders_ := holders }.setThread i (some
      { t with waker := w, place := .through true, set := true, changed := holders ≠ s.holders_ })
  | (.through false, w) => s.setThread i (some { t with waker := w, place := .through false })

/-- `DoSet` with waiting, up to the first park or the return. -/
def enter (s : AdvisoryLockContext ι) (i : ι) (fl : Flock) (caller : LockCaller) (signal : Bool) :
    AdvisoryLockContext ι :=
  let al := fromFlock fl caller
  let t : LockWait := ⟨fl, caller, Wakeable.idle, .through false, false, false⟩
  if ¬al.Valid then s.setThread i (some t)
  else if al.type = .unlock then
    let s' := s.doUnlocks al
    s'.setThread i (some { t with place := .through true, changed := s'.holders_ ≠ s.holders_ })
  else s.pass i t false signal

/-- The return value of `DoFlocks` after the `switch`. -/
def flocksAnswer : Status Unit → ℤ
  | .ok _ => 0
  | .error e => e.toLong

/-- `DoFlocks`, up to the first park. `F_GETLK` asks and then fails. -/
def doFlocks (s : AdvisoryLockContext ι) (i : ι) (op : FlockOp) (inode : Bool) (fl : Flock)
    (caller : LockCaller) (signal : Bool) : AdvisoryLockContext ι :=
  let fail (out : Flock) : FlockReturn ι :=
    ⟨i, op, inode, fl, caller, Error.EINVAL.toLong, out, s.holders_, false, false⟩
  if !inode then s.finish (fail fl)
  else
    match op with
    | .setlk =>
      let r := s.trySet fl caller
      r.2.finish ⟨i, op, inode, fl, caller, flocksAnswer r.1, fl, s.holders_, false,
        r.2.holders_ ≠ s.holders_⟩
    | .setlkw => s.enter i fl caller signal
    | .getlk => s.finish (fail (doGet s.holders_ fl caller).2)
    | .other => s.finish (fail fl)

/-- The next turn of a thread in `F_SETLKW`. Once `DoSet` is through, `DoGet` follows and then the default
case. -/
def resume (s : AdvisoryLockContext ι) (i : ι) (t : LockWait) (signal : Bool) : AdvisoryLockContext ι :=
  match t.place with
  | .woken => s.pass i t true signal
  | .through _ => s.finish ⟨i, .setlkw, true, t.fl, t.caller, Error.EINVAL.toLong,
      (doGet s.holders_ t.fl t.caller).2, s.holders_, t.set, t.changed⟩
  | _ => s

def dropLocksForPid (s : AdvisoryLockContext ι) (pid : ℤ) : AdvisoryLockContext ι :=
  { s with holders_ := AdvisoryLock.dropLocksForPid s.holders_ pid }.release
    (s.holders_.any fun al => al.pid = pid)

/-- A thread calls `fcntl` or goes on with its call, a signal reaches a parked thread, or a process closes
the file. -/
inductive LockTick (ι : Type)
  | call (i : ι) (op : FlockOp) (inode : Bool) (fl : Flock) (caller : LockCaller) (signal : Bool)
  | turn (i : ι) (signal : Bool)
  | signal (i : ι)
  | drop (pid : ℤ)

def step (s : AdvisoryLockContext ι) : LockTick ι → AdvisoryLockContext ι
  | .call i op inode fl caller signal =>
    match s.threads i with
    | none => s.doFlocks i op inode fl caller signal
    | some _ => s
  | .turn i signal =>
    match s.threads i with
    | none => s
    | some t => s.resume i t signal
  | .signal i =>
    match s.threads i with
    | none => s
    | some t => if t.place = .parked then s.setThread i (some { t with place := .woken }) else s
  | .drop pid => s.dropLocksForPid pid

def start : AdvisoryLockContext ι := ⟨[], Wakeable.idle, fun _ => none, []⟩

end AdvisoryLockContext

/-!
### Answers to `F_GETLK`

The length of a lock on the whole range of offsets and the sum of a start and a length that reaches its end are not
offsets.
-/

open AdvisoryLock List

/-- An `off_t`. -/
def IsOff (x : ℤ) : Prop := -2 ^ 63 ≤ x ∧ x ≤ maxOff

instance : DecidablePred IsOff := fun _ => inferInstanceAs (Decidable (_ ∧ _))

/-- What `l_start` is relative to. -/
def Flock.base (fl : Flock) (caller : LockCaller) : ℤ :=
  match fl.l_whence with
  | .cur => caller.off
  | .end_ => caller.size
  | _ => 0

/-- The sums that `fromFlock` computes. -/
def fromFlockSums (fl : Flock) (caller : LockCaller) : List ℤ :=
  let start := (fromFlock fl caller).start
  [fl.l_start + fl.base caller] ++ if fl.l_len ≠ 0 then [start + fl.l_len, start + fl.l_len - 1] else []

def doGetSums (holders : List AdvisoryLock) (fl : Flock) (caller : LockCaller) : List ℤ :=
  fromFlockSums fl caller ++
    match getConflict holders (fromFlock fl caller) with
    | none => []
    | some c => [c.end_ - c.start, c.end_ - c.start + 1]

/-- What `fcntl` gets from its caller. -/
structure Flock.Fits (fl : Flock) (caller : LockCaller) : Prop where
  start : IsOff fl.l_start
  len : IsOff fl.l_len
  off : IsOff caller.off
  size : IsOff caller.size

def Stored (holders : List AdvisoryLock) : Prop := ∀ c ∈ holders, c.Valid ∧ c.end_ ≤ maxOff

/-- The answer denotes the lock that is in the way, whoever reads it. -/
def RoundTrips (holders : List AdvisoryLock) (fl : Flock) (caller : LockCaller) : Prop :=
  ∀ c, getConflict holders (fromFlock fl caller) = some c →
    ∀ off size, fromFlock (doGet holders fl caller).2 ⟨c.pid, off, size⟩ = c

/-- The start and the sum of start and length are offsets, and the first holder in the way does not have them all. -/
def Representable (holders : List AdvisoryLock) (fl : Flock) (caller : LockCaller) : Prop :=
  -2 ^ 63 ≤ fl.l_start + fl.base caller ∧
  (fl.l_len = 0 ∨ 0 < fl.l_len ∧ fl.l_start + fl.base caller + fl.l_len ≤ maxOff) ∧
  ∀ c, holders.find? (·.conflicts (fromFlock fl caller)) = some c → c.start = 0 → c.end_ ≠ maxOff

theorem isOff_wrapOff (x : ℤ) : IsOff (wrapOff x) := by
  unfold IsOff wrapOff maxOff
  rw [Int.bmod_def]
  push_cast
  split_ifs <;> omega

theorem wrapOff_cases {x : ℤ} (hlo : -2 ^ 64 ≤ x) (hhi : x < 2 ^ 64) : IsOff x ∧ wrapOff x = x ∨
    maxOff < x ∧ wrapOff x = x - 2 ^ 64 ∨ x < -2 ^ 63 ∧ wrapOff x = x + 2 ^ 64 := by
  unfold IsOff wrapOff maxOff
  rw [Int.bmod_def]
  push_cast
  split_ifs <;> omega

theorem end_fromFlock_le (fl : Flock) (caller : LockCaller) : (fromFlock fl caller).end_ ≤ maxOff := by
  dsimp only [fromFlock]
  split_ifs
  · exact (isOff_wrapOff _).2
  · exact le_rfl

theorem Stored.run {holders : List AdvisoryLock} (h : Stored holders) (call : LockCall) :
    Stored (call.run holders) := by
  have hclear : ∀ start end_ pid, Stored (clearRange start end_ pid holders).2 := by
    intro start end_ pid c hc
    obtain ⟨cur, hcur, hpiece⟩ := mem_clearRange.1 hc
    obtain ⟨hvalid, hend⟩ := h cur hcur
    obtain ⟨-, -, hstart, hrange, hle⟩ := part_of_mem_pieces hvalid.2 hpiece
    exact ⟨⟨hvalid.1.trans hstart, hrange⟩, hle.trans hend⟩
  cases call with
  | dropLocksForPid pid => exact fun c hc => h c (mem_filter.1 hc).1
  | doSet fl wait caller =>
    change Stored (doSet holders fl wait caller).2
    rcases doSet_cases holders fl wait caller with
      ⟨-, heq⟩ | ⟨hvalid, ⟨-, heq⟩ | ⟨-, ⟨-, heq⟩ | ⟨-, heq⟩⟩⟩ <;> rw [heq]
    · exact h
    · exact hclear _ _ _
    · exact h
    intro c hc
    rcases mem_append.1 hc with hold | hnew
    · exact hclear _ _ _ c hold
    · rw [mem_singleton.1 hnew]
      exact ⟨hvalid, end_fromFlock_le fl caller⟩

section Query
variable {holders : List AdvisoryLock} {fl : Flock} {caller : LockCaller}

theorem roundTrips (hstored : Stored holders) (hvalid : (fromFlock fl caller).Valid) :
    RoundTrips holders fl caller := by
  intro c hc off size
  obtain ⟨⟨hstart, hend⟩, hmax⟩ := hstored c (mem_of_find?_eq_some hc)
  have hlen : wrapOff (c.end_ - c.start + 1) ≠ 0 ∧ wrapOff (c.start + wrapOff (c.end_ - c.start + 1) - 1) = c.end_ := by
    unfold wrapOff maxOff at *
    rw [Int.bmod_def, Int.bmod_def]
    push_cast
    split_ifs <;> omega
  have hget : (doGet holders fl caller).2 = ⟨c.type, .set, c.start, wrapOff (c.end_ - c.start + 1), c.pid⟩ := by
    simp [doGet, hvalid, hc]
  rw [hget]
  simp [fromFlock, hlen]

theorem start_fromFlock (hfits : fl.Fits caller) (hvalid : (fromFlock fl caller).Valid) :
    (fromFlock fl caller).start = wrapOff (fl.l_start + fl.base caller) := by
  unfold Flock.base
  cases hwhence : fl.l_whence with
  | cur | end_ => simp [fromFlock, hwhence]
  | other =>
    have hstart := hvalid.1
    simp [fromFlock, hwhence] at hstart
  | set =>
    obtain ⟨hlo, hhi⟩ := hfits.start
    have hmax : maxOff < 2 ^ 64 := by decide
    rcases @wrapOff_cases fl.l_start (by omega) (by omega) with ⟨-, heq⟩ | ⟨hlt, -⟩ | ⟨hlt, -⟩
    · simp [fromFlock, hwhence, heq]
    · exact absurd hhi (not_le.2 hlt)
    · exact absurd hlo (not_le.2 hlt)

theorem fromFlockSums_iff (hfits : fl.Fits caller) (hvalid : (fromFlock fl caller).Valid) :
    (∀ x ∈ fromFlockSums fl caller, IsOff x) ↔ -2 ^ 63 ≤ fl.l_start + fl.base caller ∧
      (fl.l_len = 0 ∨ 0 < fl.l_len ∧ fl.l_start + fl.base caller + fl.l_len ≤ maxOff) := by
  have hstart := start_fromFlock hfits hvalid
  have hbase : IsOff (fl.base caller) := by
    unfold Flock.base
    cases fl.l_whence with
    | cur => exact hfits.off
    | end_ => exact hfits.size
    | set | other => exact (⟨by decide, by decide⟩ : IsOff 0)
  have hend : fl.l_len ≠ 0 → (fromFlock fl caller).end_ = wrapOff ((fromFlock fl caller).start + fl.l_len - 1) :=
    fun hlen => if_pos hlen
  obtain ⟨hnonneg, hle⟩ := hvalid
  obtain ⟨⟨hs, hs'⟩, ⟨hl, hl'⟩, -, -⟩ := hfits
  obtain ⟨hb, hb'⟩ := hbase
  simp only [fromFlockSums, ne_eq, forall_mem_append, forall_mem_singleton]
  generalize (fromFlock fl caller).start = start at *
  generalize (fromFlock fl caller).end_ = end_ at *
  have hmax : maxOff = 2 ^ 63 - 1 := rfl
  rcases @wrapOff_cases (fl.l_start + fl.base caller) (by omega) (by omega) with ⟨hoff, heq⟩ | ⟨hlt, heq⟩ | ⟨hlt, heq⟩
  · by_cases hlen : fl.l_len = 0
    · simpa [hlen, hoff] using hoff.1
    have hend := hend hlen
    simp only [hlen, not_false_eq_true, if_true, forall_mem_cons, not_mem_nil, false_implies, implies_true, false_or, and_true]
    unfold IsOff at hoff ⊢
    have hwrap := @wrapOff_cases (start + fl.l_len - 1) (by omega) (by omega)
    omega
  · omega
  · refine iff_of_false (fun h => ?_) (fun h => absurd h.1 (not_le.2 hlt))
    exact absurd h.1.1 (not_le.2 hlt)

/-- `F_GETLK` reports the lock that is in the way, and its arithmetic stays within the offsets exactly if the request
and that lock can be represented. -/
theorem getlk_reports_iff (hfits : fl.Fits caller) (hstored : Stored holders) (hvalid : (fromFlock fl caller).Valid) :
    (RoundTrips holders fl caller ∧ ∀ x ∈ doGetSums holders fl caller, IsOff x) ↔ Representable holders fl caller := by
  have hconflict : ∀ c, getConflict holders (fromFlock fl caller) = some c →
      (IsOff (c.end_ - c.start) ∧ IsOff (c.end_ - c.start + 1) ↔ (c.start = 0 → c.end_ ≠ maxOff)) := by
    intro c hc
    obtain ⟨⟨hstart, hend⟩, hmax⟩ := hstored c (mem_of_find?_eq_some hc)
    unfold IsOff maxOff at *
    omega
  have hsums : (∀ x ∈ doGetSums holders fl caller, IsOff x) ↔ (∀ x ∈ fromFlockSums fl caller, IsOff x) ∧
      ∀ c, getConflict holders (fromFlock fl caller) = some c →
        IsOff (c.end_ - c.start) ∧ IsOff (c.end_ - c.start + 1) := by
    unfold doGetSums
    cases getConflict holders (fromFlock fl caller) <;> simp [or_imp, forall_and]
  rw [and_iff_right (roundTrips hstored hvalid), hsums, forall₂_congr hconflict, fromFlockSums_iff hfits hvalid,
    and_assoc]
  rfl

end Query

theorem getlk_reports_iff_tenBytes : let fl : Flock := ⟨.write, .cur, -5, 10, 0⟩
    RoundTrips [⟨.read, 0, 9, 1⟩] fl ⟨2, 5, 100⟩ ∧ ∀ x ∈ doGetSums [⟨.read, 0, 9, 1⟩] fl ⟨2, 5, 100⟩, IsOff x := by
  have hstored : Stored [⟨.read, 0, 9, 1⟩] := fun c hc => by
    rw [mem_singleton.1 hc]
    decide
  refine (getlk_reports_iff ⟨by decide, by decide, by decide, by decide⟩ hstored (by decide)).2
    ⟨by decide, by decide, fun c hc _ => ?_⟩
  rw [mem_singleton.1 (mem_of_find?_eq_some hc)]
  decide

/-- The length of a lock on all offsets overflows, and so does the sum of the start and the length of a request that
ends at the last one. -/
theorem getlk_overflows : ¬ IsOff (2 ^ 63) ∧
    2 ^ 63 ∈ doGetSums [⟨.write, 0, maxOff, 1⟩] ⟨.read, .set, 0, 1, 0⟩ ⟨2, 0, 0⟩ ∧
    (fromFlock ⟨.read, .set, 1, maxOff, 0⟩ ⟨2, 0, 0⟩).Valid ∧
    2 ^ 63 ∈ doGetSums [] ⟨.read, .set, 1, maxOff, 0⟩ ⟨2, 0, 0⟩ := by
  decide

/-- After any calls, `F_GETLK` foretells `F_SETLK`: it finds nothing in the way exactly if the same lock would be set,
and else its answer denotes the lock in the way. -/
theorem getlk_foretells (calls : List LockCall) (fl : Flock) (caller : LockCaller) :
    let holders := Run.exec LockCall.run [] calls
    Stored holders ∧ ((fromFlock fl caller).Valid → fl.l_type ≠ .unlock →
      ((doGet holders fl caller).2.l_type = .unlock ↔ (doSet holders fl false caller).1 = .ok ()) ∧
      RoundTrips holders fl caller) := by
  intro holders
  have hstored : Stored holders := List.foldlRecOn calls _ (by simp [Stored]) fun _ h call _ => h.run call
  have hsound : Sound holders := List.foldlRecOn calls _ ⟨by simp, by simp, .nil⟩ fun _ h call _ => h.run call
  refine ⟨hstored, fun hvalid hlock => ⟨?_, roundTrips hstored hvalid⟩⟩
  have hlock' : (fromFlock fl caller).type ≠ .unlock := hlock
  have hany : anyConflicts holders (fromFlock fl caller) = (getConflict holders (fromFlock fl caller)).isSome :=
    (isSome_find? ..).symm
  cases hfind : getConflict holders (fromFlock fl caller) with
  | none => simp [doGet, doSet, hvalid, hlock', hany, hfind]
  | some c =>
    have htype := hsound.type c (mem_of_find?_eq_some hfind)
    simp [doGet, doSet, hvalid, hlock', hany, hfind, htype]

end Junction

/-! ### The promises of `fcntl`: no release wakes a thread in `F_SETLKW`, so no such wait may be able to succeed -/

namespace Junction
open AdvisoryLock List

namespace FlockReturn
variable {ι : Type}

/-- What `fcntl` promises about a call that has returned. -/
structure Kept (e : FlockReturn ι) : Prop where
  setlkw : e.op = .setlkw → (e.answer = 0 ↔ e.set = true)
  getlk : e.op = .getlk → e.inode = true → (fromFlock e.fl e.caller).Valid →
    e.answer = 0 ∧ e.out = (doGet e.holders e.fl e.caller).2
  unchanged : e.answer ≠ 0 → e.changed = false

end FlockReturn

namespace AdvisoryLockContext
variable {ι : Type}

variable (s : AdvisoryLockContext ι)

def Resting : Prop := ∀ i, ∀ t ∈ s.threads i, t.place = .parked

structure Served : Prop where
  progress : s.Resting → ∀ i, ∀ t ∈ s.threads i, t.place = .parked →
    anyConflicts s.holders_ t.request = true
  returns : ∀ e ∈ s.returns, e.Kept

def Harmless (pid : ℤ) : Prop :=
  ∀ i, ∀ t ∈ s.threads i, t.place = .parked → ∀ lck ∈ s.holders_, lck.conflicts t.request = true →
    lck.pid ≠ pid

/-- Queries have no valid range, requests that wait have none or meet a conflict, and the locks of a process
change only while nobody is parked because of them. -/
def Obstructed (s : AdvisoryLockContext ι) : LockTick ι → Prop
  | .call _ .setlk _ _ caller _ => s.Harmless caller.pid
  | .call _ .setlkw inode fl caller _ =>
    inode = false ∨ ¬(fromFlock fl caller).Valid ∨
      fl.l_type ≠ .unlock ∧ anyConflicts s.holders_ (fromFlock fl caller) = true
  | .call _ .getlk inode fl caller _ => inode = false ∨ ¬(fromFlock fl caller).Valid
  | .drop pid => s.Harmless pid
  | _ => True

instance [Fintype ι] (s : AdvisoryLockContext ι) (pid : ℤ) : Decidable (s.Harmless pid) := by
  unfold Harmless
  infer_instance

instance [Fintype ι] (s : AdvisoryLockContext ι) (tick : LockTick ι) : Decidable (s.Obstructed tick) := by
  unfold Obstructed
  split <;> infer_instance

/-- A thread in `F_SETLKW` that has done nothing to the locks. -/
structure Idle (holders : List AdvisoryLock) (t : LockWait) : Prop where
  blocked : t.place = .parked → anyConflicts holders t.request = true
  armed : t.place = .parked ∨ t.place = .woken → t.waker.th_ = some ()
  set : t.set = false
  changed : t.changed = false

variable {t : LockWait}

theorem Idle.through {holders : List AdvisoryLock} {normally : Bool}
    (hplace : t.place = .through normally) (hset : t.set = false) (hchanged : t.changed = false) :
    Idle holders t where
  blocked hparked := by cases hplace.symm.trans hparked
  armed hwait := by
    rcases hwait with hparked | hwoken
    · cases hplace.symm.trans hparked
    · cases hplace.symm.trans hwoken
  set := hset
  changed := hchanged

structure Inv : Prop where
  waiters : s.waiters_ = ⟨[]⟩
  threads : ∀ i, ∀ t ∈ s.threads i, Idle s.holders_ t
  returns : ∀ e ∈ s.returns, e.Kept

theorem Inv.served {s : AdvisoryLockContext ι} (h : s.Inv) : s.Served :=
  ⟨fun _ i t ht => (h.threads i t ht).blocked, h.returns⟩

variable {pid : ℤ} {fl : Flock} {caller : LockCaller}

section Locks
variable {holders : List AdvisoryLock} {al lck : AdvisoryLock}

theorem mem_clearRange_of_ne {start end_ : ℤ} (hmem : lck ∈ holders) (hpid : lck.pid ≠ pid) :
    lck ∈ (clearRange start end_ pid holders).2 :=
  mem_clearRange.2 ⟨lck, hmem, mem_pieces.2 (.inl ⟨fun hhit => hpid hhit.1, rfl⟩)⟩

variable {wait : Bool}

theorem mem_doSet_of_ne (hmem : lck ∈ holders)
    (hpid : lck.pid ≠ caller.pid) : lck ∈ (doSet holders fl wait caller).2 := by
  rcases doSet_cases holders fl wait caller with ⟨-, hset⟩ | ⟨-, ⟨-, hset⟩ | ⟨-, ⟨-, hset⟩ | ⟨-, hset⟩⟩⟩
  · rw [hset]
    exact hmem
  · rw [hset]
    exact mem_clearRange_of_ne hmem hpid
  · rw [hset]
    exact hmem
  · rw [hset]
    exact mem_append_left _ (mem_clearRange_of_ne hmem hpid)

end Locks

variable [DecidableEq ι] {s : AdvisoryLockContext ι}

theorem release_eq (hwaiters : s.waiters_ = ⟨[]⟩) (done : Bool) : s.release done = s := by
  obtain ⟨holders, waiters, threads, returns⟩ := s
  obtain rfl : waiters = ⟨[]⟩ := hwaiters
  cases done with
  | false => rfl
  | true => simp [release, Wakeable.wakeAll]

theorem trySet_eq (hwaiters : s.waiters_ = ⟨[]⟩) (fl : Flock) (caller : LockCaller) :
    s.trySet fl caller = ((doSet s.holders_ fl false caller).1,
      { s with holders_ := (doSet s.holders_ fl false caller).2 }) := by
  have hrelease : ∀ holders done, { s with holders_ := holders }.release done = { s with holders_ := holders } :=
    fun holders done => release_eq (s := { s with holders_ := holders }) hwaiters done
  unfold trySet doSet doUnlocks
  simp only [hrelease, Bool.false_eq_true, if_false]
  split_ifs <;> rfl

namespace Inv
variable (h : s.Inv)
include h

theorem setThread (i : ι) (ht : Idle s.holders_ t) : (s.setThread i (some t)).Inv := { h with
  threads j u hu := by
    by_cases hj : j = i
    · subst hj
      obtain rfl : t = u := by simpa [AdvisoryLockContext.setThread] using hu
      exact ht
    · exact h.threads j u (by simpa [AdvisoryLockContext.setThread, Function.update_of_ne hj] using hu) }

variable {e : FlockReturn ι}

theorem finish (he : e.Kept) : (s.finish e).Inv where
  waiters := h.waiters
  threads j u hu := by
    by_cases hj : j = e.thread
    · subst hj
      simp [AdvisoryLockContext.finish, AdvisoryLockContext.setThread] at hu
    · exact h.threads j u (by
        simpa [AdvisoryLockContext.finish, AdvisoryLockContext.setThread, Function.update_of_ne hj] using hu)
  returns e' he' := by
    rcases mem_append.1 he' with he' | he'
    · exact h.returns e' he'
    · rw [mem_singleton.1 he']
      exact he

omit [DecidableEq ι] in
theorem holders (hharmless : s.Harmless pid) (holders : List AdvisoryLock)
    (hothers : ∀ lck ∈ s.holders_, lck.pid ≠ pid → lck ∈ holders) : { s with holders_ := holders }.Inv := { h with
  threads i t ht := by
    have hidle := h.threads i t ht
    refine { hidle with blocked := fun hparked => ?_ }
    obtain ⟨lck, hmem, hconflict⟩ := any_eq_true.1 (hidle.blocked hparked)
    have hpid := hharmless i t ht hparked lck hmem hconflict
    exact any_eq_true.2 ⟨lck, hothers lck hmem hpid, hconflict⟩ }

theorem enter_blocked (i : ι) (signal : Bool) (hset : t.set = false)
    (hchanged : t.changed = false) (hblocked : anyConflicts s.holders_ t.request) :
    (s.pass i t false signal).Inv := by
  unfold pass
  rw [hblocked]
  cases signal with
  | true => exact h.setThread i (.through rfl hset hchanged)
  | false => exact h.setThread i ⟨fun _ => hblocked, fun _ => rfl, hset, hchanged⟩

theorem fail (hanswer : e.answer = Error.EINVAL.toLong) (hset : e.set = false) (hchanged : e.changed = false)
    (hgetlk : e.op = .getlk → e.inode = false ∨ ¬(fromFlock e.fl e.caller).Valid) : (s.finish e).Inv := by
  refine h.finish ⟨fun _ => ?_, fun hop hinode hvalid => ?_, fun _ => hchanged⟩
  · rw [hset, hanswer]
    decide
  rcases hgetlk hop with hnone | hinvalid
  · rw [hinode] at hnone
    cases hnone
  · exact absurd hvalid hinvalid

variable {i : ι}

theorem resume (ht : t ∈ s.threads i) (signal : Bool) : (s.resume i t signal).Inv := by
  have hidle := h.threads i t ht
  unfold AdvisoryLockContext.resume
  cases hplace : t.place with
  | entering | parked => exact h
  | woken =>
    have hwait : waitInterruptible () true (!anyConflicts s.holders_ t.request) signal t.waker =
        (.through false, ⟨none⟩) := by
      simp [waitInterruptible, Wakeable.disarm, hidle.armed (.inr hplace)]
    dsimp only [pass]
    rw [hwait]
    exact h.setThread i (.through rfl hidle.set hidle.changed)
  | through normally => exact h.fail rfl hidle.set hidle.changed (by simp)

variable {inode : Bool}

theorem setlk (hharmless : s.Harmless caller.pid)
    (signal : Bool) : (s.doFlocks i .setlk inode fl caller signal).Inv := by
  cases inode with
  | false => exact h.fail rfl rfl rfl nofun
  | true =>
    dsimp only [doFlocks]
    rw [trySet_eq h.waiters]
    have h' := h.holders hharmless (doSet s.holders_ fl false caller).2 fun lck hmem hpid => mem_doSet_of_ne hmem hpid
    refine h'.finish ⟨nofun, nofun, fun hanswer => ?_⟩
    cases hset : (doSet s.holders_ fl false caller).1 with
    | ok _ =>
      rw [hset] at hanswer
      exact absurd rfl hanswer
    | error err => exact decide_eq_false (not_not.2 (doSet_error _ hset))

theorem setlkw (hobstructed : inode = false ∨ ¬(fromFlock fl caller).Valid ∨
      fl.l_type ≠ .unlock ∧ anyConflicts s.holders_ (fromFlock fl caller))
    (signal : Bool) : (s.doFlocks i .setlkw inode fl caller signal).Inv := by
  cases inode with
  | false => exact h.fail rfl rfl rfl nofun
  | true =>
    change (s.enter i fl caller signal).Inv
    unfold enter
    by_cases hvalid : (fromFlock fl caller).Valid
    · rcases hobstructed with hnone | hinvalid | ⟨hlock, hblocked⟩
      · cases hnone
      · exact absurd hvalid hinvalid
      · rw [if_neg (not_not.2 hvalid), if_neg (show (fromFlock fl caller).type ≠ .unlock from hlock)]
        exact h.enter_blocked i signal rfl rfl hblocked
    · rw [if_pos hvalid]
      exact h.setThread i (.through rfl rfl rfl)

theorem call {op : FlockOp} {signal : Bool} (hobstructed : s.Obstructed (.call i op inode fl caller signal)) :
    (s.doFlocks i op inode fl caller signal).Inv := by
  cases op with
  | setlk => exact h.setlk hobstructed signal
  | setlkw => exact h.setlkw hobstructed signal
  | getlk =>
    cases inode with
    | false | true => exact h.fail rfl rfl rfl fun _ => hobstructed
  | other =>
    cases inode with
    | false | true => exact h.fail rfl rfl rfl nofun

theorem signal (i : ι) (ht : t ∈ s.threads i) (hparked : t.place = .parked) :
    (s.setThread i (some { t with place := .woken })).Inv :=
  have hidle := h.threads i t ht
  h.setThread i ⟨nofun, fun _ => hidle.armed (.inl hparked), hidle.set, hidle.changed⟩

theorem drop (hharmless : s.Harmless pid) : (s.dropLocksForPid pid).Inv := by
  have h' := h.holders hharmless (AdvisoryLock.dropLocksForPid s.holders_ pid)
    fun lck hmem hpid => mem_filter.2 ⟨hmem, decide_eq_true hpid⟩
  unfold AdvisoryLockContext.dropLocksForPid
  rw [release_eq h'.waiters]
  exact h'

theorem step (tick : LockTick ι) (hobstructed : s.Obstructed tick) : (s.step tick).Inv := by
  cases tick with
  | call i op inode fl caller signal =>
    cases hthread : s.threads i with
    | none => simpa [AdvisoryLockContext.step, hthread] using h.call hobstructed
    | some t => simpa [AdvisoryLockContext.step, hthread] using h
  | turn i signal =>
    cases hthread : s.threads i with
    | none => simpa [AdvisoryLockContext.step, hthread] using h
    | some t => simpa [AdvisoryLockContext.step, hthread] using h.resume hthread signal
  | signal i =>
    cases hthread : s.threads i with
    | none => simpa [AdvisoryLockContext.step, hthread] using h
    | some t =>
      simp only [AdvisoryLockContext.step, hthread]
      split_ifs with hparked
      · exact h.signal i hthread hparked
      · exact h
  | drop pid => exact h.drop hobstructed

end Inv

/-- In every run whose steps are obstructed, no thread waits without a conflict, and `fcntl` keeps its
promises. -/
theorem served_of_obstructed (ticks : List (LockTick ι)) (hobstructed : Run.Admitted step Obstructed start ticks) :
    Served (Run.exec step (start : AdvisoryLockContext ι) ticks) := by
  have hstart : (start : AdvisoryLockContext ι).Inv := ⟨rfl, by simp [start], by simp [start]⟩
  have hstep : ∀ (s : AdvisoryLockContext ι) tick, s.Inv → s.Obstructed tick → (s.step tick).Inv :=
    fun _ tick h hobs => h.step tick hobs
  exact (Run.invariant_exec hstep hstart hobstructed).served

def tenBytes : Flock := ⟨.write, .set, 0, 10, 0⟩

def process (pid : ℤ) : LockCaller := ⟨pid, 0, 100⟩

local instance neZero_three : NeZero 3 := ⟨by decide⟩

/-- The second process waits for a lock of the first until a signal interrupts it; only then does the first
process unlock. Meanwhile a third process locks other bytes. -/
def obstructedTicks : List (LockTick (Fin 3)) :=
  [.call 0 .setlk true tenBytes (process 1) false, .call 1 .setlkw true tenBytes (process 2) false,
    .call 2 .setlk true { tenBytes with l_start := 50 } (process 3) false, .signal 1, .turn 1 false,
    .turn 1 false, .call 0 .setlk true { tenBytes with l_type := .unlock } (process 1) false]

theorem served_of_obstructed_obstructedTicks :
    Served (Run.exec step (start : AdvisoryLockContext (Fin 3)) obstructedTicks) ∧
    (Run.exec step (start : AdvisoryLockContext (Fin 3)) obstructedTicks).returns.map
      (fun e => (e.op, e.answer)) = [(.setlk, 0), (.setlk, 0), (.setlkw, -22), (.setlk, 0)] :=
  ⟨served_of_obstructed obstructedTicks (by decide +kernel), by decide +kernel⟩

/-- The first process unlocks while the second waits for its lock. -/
def unlockTicks : List (LockTick (Fin 3)) :=
  [.call 0 .setlk true tenBytes (process 1) false, .call 1 .setlkw true tenBytes (process 2) false,
    .call 0 .setlk true { tenBytes with l_type := .unlock } (process 1) false]

def freeTicks : List (LockTick (Fin 3)) :=
  [.call 1 .setlkw true tenBytes (process 2) false, .turn 1 false,
    .call 0 .getlk true tenBytes (process 1) false]

/-- Nobody holds a lock and the second thread stays parked; a lock that was set and a query are answered
with an error. -/
theorem lock_never_granted :
    let s := Run.exec step (start : AdvisoryLockContext (Fin 3)) unlockTicks
    let s' := Run.exec step (start : AdvisoryLockContext (Fin 3)) freeTicks
    (s.holders_ = [] ∧ ((s.threads 0).map LockWait.place, (s.threads 1).map LockWait.place,
      (s.threads 2).map LockWait.place) = (none, some .parked, none)) ∧ s'.holders_ = [⟨.write, 0, 9, 2⟩] ∧
      s'.returns.map (fun e => (e.op, e.answer, e.set, e.changed)) =
        [(.setlkw, -22, true, true), (.getlk, -22, false, false)] := by
  decide +kernel

end AdvisoryLockContext
end Junction
