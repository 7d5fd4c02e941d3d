import Junction.Library.ReadWriteLock

/-!
# The reader-writer lock of the runtime

A `SharedMutex` counts its owners and queues the threads that wait for it. A release hands the lock over to waiting
threads: they are counted as owners and moved to a temporary queue under the spin lock, and woken from that queue
after the spin lock is dropped. An interruptible waiter that a signal has made run takes itself out of the queue
that it is linked in, and takes this as the sign that nobody has woken it.

The sections under the spin lock are functions on the lock. The threads that use the lock are a state machine over
them, with one step for each section, each wake-up and each signal. Beside it stands who owns the lock: the threads
to whom a section has given it and that have not released it.
-/

namespace Junction
open Function
variable {τ : Type}

structure SharedMutex (τ : Type) where
  cnt : ℤ := 0
  sharedCnt : ℤ := 0
  exclusiveQueue : List τ := []
  sharedQueue : List τ := []
deriving DecidableEq

/-- What the section of an acquisition comes to: the thread has the lock, it returns without it, or it parks. -/
inductive LockOutcome where
  | taken
  | refused
  | parks
deriving DecidableEq

namespace SharedMutex

def queue (m : SharedMutex τ) : LockMode → List τ
  | .exclusive => m.exclusiveQueue
  | .shared => m.sharedQueue

/-- The queue that is spliced into `dst`, and the lock after it. -/
def wakeAllShared (m : SharedMutex τ) : List τ × SharedMutex τ :=
  (m.sharedQueue, { m with cnt := m.sharedCnt, sharedCnt := 0, sharedQueue := [] })

def wakeOneExclusive (m : SharedMutex τ) : List τ × SharedMutex τ :=
  match m.exclusiveQueue with
  | [] => ([], { m with cnt := -1 })
  | th :: rest => ([th], { m with cnt := -1, exclusiveQueue := rest })

def lock (m : SharedMutex τ) (th : τ) : LockOutcome × SharedMutex τ :=
  if m.cnt ≠ 0 then (.parks, { m with exclusiveQueue := m.exclusiveQueue ++ [th] })
  else (.taken, { m with cnt := -1 })

def tryLock (m : SharedMutex τ) : LockOutcome × SharedMutex τ :=
  if m.cnt ≠ 0 then (.refused, m) else (.taken, { m with cnt := -1 })

/-- `signal` says that `SetInterruptible` finds a signal. -/
def interruptibleLock (m : SharedMutex τ) (th : τ) (signal : Bool) : LockOutcome × SharedMutex τ :=
  if m.cnt ≠ 0 then
    if signal then (.refused, m) else (.parks, { m with exclusiveQueue := m.exclusiveQueue ++ [th] })
  else (.taken, { m with cnt := -1 })

def unlock (m : SharedMutex τ) : List τ × SharedMutex τ :=
  if m.sharedQueue ≠ [] then m.wakeAllShared
  else if m.exclusiveQueue ≠ [] then m.wakeOneExclusive
  else ([], { m with cnt := 0 })

def lockShared (m : SharedMutex τ) (th : τ) : LockOutcome × SharedMutex τ :=
  if m.cnt < 0 then
    (.parks, { m with sharedCnt := m.sharedCnt + 1, sharedQueue := m.sharedQueue ++ [th] })
  else (.taken, { m with cnt := m.cnt + 1 })

def tryLockShared (m : SharedMutex τ) : LockOutcome × SharedMutex τ :=
  if m.cnt < 0 then (.refused, m) else (.taken, { m with cnt := m.cnt + 1 })

def interruptibleLockShared (m : SharedMutex τ) (th : τ) (signal : Bool) : LockOutcome × SharedMutex τ :=
  if m.cnt < 0 then
    let m := { m with sharedCnt := m.sharedCnt + 1 }
    if signal then (.refused, m) else (.parks, { m with sharedQueue := m.sharedQueue ++ [th] })
  else (.taken, { m with cnt := m.cnt + 1 })

def unlockShared (m : SharedMutex τ) : List τ × SharedMutex τ :=
  let m := { m with cnt := m.cnt - 1 }
  if 0 < m.cnt then ([], m)
  else if m.exclusiveQueue ≠ [] then m.wakeOneExclusive
  else ([], m)

def upgradeLock (m : SharedMutex τ) (th : τ) : LockOutcome × SharedMutex τ :=
  let m := { m with cnt := m.cnt - 1 }
  if 0 < m.cnt then (.parks, { m with exclusiveQueue := m.exclusiveQueue ++ [th] })
  else (.taken, { m with cnt := -1 })

def downgradeLock (m : SharedMutex τ) : List τ × SharedMutex τ :=
  let (tmp, m) := m.wakeAllShared
  (tmp, { m with cnt := m.cnt + 1 })

/-- `Disarm` of a thread that is linked in a queue of the lock. -/
def unlink [DecidableEq τ] (m : SharedMutex τ) (th : τ) : SharedMutex τ :=
  { m with exclusiveQueue := m.exclusiveQueue.erase th, sharedQueue := m.sharedQueue.erase th }

end SharedMutex

/-- Where a thread is. `idle held` is outside of the functions of the lock, where `held` is what the calls of the
thread have told it that it holds. A thread that releases wakes the threads of its temporary queue. -/
inductive LockPlace (τ : Type) where
  | idle (held : Option LockMode)
  | parked (mode : LockMode) (interruptible : Bool)
  | interrupted (mode : LockMode)
  | ready (mode : LockMode)
  | wakingAll (tmp : List τ) (downgrade : Bool)
  | wakingOne (tmp : List τ)
deriving DecidableEq

namespace LockPlace

def tmp : LockPlace τ → List τ
  | .wakingAll tmp _ | .wakingOne tmp => tmp
  | _ => []

/-- `Disarm` of a thread that is linked in a temporary queue. -/
def unlink [DecidableEq τ] (p : LockPlace τ) (th : τ) : LockPlace τ :=
  match p with
  | .wakingAll tmp downgrade => .wakingAll (tmp.erase th) downgrade
  | .wakingOne tmp => .wakingOne (tmp.erase th)
  | p => p

/-- `ThreadReady`, which has no effect on a thread that a signal has made run. -/
def woken : LockPlace τ → LockPlace τ
  | .parked mode _ => .ready mode
  | p => p

end LockPlace

/-- The lock and its threads: where each one is, its `link_armed`, whether a signal is pending for it, and who owns
the lock. -/
structure LockSystem (τ : Type) where
  mutex : SharedMutex τ := {}
  place : τ → LockPlace τ := fun _ => .idle none
  linkArmed : τ → Bool := fun _ => false
  pending : τ → Bool := fun _ => false
  owners : LockOwners τ := .shared ∅

namespace LockSystem

inductive Event (τ : Type) where
  | lock (mode : LockMode) (th : τ)
  | tryLock (mode : LockMode) (th : τ)
  | interruptibleLock (mode : LockMode) (th : τ)
  | unlock (mode : LockMode) (th : τ)
  | upgradeLock (th : τ)
  | downgradeLock (th : τ)
  | wake (th : τ)
  | run (th : τ)
  | signal (th : τ)
  | clear (th : τ)
deriving DecidableEq

variable [DecidableEq τ]

def acquired (s : LockSystem τ) (th : τ) (mode : LockMode) (interruptible : Bool) :
    LockOutcome × SharedMutex τ → LockSystem τ
  | (.taken, m) =>
    { s with
      mutex := m
      place := update s.place th (.idle (some mode))
      owners := s.owners.grant mode th }
  | (.refused, m) => { s with mutex := m }
  | (.parks, m) =>
    { s with
      mutex := m
      place := update s.place th (.parked mode interruptible)
      linkArmed := update s.linkArmed th true }

/-- The end of the section of a release: the threads of the temporary queue are owners, in the mode that the count
of the lock says. -/
def released (s : LockSystem τ) (th : τ) (next : List τ → LockPlace τ) (r : List τ × SharedMutex τ) :
    LockSystem τ :=
  { s with
    mutex := r.2
    place := update s.place th (next r.1)
    owners := s.owners.grantAll (if r.2.cnt < 0 then .exclusive else .shared) r.1 }

def left (s : LockSystem τ) (th : τ) : LockSystem τ := { s with owners := s.owners.leave th }

/-- A thread is taken from a temporary queue and made ready; `p` is where the thread that wakes it goes on. -/
def wakes (s : LockSystem τ) (w : τ) (p : LockPlace τ) (th : τ) : LockSystem τ :=
  { s with
    place := update (update s.place w p) th (s.place th).woken
    linkArmed := update s.linkArmed th false }

def moves (s : LockSystem τ) (th : τ) (p : LockPlace τ) : LockSystem τ :=
  { s with place := update s.place th p }

/-- `Disarm` of an armed thread, which returns without the lock. -/
def disarmed (s : LockSystem τ) (th : τ) : LockSystem τ :=
  { s with
    mutex := s.mutex.unlink th
    place := update (fun u => (s.place u).unlink th) th (.idle none)
    linkArmed := update s.linkArmed th false }

def step (s : LockSystem τ) : Event τ → LockSystem τ
  | .lock mode th =>
    if s.place th = .idle none then
      s.acquired th mode false (match mode with
        | .exclusive => s.mutex.lock th
        | .shared => s.mutex.lockShared th)
    else s
  | .tryLock mode th =>
    if s.place th = .idle none then
      s.acquired th mode false (match mode with
        | .exclusive => s.mutex.tryLock
        | .shared => s.mutex.tryLockShared)
    else s
  | .interruptibleLock mode th =>
    if s.place th = .idle none then
      s.acquired th mode true (match mode with
        | .exclusive => s.mutex.interruptibleLock th (s.pending th)
        | .shared => s.mutex.interruptibleLockShared th (s.pending th))
    else s
  | .unlock mode th =>
    if s.place th = .idle (some mode) then
      match mode with
      | .exclusive => (s.left th).released th (.wakingAll · false) s.mutex.unlock
      | .shared => (s.left th).released th .wakingOne s.mutex.unlockShared
    else s
  | .upgradeLock th =>
    if s.place th = .idle (some .shared) then
      (s.left th).acquired th .exclusive false (s.mutex.upgradeLock th)
    else s
  | .downgradeLock th =>
    if s.place th = .idle (some .exclusive) then
      ({ s.left th with owners := (s.owners.leave th).grant .shared th }).released th (.wakingAll · true)
        s.mutex.downgradeLock
    else s
  | .wake w =>
    match s.place w with
    | .wakingAll [] downgrade => s.moves w (.idle (if downgrade then some .shared else none))
    | .wakingAll (th :: tmp) downgrade => s.wakes w (.wakingAll tmp downgrade) th
    | .wakingOne [] => s.moves w (.idle none)
    | .wakingOne (th :: _) => s.wakes w (.idle none) th
    | _ => s
  | .run th =>
    match s.place th with
    | .ready mode => s.moves th (.idle (some mode))
    | .interrupted mode => if s.linkArmed th then s.disarmed th else s.moves th (.idle (some mode))
    | _ => s
  | .signal th =>
    let s := { s with pending := update s.pending th true }
    match s.place th with
    | .parked mode true => s.moves th (.interrupted mode)
    | _ => s
  | .clear th =>
    match s.place th with
    | .idle _ => { s with pending := update s.pending th false }
    | _ => s

/-- The lock is free, no thread uses it, and some threads have signals pending. -/
def start (pending : τ → Bool) : LockSystem τ := { pending := pending }

/-- The threads that have been given the lock and are still to be woken. -/
def Handed (s : LockSystem τ) (th : τ) : Prop := ∃ w, th ∈ (s.place w).tmp

end LockSystem
end Junction
