import Junction.Base
import Junction.Library.Run

/-!
# Processes, their exit and their parents

A process has threads, a list of children and one word that says what its parent can wait for. Exits, stops and
continuations write this word and wake the threads of the parent that wait; a wait reads it, and resets it or takes
the child off the list. When the last thread of a process is gone, its children go to the first process.

A step is a section under a lock, or the part of one up to the next lock. A thread that goes on under
`child_thread_lock_` of a process, or under the lock of its signal queue, is recorded there, and sections of other
threads under that lock have to wait. The threads in a wait queue are those whose place says that they are parked.
Beside the state stands the list of what the waits have returned, the last one first.
-/

namespace Junction
open Function

/-- `kNotWaitable`, `kWaitableExited`, `kWaitableStopped`, `kWaitableContinued`. -/
inductive WaitState where
  | notWaitable
  | exited
  | stopped
  | continued
deriving DecidableEq

/-- `P_ALL`, `P_PID`, `P_PGID`, `P_PIDFD`. -/
inductive IdType where
  | all
  | pid
  | pgid
  | pidfd
deriving DecidableEq

/-- The arguments of `DoWait`. -/
structure WaitRequest where
  idtype : IdType
  id : ℤ
  wcontinued : Bool := false
  wstopped : Bool := false
  wnohang : Bool := false
  wnowait : Bool := false
deriving DecidableEq

/-- `wait_state & wait_flags`. -/
def WaitRequest.wants (r : WaitRequest) : WaitState → Bool
  | .notWaitable => false
  | .exited => true
  | .stopped => r.wstopped
  | .continued => r.wcontinued

structure Process where
  pid : ℤ := 0
  pgid : ℤ := 0
  born : Bool := false
  threadMap : List ℕ := []
  exited : Bool := false
  xstate : ℤ := 0
  stoppedGen : ℕ := 0
  stoppedCount : ℕ := 0
  parent : Option ℕ := none
  children : List ℕ := []
  waitState : WaitState := .notWaitable
  waitStatus : ℤ := 0
  /-- The thread that goes on under `child_thread_lock_`. -/
  threadLock : Option ℕ := none
  /-- The thread that goes on under the lock of the signal queue. -/
  queueLock : Option ℕ := none
  /-- The exit status of the thread that left last. -/
  lastStatus : ℤ := 0

namespace Process

def isStopped (p : Process) : Bool := p.stoppedGen % 2 = 1

def exitStatus (p : Process) : ℤ := if p.exited then p.xstate else p.lastStatus

end Process

/-- The callers of `NotifyParentWait`: `DoExit`, `ThreadStopWait`, `ThreadFinish` and `JobControlContinue`. All but
the first hold `child_thread_lock_`. -/
inductive Origin where
  | exit
  | stop
  | finish
  | cont
deriving DecidableEq

/-- A call of `NotifyParentWait` that has read `parent_`. -/
structure Notice where
  child : ℕ
  state : WaitState
  status : ℤ
  origin : Origin
  parent : ℕ
deriving DecidableEq

inductive Waiting where
  | parked
  | woken
  | interrupted
deriving DecidableEq

inductive Place where
  | absent
  | running
  /-- `FinishExit`, before `ThreadFinish`. -/
  | finishing (status : ℤ)
  /-- The last thread, before `ProcessFinish`. -/
  | processFinish
  /-- In `DoExit`, until the other threads are gone. -/
  | exitWait (status : ℤ) (parked : Bool)
  /-- In `DoExit`, before `NotifyParentWait`. -/
  | exitNotify (status : ℤ)
  /-- `parent_` has been read. -/
  | notifying (n : Notice)
  /-- The wait state has been written, under the lock of `n.parent`. -/
  | signalling (n : Notice)
  | stopWait (parked : Bool)
  /-- In `DoWait`: no child was found, and the lock is still held. -/
  | arming (r : WaitRequest)
  | waiting (r : WaitRequest) (w : Waiting)
deriving DecidableEq

namespace Place

/-- The effects of `WakeAll` on `exec_waker_`, `stopped_threads_` and `child_waiters_`. -/
def wakeExit : Place → Place
  | exitWait status _ => exitWait status false
  | pl => pl

def wakeStop : Place → Place
  | stopWait _ => stopWait false
  | pl => pl

def wakeWait : Place → Place
  | waiting r .parked => waiting r .woken
  | pl => pl

end Place

/-- What a wait has returned; `reaped` says that the child is off the list. -/
structure Report where
  child : ℕ
  state : WaitState
  status : ℤ
  reaped : Bool
deriving DecidableEq

structure ProcessTree where
  proc : ℕ → Process
  home : ℕ → ℕ
  place : ℕ → Place
  halted : Bool := false
  reports : List Report := []

namespace ProcessTree

/-- `init_proc`. -/
def init : ℕ := 0

def start : ProcessTree where
  proc := update (fun _ => {}) init { pid := 1, pgid := 1, born := true, threadMap := [0] }
  home _ := init
  place := update (fun _ => .absent) 0 .running

def setPlace (s : ProcessTree) (th : ℕ) (pl : Place) : ProcessTree :=
  { s with place := update s.place th pl }

def setProc (s : ProcessTree) (c : ℕ) (p : Process) : ProcessTree :=
  { s with proc := update s.proc c p }

def wake (s : ProcessTree) (c : ℕ) (f : Place → Place) : ProcessTree :=
  { s with place := fun th => if s.home th = c then f (s.place th) else s.place th }

/-! ### The sections under `child_thread_lock_` -/

/-- The wait of `ThreadStopWait`. -/
def stopSleep (s : ProcessTree) (th c : ℕ) : ProcessTree :=
  let p := s.proc c
  if !p.isStopped || p.exited then
    (s.setProc c { p with stoppedCount := p.stoppedCount - 1 }).setPlace th .running
  else s.setPlace th (.stopWait true)

/-- What follows after `NotifyParentWait`, to the end of the section. -/
def resume (s : ProcessTree) (th c : ℕ) (status : ℤ) : Origin → ProcessTree
  | .exit => s.setPlace th (.finishing status)
  | .stop => ((s.setProc c { s.proc c with threadLock := none }).wake c Place.wakeStop).stopSleep th c
  | .finish =>
    (s.setProc c { s.proc c with threadLock := none }).setPlace th
      (if (s.proc c).threadMap = [] then .processFinish else .absent)
  | .cont => (s.setProc c { s.proc c with threadLock := none }).setPlace th .running

/-- `NotifyParentWait`, as far as the read of `parent_`. -/
def notifyParentWait (s : ProcessTree) (th c : ℕ) (state : WaitState) (status : ℤ) (origin : Origin) : ProcessTree :=
  match (s.proc c).parent with
  | none => s.resume th c status origin
  | some p =>
    let lock := if origin = .exit then (s.proc c).threadLock else some th
    (s.setProc c { s.proc c with threadLock := lock }).setPlace th (.notifying ⟨c, state, status, origin, p⟩)

/-- The wait of `DoExit`. -/
def exitSleep (s : ProcessTree) (th c : ℕ) (status : ℤ) : ProcessTree :=
  s.setPlace th (if (s.proc c).threadMap.length = 1 then .exitNotify status else .exitWait status true)

/-- `DoExit`. That `exec_waker_` is armed without `exited_` would need an `exec`. -/
def doExit (s : ProcessTree) (th : ℕ) (status : ℤ) : ProcessTree :=
  let c := s.home th
  if (s.proc c).exited then s.setPlace th (.finishing status)
  else
    ((s.setProc c { s.proc c with xstate := status, exited := true }).wake c Place.wakeStop).exitSleep th c status

variable (s : ProcessTree)

def threadFinish (th : ℕ) (status : ℤ) : ProcessTree :=
  let c := s.home th
  let p := s.proc c
  let remaining := p.threadMap.erase th
  let s := s.setProc c { p with threadMap := remaining, lastStatus := status }
  let s := if remaining.length = 1 then s.wake c Place.wakeExit else s
  if p.isStopped && p.stoppedCount = remaining.length then s.notifyParentWait th c .stopped 0 .finish
  else s.resume th c status .finish

def threadStopWait (th : ℕ) : ProcessTree :=
  let c := s.home th
  let p := s.proc c
  if p.isStopped then
    let s := s.setProc c { p with stoppedCount := p.stoppedCount + 1 }
    if p.stoppedCount + 1 = p.threadMap.length then s.notifyParentWait th c .stopped 0 .stop else s.stopSleep th c
  else s

def jobControlStop (c : ℕ) : ProcessTree :=
  let p := s.proc c
  if p.isStopped then s else s.setProc c { p with stoppedGen := p.stoppedGen + 1 }

def jobControlContinue (th c : ℕ) : ProcessTree :=
  let p := s.proc c
  if p.isStopped then
    ((s.setProc c { p with stoppedGen := p.stoppedGen + 1 }).wake c Place.wakeStop).notifyParentWait th c .continued 0
      .cont
  else s

/-- The second part of `SignalLocked` for `SIGKILL`. -/
def signalKill (s : ProcessTree) (c : ℕ) : ProcessTree :=
  (s.setProc c { s.proc c with stoppedGen := 0 }).wake c Place.wakeStop

def createThread (c new : ℕ) : ProcessTree :=
  let p := s.proc c
  if p.exited then s
  else
    { s.setProc c { p with threadMap := p.threadMap ++ [new] } with
      home := update s.home new c
      place := update s.place new .running }

/-! ### The sections under the lock of a signal queue -/

/-- `NotifyParentWait` takes the lock that it found and writes. -/
def writeWaitState (s : ProcessTree) (th : ℕ) (n : Notice) : ProcessTree :=
  let s := s.setProc n.parent { s.proc n.parent with queueLock := some th }
  let s := s.setProc n.child { s.proc n.child with waitState := n.state, waitStatus := n.status }
  s.setPlace th (.signalling n)

/-- `NotifyParentWait` reads `parent_` again, wakes the threads there and lets the lock go. A null pointer ends
everything. -/
def signalParent (s : ProcessTree) (th : ℕ) (n : Notice) : ProcessTree :=
  match (s.proc n.child).parent with
  | none => { s with halted := true }
  | some q =>
    let s := s.wake q Place.wakeWait
    (s.setProc n.parent { s.proc n.parent with queueLock := none }).resume th n.child n.status n.origin

def candidate (p : ℕ) (r : WaitRequest) (c : ℕ) : Bool :=
  match r.idtype with
  | .pid => (s.proc c).pid = r.id
  | .pgid => (s.proc c).pgid = if r.id = 0 then (s.proc p).pgid else r.id
  | _ => true

def findWaitableProcess (p : ℕ) (r : WaitRequest) : Status (Option ℕ) :=
  if r.idtype = .pidfd then .error .EINVAL
  else
    let candidates := (s.proc p).children.filter (s.candidate p r)
    match candidates.find? (fun c => r.wants (s.proc c).waitState) with
    | some c => .ok (some c)
    | none => if candidates = [] then .error .ECHILD else .ok none

def reapChild (p c : ℕ) : ProcessTree :=
  if (s.proc c).waitState ≠ .exited then s.setProc c { s.proc c with waitState := .notWaitable }
  else
    let s := s.setProc c { s.proc c with parent := none }
    s.setProc p { s.proc p with children := (s.proc p).children.filter (· ≠ c) }

/-- The end of `DoWait`, when a child was found. -/
def reportChild (s : ProcessTree) (p c : ℕ) (r : WaitRequest) : ProcessTree :=
  let q := s.proc c
  let s := { s with reports := ⟨c, q.waitState, q.waitStatus, !r.wnowait && q.waitState = .exited⟩ :: s.reports }
  if r.wnowait then s else s.reapChild p c

/-- `DoWait` looks for a child; without one it returns if `through`, and else goes on to park. -/
def doWait (s : ProcessTree) (th : ℕ) (r : WaitRequest) (through : Bool) : ProcessTree :=
  let p := s.home th
  match s.findWaitableProcess p r with
  | .error _ => s.setPlace th .running
  | .ok (some c) => (s.reportChild p c r).setPlace th .running
  | .ok none =>
    if through then s.setPlace th .running
    else (s.setProc p { s.proc p with queueLock := some th }).setPlace th (.arming r)

/-- `CreateProcessVfork` and `CreateThreadMain`. -/
def createProcess (s : ProcessTree) (p child new : ℕ) (pid : ℤ) : ProcessTree :=
  let q := s.proc p
  let s := s.setProc p { q with children := q.children ++ [child] }
  let s := s.setProc child { pid, pgid := q.pgid, born := true, parent := some p, threadMap := [new] }
  { s with
    home := update s.home new child
    place := update s.place new .running }

def reparent (c : ℕ) : ProcessTree :=
  let moved := (s.proc c).children
  { s with
    proc := fun p =>
      { s.proc p with
        parent := if p ∈ moved then some init else (s.proc p).parent
        children :=
          if p = c then [] else if p = init then (s.proc p).children ++ moved else (s.proc p).children } }

/-! ### The steps -/

inductive Event where
  | clone (th new : ℕ)
  | vfork (th child new : ℕ) (pid : ℤ)
  | exit (th : ℕ) (status : ℤ)
  | exitGroup (th : ℕ) (status : ℤ)
  | exitResume (th : ℕ)
  | exitNotify (th : ℕ)
  | write (th : ℕ)
  | signal (th : ℕ)
  | finish (th : ℕ)
  | processFinish (th : ℕ)
  | stop (c : ℕ)
  | cont (th c : ℕ)
  | kill (c : ℕ)
  | stopWait (th : ℕ)
  | stopResume (th : ℕ)
  | wait (th : ℕ) (r : WaitRequest) (pending : Bool)
  | park (th : ℕ)
  | interrupt (th : ℕ)
  | waitResume (th : ℕ) (pending : Bool)

def threadsFree (c : ℕ) : Prop := (s.proc c).threadLock = none

def queueFree (p : ℕ) : Prop := (s.proc p).queueLock = none

instance (s : ProcessTree) (c : ℕ) : Decidable (s.threadsFree c) := inferInstanceAs (Decidable (_ = _))

instance (s : ProcessTree) (p : ℕ) : Decidable (s.queueFree p) := inferInstanceAs (Decidable (_ = _))

/-- A step that finds its thread elsewhere, or a lock taken, does nothing. -/
def act (s : ProcessTree) : Event → ProcessTree
  | .clone th new =>
    if s.place th = .running ∧ s.place new = .absent ∧ s.threadsFree (s.home th) then s.createThread (s.home th) new
    else s
  | .vfork th child new pid =>
    if s.place th = .running ∧ s.place new = .absent ∧ (s.proc child).born = false ∧ s.queueFree (s.home th) then
      s.createProcess (s.home th) child new pid
    else s
  | .exit th status => if s.place th = .running then s.setPlace th (.finishing status) else s
  | .exitGroup th status => if s.place th = .running ∧ s.threadsFree (s.home th) then s.doExit th status else s
  | .exitResume th =>
    match s.place th with
    | .exitWait status false => if s.threadsFree (s.home th) then s.exitSleep th (s.home th) status else s
    | _ => s
  | .exitNotify th =>
    match s.place th with
    | .exitNotify status => s.notifyParentWait th (s.home th) .exited status .exit
    | _ => s
  | .write th =>
    match s.place th with
    | .notifying n => if s.queueFree n.parent then s.writeWaitState th n else s
    | _ => s
  | .signal th =>
    match s.place th with
    | .signalling n => s.signalParent th n
    | _ => s
  | .finish th =>
    match s.place th with
    | .finishing status => if s.threadsFree (s.home th) then s.threadFinish th status else s
    | _ => s
  | .processFinish th =>
    if s.place th = .processFinish then
      if s.home th = init then { s with halted := true }
      else if (s.proc (s.home th)).children = [] then s.setPlace th .absent
      else if s.queueFree init then (s.reparent (s.home th)).setPlace th .absent
      else s
    else s
  | .stop c => if (s.proc c).born ∧ s.threadsFree c then s.jobControlStop c else s
  | .cont th c => if s.place th = .running ∧ s.threadsFree c then s.jobControlContinue th c else s
  | .kill c => if s.threadsFree c then s.signalKill c else s
  | .stopWait th => if s.place th = .running ∧ s.threadsFree (s.home th) then s.threadStopWait th else s
  | .stopResume th =>
    if s.place th = .stopWait false ∧ s.threadsFree (s.home th) then s.stopSleep th (s.home th) else s
  | .wait th r pending =>
    if s.place th = .running ∧ s.queueFree (s.home th) then s.doWait th r (r.wnohang || pending) else s
  | .park th =>
    match s.place th with
    | .arming r =>
      (s.setProc (s.home th) { s.proc (s.home th) with queueLock := none }).setPlace th (.waiting r .parked)
    | _ => s
  | .interrupt th =>
    match s.place th with
    | .waiting r .parked => s.setPlace th (.waiting r .interrupted)
    | _ => s
  | .waitResume th pending =>
    match s.place th with
    | .waiting r .woken => if s.queueFree (s.home th) then s.doWait th r pending else s
    | .waiting r .interrupted => if s.queueFree (s.home th) then s.doWait th r true else s
    | _ => s

def step (e : Event) : ProcessTree := if s.halted then s else s.act e

end ProcessTree
end Junction
