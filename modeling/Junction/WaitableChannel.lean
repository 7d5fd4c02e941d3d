import Junction.Base
import Junction.Sync
import Junction.Library.Interleaving

/-!
# Channels that threads wait for

A channel with two ends, each of which can be closed. A thread tries the operation of the channel without
the lock; if it fails, the thread takes the lock and waits, and if it succeeds, the thread takes the lock to
wake the other end. A turn under the lock is one step, and so is one access to the channel. With several
writers, a write keeps the lock from its beginning to its end, except while its thread is parked.
-/

namespace Junction
open Interleaving

def kPollIn : BitVec 32 := 1
def kPollOut : BitVec 32 := 4
def kPollErr : BitVec 32 := 8
def kPollHUp : BitVec 32 := 16

/-- The template parameters of a `WaitableChannel`: the operations of its channel, what a read answers at
the end of the data, which writes return zero without an attempt, and whether there can be several writers. -/
structure ChannelType (σ α : Type) (resp : α → Type) (κr ρ κw : Type) where
  exec : (a : α) → σ → resp a × σ
  read : κr → Prog α resp (Status ρ)
  write : κw → Prog α resp (Status ℕ)
  isEmpty : σ → Bool
  isFull : σ → Bool
  eof : ρ
  skips : κw → Bool
  multiWriter : Bool

namespace ChannelType
variable {σ α : Type} {resp : α → Type} {κr ρ κw : Type} (C : ChannelType σ α resp κr ρ κw)

def atomic :
    ChannelType σ (κr ⊕ κw) (Sum.elim (fun _ => Status ρ) fun _ => Status ℕ) κr ρ κw where
  exec
    | .inl call, s => (C.read call).run C.exec s
    | .inr call, s => (C.write call).run C.exec s
  read call := .act (Sum.inl call) .done
  write call := .act (Sum.inr call) .done
  isEmpty := C.isEmpty
  isFull := C.isFull
  eof := C.eof
  skips := C.skips
  multiWriter := C.multiWriter

/-- `Attach` of `write_poll_`. -/
def attach (ps : List ℕ) (p : ℕ) : List ℕ := if C.multiWriter then ps ++ [p] else [p]

/-- `Detach` of `write_poll_`, if a source is given. -/
def detach (ps : List ℕ) : Option ℕ → List ℕ
  | some p => if C.multiWriter then ps.filter (· ≠ p) else []
  | none => ps

def hold {κ : Type} (j : κ) : Option κ := if C.multiWriter then some j else none

end ChannelType

/-- Where a thread is in `DoRead` or `DoWrite`: about to try the operation of the channel, inside of it,
about to test the flag of the other end and then the channel if it must not block, about to take the lock to
wait, parked, woken, or done with the operation and about to take the lock to wake the others. -/
inductive TransferPlace (α : Type) (resp : α → Type) (ρ : Type)
  | attempt
  | inside (p : Prog α resp (Status ρ))
  | closedTest
  | emptyTest
  | waiting
  | parked
  | woken
  | waking (answer : ρ)

structure Transfer (α : Type) (resp : α → Type) (κ ρ : Type) where
  call : κ
  nonblocking : Bool
  place : TransferPlace α resp ρ

namespace Transfer
variable {α : Type} {resp : α → Type} {κ ρ : Type}

variable (t : Transfer α resp κ ρ)

def parked : Bool :=
  match t.place with
  | .parked => true
  | _ => false

def waking : Bool :=
  match t.place with
  | .waking _ => true
  | _ => false

def inside : Bool :=
  match t.place with
  | .inside _ => true
  | _ => false

def move (t : Transfer α resp κ ρ) (place : TransferPlace α resp ρ) : Transfer α resp κ ρ :=
  { t with place := place }

/-- `ThreadReady`. -/
def ready (t : Transfer α resp κ ρ) : Transfer α resp κ ρ :=
  match t.place with
  | .parked => t.move .woken
  | _ => t

def rouse {ι : Type} [DecidableEq ι] (threads : ι → Option (Transfer α resp κ ρ)) (ths : List ι) :
    ι → Option (Transfer α resp κ ρ) :=
  fun i => if i ∈ ths then (threads i).map ready else threads i

end Transfer

/-- A call that has returned, or an operation of the channel that has ended. -/
structure TransferEntry (ι κ ρ : Type) where
  thread : ι
  call : κ
  answer : Status ρ
  deriving DecidableEq

/-- The poll sources have numbers, and `events` holds their event masks. `readOps` and `writeOps` list the
operations of the channel that have ended; no step depends on them. -/
structure WaitableChannel (σ α : Type) (resp : α → Type) (κr ρ κw ι κ ω : Type) where
  chan_ : σ
  lock_ : Option κ
  reader_closed_ : Bool
  writer_closed_ : Bool
  read_waker_ : ThreadWaker ι
  write_waker_ : ω
  read_poll_ : Option ℕ
  write_poll_ : List ℕ
  events : ℕ → BitVec 32
  readers : ι → Option (Transfer α resp κr ρ)
  writers : κ → Option (Transfer α resp κw ℕ)
  reads : List (TransferEntry ι κr ρ)
  writes : List (TransferEntry κ κw ℕ)
  readOps : List (TransferEntry ι κr ρ)
  writeOps : List (TransferEntry κ κw ℕ)

namespace WaitableChannel
variable {σ α : Type} {resp : α → Type} {κr ρ κw ι κ ω : Type}

section Threads
variable [DecidableEq ι] [DecidableEq κ] (s : WaitableChannel σ α resp κr ρ κw ι κ ω)

def setReader (i : ι) (t : Option (Transfer α resp κr ρ)) : WaitableChannel σ α resp κr ρ κw ι κ ω :=
  { s with readers := Function.update s.readers i t }

def setWriter (j : κ) (t : Option (Transfer α resp κw ℕ)) : WaitableChannel σ α resp κr ρ κw ι κ ω :=
  { s with writers := Function.update s.writers j t }

/-- A thread returns from `DoRead`. -/
def finishRead (i : ι) (call : κr) (answer : Status ρ) : WaitableChannel σ α resp κr ρ κw ι κ ω :=
  { s.setReader i none with reads := s.reads ++ [⟨i, call, answer⟩] }

/-- A thread returns from `DoWrite`. -/
def finishWrite (j : κ) (call : κw) (answer : Status ℕ) : WaitableChannel σ α resp κr ρ κw ι κ ω :=
  { s.setWriter j none with lock_ := none, writes := s.writes ++ [⟨j, call, answer⟩] }

def noteRead (i : ι) (call : κr) (answer : Status ρ) : WaitableChannel σ α resp κr ρ κw ι κ ω :=
  { s with readOps := s.readOps ++ [⟨i, call, answer⟩] }

def noteWrite (j : κ) (call : κw) (answer : Status ℕ) : WaitableChannel σ α resp κr ρ κw ι κ ω :=
  { s with writeOps := s.writeOps ++ [⟨j, call, answer⟩] }

/-- `PollSource::Set` on some sources. -/
def setEvents (ps : List ℕ) (mask : BitVec 32) : WaitableChannel σ α resp κr ρ κw ι κ ω :=
  { s with events := fun p => if p ∈ ps then s.events p ||| mask else s.events p }

/-- `PollSource::Clear` on some sources, under a condition. -/
def clearEventsIf (c : Bool) (ps : List ℕ) (mask : BitVec 32) : WaitableChannel σ α resp κr ρ κw ι κ ω :=
  { s with events := fun p => if c && p ∈ ps then s.events p &&& ~~~mask else s.events p }

def wakeReader : WaitableChannel σ α resp κr ρ κw ι κ ω :=
  let r := Wakeable.wakeAll s.read_waker_
  { s with read_waker_ := r.2, readers := Transfer.rouse s.readers r.1 }

def wakeWriters [Wakeable ω κ] : WaitableChannel σ α resp κr ρ κw ι κ ω :=
  let r := Wakeable.wakeAll s.write_waker_
  { s with write_waker_ := r.2, writers := Transfer.rouse s.writers r.1 }

end Threads

section Calls
variable [DecidableEq ι] [DecidableEq κ] [Wakeable ω κ] (C : ChannelType σ α resp κr ρ κw)
  (s : WaitableChannel σ α resp κr ρ κw ι κ ω)

/-- What a reader finds out when the operation of the channel has come this far. -/
def readReached (i : ι) (t : Transfer α resp κr ρ) :
    Prog α resp (Status ρ) → WaitableChannel σ α resp κr ρ κw ι κ ω
  | .done (.ok a) => (s.noteRead i t.call (.ok a)).setReader i (some (t.move (.waking a)))
  | .done (.error e) =>
    (s.noteRead i t.call (.error e)).setReader i
      (some (t.move (if t.nonblocking then .closedTest else .waiting)))
  | .act a k => s.setReader i (some (t.move (.inside (.act a k))))

def readAccess (i : ι) (t : Transfer α resp κr ρ) (p : Prog α resp (Status ρ)) :
    WaitableChannel σ α resp κr ρ κw ι κ ω :=
  let r := p.step C.exec s.chan_
  { s with chan_ := r.2 }.readReached i t r.1

/-- The turn of `WaitInterruptible` in `DoRead` and what follows it. -/
def readWait (i : ι) (t : Transfer α resp κr ρ) (resumed signal : Bool) :
    WaitableChannel σ α resp κr ρ κw ι κ ω :=
  match waitInterruptible i resumed (!C.isEmpty s.chan_ || s.writer_closed_ || s.reader_closed_) signal
      s.read_waker_ with
  | (.park, w) => { s with read_waker_ := w }.setReader i (some (t.move .parked))
  | (.through normally, w) =>
    let s' := { s with read_waker_ := w }
    if (s.reader_closed_ || s.writer_closed_) && C.isEmpty s.chan_ then s'.finishRead i t.call (.ok C.eof)
    else if !normally then s'.finishRead i t.call (.error .EINTR)
    else s'.setReader i (some (t.move .attempt))

/-- The end of `DoRead` after a successful operation. -/
def readWake (i : ι) (t : Transfer α resp κr ρ) (a : ρ) : WaitableChannel σ α resp κr ρ κw ι κ ω :=
  let s' := s.clearEventsIf (C.isEmpty s.chan_) s.read_poll_.toList kPollIn
  if s.writer_closed_ then s'.finishRead i t.call (.ok a)
  else if !C.isFull s.chan_ && !s.write_poll_.isEmpty then
    (s'.setEvents s.write_poll_ kPollOut).wakeWriters.finishRead i t.call (.ok a)
  else s'.finishRead i t.call (.ok a)

/-- The next turn of a thread in `DoRead`. -/
def readOn (i : ι) (t : Transfer α resp κr ρ) (signal : Bool) : WaitableChannel σ α resp κr ρ κw ι κ ω :=
  match t.place with
  | .attempt => s.readAccess C i t (C.read t.call)
  | .inside p => s.readAccess C i t p
  | .closedTest =>
    if s.writer_closed_ then s.setReader i (some (t.move .emptyTest))
    else s.finishRead i t.call (.error .EAGAIN)
  | .emptyTest => s.finishRead i t.call (if C.isEmpty s.chan_ then .ok C.eof else .error .EAGAIN)
  | .waiting => if s.lock_.isNone then s.readWait C i t false signal else s
  | .parked => s
  | .woken => if s.lock_.isNone then s.readWait C i t true signal else s
  | .waking a => if s.lock_.isNone then s.readWake C i t a else s

/-- What a writer finds out when the operation of the channel has come this far. -/
def writeReached (j : κ) (t : Transfer α resp κw ℕ) :
    Prog α resp (Status ℕ) → WaitableChannel σ α resp κr ρ κw ι κ ω
  | .done (.ok n) => (s.noteWrite j t.call (.ok n)).setWriter j (some (t.move (.waking n)))
  | .done (.error e) =>
    (s.noteWrite j t.call (.error e)).setWriter j
      (some (t.move (if t.nonblocking then .closedTest else .waiting)))
  | .act a k => s.setWriter j (some (t.move (.inside (.act a k))))

def writeAccess (j : κ) (t : Transfer α resp κw ℕ) (p : Prog α resp (Status ℕ)) :
    WaitableChannel σ α resp κr ρ κw ι κ ω :=
  let r := p.step C.exec s.chan_
  { s with chan_ := r.2 }.writeReached j t r.1

/-- The turn of `WaitInterruptible` in `DoWrite` and what follows it. -/
def writeWait (j : κ) (t : Transfer α resp κw ℕ) (resumed signal : Bool) :
    WaitableChannel σ α resp κr ρ κw ι κ ω :=
  match waitInterruptible j resumed (!C.isFull s.chan_ || s.reader_closed_ || s.writer_closed_) signal
      s.write_waker_ with
  | (.park, w) => { s with write_waker_ := w, lock_ := none }.setWriter j (some (t.move .parked))
  | (.through normally, w) =>
    let s' := { s with write_waker_ := w }
    if s.writer_closed_ || s.reader_closed_ then s'.finishWrite j t.call (.error .EPIPE)
    else if !normally then s'.finishWrite j t.call (.error .EINTR)
    else { s' with lock_ := C.hold j }.setWriter j (some (t.move .attempt))

/-- The end of `DoWrite` after a successful operation. -/
def writeWake (j : κ) (t : Transfer α resp κw ℕ) (n : ℕ) : WaitableChannel σ α resp κr ρ κw ι κ ω :=
  let s' := s.clearEventsIf (C.isFull s.chan_) s.write_poll_ kPollOut
  if s.reader_closed_ then s'.finishWrite j t.call (.error .EPIPE)
  else if !C.isEmpty s.chan_ && s.read_poll_.isSome then
    (s'.setEvents s.read_poll_.toList kPollIn).wakeReader.finishWrite j t.call (.ok n)
  else s'.finishWrite j t.call (.ok n)

/-- The next turn of a thread in `DoWrite`. With several writers the thread has the lock, unless it is
parked or was just woken; with a single writer nobody keeps the lock between two turns. -/
def writeOn (j : κ) (t : Transfer α resp κw ℕ) (signal : Bool) : WaitableChannel σ α resp κr ρ κw ι κ ω :=
  match t.place with
  | .attempt => s.writeAccess C j t (C.write t.call)
  | .inside p => s.writeAccess C j t p
  | .closedTest => s.finishWrite j t.call (.error (if s.reader_closed_ then .EPIPE else .EAGAIN))
  | .emptyTest => s
  | .waiting => s.writeWait C j t false signal
  | .parked => s
  | .woken => if s.lock_.isNone then s.writeWait C j t true signal else s
  | .waking n => s.writeWake C j t n

def readTurn (i : ι) (call : κr) (nonblocking signal : Bool) : WaitableChannel σ α resp κr ρ κw ι κ ω :=
  match s.readers i with
  | none => s.readAccess C i ⟨call, nonblocking, .attempt⟩ (C.read call)
  | some t => s.readOn C i t signal

def writeTurn (j : κ) (call : κw) (nonblocking signal : Bool) : WaitableChannel σ α resp κr ρ κw ι κ ω :=
  match s.writers j with
  | none =>
    if C.skips call then { s with writes := s.writes ++ [⟨j, call, .ok 0⟩] }
    else if s.lock_.isNone then
      { s with lock_ := C.hold j }.writeAccess C j ⟨call, nonblocking, .attempt⟩ (C.write call)
    else s
  | some t => s.writeOn C j t signal

def closeWriter (p : Option ℕ) : WaitableChannel σ α resp κr ρ κw ι κ ω :=
  let s₁ := { s with writer_closed_ := true }
  let s₂ := if !s.reader_closed_ && s.read_poll_.isSome then
      (s₁.setEvents s.read_poll_.toList kPollHUp).wakeReader
    else s₁
  { s₂ with write_poll_ := C.detach s₂.write_poll_ p }.wakeWriters

def closeReader (p : Option ℕ) : WaitableChannel σ α resp κr ρ κw ι κ ω :=
  let s₁ := { s with reader_closed_ := true }
  let s₂ := if !s.writer_closed_ && !s.write_poll_.isEmpty then
      (s₁.setEvents s.write_poll_ kPollErr).wakeWriters
    else s₁
  { s₂ with read_poll_ := if p.isSome then none else s₂.read_poll_ }.wakeReader

def attachReadPoll (p : ℕ) : WaitableChannel σ α resp κr ρ κw ι κ ω :=
  let s' := { s with read_poll_ := some p }
  if s.reader_closed_ then s'
  else if s.writer_closed_ then s'.setEvents [p] kPollHUp
  else if !C.isEmpty s.chan_ then s'.setEvents [p] kPollIn
  else s'

def attachWritePoll (p : ℕ) : WaitableChannel σ α resp κr ρ κw ι κ ω :=
  let s' := { s with write_poll_ := C.attach s.write_poll_ p }
  if s.writer_closed_ then s'
  else if s.reader_closed_ then s'.setEvents s'.write_poll_ kPollErr
  else if !C.isFull s.chan_ then s'.setEvents s'.write_poll_ kPollOut
  else s'

end Calls

/-- A thread takes its turn, a signal makes a parked thread run again, or somebody closes an end or attaches
a poll source. A thread that is not in a call makes the given one. -/
inductive ChannelTick (κr κw ι κ : Type)
  | reader (i : ι) (call : κr) (nonblocking signal : Bool)
  | writer (j : κ) (call : κw) (nonblocking signal : Bool)
  | signalReader (i : ι)
  | signalWriter (j : κ)
  | closeReader (p : Option ℕ)
  | closeWriter (p : Option ℕ)
  | attachReadPoll (p : ℕ)
  | attachWritePoll (p : ℕ)

section Step
variable [DecidableEq ι] [DecidableEq κ] [Wakeable ω κ]

def step (C : ChannelType σ α resp κr ρ κw) (s : WaitableChannel σ α resp κr ρ κw ι κ ω) :
    ChannelTick κr κw ι κ → WaitableChannel σ α resp κr ρ κw ι κ ω
  | .reader i call nonblocking signal => s.readTurn C i call nonblocking signal
  | .writer j call nonblocking signal => s.writeTurn C j call nonblocking signal
  | .signalReader i => { s with readers := Transfer.rouse s.readers [i] }
  | .signalWriter j => { s with writers := Transfer.rouse s.writers [j] }
  | .closeReader p => if s.lock_.isNone then s.closeReader p else s
  | .closeWriter p => if s.lock_.isNone then s.closeWriter C p else s
  | .attachReadPoll p => if s.lock_.isNone then s.attachReadPoll C p else s
  | .attachWritePoll p => if s.lock_.isNone then s.attachWritePoll C p else s

def start (chan : σ) (readPoll : Option ℕ) (writePoll : List ℕ) : WaitableChannel σ α resp κr ρ κw ι κ ω :=
  ⟨chan, none, false, false, Wakeable.idle, Wakeable.idle, readPoll, writePoll, fun _ => 0, fun _ => none,
    fun _ => none, [], [], [], []⟩

end Step
end WaitableChannel
end Junction
