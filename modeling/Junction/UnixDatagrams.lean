import Junction.Library.WeakTable
import Junction.MessageChannelPeek

/-!
# Blocked senders of datagrams

A datagram socket receives from a channel with many writers. Reads and closes of the channel wake its writers
only if a poll source is attached to their end, and no socket attaches one: a sender is parked as long as the
channel is full, but also after the receiver has made room or has shut its end down.
-/

set_option linter.unusedSectionVars false

namespace Junction
open Interleaving Function MessageChannel List

open Transfer WaitableChannel

def kMessagePipeSize : ℕ := 4096

def datagramRing : RingSize := RingSize.ofRequest kMessagePipeSize (by decide)

abbrev DatagramChannel := MessageChannel UnixSocketAddr

/-- `WaitableChannel<DatagramChannel, true>`. -/
abbrev datagramType := channelType datagramRing movedAddr true

abbrev DatagramQueue (ι κ : Type) := Stepwise DatagramChannel MessageChannel.ReadCall
  (List UInt8 × Option UnixSocketAddr) (MessageChannel.WriteCall UnixSocketAddr) ι κ (WaitQueue κ)

structure UnixDatagramSocket (ι κ : Type) where
  local_name_ : UnixSocketAddr
  writer_closed_ : Bool
  rx_ : DatagramQueue ι κ

/-- `Read`, `ReadFrom`, `ReadvFrom` and `Readv`. -/
inductive DatagramRead
  | read (len : ℕ)
  | readFrom (len : ℕ) (peek : Bool)
  | readvFrom (iov : List ℕ) (peek : Bool)
  | readv (iov : List ℕ)

def DatagramRead.call : DatagramRead → MessageChannel.ReadCall
  | .read len => .readShort len false
  | .readFrom len peek => .read len true peek
  | .readvFrom iov peek => .readv iov peek true
  | .readv iov => .readv iov false false

/-- `Write` and `WriteTo`, or `Writev` and `WritevTo`. -/
inductive DatagramWrite
  | write (bytes : List UInt8)
  | writev (iov : List (List UInt8))

def DatagramWrite.call (name : UnixSocketAddr) : DatagramWrite → MessageChannel.WriteCall UnixSocketAddr
  | .write bytes => .write bytes (some name)
  | .writev iov => .writev iov (some name)

inductive ShutdownHow
  | rd
  | wr
  | rdwr
  | other

/-- A thread sends from one socket to another one, or receives; a signal makes a parked thread run again; a
socket is shut down, or closed. -/
inductive DatagramTick (ν ι κ : Type)
  | send (k peer : ν) (j : κ) (data : DatagramWrite) (nonblocking signal : Bool)
  | receive (k : ν) (i : ι) (room : DatagramRead) (nonblocking signal : Bool)
  | signalSender (k : ν) (j : κ)
  | signalReceiver (k : ν) (i : ι)
  | shutdown (k : ν) (how : ShutdownHow)
  | close (k : ν)

namespace UnixDatagramSocket
variable {ν ι κ : Type} [DecidableEq ν] [DecidableEq ι] [DecidableEq κ]

def onRx (net : ν → UnixDatagramSocket ι κ) (k : ν)
    (tick : ChannelTick MessageChannel.ReadCall (MessageChannel.WriteCall UnixSocketAddr) ι κ) :
    ν → UnixDatagramSocket ι κ :=
  Function.update net k { net k with rx_ := (net k).rx_.step datagramType.atomic tick }

def closeWriter (net : ν → UnixDatagramSocket ι κ) (k : ν) : ν → UnixDatagramSocket ι κ :=
  Function.update net k { net k with writer_closed_ := true }

/-- The poll source of a socket has the number 0. A thread that is not yet in a call finds out whether its
socket can send; which socket its peer is was resolved before. -/
def step (net : ν → UnixDatagramSocket ι κ) : DatagramTick ν ι κ → ν → UnixDatagramSocket ι κ
  | .send k peer j data nonblocking signal =>
    if ((net peer).rx_.writers j).isNone && (net k).writer_closed_ then net
    else onRx net peer (.writer j (data.call (net k).local_name_) nonblocking signal)
  | .receive k i room nonblocking signal => onRx net k (.reader i room.call nonblocking signal)
  | .signalSender k j => onRx net k (.signalWriter j)
  | .signalReceiver k i => onRx net k (.signalReader i)
  | .shutdown k .rd => onRx net k (.closeReader none)
  | .shutdown k .wr => closeWriter net k
  | .shutdown k .rdwr => closeWriter (onRx net k (.closeReader none)) k
  | .shutdown _ .other => net
  | .close k => onRx net k (.closeReader (some 0))

/-- Sockets that nobody uses yet. The channel of a socket can come with datagrams in it. -/
def start (names : ν → UnixSocketAddr) (chans : ν → DatagramChannel) : ν → UnixDatagramSocket ι κ :=
  fun k => ⟨names k, false, WaitableChannel.start (chans k) (some 0) []⟩

def NobodyParked (rx : DatagramQueue ι κ) : Prop := ∀ j, ∀ u ∈ rx.writers j, u.parked = false

instance [Fintype κ] (rx : DatagramQueue ι κ) : Decidable (NobodyParked rx) :=
  inferInstanceAs (Decidable (∀ j, ∀ u ∈ rx.writers j, u.parked = false))

/-- What happens to a channel takes nothing from parked senders: no datagram is read, and the reader's end is
not closed. -/
def Spares (rx : DatagramQueue ι κ) :
    ChannelTick MessageChannel.ReadCall (MessageChannel.WriteCall UnixSocketAddr) ι κ → Prop
  | .reader i call _ _ => ∀ op ∈ rx.nextRead i call, op.takes = true → NobodyParked rx
  | .closeReader _ => NobodyParked rx
  | _ => True

/-- Senders are parked only while the channel is full and its reader is not closed. -/
def Blocked (rx : DatagramQueue ι κ) : Prop := ∀ j, ∀ u ∈ rx.writers j, u.parked = true →
  datagramType.isFull rx.chan_ = true ∧ rx.reader_closed_ = false

variable {tick : ChannelTick MessageChannel.ReadCall (MessageChannel.WriteCall UnixSocketAddr) ι κ}

namespace Blocked
variable {rx : DatagramQueue ι κ} (h : Blocked rx)
include h

variable {j : κ}

theorem update {u' : Option (Transfer _ _ (MessageChannel.WriteCall UnixSocketAddr) ℕ)}
    (hu' : ∀ u ∈ u', u.parked = false) : ∀ k, ∀ u ∈ update rx.writers j u' k, u.parked →
      datagramType.isFull rx.chan_ ∧ rx.reader_closed_ = false :=
  forall_update (fun k _ => h k) fun u hu hparked => by rw [hu' u hu] at hparked; cases hparked

theorem rouse (ths : List κ) : ∀ k, ∀ u ∈ Transfer.rouse rx.writers ths k, u.parked →
    datagramType.isFull rx.chan_ ∧ rx.reader_closed_ = false :=
  forall_rouse fun k u hu => ⟨fun _ => h k u hu, fun hparked => by rw [parked_ready] at hparked; cases hparked⟩

omit h in
theorem of_nobodyParked {rx' : DatagramQueue ι κ} (hnobody : NobodyParked rx') : Blocked rx' :=
  fun j u hu hparked => by rw [hnobody j u hu] at hparked; cases hparked

variable {i : ι}

theorem readAccess {t : Transfer _ _ MessageChannel.ReadCall _} (hspares : t.call.takes → NobodyParked rx) :
    Blocked (rx.readAccess datagramType.atomic i t (datagramType.atomic.read t.call)) := by
  rw [readAccess_atomic]
  cases htakes : t.call.takes with
  | true => exact of_nobodyParked (hspares htakes)
  | false =>
    intro j u hu hparked
    obtain ⟨hfull, hopen⟩ := h j u hu hparked
    refine ⟨?_, hopen⟩
    change isFull datagramRing (runRead datagramRing movedAddr rx.chan_ t.call).2
    rw [runRead_eq, isFull, (afterRead_of_not_takes htakes).1, (afterRead_of_not_takes htakes).2]
    exact hfull

variable (t : Transfer _ _ MessageChannel.ReadCall _)

theorem readWait (resumed signal : Bool) : Blocked (rx.readWait datagramType.atomic i t resumed signal) := by
  unfold WaitableChannel.readWait
  generalize waitInterruptible i resumed _ signal rx.read_waker_ = w
  obtain ⟨outcome, w⟩ := w
  cases outcome with
  | park => exact h
  | through normally =>
    dsimp only [finishRead, setReader]
    split_ifs <;> exact h

theorem readWake (a : List UInt8 × Option UnixSocketAddr) : Blocked (rx.readWake datagramType.atomic i t a) := by
  dsimp only [WaitableChannel.readWake, finishRead, setReader, wakeWriters, setEvents, clearEventsIf]
  split_ifs
  · exact h
  · exact h.rouse _
  · exact h

variable (u : Transfer _ _ (MessageChannel.WriteCall UnixSocketAddr) ℕ)

theorem writeAccess (lock : Option κ) : Blocked ({ rx with lock_ := lock }.writeAccess datagramType.atomic j u
      (datagramType.atomic.write u.call)) := by
  rw [writeAccess_atomic]
  intro k v hv hparked
  obtain ⟨hfull, hopen⟩ := h.update (forall_mem_some (parked_ended u _)) k v hv hparked
  exact ⟨channelType_orderly.write_full u.call rx.chan_ trivial hfull, hopen⟩

theorem writeWait (resumed signal : Bool) : Blocked (rx.writeWait datagramType.atomic j u resumed signal) := by
  unfold WaitableChannel.writeWait
  cases hr : waitInterruptible j resumed
      (!datagramType.atomic.isFull rx.chan_ || rx.reader_closed_ || rx.writer_closed_) signal
      rx.write_waker_ with
  | mk outcome w =>
  cases outcome with
  | park =>
    obtain ⟨hstop, -⟩ := waitInterruptible_park hr
    rw [Bool.or_eq_false_iff, Bool.or_eq_false_iff, Bool.not_eq_false'] at hstop
    exact forall_update (fun k _ => h k) fun _ _ _ => hstop.1
  | through normally =>
    dsimp only [finishWrite, setWriter]
    split_ifs
    · exact h.update forall_mem_none
    · exact h.update forall_mem_none
    · exact h.update (forall_mem_some rfl)

theorem writeWake (n : ℕ) : Blocked (rx.writeWake datagramType.atomic j u n) := by
  dsimp only [WaitableChannel.writeWake, finishWrite, setWriter, wakeReader, setEvents, clearEventsIf]
  split_ifs <;> exact h.update forall_mem_none

omit h in
theorem closeReader (hnobody : NobodyParked rx) (p : Option ℕ) : Blocked (rx.closeReader p) := by
  dsimp only [WaitableChannel.closeReader, wakeReader, wakeWriters, setEvents]
  by_cases hwake : (!rx.writer_closed_ && !rx.write_poll_.isEmpty)
  · rw [if_pos hwake]
    exact of_nobodyParked (forall_rouse fun k u hu => ⟨fun _ => hnobody k u hu, parked_ready u⟩)
  · rw [if_neg hwake]
    exact of_nobodyParked hnobody

theorem closeWriter (p : Option ℕ) : Blocked (rx.closeWriter datagramType.atomic p) := by
  dsimp only [WaitableChannel.closeWriter, wakeReader, wakeWriters, setEvents]
  split_ifs <;> exact h.rouse _

theorem step (hs : Whole (fun _ => True) rx)
    (hspares : Spares rx tick) : Blocked (rx.step datagramType.atomic tick) := by
  refine step_cases tick h (fun i call nonblocking signal htick => ?_) (fun j call nonblocking signal _ => ?_)
    (fun _ => h) (fun _ => h.rouse _) (fun p htick => ?_) h.closeWriter (fun _ _ => h) fun _ _ => h
  · subst htick
    exact readTurn_cases hs call nonblocking signal h (fun _ t _ hop => h.readAccess (hspares _ hop))
      (fun _ _ _ _ => h) (fun _ _ _ _ _ => h) (fun _ t _ resumed => h.readWait t resumed signal)
      fun t _ a _ => h.readWake t a
  · exact writeTurn_cases hs call nonblocking signal h (fun _ => h) (fun _ u lock => h.writeAccess u lock)
      (fun _ _ _ => h.update forall_mem_none) (fun _ u _ _ resumed => h.writeWait u resumed signal)
      fun u n => h.writeWake u n
  · subst htick
    exact closeReader hspares p

end Blocked

/-- The receiver takes no datagram and does not close its end while senders are parked in its channel. -/
def Considerate (net : ν → UnixDatagramSocket ι κ) : DatagramTick ν ι κ → Prop
  | .receive k i room _ _ =>
    ∀ op ∈ (net k).rx_.nextRead i room.call, op.takes = true → NobodyParked (net k).rx_
  | .shutdown k .rd => NobodyParked (net k).rx_
  | .shutdown k .rdwr => NobodyParked (net k).rx_
  | .close k => NobodyParked (net k).rx_
  | _ => True

instance [Fintype κ] (net : ν → UnixDatagramSocket ι κ) (tick : DatagramTick ν ι κ) :
    Decidable (Considerate net tick) := by
  unfold Considerate
  split <;> infer_instance

/-- Every socket has a channel without interrupted operations and without senders parked for nothing. -/
def Inv (net : ν → UnixDatagramSocket ι κ) : Prop :=
  ∀ k, Whole (fun _ => True) (net k).rx_ ∧ Blocked (net k).rx_

variable {net : ν → UnixDatagramSocket ι κ} {k : ν}

theorem Inv.update (h : Inv net) {sock : UnixDatagramSocket ι κ}
    (hsock : Whole (fun _ => True) sock.rx_ ∧ Blocked sock.rx_) : Inv (update net k sock) := by
  intro k'
  by_cases hk : k' = k
  · subst hk
    rwa [update_self]
  · rw [update_of_ne hk]
    exact h k'

theorem Inv.onRx (h : Inv net) (hspares : Spares (net k).rx_ tick) : Inv (onRx net k tick) :=
  h.update ⟨(h k).1.step channelType_orderly tick, (h k).2.step (h k).1 hspares⟩

theorem Inv.step (h : Inv net) {tick : DatagramTick ν ι κ} (htick : Considerate net tick) : Inv (step net tick) := by
  cases tick with
  | send k peer j data nonblocking signal =>
    dsimp only [UnixDatagramSocket.step]
    split_ifs
    · exact h
    · exact h.onRx trivial
  | receive | close => exact h.onRx htick
  | signalSender | signalReceiver => exact h.onRx trivial
  | shutdown k how =>
    cases how with
    | rd => exact h.onRx htick
    | wr => exact h.update (h k)
    | rdwr =>
      have hclosed : Inv (UnixDatagramSocket.onRx net k (.closeReader none)) := h.onRx htick
      exact hclosed.update (hclosed k)
    | other => exact h

theorem Inv.start (names : ν → UnixSocketAddr) (chans : ν → DatagramChannel) :
    Inv (start names chans : ν → UnixDatagramSocket ι κ) :=
  fun _ => ⟨⟨trivial, fun _ => forall_mem_none, fun _ => forall_mem_none⟩, fun _ => forall_mem_none⟩

/-- If receivers take datagrams and close their ends only while no sender is parked in their channel, then a sender is
parked only in a full channel whose reader is not closed. -/
theorem parked_only_if_full (names : ν → UnixSocketAddr) (chans : ν → DatagramChannel)
    (ticks : List (DatagramTick ν ι κ)) (hticks : Run.Admitted step Considerate (start names chans) ticks) :
    let net := Run.exec step (start names chans) ticks
    ∀ k j, ∀ u ∈ (net k).rx_.writers j, u.parked = true →
      isFull datagramRing (net k).rx_.chan_ = true ∧ (net k).rx_.reader_closed_ = false := by
  have hstep : ∀ (net : ν → UnixDatagramSocket ι κ) tick, Inv net → Considerate net tick → Inv (step net tick) :=
    fun _ _ h htick => h.step htick
  exact fun k => (Run.invariant_exec hstep (Inv.start names chans) hticks k).2

/-- A channel with `n` datagrams. -/
def holding (n : ℕ) : DatagramChannel := ⟨BitVec.ofNat 64 n, 0, fun _ => ⟨[1], ⟨.Abstract, "a"⟩⟩⟩

/-- The last slot is filled and the next sender parks; a peek leaves it there, and a signal makes it return.
After that the receiver reads. -/
def considerateTicks : List (DatagramTick Bool Unit Bool) :=
  replicate 2 (.send false true false (.write [2]) false false) ++
  replicate 2 (.send false true true (.write [3]) false false) ++
  replicate 2 (.receive true () (.readFrom 4 true) false false) ++ [.signalSender true true] ++
  [.send false true true (.write [3]) false true] ++ replicate 2 (.receive true () (.read 4) false false)

theorem parked_only_if_full_considerateTicks :
    let net := Run.exec step (start (fun _ => ⟨.Abstract, "b"⟩) fun _ => holding 4095) considerateTicks
    (∀ k j, ∀ u ∈ (net k).rx_.writers j, u.parked = true →
      isFull datagramRing (net k).rx_.chan_ = true ∧ (net k).rx_.reader_closed_ = false) ∧
    (net true).rx_.writes.map TransferEntry.answer = [.ok 1, .error .EINTR] ∧
    (net true).rx_.reads.map (fun e => e.answer) = [.ok ([1], some ⟨.Abstract, "a"⟩), .ok ([1], none)] :=
  ⟨parked_only_if_full (fun _ => ⟨.Abstract, "b"⟩) (fun _ => holding 4095) considerateTicks (by decide +kernel),
    by decide +kernel⟩

def Resting (net : ν → UnixDatagramSocket ι κ) : Prop :=
  ∀ k, (∀ i, ∀ t ∈ (net k).rx_.readers i, t.parked = true) ∧ ∀ j, ∀ u ∈ (net k).rx_.writers j, u.parked = true

instance [Fintype ν] [Fintype ι] [Fintype κ] (net : ν → UnixDatagramSocket ι κ) : Decidable (Resting net) := by
  unfold Resting
  infer_instance

/-- A sender parks in the full channel, and the receiver reads a datagram. -/
def readTicks : List (DatagramTick Bool Unit Unit) :=
  replicate 2 (.send false true () (.write [2]) false false) ++
  replicate 2 (.receive true () (.read 4) false false)

/-- The sender stays parked although the channel has room, and also if the receiver is shut down instead. -/
theorem sender_stays_parked :
    let sockets := start (fun _ => ⟨.Abstract, "b"⟩) fun _ => holding 4096
    let afterRead := Run.exec step sockets readTicks
    let afterShutdown := Run.exec step sockets (readTicks.take 2 ++ [.shutdown true .rd])
    Resting afterRead ∧ (∃ u ∈ (afterRead true).rx_.writers (), u.parked = true) ∧
      isFull datagramRing (afterRead true).rx_.chan_ = false ∧
    Resting afterShutdown ∧ (∃ u ∈ (afterShutdown true).rx_.writers (), u.parked = true) ∧
      (afterShutdown true).rx_.reader_closed_ = true := by
  decide +kernel

end UnixDatagramSocket
end Junction

/-! ### Sockets of one kind with abstract names. What a path refers to is an input -/

namespace Junction.UnixSocketTable

def kLength : ℕ := 40

def kTries : ℕ := 10

/-- The bytes that `ReadRandom` gives in each try, unless it fails. -/
abbrev Random := ℕ → Option (ℕ → UInt8)

def sameRandom (b : UInt8) : Random := fun _ => some fun _ => b

variable (tbl : WeakTable String)

def insert (name : String) (k : ℕ) : Status (WeakTable String) :=
  if (tbl.find name).isSome then .error .EADDRINUSE else .ok (tbl.enter name k)

def randomName (bytes : ℕ → UInt8) : String :=
  String.ofList ((List.range kLength).map fun i => Char.ofNat ('a'.toNat + (bytes i).toNat % 26))

def tryNames (tbl : WeakTable String) (k : ℕ) : List String → Status (UnixSocketAddr × WeakTable String)
  | [] => .error .EAGAIN
  | name :: names =>
    match insert tbl name k with
    | .ok tbl' => .ok (⟨.Abstract, name⟩, tbl')
    | .error _ => tryNames tbl k names

def nameAndInsert (k : ℕ) (random : Random) :
    Status (UnixSocketAddr × WeakTable String) :=
  tryNames tbl k ((List.range kTries).filterMap fun i => (random i).map randomName)

/-- What `Bind` does with the name of a socket: the name, whether there is a directory entry, and the table.
`inserted` is the answer of `InsertTo`. -/
def bindName (tbl : WeakTable String) (k : ℕ) (addr : Status UnixSocketAddr) (inserted : Status Unit) :
    Status (UnixSocketAddr × Bool × WeakTable String) :=
  match addr with
  | .error e => .error e
  | .ok a =>
    if a.type = .Pathname then
      match inserted with
      | .error e => .error e
      | .ok () => .ok (a, true, tbl)
    else
      match insert tbl a.name k with
      | .error e => .error e
      | .ok tbl' => .ok (a, false, tbl')

/-- The name that a destructor deletes from the table, whatever socket is under it. -/
def deleted (dent_ : Bool) (local_name_ : UnixSocketAddr) : Option String :=
  if dent_ || local_name_.name.isEmpty then none else some local_name_.name

def delete (name : Option String) : WeakTable String := name.elim tbl tbl.erase

/-- `GetPeer`. `path` is the socket that a path name refers to. -/
def getPeer (tbl : WeakTable String) (addr : UnixSocketAddr) (path : Option ℕ) : Status ℕ :=
  match if addr.type = .Pathname then path.filter tbl.live else tbl.find addr.name with
  | some peer => .ok peer
  | none => .error .ECONNREFUSED

abbrev Follows (tbl tbl' : WeakTable String) : Prop := Relation.ReflTransGen WeakTable.Step tbl tbl'

section Steps
variable {tbl tbl' : WeakTable String} {k : ℕ} {a : UnixSocketAddr}

theorem tryNames_enter {names : List String} (h : tryNames tbl k names = .ok (a, tbl')) :
    ∃ name, tbl.find name = none ∧ tbl' = tbl.enter name k := by
  induction names with
  | nil => cases h
  | cons name names ih =>
    rw [tryNames, UnixSocketTable.insert] at h
    split_ifs at h with hfound
    · exact ih h
    · cases h
      exact ⟨name, Option.not_isSome_iff_eq_none.1 hfound, rfl⟩

theorem bindName_enter {addr : Status UnixSocketAddr} {inserted : Status Unit} {dent : Bool}
    (h : bindName tbl k addr inserted = .ok (a, dent, tbl')) :
    tbl' = tbl ∨ ∃ name, tbl.find name = none ∧ tbl' = tbl.enter name k := by
  cases addr with
  | error e => cases h
  | ok a₀ =>
    dsimp only [bindName, UnixSocketTable.insert] at h
    split_ifs at h with hpath hfound
    · cases inserted with
      | error e => cases h
      | ok u =>
        cases h
        exact .inl rfl
    · cases h
      exact .inr ⟨a.name, Option.not_isSome_iff_eq_none.1 hfound, rfl⟩

theorem delete_steps {name : Option String} (h : ∀ n ∈ name, tbl.Unclaimed n) : Follows tbl (delete tbl name) := by
  cases name with
  | none => exact .refl
  | some n => exact .single (.erase tbl n (h n rfl))

end Steps
end Junction.UnixSocketTable

/-! ### Names and peers of datagram sockets -/

namespace Junction
open Function UnixSocketTable

/-- What the names of a datagram socket depend on. `remote_` is a weak reference. -/
structure UnixDatagramEndpoint where
  writer_closed_ : Bool
  connected_ : Bool
  local_name_ : UnixSocketAddr
  remote_ : Option ℕ
  dent_ : Bool
  deriving DecidableEq

namespace UnixDatagramEndpoint

def has_name (sock : UnixDatagramEndpoint) : Bool := !sock.local_name_.name.isEmpty

def unnamed : UnixDatagramEndpoint := ⟨false, false, default, none, false⟩

end UnixDatagramEndpoint

structure UnixDatagrams where
  dgram_tbl : WeakTable String
  sockets : ℕ → Option UnixDatagramEndpoint

/-- The calls on datagram sockets; `write` stands for all calls that send. -/
inductive DatagramCall
  | socket
  | socketpair (random₁ random₂ : UnixSocketTable.Random)
  | bind (k : ℕ) (addr : Status UnixSocketAddr) (inserted : Status Unit)
  | connect (k : ℕ) (addr : Status UnixSocketAddr) (path : Option ℕ) (random : UnixSocketTable.Random)
  | write (k : ℕ) (raddr : Option (Status UnixSocketAddr)) (path : Option ℕ)
      (random : UnixSocketTable.Random)
  | shutdown (k : ℕ) (how : ShutdownHow)
  | expire (k : ℕ)
  | destroy (k : ℕ)

namespace UnixDatagrams
variable (s : UnixDatagrams) (k : ℕ) (sock : UnixDatagramEndpoint)

def start : UnixDatagrams := ⟨.empty, fun _ => none⟩

def set : UnixDatagrams := { s with sockets := update s.sockets k (some sock) }

def make : UnixDatagrams :=
  ⟨s.dgram_tbl.make, update s.sockets s.dgram_tbl.next (some .unnamed)⟩

def bind (addr : Status UnixSocketAddr) (inserted : Status Unit) : Status Unit × UnixDatagrams :=
  if sock.has_name then (.error .EINVAL, s)
  else
    match bindName s.dgram_tbl k addr inserted with
    | .error e => (.error e, s)
    | .ok (a, dent, tbl) =>
      (.ok (), { s with dgram_tbl := tbl }.set k { sock with local_name_ := a, dent_ := sock.dent_ || dent })

def setLocalName (random : UnixSocketTable.Random) : Status UnixDatagramEndpoint × UnixDatagrams :=
  match nameAndInsert s.dgram_tbl k random with
  | .error e => (.error e, s)
  | .ok (a, tbl) =>
    (.ok { sock with local_name_ := a }, { s with dgram_tbl := tbl }.set k { sock with local_name_ := a })

def nameLocal (random : UnixSocketTable.Random) : Status UnixDatagramEndpoint × UnixDatagrams :=
  if sock.has_name then (.ok sock, s) else s.setLocalName k sock random

def connect (addr : Status UnixSocketAddr) (path : Option ℕ) (random : UnixSocketTable.Random) :
    Status Unit × UnixDatagrams :=
  if sock.connected_ then (.error .EISCONN, s)
  else
    match addr with
    | .error e => (.error e, s)
    | .ok a =>
      match s.nameLocal k sock random with
      | (.error e, s') => (.error e, s')
      | (.ok sock', s') =>
        match getPeer s'.dgram_tbl a path with
        | .error e => (.error e, s')
        | .ok peer => (.ok (), s'.set k { sock' with remote_ := some peer, connected_ := true })

def resolvePeer (raddr : Option (Status UnixSocketAddr)) (path : Option ℕ)
    (random : UnixSocketTable.Random) : Status ℕ × UnixDatagrams :=
  if sock.connected_ then
    if raddr.isSome then (.error .EISCONN, s)
    else
      match sock.remote_.filter s.dgram_tbl.live with
      | some peer => (.ok peer, s)
      | none => (.error .ECONNREFUSED, s)
  else
    match raddr with
    | none => (.error .ENOTCONN, s)
    | some addr =>
      match s.nameLocal k sock random with
      | (.error e, s') => (.error e, s')
      | (.ok _, s') =>
        match addr with
        | .error e => (.error e, s')
        | .ok a => (getPeer s'.dgram_tbl a path, s')

/-- The answer is the socket whose channel the datagram goes to. -/
def write (raddr : Option (Status UnixSocketAddr)) (path : Option ℕ) (random : UnixSocketTable.Random) :
    Status ℕ × UnixDatagrams :=
  if sock.writer_closed_ then (.error .EPIPE, s) else s.resolvePeer k sock raddr path random

def shutdown (how : ShutdownHow) : Status Unit × UnixDatagrams :=
  match how with
  | .rd => (.ok (), s)
  | .wr => (.ok (), s.set k { sock with writer_closed_ := true })
  | .rdwr => (.ok (), s.set k { sock with writer_closed_ := true })
  | .other => (.error .EINVAL, s)

/-- One of a pair of new sockets gets a name, if that succeeds, and its peer. -/
def join (peer : ℕ) (random : UnixSocketTable.Random) : UnixDatagrams :=
  match s.setLocalName k .unnamed random with
  | (.error _, s') => s'.set k { UnixDatagramEndpoint.unnamed with remote_ := some peer, connected_ := true }
  | (.ok sock', s') => s'.set k { sock' with remote_ := some peer, connected_ := true }

/-- `CreatePipeSocket` for datagram sockets. -/
def socketpair (random₁ random₂ : UnixSocketTable.Random) : UnixDatagrams :=
  let k := s.dgram_tbl.next
  (s.make.make.join k (k + 1) random₁).join (k + 1) k random₂

/-- `~UnixDatagramSocket`. -/
def destroy : UnixDatagrams :=
  ⟨delete s.dgram_tbl (deleted sock.dent_ sock.local_name_),
    update s.sockets k none⟩

def file : Option UnixDatagramEndpoint := if s.dgram_tbl.live k then s.sockets k else none

def doomed : Option UnixDatagramEndpoint := if s.dgram_tbl.live k then none else s.sockets k

def step : DatagramCall → UnixDatagrams
  | .socket => s.make
  | .socketpair random₁ random₂ => s.socketpair random₁ random₂
  | .bind k addr inserted => (s.file k).elim s fun sock => (s.bind k sock addr inserted).2
  | .connect k addr path random => (s.file k).elim s fun sock => (s.connect k sock addr path random).2
  | .write k raddr path random => (s.file k).elim s fun sock => (s.write k sock raddr path random).2
  | .shutdown k how => (s.file k).elim s fun sock => (s.shutdown k sock how).2
  | .expire k => { s with dgram_tbl := s.dgram_tbl.expire k }
  | .destroy k => (s.doomed k).elim s fun sock => s.destroy k sock

end UnixDatagrams

end Junction
