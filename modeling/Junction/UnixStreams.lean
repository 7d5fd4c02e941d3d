import Junction.StreamPipe
import Junction.UnixDatagrams

/-!
# UNIX stream sockets

Sockets and pipes have numbers. A table gives abstract names to sockets, without keeping them alive. A
connection is a pair of pipes; the listener's end of it waits in a queue until it is accepted. When the last
file of a socket is closed, its weak references expire at once, and its destructor runs some time later.
The lists `connects` and `accepts` say which connections were made and accepted, and no step depends on them.
-/

namespace Junction
open Function UnixSocketTable

def kStreamPipeSize : ℕ := 4096

def streamRing : RingSize := RingSize.ofRequest kStreamPipeSize (by decide)

inductive SocketState
  | kSockUnbound
  | kSockBound
  | kSockListening
  | kSockConnected
  deriving DecidableEq

structure UnixStreamConnection where
  peer_name : UnixSocketAddr
  rx : ℕ
  tx : ℕ
  deriving DecidableEq

structure UnixStreamListener where
  backlog : BitVec 32
  shutdown : Bool
  accept_q : List UnixStreamConnection
  deriving DecidableEq

/-- The connection in `v_` has no pipes at first. `dent_` says that there is a directory entry. -/
structure UnixStreamSocket where
  state_ : SocketState
  local_name_ : UnixSocketAddr
  v_ : Option UnixStreamConnection ⊕ UnixStreamListener
  dent_ : Bool
  deriving DecidableEq

namespace UnixStreamSocket

variable (sock : UnixStreamSocket)

def has_name : Bool := !sock.local_name_.name.isEmpty

def connection : Option UnixStreamConnection := sock.v_.elim id fun _ => none

def accept_q : List UnixStreamConnection :=
  sock.v_.elim (fun _ => []) UnixStreamListener.accept_q

def unbound : UnixStreamSocket := ⟨.kSockUnbound, default, .inl none, false⟩

end UnixStreamSocket

/-- `MakeStreamPair`, with the numbers of the two new pipes. -/
def makeStreamPair (pipe : ℕ) (laddr raddr : UnixSocketAddr) : UnixStreamConnection × UnixStreamConnection :=
  (⟨raddr, pipe, pipe + 1⟩, ⟨laddr, pipe + 1, pipe⟩)

abbrev StreamPipes := ℕ → StreamPipe.Pipe

namespace StreamPipes

def newPipe : StreamPipe.Pipe := WaitableChannel.start ⟨0, 0, fun _ => 0⟩ none []

variable (pipes : StreamPipes)

def closeReader (i : ℕ) (p : Option ℕ) : StreamPipes :=
  update pipes i ((pipes i).closeReader p)

def closeWriter (i : ℕ) (p : Option ℕ) : StreamPipes :=
  update pipes i ((pipes i).closeWriter (ByteChannel.pipeType streamRing).atomic p)

def closeBoth (conn : UnixStreamConnection) (p : Option ℕ) : StreamPipes :=
  (pipes.closeReader conn.rx p).closeWriter conn.tx p

def attach (conn : UnixStreamConnection) (p : ℕ) : StreamPipes :=
  let pipes₁ := update pipes conn.rx
    ((pipes conn.rx).attachReadPoll (ByteChannel.pipeType streamRing).atomic p)
  update pipes₁ conn.tx
    ((pipes₁ conn.tx).attachWritePoll (ByteChannel.pipeType streamRing).atomic p)

end StreamPipes

structure Established where
  listener : ℕ
  client : ℕ
  remote : UnixStreamConnection
  deriving DecidableEq

structure UnixStreams where
  stream_tbl : WeakTable String
  sockets : ℕ → Option UnixStreamSocket
  pipes : StreamPipes
  nextPipe : ℕ
  connects : List Established
  accepts : List (ℕ × UnixStreamConnection)

/-- The calls on sockets; `expire` lets the last file of a socket go, and `destroy` is its destructor. -/
inductive StreamCall
  | socket
  | socketpair
  | bind (k : ℕ) (addr : Status UnixSocketAddr) (inserted : Status Unit)
  | listen (k : ℕ) (backlog : BitVec 32) (random : UnixSocketTable.Random)
  | connect (k : ℕ) (addr : Status UnixSocketAddr) (path : Option ℕ) (random : UnixSocketTable.Random)
  | accept (k : ℕ) (nonblocking : Bool)
  | shutdown (k : ℕ) (how : ShutdownHow)
  | expire (k : ℕ)
  | destroy (k : ℕ)

namespace UnixStreams
variable (s : UnixStreams) (k : ℕ) (sock : UnixStreamSocket)

def start : UnixStreams := ⟨.empty, fun _ => none, fun _ => StreamPipes.newPipe, 0, [], []⟩

def set : UnixStreams := { s with sockets := update s.sockets k (some sock) }

def make : UnixStreams :=
  { s with
    stream_tbl := s.stream_tbl.make
    sockets := update s.sockets s.stream_tbl.next (some sock) }

def makeConnected (laddr : UnixSocketAddr) (conn : UnixStreamConnection) : UnixStreams :=
  { s.make ⟨.kSockConnected, laddr, .inl (some conn), false⟩ with
    pipes := s.pipes.attach conn s.stream_tbl.next }

def addPipes : UnixStreams :=
  { s with
    pipes := update (update s.pipes s.nextPipe StreamPipes.newPipe) (s.nextPipe + 1)
      StreamPipes.newPipe
    nextPipe := s.nextPipe + 2 }

/-- `CreatePipeSocket` for stream sockets. -/
def socketpair : UnixStreams :=
  let pair := makeStreamPair s.nextPipe default default
  (s.addPipes.makeConnected default pair.1).makeConnected default pair.2

def bind (addr : Status UnixSocketAddr) (inserted : Status Unit) : Status Unit × UnixStreams :=
  if sock.state_ ≠ .kSockUnbound then (.error .EINVAL, s)
  else
    match bindName s.stream_tbl k addr inserted with
    | .error e => (.error e, s)
    | .ok (a, dent, tbl) =>
      (.ok (), { s with stream_tbl := tbl }.set k
        { sock with local_name_ := a, state_ := .kSockBound, dent_ := sock.dent_ || dent })

def nameLocal (random : UnixSocketTable.Random) : Status UnixStreamSocket × UnixStreams :=
  if sock.has_name then (.ok sock, s)
  else
    match nameAndInsert s.stream_tbl k random with
    | .error e => (.error e, s)
    | .ok (a, tbl) =>
      (.ok { sock with local_name_ := a }, { s with stream_tbl := tbl }.set k { sock with local_name_ := a })

def listen (backlog : BitVec 32) (random : UnixSocketTable.Random) : Status Unit × UnixStreams :=
  if sock.state_ = .kSockConnected then (.error .EISCONN, s)
  else
    match s.nameLocal k sock random with
    | (.error e, s') => (.error e, s')
    | (.ok sock', s') =>
      (.ok (), s'.set k { sock' with v_ := .inr ⟨backlog, false, []⟩, state_ := .kSockListening })

def enqueueConnection (peer : ℕ) (conn : UnixStreamConnection) : Status UnixStreams :=
  match s.sockets peer with
  | some ⟨.kSockListening, name, .inr l, dent⟩ =>
    if l.shutdown || (l.backlog.signExtend 64).toNat ≤ l.accept_q.length then .error .ECONNREFUSED
    else .ok (s.set peer ⟨.kSockListening, name, .inr { l with accept_q := l.accept_q ++ [conn] }, dent⟩)
  | _ => .error .ECONNREFUSED

def connect (addr : Status UnixSocketAddr) (path : Option ℕ) (random : UnixSocketTable.Random) :
    Status Unit × UnixStreams :=
  if sock.state_ = .kSockListening then (.error .EINVAL, s)
  else
    match addr with
    | .error e => (.error e, s)
    | .ok a =>
      match getPeer s.stream_tbl a path with
      | .error e => (.error e, s)
      | .ok peer =>
        match s.nameLocal k sock random with
        | (.error e, s') => (.error e, s')
        | (.ok sock', s') =>
          let pair := makeStreamPair s'.nextPipe sock'.local_name_ a
          match s'.addPipes.enqueueConnection peer pair.2 with
          | .error e => (.error e, s')
          | .ok s'' =>
            (.ok (), { s''.set k { sock' with v_ := .inl (some pair.1), state_ := .kSockConnected } with
              pipes := s''.pipes.attach pair.1 k
              connects := s''.connects ++ [⟨peer, k, pair.2⟩] })

/-- The answer is the number of the new socket. A call that may block waits until there is a connection or a
signal arrives. -/
def accept (nonblocking : Bool) : Status ℕ × UnixStreams :=
  match sock with
  | ⟨.kSockListening, name, .inr l, dent⟩ =>
    match l.accept_q with
    | [] => (.error (if nonblocking then .EAGAIN else .ERESTARTSYS), s)
    | conn :: rest =>
      (.ok s.stream_tbl.next,
        { (s.set k ⟨.kSockListening, name, .inr { l with accept_q := rest }, dent⟩).makeConnected name
            conn with
          accepts := s.accepts ++ [(k, conn)] })
  | _ => (.error .EINVAL, s)

def shutdown (how : ShutdownHow) : Status Unit × UnixStreams :=
  match sock with
  | ⟨.kSockListening, name, .inr l, dent⟩ =>
    (.ok (), s.set k ⟨.kSockListening, name, .inr { l with shutdown := true }, dent⟩)
  | ⟨.kSockConnected, _, .inl (some conn), _⟩ =>
    match how with
    | .rd => (.ok (), { s with pipes := s.pipes.closeReader conn.rx none })
    | .wr => (.ok (), { s with pipes := s.pipes.closeWriter conn.tx none })
    | .rdwr => (.ok (), { s with pipes := s.pipes.closeBoth conn none })
    | .other => (.error .EINVAL, s)
  | _ => (.error .ENOTCONN, s)

def closeEnds : StreamPipes :=
  match sock with
  | ⟨.kSockConnected, _, .inl (some conn), _⟩ => s.pipes.closeBoth conn (some k)
  | ⟨.kSockListening, _, .inr l, _⟩ => l.accept_q.foldl (fun pipes conn => pipes.closeBoth conn none) s.pipes
  | _ => s.pipes

/-- `~UnixStreamSocket`. -/
def destroy : UnixStreams :=
  { s with
    stream_tbl := delete s.stream_tbl (deleted sock.dent_ sock.local_name_)
    sockets := update s.sockets k none
    pipes := s.closeEnds k sock }

def file : Option UnixStreamSocket := if s.stream_tbl.live k then s.sockets k else none

def doomed : Option UnixStreamSocket := if s.stream_tbl.live k then none else s.sockets k

def step : StreamCall → UnixStreams
  | .socket => s.make .unbound
  | .socketpair => s.socketpair
  | .bind k addr inserted => (s.file k).elim s fun sock => (s.bind k sock addr inserted).2
  | .listen k backlog random => (s.file k).elim s fun sock => (s.listen k sock backlog random).2
  | .connect k addr path random => (s.file k).elim s fun sock => (s.connect k sock addr path random).2
  | .accept k nonblocking => (s.file k).elim s fun sock => (s.accept k sock nonblocking).2
  | .shutdown k how => (s.file k).elim s fun sock => (s.shutdown k sock how).2
  | .expire k => { s with stream_tbl := s.stream_tbl.expire k }
  | .destroy k => (s.doomed k).elim s fun sock => s.destroy k sock

theorem enqueueConnection_eq {s s' : UnixStreams} {peer : ℕ} {conn : UnixStreamConnection}
    (h : s.enqueueConnection peer conn = .ok s') : ∃ name l dent,
      s.sockets peer = some ⟨.kSockListening, name, .inr l, dent⟩ ∧
      s' = s.set peer ⟨.kSockListening, name, .inr { l with accept_q := l.accept_q ++ [conn] }, dent⟩ := by
  unfold enqueueConnection at h
  split at h
  · next name l dent hsock =>
      split_ifs at h
      exact ⟨name, l, dent, hsock, (Except.ok.inj h).symm⟩
  · cases h

end UnixStreams
end Junction
