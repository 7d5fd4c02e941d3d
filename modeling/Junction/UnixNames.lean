import Junction.UnixStreams

/-!
# Abstract names of UNIX sockets

Stream and datagram sockets have a table of abstract names each. A destructor deletes the name of its socket
from the table without a look at the entry. An accepted socket carries the name of its listener, and a name
can be taken again between the last close of its socket and the destructor: in both cases a live socket loses
its entry. Where no live socket has the name that a destructor deletes, the tables are exact.
-/

namespace Junction
open Function

structure UnixSockets where
  streams : UnixStreams
  dgrams : UnixDatagrams

inductive SocketCall
  | stream (call : StreamCall)
  | dgram (call : DatagramCall)

namespace UnixSockets

def start : UnixSockets := ⟨.start, .start⟩

def step (s : UnixSockets) : SocketCall → UnixSockets
  | .stream call => { s with streams := s.streams.step call }
  | .dgram call => { s with dgrams := s.dgrams.step call }

end UnixSockets

namespace UnixStreams
open UnixSocketTable
variable {s : UnixStreams} {k : ℕ} {sock : UnixStreamSocket}

def OwnName (s : UnixStreams) : StreamCall → Prop
  | .destroy k =>
    ∀ sock ∈ s.doomed k, ∀ name ∈ deleted sock.dent_ sock.local_name_, s.stream_tbl.Unclaimed name
  | _ => True

instance (s : UnixStreams) : DecidablePred s.OwnName := fun call => by
  unfold OwnName
  split <;> infer_instance

theorem live_of_file (h : s.file k = some sock) : s.stream_tbl.live k := by
  unfold file at h
  split_ifs at h with hlive
  exact hlive

theorem names_bind (hlive : s.stream_tbl.live k) (addr : Status UnixSocketAddr) (inserted : Status Unit) :
    Follows s.stream_tbl (s.bind k sock addr inserted).2.stream_tbl := by
  unfold bind
  split_ifs
  · exact .refl
  cases hbind : bindName s.stream_tbl k addr inserted with
  | error e => exact .refl
  | ok r =>
    obtain ⟨a, dent, tbl⟩ := r
    rcases bindName_enter hbind with rfl | ⟨name, hfree, rfl⟩
    · exact .refl
    · exact .single (.enter s.stream_tbl name k hlive hfree)

theorem names_nameLocal (hlive : s.stream_tbl.live k) (random : Random) :
    Follows s.stream_tbl (s.nameLocal k sock random).2.stream_tbl := by
  unfold nameLocal
  split_ifs
  · exact .refl
  cases hname : nameAndInsert s.stream_tbl k random with
  | error e => exact .refl
  | ok r =>
    obtain ⟨a, tbl⟩ := r
    obtain ⟨name, hfree, rfl⟩ := tryNames_enter hname
    exact .single (.enter s.stream_tbl name k hlive hfree)

theorem names_listen (hlive : s.stream_tbl.live k) (backlog : BitVec 32) (random : Random) :
    Follows s.stream_tbl (s.listen k sock backlog random).2.stream_tbl := by
  have hname : Follows s.stream_tbl (s.nameLocal k sock random).2.stream_tbl := names_nameLocal hlive random
  unfold listen
  split_ifs
  · exact .refl
  generalize s.nameLocal k sock random = r at hname
  obtain ⟨answer, s'⟩ := r
  cases answer with
  | error | ok => exact hname

theorem names_connect (hlive : s.stream_tbl.live k) (addr : Status UnixSocketAddr) (path : Option ℕ)
    (random : Random) : Follows s.stream_tbl (s.connect k sock addr path random).2.stream_tbl := by
  have hname : Follows s.stream_tbl (s.nameLocal k sock random).2.stream_tbl := names_nameLocal hlive random
  unfold connect
  split_ifs
  · exact .refl
  cases addr with
  | error e => exact .refl
  | ok a =>
    dsimp only
    cases getPeer s.stream_tbl a path with
    | error e => exact .refl
    | ok peer =>
      generalize s.nameLocal k sock random = r at hname
      obtain ⟨answer, s'⟩ := r
      cases answer with
      | error e => exact hname
      | ok sock' =>
        dsimp only
        cases henqueue : s'.addPipes.enqueueConnection peer (makeStreamPair s'.nextPipe sock'.local_name_ a).2 with
        | error e => exact hname
        | ok s'' =>
          obtain ⟨name, l, dent, -, rfl⟩ := enqueueConnection_eq henqueue
          exact hname

theorem names_accept (nonblocking : Bool) : Follows s.stream_tbl (s.accept k sock nonblocking).2.stream_tbl := by
  unfold accept
  split
  · next name l dent =>
      cases l.accept_q with
      | nil => exact .refl
      | cons conn rest => exact .single (.make s.stream_tbl)
  · exact .refl

theorem stream_tbl_shutdown (how : ShutdownHow) : (s.shutdown k sock how).2.stream_tbl = s.stream_tbl := by
  unfold shutdown
  split
  · rfl
  · cases how <;> rfl
  · rfl

theorem names_step (call : StreamCall) (hown : s.OwnName call) : Follows s.stream_tbl (s.step call).stream_tbl := by
  have hfile : ∀ (k : ℕ) (f : UnixStreamSocket → UnixStreams),
      (∀ sock, s.stream_tbl.live k → Follows s.stream_tbl (f sock).stream_tbl) →
      Follows s.stream_tbl ((s.file k).elim s f).stream_tbl :=
    fun k f hf => Run.holds_elim (P := fun s' : UnixStreams => Follows s.stream_tbl s'.stream_tbl) .refl
      fun sock hsock => hf sock (live_of_file hsock)
  cases call with
  | socket => exact .single (.make s.stream_tbl)
  | socketpair => exact .tail (.single (.make s.stream_tbl)) (.make s.stream_tbl.make)
  | bind k addr inserted => exact hfile k _ fun sock hlive => names_bind hlive addr inserted
  | listen k backlog random => exact hfile k _ fun sock hlive => names_listen hlive backlog random
  | connect k addr path random => exact hfile k _ fun sock hlive => names_connect hlive addr path random
  | accept k nonblocking => exact hfile k _ fun sock _ => names_accept nonblocking
  | shutdown k how =>
    refine hfile k _ fun sock _ => ?_
    rw [stream_tbl_shutdown]
  | expire k => exact .single (.expire s.stream_tbl k)
  | destroy k =>
    exact Run.holds_elim (P := fun s' : UnixStreams => Follows s.stream_tbl s'.stream_tbl) .refl
      fun sock hsock => delete_steps (hown sock hsock)

end UnixStreams

namespace UnixDatagrams
open UnixSocketTable
variable {s : UnixDatagrams} {k : ℕ} {sock : UnixDatagramEndpoint}

def OwnName (s : UnixDatagrams) : DatagramCall → Prop
  | .destroy k =>
    ∀ sock ∈ s.doomed k, ∀ name ∈ deleted sock.dent_ sock.local_name_, s.dgram_tbl.Unclaimed name
  | _ => True

instance (s : UnixDatagrams) : DecidablePred s.OwnName := fun call => by
  unfold OwnName
  split <;> infer_instance

theorem live_of_file (h : s.file k = some sock) : s.dgram_tbl.live k := by
  unfold file at h
  split_ifs at h with hlive
  exact hlive

variable (hlive : s.dgram_tbl.live k)
include hlive

theorem names_bind (addr : Status UnixSocketAddr) (inserted : Status Unit) :
    Follows s.dgram_tbl (s.bind k sock addr inserted).2.dgram_tbl := by
  unfold bind
  split_ifs
  · exact .refl
  cases hbind : bindName s.dgram_tbl k addr inserted with
  | error e => exact .refl
  | ok r =>
    obtain ⟨a, dent, tbl⟩ := r
    rcases bindName_enter hbind with rfl | ⟨name, hfree, rfl⟩
    · exact .refl
    · exact .single (.enter s.dgram_tbl name k hlive hfree)

variable (random : Random)

theorem names_setLocalName : Follows s.dgram_tbl (s.setLocalName k sock random).2.dgram_tbl := by
  unfold setLocalName
  cases hname : nameAndInsert s.dgram_tbl k random with
  | error e => exact .refl
  | ok r =>
    obtain ⟨a, tbl⟩ := r
    obtain ⟨name, hfree, rfl⟩ := tryNames_enter hname
    exact .single (.enter s.dgram_tbl name k hlive hfree)

theorem names_nameLocal : Follows s.dgram_tbl (s.nameLocal k sock random).2.dgram_tbl := by
  unfold nameLocal
  split_ifs
  · exact .refl
  · exact names_setLocalName hlive random

theorem names_connect (addr : Status UnixSocketAddr) (path : Option ℕ)
    (random : Random) : Follows s.dgram_tbl (s.connect k sock addr path random).2.dgram_tbl := by
  have hname : Follows s.dgram_tbl (s.nameLocal k sock random).2.dgram_tbl := names_nameLocal hlive random
  unfold connect
  split_ifs
  · exact .refl
  cases addr with
  | error e => exact .refl
  | ok a =>
    generalize s.nameLocal k sock random = r at hname
    obtain ⟨answer, s'⟩ := r
    cases answer with
    | error e => exact hname
    | ok sock' =>
      dsimp only
      cases getPeer s'.dgram_tbl a path with
      | error | ok => exact hname

theorem names_write (raddr : Option (Status UnixSocketAddr))
    (path : Option ℕ) (random : Random) : Follows s.dgram_tbl (s.write k sock raddr path random).2.dgram_tbl := by
  have hname : Follows s.dgram_tbl (s.nameLocal k sock random).2.dgram_tbl := names_nameLocal hlive random
  unfold write resolvePeer
  split_ifs
  · exact .refl
  · exact .refl
  · cases sock.remote_.filter s.dgram_tbl.live with
    | none | some => exact .refl
  cases raddr with
  | none => exact .refl
  | some addr =>
    generalize s.nameLocal k sock random = r at hname
    obtain ⟨answer, s'⟩ := r
    cases answer with
    | error e => exact hname
    | ok sock' =>
      cases addr with
      | error | ok => exact hname

omit hlive

theorem live_setLocalName : (s.setLocalName k sock random).2.dgram_tbl.live = s.dgram_tbl.live := by
  unfold setLocalName
  cases hname : nameAndInsert s.dgram_tbl k random with
  | error e => rfl
  | ok r =>
    obtain ⟨a, tbl⟩ := r
    obtain ⟨name, -, rfl⟩ := tryNames_enter hname
    rfl

theorem dgram_tbl_join (peer : ℕ) (random : Random) :
    (s.join k peer random).dgram_tbl = (s.setLocalName k .unnamed random).2.dgram_tbl := by
  unfold join
  generalize s.setLocalName k .unnamed random = r
  obtain ⟨answer, s'⟩ := r
  cases answer with
  | error | ok => rfl

theorem names_socketpair (random₁ random₂ : Random) : Follows s.dgram_tbl (s.socketpair random₁ random₂).dgram_tbl := by
  have hmade : Follows s.dgram_tbl s.make.make.dgram_tbl := .tail (.single (.make s.dgram_tbl)) (.make s.dgram_tbl.make)
  have hlive₂ : s.make.make.dgram_tbl.live (s.dgram_tbl.next + 1) := update_self ..
  have hlive₁ : s.make.make.dgram_tbl.live s.dgram_tbl.next := by
    change update (update s.dgram_tbl.live s.dgram_tbl.next true) (s.dgram_tbl.next + 1) true s.dgram_tbl.next
    rw [update_of_ne (Nat.ne_of_lt (Nat.lt_succ_self _)), update_self]
  unfold socketpair
  generalize s.make.make = s₁ at hmade hlive₁ hlive₂
  rw [dgram_tbl_join]
  refine (hmade.trans ?_).trans (names_setLocalName ?_ random₂)
  · rw [dgram_tbl_join]
    exact names_setLocalName hlive₁ random₁
  · rw [dgram_tbl_join, live_setLocalName]
    exact hlive₂

theorem names_step (call : DatagramCall) (hown : s.OwnName call) : Follows s.dgram_tbl (s.step call).dgram_tbl := by
  have hfile : ∀ (k : ℕ) (f : UnixDatagramEndpoint → UnixDatagrams),
      (∀ sock, s.dgram_tbl.live k → Follows s.dgram_tbl (f sock).dgram_tbl) →
      Follows s.dgram_tbl ((s.file k).elim s f).dgram_tbl :=
    fun k f hf => Run.holds_elim (P := fun s' : UnixDatagrams => Follows s.dgram_tbl s'.dgram_tbl) .refl
      fun sock hsock => hf sock (live_of_file hsock)
  cases call with
  | socket => exact .single (.make s.dgram_tbl)
  | socketpair random₁ random₂ => exact names_socketpair random₁ random₂
  | bind k addr inserted => exact hfile k _ fun sock hlive => names_bind hlive addr inserted
  | connect k addr path random => exact hfile k _ fun sock hlive => names_connect hlive addr path random
  | write k raddr path random => exact hfile k _ fun sock hlive => names_write hlive raddr path random
  | shutdown k how =>
    refine hfile k _ fun sock _ => ?_
    cases how <;> exact .refl
  | expire k => exact .single (.expire s.dgram_tbl k)
  | destroy k =>
    exact Run.holds_elim (P := fun s' : UnixDatagrams => Follows s.dgram_tbl s'.dgram_tbl) .refl
      fun sock hsock => delete_steps (hown sock hsock)

end UnixDatagrams

namespace UnixSockets
open UnixSocketTable

def OwnName (s : UnixSockets) : SocketCall → Prop
  | .stream call => s.streams.OwnName call
  | .dgram call => s.dgrams.OwnName call

instance (s : UnixSockets) : DecidablePred s.OwnName := fun call => by
  unfold OwnName
  split <;> infer_instance

/-- A name resolves to a live socket that was bound to it, and every live socket is found under each name
that it was bound to. -/
def NamesExact (tbl : WeakTable String) : Prop :=
  ∀ name k, tbl.find name = some k ↔ tbl.live k = true ∧ (name, k) ∈ tbl.bound

theorem exact_step (s : UnixSockets) (call : SocketCall)
    (h : s.streams.stream_tbl.Exact ∧ s.dgrams.dgram_tbl.Exact) (hown : s.OwnName call) :
    (s.step call).streams.stream_tbl.Exact ∧ (s.step call).dgrams.dgram_tbl.Exact := by
  cases call with
  | stream call => exact ⟨h.1.steps (UnixStreams.names_step call hown), h.2⟩
  | dgram call => exact ⟨h.1, h.2.steps (UnixDatagrams.names_step call hown)⟩

/-- As long as destructors delete only names that no live socket has, both tables are exact. -/
theorem abstract_names_exact (calls : List SocketCall) (hown : Run.Admitted step OwnName start calls) :
    let s := Run.exec step start calls
    NamesExact s.streams.stream_tbl ∧ NamesExact s.dgrams.dgram_tbl := by
  intro s
  have h : s.streams.stream_tbl.Exact ∧ s.dgrams.dgram_tbl.Exact :=
    Run.invariant_exec exact_step ⟨WeakTable.Exact.empty, WeakTable.Exact.empty⟩ hown
  exact ⟨h.1.find_iff, h.2.find_iff⟩

/-- A server accepts a client, and everything is closed from the server on; then the name is used again. -/
def serverFirstCalls : List SocketCall :=
  [.stream .socket, .stream (.bind 0 (.ok ⟨.Abstract, "a"⟩) (.ok ())), .stream (.listen 0 5 (sameRandom 0)),
    .stream .socket, .stream (.connect 1 (.ok ⟨.Abstract, "a"⟩) none (sameRandom 0)),
    .stream (.accept 0 true), .stream (.expire 0), .stream (.destroy 0), .stream (.expire 2),
    .stream (.destroy 2), .stream .socket, .stream (.bind 3 (.ok ⟨.Abstract, "a"⟩) (.ok ())),
    .dgram (.socketpair (sameRandom 1) (sameRandom 2)), .dgram (.expire 1), .dgram (.destroy 1)]

theorem abstract_names_exact_serverFirstCalls :
    let s := Run.exec step start serverFirstCalls
    (NamesExact s.streams.stream_tbl ∧ NamesExact s.dgrams.dgram_tbl) ∧
      s.streams.stream_tbl.find "a" = some 3 ∧
      s.streams.stream_tbl.find (randomName fun _ => 0) = some 1 ∧
      s.dgrams.dgram_tbl.find (randomName fun _ => 1) = some 0 ∧
      s.dgrams.dgram_tbl.find (randomName fun _ => 2) = none :=
  ⟨abstract_names_exact serverFirstCalls (by decide +kernel), by decide +kernel⟩

def acceptedFirstCalls : List SocketCall :=
  [.stream .socket, .stream (.bind 0 (.ok ⟨.Abstract, "a"⟩) (.ok ())), .stream (.listen 0 5 (sameRandom 0)),
    .stream .socket, .stream (.connect 1 (.ok ⟨.Abstract, "a"⟩) none (sameRandom 0)),
    .stream (.accept 0 true), .stream (.expire 2), .stream (.destroy 2)]

/-- The name is taken again before the destructor of its former socket runs. -/
def lateDestructorCalls : List SocketCall :=
  [.dgram .socket, .dgram (.bind 0 (.ok ⟨.Abstract, "a"⟩) (.ok ())), .dgram (.expire 0), .dgram .socket,
    .dgram (.bind 1 (.ok ⟨.Abstract, "a"⟩) (.ok ())), .dgram (.destroy 0)]

theorem live_socket_unreachable :
    let s := Run.exec step start acceptedFirstCalls
    let s' := Run.exec step start lateDestructorCalls
    (s.streams.stream_tbl.live 0 = true ∧ ("a", 0) ∈ s.streams.stream_tbl.bound ∧
      s.streams.stream_tbl.find "a" = none) ∧
    s'.dgrams.dgram_tbl.live 1 = true ∧ ("a", 1) ∈ s'.dgrams.dgram_tbl.bound ∧ s'.dgrams.dgram_tbl.find "a" = none := by
  decide +kernel

end UnixSockets
end Junction
