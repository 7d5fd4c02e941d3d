import Junction.UnixStreams

/-!
# Connections of UNIX stream sockets

The connections to a listener are accepted in the order in which they were made. Those that were not accepted
are in its queue, and after its destructor they are closed towards their clients. This needs three things: nobody
connects a connected socket, or listens on a socket with waiting connections, which would forget connections; and a
socket that has the empty abstract name does not connect to itself, which would name it anew before the call fails.
-/

namespace Junction
open List Function WaitableChannel Nat
open StreamPipe (Idle)

variable {conn : UnixStreamConnection}

namespace StreamPipes

/-- What calls on sockets leave alone: pipes without a user stay without one, and the ends of the first `n`
pipes that are closed stay closed. -/
structure Kept (n : ℕ) (pipes pipes' : StreamPipes) : Prop where
  idle : ∀ i, Idle (pipes i) → Idle (pipes' i)
  reader : ∀ i < n, (pipes i).reader_closed_ = true → (pipes' i).reader_closed_ = true
  writer : ∀ i < n, (pipes i).writer_closed_ = true → (pipes' i).writer_closed_ = true

def Shut (pipes : StreamPipes) (remote : UnixStreamConnection) : Prop :=
  (pipes remote.tx).writer_closed_ = true ∧ (pipes remote.rx).reader_closed_ = true

variable {n : ℕ} {pipes pipes' : StreamPipes} {remote : UnixStreamConnection}

namespace Kept

theorem refl : Kept n pipes pipes := ⟨fun _ h => h, fun _ _ h => h, fun _ _ h => h⟩

theorem trans {pipes'' : StreamPipes} (h : Kept n pipes pipes') (h' : Kept n pipes' pipes'') :
    Kept n pipes pipes'' where
  idle i hi := h'.idle i (h.idle i hi)
  reader i hlt hi := h'.reader i hlt (h.reader i hlt hi)
  writer i hlt hi := h'.writer i hlt (h.writer i hlt hi)

variable {i : ℕ}

theorem update {p : StreamPipe.Pipe} (hidle : Idle (pipes i) → Idle p)
    (hreader : i < n → (pipes i).reader_closed_ → p.reader_closed_)
    (hwriter : i < n → (pipes i).writer_closed_ → p.writer_closed_) :
    Kept n pipes (update pipes i p) := by
  refine ⟨fun j => ?_, fun j => ?_, fun j => ?_⟩
  all_goals
    rw [update_apply]
    split_ifs with hj
  · exact hj ▸ hidle
  · exact id
  · exact hj ▸ hreader
  · exact fun _ => id
  · exact hj ▸ hwriter
  · exact fun _ => id

theorem closeReader (i : ℕ) (p : Option ℕ) : Kept n pipes (pipes.closeReader i p) := by
  obtain ⟨-, hreader, hwriter, -⟩ := same_closeReader (s := pipes i) p
  exact update (fun h => h.closeReader p) (fun _ _ => hreader) fun _ h => hwriter.trans h

theorem closeWriter (i : ℕ) (p : Option ℕ) : Kept n pipes (pipes.closeWriter i p) := by
  obtain ⟨-, hwriter, hreader, -⟩ := same_closeWriter (s := pipes i) p
  exact update (fun h => h.closeWriter p) (fun _ h => hreader.trans h) fun _ _ => hwriter

theorem closeBoth (conn : UnixStreamConnection) (p : Option ℕ) : Kept n pipes (pipes.closeBoth conn p) :=
  (closeReader conn.rx p).trans (closeWriter conn.tx p)

theorem attachReadPoll (i p : ℕ) : Kept n pipes (Function.update pipes i
    ((pipes i).attachReadPoll (ByteChannel.pipeType streamRing).atomic p)) := by
  refine update (fun h => h.attachReadPoll p) (fun _ h => ?_) fun _ h => ?_
  all_goals
    dsimp only [WaitableChannel.attachReadPoll, WaitableChannel.setEvents]
    split_ifs <;> exact h

theorem attachWritePoll (i p : ℕ) : Kept n pipes (Function.update pipes i
    ((pipes i).attachWritePoll (ByteChannel.pipeType streamRing).atomic p)) := by
  refine update (fun h => h.attachWritePoll p) (fun _ h => ?_) fun _ h => ?_
  all_goals
    dsimp only [WaitableChannel.attachWritePoll, WaitableChannel.setEvents]
    split_ifs <;> exact h

theorem attach (conn : UnixStreamConnection) (p : ℕ) : Kept n pipes (pipes.attach conn p) :=
  (attachReadPoll conn.rx p).trans (attachWritePoll conn.tx p)

theorem closeAll (conns : List UnixStreamConnection) :
    Kept n pipes (conns.foldl (fun pipes conn => pipes.closeBoth conn none) pipes) := by
  induction conns generalizing pipes with
  | nil => exact refl
  | cons conn conns ih => exact (closeBoth conn none).trans ih

theorem newPipe (hi : n ≤ i) : Kept n pipes (Function.update pipes i newPipe) := by
  refine update (fun _ => ⟨rfl, rfl, rfl, rfl⟩) (fun hlt => ?_) fun hlt => ?_
  all_goals exact absurd hlt (not_lt.2 hi)

end Kept

theorem Shut.kept (h : Shut pipes remote) (hkept : Kept n pipes pipes') (hrx : remote.rx < n)
    (htx : remote.tx < n) : Shut pipes' remote :=
  ⟨hkept.writer _ htx h.1, hkept.reader _ hrx h.2⟩

theorem shut_closeBoth (conn : UnixStreamConnection) (p : Option ℕ) : Shut (pipes.closeBoth conn p) conn := by
  have hreader : (pipes.closeReader conn.rx p conn.rx).reader_closed_ := by
    rw [StreamPipes.closeReader, update_self]
    exact (same_closeReader p).2.1
  have hkept : Kept (conn.rx + 1) (pipes.closeReader conn.rx p) (pipes.closeBoth conn p) := Kept.closeWriter conn.tx p
  refine ⟨?_, hkept.reader _ (lt_succ_self _) hreader⟩
  rw [closeBoth, StreamPipes.closeWriter, update_self]
  exact (same_closeWriter p).2.1

theorem shut_closeAll {conns : List UnixStreamConnection} (hconn : conn ∈ conns) :
    Shut (conns.foldl (fun pipes conn => pipes.closeBoth conn none) pipes) conn := by
  induction conns generalizing pipes with
  | nil => cases hconn
  | cons first conns ih =>
    rcases mem_cons.1 hconn with rfl | hmem
    · have hkept : Kept (conn.rx + conn.tx + 1) (pipes.closeBoth conn none)
          ((conn :: conns).foldl (fun pipes conn => pipes.closeBoth conn none) pipes) := Kept.closeAll conns
      exact (shut_closeBoth conn none).kept hkept (by omega) (by omega)
    · exact ih hmem

end StreamPipes

namespace UnixStreams
open StreamPipes UnixSocketTable

/-- The connections to a socket in the order in which they were made: the listener's ends. -/
def connectsTo (s : UnixStreams) (k : ℕ) : List UnixStreamConnection :=
  (s.connects.filter (·.listener = k)).map Established.remote

variable (s : UnixStreams)

def acceptedBy (k : ℕ) : List UnixStreamConnection :=
  (s.accepts.filter (·.1 = k)).map Prod.snd

def pipesOf (connects : List Established) : List ℕ := connects.flatMap fun e => [e.remote.rx, e.remote.tx]

def ClosedTowardsClient (remote : UnixStreamConnection) : Prop :=
  StreamPipe.ReadsEnd streamRing (s.pipes remote.tx) ∧ StreamPipe.WritesFail streamRing (s.pipes remote.rx)

/-- Every connection has two pipes of its own, and its client keeps the other ends of them. A socket has
accepted the first of its connections, and the others are in its queue, or closed if the socket is gone. -/
structure Accounted : Prop where
  distinct : (pipesOf s.connects).Nodup
  client : ∀ e ∈ s.connects, ∀ sock ∈ s.sockets e.client,
    ∃ name, sock.connection = some ⟨name, e.remote.tx, e.remote.rx⟩
  waiting : ∀ k, ∀ sock ∈ s.sockets k, s.connectsTo k = s.acceptedBy k ++ sock.accept_q
  gone : ∀ k, s.sockets k = none → ∃ rest, s.connectsTo k = s.acceptedBy k ++ rest ∧
    ∀ remote ∈ rest, s.ClosedTowardsClient remote

/-- What became of the connections to a socket that it has not accepted. -/
def Fate (s : UnixStreams) (k : ℕ) (rest : List UnixStreamConnection) : Prop :=
  match s.sockets k with
  | some sock => rest = sock.accept_q
  | none => ∀ remote ∈ rest, Shut s.pipes remote

structure Inv : Prop where
  unborn : ∀ k, s.stream_tbl.next ≤ k → s.sockets k = none
  pipes : ∀ e ∈ s.connects, e.remote.rx < s.nextPipe ∧ e.remote.tx < s.nextPipe
  made : ∀ e ∈ s.connects, e.listener < s.stream_tbl.next ∧ e.client < s.stream_tbl.next
  idle : ∀ i, Idle (s.pipes i)
  distinct : (pipesOf s.connects).Nodup
  queue : ∀ k, ∀ sock ∈ s.sockets k, sock.state_ ≠ .kSockListening → sock.accept_q = []
  client : ∀ e ∈ s.connects, ∀ sock ∈ s.sockets e.client, sock.state_ = .kSockConnected ∧
    ∃ name, sock.connection = some ⟨name, e.remote.tx, e.remote.rx⟩
  fate : ∀ k, ∃ rest, s.connectsTo k = s.acceptedBy k ++ rest ∧ s.Fate k rest

theorem mem_connectsTo {s : UnixStreams} {k : ℕ} {remote : UnixStreamConnection}
    (h : remote ∈ s.connectsTo k) : ∃ e ∈ s.connects, e.listener = k ∧ e.remote = remote := by
  obtain ⟨e, he, hremote⟩ := mem_map.1 h
  obtain ⟨hmem, hlistener⟩ := mem_filter.1 he
  exact ⟨e, hmem, of_decide_eq_true hlistener, hremote⟩

theorem connectsTo_concat (s : UnixStreams) (e : Established) (k : ℕ) :
    connectsTo { s with connects := s.connects ++ [e] } k =
      s.connectsTo k ++ if k = e.listener then [e.remote] else [] := by
  unfold connectsTo
  rw [filter_append, map_append]
  split_ifs with hk
  · simp [hk]
  · simp [Ne.symm hk]

theorem acceptedBy_concat (s : UnixStreams) (j : ℕ) (remote : UnixStreamConnection) (k : ℕ) :
    acceptedBy { s with accepts := s.accepts ++ [(j, remote)] } k =
      s.acceptedBy k ++ if k = j then [remote] else [] := by
  unfold acceptedBy
  rw [filter_append, map_append]
  split_ifs with hk
  · simp [hk]
  · simp [Ne.symm hk]

variable {j : ℕ} {rest : List UnixStreamConnection}

section Set
variable {s : UnixStreams} {k : ℕ} {sock sock' : UnixStreamSocket}

theorem fate_set : (s.set k sock').Fate j rest ↔ if j = k then rest = sock'.accept_q else s.Fate j rest := by
  dsimp only [Fate, UnixStreams.set]
  rw [update_apply]
  split_ifs <;> rfl

theorem forall_set {P : UnixStreamSocket → Prop} (h : ∀ j, ∀ sock ∈ s.sockets j, P sock) (hsock' : P sock') :
    ∀ j, ∀ sock ∈ (s.set k sock').sockets j, P sock := by
  intro j sock₁ hsock₁
  dsimp only [UnixStreams.set] at hsock₁
  rw [update_apply] at hsock₁
  split_ifs at hsock₁
  · exact Option.some.inj hsock₁ ▸ hsock'
  · exact h j sock₁ hsock₁

theorem sockets_set_of_ne (hj : j ≠ k) : (s.set k sock').sockets j = s.sockets j := update_of_ne hj ..

theorem sockets_set_self : (s.set k sock').sockets k = some sock' := update_self ..

theorem mem_of_update_none (h : sock ∈ update s.sockets k none j) : sock ∈ s.sockets j := by
  rw [update_apply] at h
  split_ifs at h
  · cases h
  · exact h

end Set

namespace Inv
variable {s : UnixStreams} {k : ℕ} {sock sock' : UnixStreamSocket}

variable (h : Inv s)
include h

theorem accounted : Accounted s where
  distinct := h.distinct
  client e he sock hsock := (h.client e he sock hsock).2
  waiting k sock hsock := by
    obtain ⟨rest, hrest, hfate⟩ := h.fate k
    rw [Fate, hsock] at hfate
    rw [hrest, hfate]
  gone k hsock := by
    obtain ⟨rest, hrest, hfate⟩ := h.fate k
    rw [Fate, hsock] at hfate
    exact ⟨rest, hrest, fun remote hremote => ⟨(h.idle _).readsEnd (hfate remote hremote).1,
      (h.idle _).writesFail (hfate remote hremote).2⟩⟩

omit h in
theorem start : Inv start where
  unborn _ _ := rfl
  pipes := nofun
  made := nofun
  idle _ := ⟨rfl, rfl, rfl, rfl⟩
  distinct := .nil
  queue _ _ := nofun
  client := nofun
  fate _ := ⟨[], rfl, nofun⟩

theorem lt_next (hsock : s.sockets k = some sock) : k < s.stream_tbl.next := by
  by_contra hk
  rw [h.unborn k (not_lt.1 hk)] at hsock
  cases hsock

theorem withPipes {pipes' : StreamPipes} {n : ℕ} (hkept : Kept s.nextPipe s.pipes pipes')
    (hn : s.nextPipe ≤ n) : Inv { s with pipes := pipes', nextPipe := n } := { h with
  pipes e he := ⟨(h.pipes e he).1.trans_le hn, (h.pipes e he).2.trans_le hn⟩
  idle i := hkept.idle i (h.idle i)
  fate k := by
    obtain ⟨rest, hrest, hfate⟩ := h.fate k
    refine ⟨rest, hrest, ?_⟩
    cases hsock : s.sockets k with
    | some sock =>
      rw [Fate, hsock] at hfate ⊢
      exact hfate
    | none =>
      rw [Fate, hsock] at hfate ⊢
      intro remote hremote
      have hmem : remote ∈ s.connectsTo k := hrest ▸ mem_append_right _ hremote
      obtain ⟨e, he, -, rfl⟩ := mem_connectsTo hmem
      exact (hfate _ hremote).kept hkept (h.pipes e he).1 (h.pipes e he).2 }

theorem withTable {tbl : WeakTable String} (hnext : tbl.next = s.stream_tbl.next) :
    Inv { s with stream_tbl := tbl } := { h with
  unborn k hk := h.unborn k (hnext ▸ hk)
  made e he := ⟨hnext.symm ▸ (h.made e he).1, hnext.symm ▸ (h.made e he).2⟩ }

theorem ne_of_next_le (hsock : s.sockets k = some sock) (hj : s.stream_tbl.next ≤ j) : j ≠ k :=
  (Nat.ne_of_lt ((h.lt_next hsock).trans_le hj)).symm

theorem set (hsock : s.sockets k = some sock) (haccept : sock'.accept_q = sock.accept_q)
    (hqueue : sock'.state_ ≠ .kSockListening → sock'.accept_q = []) (hclient : sock.state_ = .kSockConnected →
      sock'.state_ = .kSockConnected ∧ sock'.connection = sock.connection) : Inv (s.set k sock') := { h with
  unborn j hj := (sockets_set_of_ne (h.ne_of_next_le hsock hj)).trans (h.unborn j hj)
  queue := forall_set h.queue hqueue
  client e he sock₁ hsock₁ := by
    by_cases hk : e.client = k
    · rw [hk, sockets_set_self] at hsock₁
      obtain rfl := Option.some.inj hsock₁
      obtain ⟨hstate, name, hconn⟩ := h.client e he sock (hk ▸ hsock)
      obtain ⟨hstate', hconn'⟩ := hclient hstate
      exact ⟨hstate', name, hconn'.trans hconn⟩
    · rw [sockets_set_of_ne hk] at hsock₁
      exact h.client e he sock₁ hsock₁
  fate j := by
    obtain ⟨rest, hrest, hfate⟩ := h.fate j
    refine ⟨rest, hrest, fate_set.2 ?_⟩
    split_ifs with hj
    · subst hj
      rw [Fate, hsock] at hfate
      exact hfate.trans haccept.symm
    · exact hfate }

theorem connectsTo_next : s.connectsTo s.stream_tbl.next = [] := by
  refine eq_nil_iff_forall_not_mem.2 fun remote hremote => ?_
  obtain ⟨e, he, hlistener, -⟩ := mem_connectsTo hremote
  exact absurd hlistener (Nat.ne_of_lt (h.made e he).1)

theorem make (hqueue : sock.accept_q = []) : Inv (s.make sock) := { h with
  unborn j hj := (sockets_set_of_ne (ne_of_lt hj).symm).trans (h.unborn j (le_of_lt hj))
  made e he := ⟨(h.made e he).1.trans (lt_succ_self _), (h.made e he).2.trans (lt_succ_self _)⟩
  queue := forall_set h.queue fun _ => hqueue
  client e he sock₁ hsock₁ := h.client e he sock₁ ((sockets_set_of_ne (Nat.ne_of_lt (h.made e he).2)).symm.trans hsock₁)
  fate j := by
    obtain ⟨rest, hrest, hfate⟩ := h.fate j
    refine ⟨rest, hrest, fate_set.2 ?_⟩
    split_ifs with hj
    · rw [hj, h.connectsTo_next] at hrest
      exact (append_eq_nil_iff.1 hrest.symm).2.trans hqueue.symm
    · exact hfate }

theorem makeConnected (laddr : UnixSocketAddr) (conn : UnixStreamConnection) : Inv (s.makeConnected laddr conn) :=
  (h.make rfl).withPipes (Kept.attach conn s.stream_tbl.next) (le_refl _)

theorem addPipes : Inv s.addPipes :=
  h.withPipes ((Kept.newPipe (le_refl _)).trans (Kept.newPipe (le_succ _))) (le_add_right _ 2)

section Queue
variable {name : UnixSocketAddr} {l : UnixStreamListener} {dent : Bool} {remote : UnixStreamConnection}

theorem client_ne (hsock : s.sockets k = some sock) (hstate : sock.state_ ≠ .kSockConnected)
    {e : Established} (he : e ∈ s.connects) : e.client ≠ k := by
  rintro rfl
  exact hstate (h.client e he sock hsock).1

theorem pop (hsock : s.sockets k = some ⟨.kSockListening, name, .inr l, dent⟩) (hq : l.accept_q = remote :: rest) :
    Inv { s.set k ⟨.kSockListening, name, .inr { l with accept_q := rest }, dent⟩ with
      accepts := s.accepts ++ [(k, remote)] } := { h with
  unborn j hj := (sockets_set_of_ne (h.ne_of_next_le hsock hj)).trans (h.unborn j hj)
  queue := forall_set h.queue fun hstate => absurd rfl hstate
  client e he sock₁ hsock₁ := h.client e he sock₁ ((sockets_set_of_ne (h.client_ne hsock nofun he)).symm.trans hsock₁)
  fate j := by
    obtain ⟨rest₀, hrest₀, hfate⟩ := h.fate j
    by_cases hj : j = k
    · subst hj
      rw [Fate, hsock] at hfate
      refine ⟨rest, ?_, fate_set.2 (by rw [if_pos rfl]; rfl)⟩
      calc s.connectsTo j = s.acceptedBy j ++ remote :: rest := hrest₀.trans (congrArg _ (hfate.trans hq))
        _ = s.acceptedBy j ++ [remote] ++ rest := append_cons ..
        _ = acceptedBy { s with accepts := s.accepts ++ [(j, remote)] } j ++ rest := by
          rw [acceptedBy_concat, if_pos rfl]
    · refine ⟨rest₀, ?_, fate_set.2 (by rw [if_neg hj]; exact hfate)⟩
      calc s.connectsTo j = s.acceptedBy j ++ rest₀ := hrest₀
        _ = acceptedBy { s with accepts := s.accepts ++ [(k, remote)] } j ++ rest₀ := by
          rw [acceptedBy_concat, if_neg hj, append_nil] }

/-- A connection is made: the listener's end goes to its queue, and the other end to the client. -/
theorem push {peer : ℕ} (hpeer : s.sockets peer = some ⟨.kSockListening, name, .inr l, dent⟩)
    (hsock : s.sockets k = some sock) (hlisten : sock.state_ ≠ .kSockListening)
    (hconnected : sock.state_ ≠ .kSockConnected) (hpipes : remote.rx < s.nextPipe ∧ remote.tx < s.nextPipe)
    (hconn : conn.rx = remote.tx ∧ conn.tx = remote.rx)
    (hdistinct : (pipesOf (s.connects ++ [⟨peer, k, remote⟩])).Nodup) :
    Inv { (s.set peer ⟨.kSockListening, name, .inr { l with accept_q := l.accept_q ++ [remote] }, dent⟩).set k
        { sock with v_ := .inl (some conn), state_ := .kSockConnected } with
      connects := s.connects ++ [⟨peer, k, remote⟩] } where
  unborn j hj := (sockets_set_of_ne (h.ne_of_next_le hsock hj)).trans
    ((sockets_set_of_ne (h.ne_of_next_le hpeer hj)).trans (h.unborn j hj))
  pipes := forall_mem_append.2 ⟨h.pipes, forall_mem_singleton.2 hpipes⟩
  made := forall_mem_append.2 ⟨h.made, forall_mem_singleton.2 ⟨h.lt_next hpeer, h.lt_next hsock⟩⟩
  idle := h.idle
  distinct := hdistinct
  queue := forall_set (forall_set h.queue fun hstate => absurd rfl hstate) fun _ => rfl
  client := by
    refine forall_mem_append.2 ⟨fun e he sock₁ hsock₁ => ?_, forall_mem_singleton.2 ?_⟩
    · have hsock₂ := (sockets_set_of_ne (h.client_ne hsock hconnected he)).symm.trans hsock₁
      exact h.client e he sock₁ ((sockets_set_of_ne (h.client_ne hpeer nofun he)).symm.trans hsock₂)
    intro sock₁ hsock₁
    obtain rfl := Option.some.inj (sockets_set_self.symm.trans hsock₁)
    exact ⟨rfl, conn.peer_name, by rw [← hconn.1, ← hconn.2]; rfl⟩
  fate j := by
    obtain ⟨rest, hrest, hfate⟩ := h.fate j
    refine ⟨rest ++ if j = peer then [remote] else [], ?_, fate_set.2 ?_⟩
    · calc connectsTo { s with connects := s.connects ++ [⟨peer, k, remote⟩] } j
          = s.connectsTo j ++ if j = peer then [remote] else [] := connectsTo_concat s ⟨peer, k, remote⟩ j
        _ = s.acceptedBy j ++ (rest ++ if j = peer then [remote] else []) := by
          rw [hrest, append_assoc]
    by_cases hk : j = k
    · subst hk
      have hne : j ≠ peer := by
        rintro rfl
        obtain rfl := Option.some.inj (hpeer.symm.trans hsock)
        exact hlisten rfl
      rw [Fate, hsock] at hfate
      rw [if_pos rfl, if_neg hne, append_nil, hfate]
      exact h.queue j sock hsock hlisten
    rw [if_neg hk, fate_set]
    split_ifs with hj
    · subst hj
      rw [Fate, hpeer] at hfate
      rw [hfate]
      rfl
    · rw [append_nil]
      exact hfate

theorem nodup_concat (peer : ℕ) (laddr raddr : UnixSocketAddr) :
    (pipesOf (s.connects ++ [⟨peer, k, (makeStreamPair s.nextPipe laddr raddr).2⟩])).Nodup := by
  have hlt : ∀ i ∈ pipesOf s.connects, i < s.nextPipe := by
    intro i hi
    obtain ⟨e, he, hmem⟩ := mem_flatMap.1 hi
    rcases mem_pair.1 hmem with rfl | rfl
    · exact (h.pipes e he).1
    · exact (h.pipes e he).2
  rw [pipesOf, flatMap_append]
  refine nodup_append.2 ⟨h.distinct, ?_, fun i hi j hj => ?_⟩
  · simp [makeStreamPair]
  have hpipe := hlt i hi
  rcases mem_pair.1 hj with rfl | rfl
  · exact Nat.ne_of_lt (hpipe.trans (Nat.lt_succ_self _))
  · exact Nat.ne_of_lt hpipe

end Queue

end Inv
end UnixStreams
end Junction

/-! ### Runs that forget no connection -/

namespace Junction.UnixStreams
open Function
open StreamPipe (Idle)
open StreamPipes UnixSocketTable

namespace Inv
variable {s : UnixStreams} {k : ℕ} {sock sock' : UnixStreamSocket}

theorem kept_closeEnds (s : UnixStreams) (k : ℕ) (sock : UnixStreamSocket) :
    Kept s.nextPipe s.pipes (s.closeEnds k sock) := by
  unfold closeEnds
  split
  · exact Kept.closeBoth _ _
  · exact Kept.closeAll _
  · exact Kept.refl

theorem shut_closeEnds (s : UnixStreams) (k : ℕ) (hstate : sock.state_ ≠ .kSockListening → sock.accept_q = []) :
    ∀ remote ∈ sock.accept_q, Shut (s.closeEnds k sock) remote := by
  intro remote hremote
  obtain ⟨state, name, v, dent⟩ := sock
  have hlisten : state = .kSockListening := by
    by_contra hne
    rw [hstate hne] at hremote
    cases hremote
  subst hlisten
  cases v with
  | inl conn => cases hremote
  | inr l => exact shut_closeAll hremote

variable (h : Inv s)
include h

variable (hsock : s.sockets k = some sock)
include hsock

theorem destroy : Inv (s.destroy k sock) := by
  have hkept := kept_closeEnds s k sock
  have h' : Inv { s with pipes := s.closeEnds k sock } := h.withPipes hkept (Nat.le_refl _)
  have hnext : (s.destroy k sock).stream_tbl.next = s.stream_tbl.next := by
    dsimp only [UnixStreams.destroy, UnixSocketTable.delete]
    cases deleted sock.dent_ sock.local_name_ with
    | none | some => rfl
  refine Inv.withTable (s := { s with pipes := s.closeEnds k sock, sockets := update s.sockets k none })
    ⟨fun j hj => ?_, h'.pipes, h'.made, h'.idle, h'.distinct, fun j sock₁ hsock₁ => ?_,
      fun e he sock₁ hsock₁ => ?_, fun j => ?_⟩ hnext
  · dsimp only
    rw [update_apply]
    split_ifs
    · rfl
    · exact h'.unborn j hj
  · exact h'.queue j sock₁ (mem_of_update_none hsock₁)
  · exact h'.client e he sock₁ (mem_of_update_none hsock₁)
  obtain ⟨rest, hrest, hfate⟩ := h'.fate j
  refine ⟨rest, hrest, ?_⟩
  unfold Fate at hfate ⊢
  dsimp only at hfate ⊢
  rw [update_apply]
  split_ifs with hj
  · subst hj
    rw [hsock] at hfate
    rw [hfate]
    exact shut_closeEnds s j (h.queue j sock hsock)
  · exact hfate

theorem nameLocal (random : Random) :
    Inv (s.nameLocal k sock random).2 ∧ ∀ sock', (s.nameLocal k sock random).1 = .ok sock' →
      (s.nameLocal k sock random).2.sockets k = some sock' ∧ sock'.state_ = sock.state_ ∧
      sock'.v_ = sock.v_ := by
  unfold UnixStreams.nameLocal
  split_ifs
  · exact ⟨h, fun sock' hok => Except.ok.inj hok ▸ ⟨hsock, rfl, rfl⟩⟩
  cases hname : nameAndInsert s.stream_tbl k random with
  | error e => exact ⟨h, by simp⟩
  | ok r =>
    obtain ⟨a, tbl⟩ := r
    obtain ⟨name, -, rfl⟩ := tryNames_enter hname
    have h' : Inv { s with stream_tbl := s.stream_tbl.enter name k } := h.withTable rfl
    refine ⟨h'.set hsock ?_ (h.queue k sock hsock) fun hstate => ⟨hstate, ?_⟩, ?_⟩
    · rfl
    · rfl
    · exact fun sock' hok => Except.ok.inj hok ▸ ⟨sockets_set_self, rfl, rfl⟩

theorem bind (addr : Status UnixSocketAddr) (inserted : Status Unit) : Inv (s.bind k sock addr inserted).2 := by
  unfold UnixStreams.bind
  split_ifs with hstate
  · exact h
  have hunbound : sock.state_ = .kSockUnbound := not_not.1 hstate
  have hqueue : sock.accept_q = [] := h.queue k sock hsock (by rw [hunbound]; exact nofun)
  have hclient : sock.state_ ≠ .kSockConnected := by rw [hunbound]; exact nofun
  cases hbind : bindName s.stream_tbl k addr inserted with
  | error e => exact h
  | ok r =>
    obtain ⟨a, dent, tbl⟩ := r
    have hnext : tbl.next = s.stream_tbl.next := by
      rcases bindName_enter hbind with rfl | ⟨name, -, rfl⟩ <;> rfl
    exact (h.withTable hnext).set hsock rfl (fun _ => hqueue) fun hconnected => absurd hconnected hclient

theorem listen (hqueue : sock.accept_q = [])
    (backlog : BitVec 32) (random : Random) : Inv (s.listen k sock backlog random).2 := by
  have hname := h.nameLocal hsock random
  unfold UnixStreams.listen
  split_ifs with hstate
  · exact h
  generalize s.nameLocal k sock random = r at hname
  obtain ⟨answer, s'⟩ := r
  cases answer with
  | error e => exact hname.1
  | ok sock' =>
    obtain ⟨hsock', hstate', hv⟩ := hname.2 sock' rfl
    have hqueue' : sock'.accept_q = [] := by rw [UnixStreamSocket.accept_q, hv]; exact hqueue
    exact hname.1.set hsock' hqueue'.symm (fun hne => absurd rfl hne) fun hconnected =>
      absurd (hstate'.symm.trans hconnected) hstate

theorem connect (hconnected : sock.state_ ≠ .kSockConnected)
    (addr : Status UnixSocketAddr) (path : Option ℕ) (random : Random) :
    Inv (s.connect k sock addr path random).2 := by
  have hname := h.nameLocal hsock random
  unfold UnixStreams.connect
  split_ifs with hlisten
  · exact h
  cases addr with
  | error e => exact h
  | ok a =>
    dsimp only
    cases getPeer s.stream_tbl a path with
    | error e => exact h
    | ok peer =>
      generalize s.nameLocal k sock random = r at hname
      obtain ⟨answer, s'⟩ := r
      cases answer with
      | error e => exact hname.1
      | ok sock' =>
        obtain ⟨hsock', hstate', -⟩ := hname.2 sock' rfl
        dsimp only
        cases henqueue : s'.addPipes.enqueueConnection peer (makeStreamPair s'.nextPipe sock'.local_name_ a).2 with
        | error e => exact hname.1
        | ok s'' =>
          obtain ⟨name, l, dent, hpeer, rfl⟩ := enqueueConnection_eq henqueue
          have hends : (makeStreamPair s'.nextPipe sock'.local_name_ a).1.rx =
              (makeStreamPair s'.nextPipe sock'.local_name_ a).2.tx ∧
            (makeStreamPair s'.nextPipe sock'.local_name_ a).1.tx =
              (makeStreamPair s'.nextPipe sock'.local_name_ a).2.rx := ⟨rfl, rfl⟩
          have hpush := hname.1.addPipes.push hpeer hsock' (hstate' ▸ hlisten)
            (hstate' ▸ hconnected) ⟨Nat.lt_succ_self _, Nat.lt_add_of_pos_right two_pos⟩ hends
            (hname.1.nodup_concat peer sock'.local_name_ a)
          exact hpush.withPipes (Kept.attach _ k) (Nat.le_refl _)

theorem accept (nonblocking : Bool) : Inv (s.accept k sock nonblocking).2 := by
  unfold UnixStreams.accept
  split
  · next name l dent =>
      cases hq : l.accept_q with
      | nil => exact h
      | cons conn rest => exact (h.pop hsock hq).makeConnected name conn
  · exact h

theorem shutdown (how : ShutdownHow) : Inv (s.shutdown k sock how).2 := by
  unfold UnixStreams.shutdown
  split
  · exact h.set hsock rfl (fun hstate => absurd rfl hstate) nofun
  · cases how with
    | rd => exact h.withPipes (Kept.closeReader _ _) (Nat.le_refl _)
    | wr => exact h.withPipes (Kept.closeWriter _ _) (Nat.le_refl _)
    | rdwr => exact h.withPipes (Kept.closeBoth _ _) (Nat.le_refl _)
    | other => exact h
  · exact h

end Inv

variable {sock : UnixStreamSocket}

theorem sockets_of_file {s : UnixStreams} {k : ℕ} (h : s.file k = some sock) : s.sockets k = some sock := by
  unfold file at h
  split_ifs at h
  exact h

/-- Nobody connects a socket that is connected, or one without a name to itself, and nobody listens on a
socket with waiting connections. -/
def Proper (s : UnixStreams) : StreamCall → Prop
  | .connect k addr path _ => ∀ sock ∈ s.file k, sock.state_ ≠ .kSockConnected ∧
      ∀ a ∈ addr.toOption, getPeer s.stream_tbl a path = .ok k → sock.has_name = true
  | .listen k _ _ => ∀ sock ∈ s.file k, sock.accept_q = []
  | _ => True

instance (s : UnixStreams) : DecidablePred s.Proper := fun call => by
  unfold Proper
  split <;> infer_instance

theorem inv_step (s : UnixStreams) (call : StreamCall) (h : Inv s) (hproper : s.Proper call) : Inv (s.step call) := by
  cases call with
  | socket => exact h.make rfl
  | socketpair => exact (h.addPipes.makeConnected _ _).makeConnected _ _
  | bind k addr inserted => exact Run.holds_elim h fun sock hsock => h.bind (sockets_of_file hsock) addr inserted
  | listen k backlog random =>
    exact Run.holds_elim h fun sock hsock => h.listen (sockets_of_file hsock) (hproper sock hsock) backlog random
  | connect k addr path random =>
    exact Run.holds_elim h fun sock hsock =>
      h.connect (sockets_of_file hsock) (hproper sock hsock).1 addr path random
  | accept k nonblocking => exact Run.holds_elim h fun sock hsock => h.accept (sockets_of_file hsock) nonblocking
  | shutdown k how => exact Run.holds_elim h fun sock hsock => h.shutdown (sockets_of_file hsock) how
  | expire k => exact h.withTable rfl
  | destroy k =>
    refine Run.holds_elim h fun sock hsock => ?_
    unfold doomed at hsock
    split_ifs at hsock
    exact h.destroy hsock

theorem connect_self {s : UnixStreams} {k : ℕ} {a : UnixSocketAddr} {path : Option ℕ}
    (hsock : s.file k = some sock) (hlisten : sock.state_ ≠ .kSockListening) (hname : sock.has_name)
    (hself : getPeer s.stream_tbl a path = .ok k) (random : Random) :
    s.connect k sock (.ok a) path random = (.error .ECONNREFUSED, s) := by
  have hrefused : ∀ conn, s.addPipes.enqueueConnection k conn = .error .ECONNREFUSED := by
    intro conn
    unfold enqueueConnection
    have hsock' : s.addPipes.sockets k = some sock := sockets_of_file hsock
    rw [hsock']
    split
    · next heq => exact absurd (congrArg UnixStreamSocket.state_ (Option.some.inj heq)) hlisten
    · rfl
  have hnamed : s.nameLocal k sock random = (.ok sock, s) := if_pos hname
  unfold connect
  rw [if_neg hlisten]
  dsimp only
  rw [hself]
  rw [hnamed]
  dsimp only
  rw [hrefused]

/-- A proper call that connects a socket to itself, while it does not listen, fails and changes nothing. -/
def RefusesItself (s : UnixStreams) : Prop :=
  ∀ (k : ℕ) (sock : UnixStreamSocket) (a : UnixSocketAddr) (path : Option ℕ) (random : Random),
    s.file k = some sock → s.Proper (.connect k (.ok a) path random) → sock.state_ ≠ .kSockListening →
    getPeer s.stream_tbl a path = .ok k → ∃ e, s.connect k sock (.ok a) path random = (.error e, s)

/-- As long as all calls are proper, every connection is accepted once and in order, waits, or is closed; and
a socket that does not listen cannot connect to itself. -/
theorem streams_accounted (calls : List StreamCall) (hproper : Run.Admitted step Proper start calls) :
    let s := Run.exec step start calls
    s.Accounted ∧ s.RefusesItself := by
  intro s
  have h : Inv s := Run.invariant_exec inv_step Inv.start hproper
  refine ⟨h.accounted, fun k sock a path random hsock hconnect hlisten hself => ?_⟩
  have hname : sock.has_name = true := (hconnect sock hsock).2 a rfl hself
  exact ⟨.ECONNREFUSED, connect_self hsock hlisten hname hself random⟩

def named : Status UnixSocketAddr := .ok ⟨.Abstract, "a"⟩

/-- Three clients connect, the first is accepted, and the listener is closed. -/
def properCalls : List StreamCall :=
  [.socket, .bind 0 named (.ok ()), .listen 0 5 (sameRandom 0), .socket, .socket, .socket,
    .connect 1 named none (sameRandom 1), .connect 0 named none (sameRandom 0),
    .connect 2 named none (sameRandom 2), .connect 3 named none (sameRandom 3), .accept 0 true, .shutdown 0 .rd,
    .expire 0, .destroy 0]

theorem streams_accounted_properCalls :
    let s := Run.exec step start properCalls
    (s.Accounted ∧ s.RefusesItself) ∧
    (s.acceptedBy 0).map UnixStreamConnection.tx = [0] ∧ (s.connectsTo 0).map UnixStreamConnection.tx = [0, 2, 4] ∧
    (s.pipes 0).writer_closed_ = false ∧ (s.pipes 2).writer_closed_ = true :=
  ⟨streams_accounted properCalls (by decide +kernel), by decide +kernel⟩

def listenAgainCalls : List StreamCall :=
  [.socket, .bind 0 named (.ok ()), .listen 0 5 (sameRandom 0), .socket, .connect 1 named none (sameRandom 1),
    .listen 0 5 (sameRandom 0)]

def emptyNameCalls : List StreamCall := [.socket, .bind 0 (.ok ⟨.Abstract, ""⟩) (.ok ())]

/-- The waiting connection is in no queue, and its client blocks; a connected socket connects again; a socket
with the empty name cannot connect to itself, and is renamed. -/
theorem connections_forgotten :
    let s := Run.exec step start listenAgainCalls
    let again := (s.file 1).map fun sock => (sock.state_, (s.connect 1 sock named none (sameRandom 2)).1)
    let s' := Run.exec step start emptyNameCalls
    let self := (s'.file 0).map fun sock => s'.connect 0 sock (.ok ⟨.Abstract, ""⟩) none (sameRandom 0)
    ((s.connectsTo 0).length = 1 ∧ s.acceptedBy 0 = [] ∧ (s.sockets 0).map UnixStreamSocket.accept_q = some [] ∧
      ((Run.exec (StreamPipe.step streamRing) (s.pipes 0)
        (List.replicate 2 (.reader () (.read 1 false) false false))).readers ()).map Transfer.parked = some true) ∧
    again = some (.kSockConnected, .ok ()) ∧ self.map Prod.fst = some (.error .ECONNREFUSED) ∧
    self.map (fun r => (r.2.sockets 0).map UnixStreamSocket.local_name_) =
      some (some ⟨.Abstract, randomName fun _ => 0⟩) := by
  decide +kernel

end Junction.UnixStreams
