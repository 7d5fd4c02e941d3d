import Junction.MessageChannelCode
import Junction.WaitableChannelWakeups

/-!
# Peeks

A peek is to leave the channel as it finds it. The overload of `Read` without auxiliary data takes the
message whatever it is told, and auxiliary data are moved out of their slot by a peek like by any other
read; for the sender's address of a datagram that leaves an empty name.
-/

namespace Junction.MessageChannel
open Interleaving List
variable {T : Type}

def contents (r : RingSize) (c : MessageChannel T) : List (Message T) :=
  Ring.window r.size.toNat c.msgs_ c.out_.toNat (c.in_ - c.out_).toNat

def front (r : RingSize) (c : MessageChannel T) : Message T := c.msgs_ (r.slot c.out_)

theorem head?_contents {r : RingSize} {c : MessageChannel T} (h : c.in_ ≠ c.out_) :
    (contents r c).head? = some (c.front r) := by
  have hused : 0 < (c.in_ - c.out_).toNat := by bv_omega
  obtain ⟨n, hn⟩ := Nat.exists_eq_succ_of_ne_zero hused.ne'
  rw [contents, hn, front, r.slot_eq, Ring.window, range_succ_eq_map]
  rfl

section Read
variable (r : RingSize) (movedFrom : T → T) (c : MessageChannel T)

variable (call : ReadCall)

def runRead : Status (List UInt8 × Option T) × MessageChannel T :=
  ((reader r).code call).run (perform movedFrom) c

namespace ReadCall

def taking : ReadCall → ReadCall
  | .read len auxOut _ => .read len auxOut false
  | .readShort len _ => .readShort len false
  | .readv iov _ auxOut => .readv iov false auxOut

def Idle : ReadCall → Prop
  | .readv iov _ _ => iov = []
  | _ => False

instance : DecidablePred Idle
  | .read _ _ _ => .isFalse id
  | .readShort _ _ => .isFalse id
  | .readv iov _ _ => inferInstanceAs (Decidable (iov = []))

def leaves : ReadCall → Bool
  | .read _ _ peek => peek
  | .readShort _ _ => false
  | .readv _ peek _ => peek

end ReadCall

def readAnswer : Status (List UInt8 × Option T) :=
  if c.in_ = c.out_ then .error .EAGAIN
  else if call.Idle then .error .EINVAL
  else .ok ((c.front r).data.take call.room, if call.auxOut then some (c.front r).aux else none)

def moveAux (auxOut : Bool) : MessageChannel T :=
  if auxOut then c.modifyMsg (r.slot c.out_) fun m => { m with aux := movedFrom m.aux } else c

def afterRead : MessageChannel T :=
  if c.in_ = c.out_ ∨ call.Idle then c
  else if call.leaves then c.moveAux r movedFrom call.auxOut
  else MessageChannel.modifyMsg { c.moveAux r movedFrom call.auxOut with out_ := c.out_ + 1 }
    (r.slot c.out_) fun m => { m with data := [] }

variable {r movedFrom c}

theorem run_takeAux (auxOut : Bool) : (takeAux (r.slot c.out_) auxOut).run (perform movedFrom) c =
      (if auxOut then some (c.front r).aux else none, c.moveAux r movedFrom auxOut) := by
  cases auxOut with
  | true | false => rfl

theorem run_finish (bytes : List UInt8) (auxOut peek : Bool) : Prog.run (perform movedFrom) (do
      let aux ← takeAux (r.slot c.out_) auxOut
      if peek then return .ok (bytes, aux)
      else
        storeOut (c.out_ + 1)
        clearData (r.slot c.out_)
        return .ok (bytes, aux) : Code T (Status (List UInt8 × Option T))) c =
      (.ok (bytes, if auxOut then some (c.front r).aux else none),
        if peek then c.moveAux r movedFrom auxOut
        else MessageChannel.modifyMsg { c.moveAux r movedFrom auxOut with out_ := c.out_ + 1 }
          (r.slot c.out_) fun m => { m with data := [] }) := by
  rw [Prog.run_bind, run_takeAux]
  cases peek with
  | true | false => rfl

theorem readAnswer_of_empty (hempty : c.in_ = c.out_) (call : ReadCall) :
    (readAnswer r c call, afterRead r movedFrom c call) = (.error .EAGAIN, c) := by
  rw [readAnswer, afterRead, if_pos hempty, if_pos (.inl hempty)]

theorem readAnswer_of_idle (hempty : c.in_ ≠ c.out_) (hidle : call.Idle) :
    (readAnswer r c call, afterRead r movedFrom c call) = (.error .EINVAL, c) := by
  rw [readAnswer, afterRead, if_neg hempty, if_pos hidle, if_pos (.inr hidle)]

theorem readAnswer_of_message (hempty : c.in_ ≠ c.out_) (hidle : ¬call.Idle)
    {bytes : List UInt8} (hbytes : bytes = (c.front r).data.take call.room) :
    (readAnswer r c call, afterRead r movedFrom c call) =
      (.ok (bytes, if call.auxOut then some (c.front r).aux else none),
        if call.leaves then c.moveAux r movedFrom call.auxOut
        else MessageChannel.modifyMsg { c.moveAux r movedFrom call.auxOut with out_ := c.out_ + 1 }
          (r.slot c.out_) fun m => { m with data := [] }) := by
  rw [readAnswer, afterRead, if_neg hempty, if_neg hidle, if_neg (not_or.2 ⟨hempty, hidle⟩), hbytes]

theorem run_read (len : ℕ) (auxOut peek : Bool) : (read r len auxOut peek).run (perform movedFrom) c =
      (readAnswer r c (.read len auxOut peek), afterRead r movedFrom c (.read len auxOut peek)) := by
  change Prog.run (perform movedFrom) (ite (c.in_ = c.out_) _ _) c = _
  by_cases hempty : c.in_ = c.out_
  · rw [if_pos hempty, readAnswer_of_empty hempty]
    rfl
  · rw [if_neg hempty, readAnswer_of_message (.read len auxOut peek) hempty id take_eq_take_min.symm]
    exact run_finish _ auxOut peek

theorem run_readv (iov : List ℕ) (peek auxOut : Bool) : (readv r iov peek auxOut).run (perform movedFrom) c =
      (readAnswer r c (.readv iov peek auxOut), afterRead r movedFrom c (.readv iov peek auxOut)) := by
  change Prog.run (perform movedFrom) (ite (c.in_ = c.out_) _ (ite (iov = []) _ _)) c = _
  by_cases hempty : c.in_ = c.out_
  · rw [if_pos hempty, readAnswer_of_empty hempty]
    rfl
  rw [if_neg hempty]
  by_cases hiov : iov = []
  · rw [if_pos hiov, readAnswer_of_idle (.readv iov peek auxOut) hempty hiov]
    rfl
  have hbytes : (c.front r).data.take (genericCopyv [range' 0 (c.front r).data.length] (cellsOf 0 iov)).length =
      (c.front r).data.take iov.sum := by
    rw [genericCopyv_eq, length_zip, length_flatten_cellsOf, Nat.min_comm, flatten_singleton, length_range']
    exact take_eq_take_min.symm
  rw [if_neg hiov, readAnswer_of_message (.readv iov peek auxOut) hempty hiov hbytes]
  exact run_finish _ auxOut peek

theorem runRead_eq : runRead r movedFrom c call = (readAnswer r c call, afterRead r movedFrom c call) := by
  cases call with
  | read len auxOut peek => exact run_read len auxOut peek
  | readShort len peek => exact run_read len false false
  | readv iov peek auxOut => exact run_readv iov peek auxOut

theorem readAnswer_taking : readAnswer r c call.taking = readAnswer r c call := by
  cases call with
  | read | readShort | readv => rfl

end Read

section Peek
variable {r : RingSize} {movedFrom : T → T} {c : MessageChannel T}

/-- A peek only observes: the messages are the same after it, all later reads answer as if it had not
happened, and the read that it looks ahead to answers the same. -/
structure PeekObserves (r : RingSize) (movedFrom : T → T) (c : MessageChannel T) (call : ReadCall) :
    Prop where
  contents_eq : contents r (runRead r movedFrom c call).2 = contents r c
  later_reads : ∀ calls, Run.answers (runRead r movedFrom) (runRead r movedFrom c call).2 calls =
    Run.answers (runRead r movedFrom) c calls
  same_read : (runRead r movedFrom (runRead r movedFrom c call).2 call.taking).1 =
    (runRead r movedFrom c call).1

/-- There is nothing to read; or the peek is not made with the overload that forgets it, and no auxiliary
data are asked for that change when they are moved away. -/
def PeekSafe (r : RingSize) (movedFrom : T → T) (c : MessageChannel T) (call : ReadCall) : Prop :=
  (c.in_ = c.out_ ∨ call.Idle) ∨
    call.Fair ∧ (call.auxOut = true → movedFrom (c.front r).aux = (c.front r).aux)

theorem front_moveAux (auxOut : Bool) : (c.moveAux r movedFrom auxOut).front r =
    if auxOut then { c.front r with aux := movedFrom (c.front r).aux } else c.front r := by
  cases auxOut with
  | true => exact if_pos rfl
  | false => rfl

theorem moveAux_eq {auxOut : Bool} (h : auxOut → movedFrom (c.front r).aux = (c.front r).aux) :
    c.moveAux r movedFrom auxOut = c := by
  cases auxOut with
  | false => rfl
  | true =>
    have hmsgs : (c.moveAux r movedFrom true).msgs_ = c.msgs_ := by
      funext j
      change (if j = r.slot c.out_ then ({ c.msgs_ j with aux := movedFrom (c.msgs_ j).aux } : Message T)
        else c.msgs_ j) = c.msgs_ j
      split_ifs with hj
      · rw [hj]
        exact congrArg (Message.mk _) (h rfl)
      · rfl
    exact congrArg (MessageChannel.mk c.in_ c.out_) hmsgs

theorem leaves_of_peek {call : ReadCall} (hpeek : call.peek) (hfair : call.Fair) : call.leaves := by
  cases call with
  | read | readv => exact hpeek
  | readShort len peek => exact absurd (hfair.symm.trans hpeek) Bool.false_ne_true

theorem length_contents : (contents r c).length = (c.in_ - c.out_).toNat := Ring.length_window

theorem safe_of_contents_eq {call : ReadCall} (hpeek : call.peek)
    (h : contents r (afterRead r movedFrom c call) = contents r c) : PeekSafe r movedFrom c call := by
  by_cases hnone : c.in_ = c.out_ ∨ call.Idle
  · exact .inl hnone
  obtain ⟨hempty, -⟩ := not_or.1 hnone
  rw [afterRead, if_neg hnone] at h
  cases hleaves : call.leaves with
  | false =>
    -- the message was taken, so that there is one less
    rw [hleaves, if_neg Bool.false_ne_true] at h
    have hlength := congrArg length h
    rw [length_contents, length_contents] at hlength
    have hin : (c.moveAux r movedFrom call.auxOut).in_ = c.in_ := by
      cases call.auxOut <;> rfl
    have : ((c.moveAux r movedFrom call.auxOut).in_ - (c.out_ + 1)).toNat = (c.in_ - c.out_).toNat := hlength
    bv_omega
  | true =>
    rw [hleaves, if_pos rfl] at h
    have hne : (c.moveAux r movedFrom call.auxOut).in_ ≠ (c.moveAux r movedFrom call.auxOut).out_ := by
      cases call.auxOut <;> exact hempty
    have hfront := congrArg head? h
    rw [head?_contents hne, head?_contents hempty, front_moveAux] at hfront
    refine .inr ⟨?_, fun haux => ?_⟩
    · cases call with
      | readShort len peek => exact absurd hleaves Bool.false_ne_true
      | read | readv => trivial
    · rw [if_pos haux] at hfront
      exact congrArg Message.aux (Option.some.inj hfront)

theorem peekObserves_iff (r : RingSize) (movedFrom : T → T) (c : MessageChannel T) (call : ReadCall)
    (hpeek : call.peek = true) : PeekObserves r movedFrom c call ↔ PeekSafe r movedFrom c call := by
  constructor
  · intro h
    have hcontents := h.contents_eq
    rw [runRead_eq] at hcontents
    exact safe_of_contents_eq hpeek hcontents
  intro hsafe
  have hsame : (runRead r movedFrom c call).2 = c := by
    rw [runRead_eq, afterRead]
    rcases hsafe with hnone | ⟨hfair, haux⟩
    · rw [if_pos hnone]
    · rw [if_pos (leaves_of_peek hpeek hfair), moveAux_eq haux, ite_self]
  refine ⟨by rw [hsame], fun calls => by rw [hsame], ?_⟩
  rw [hsame, runRead_eq, runRead_eq]
  exact readAnswer_taking call

end Peek

def movedAddr (a : UnixSocketAddr) : UnixSocketAddr := { a with name := "" }

/-- `UnixDatagramSocket::ReadFrom`, which always has a place for the sender's address. -/
def readFrom (len : ℕ) (peek : Bool) : ReadCall := .read len true peek

def oneDatagram : MessageChannel UnixSocketAddr := ⟨1, 0, fun _ => ⟨[1, 2], ⟨.Abstract, "a"⟩⟩⟩

theorem peekObserves_iff_oneDatagram :
    (PeekObserves (RingSize.ofRequest 4 (by decide)) movedAddr oneDatagram (.read 1 false true) ↔
      PeekSafe (RingSize.ofRequest 4 (by decide)) movedAddr oneDatagram (.read 1 false true)) ∧
    PeekSafe (RingSize.ofRequest 4 (by decide)) movedAddr oneDatagram (.read 1 false true) :=
  ⟨peekObserves_iff _ movedAddr oneDatagram (.read 1 false true) rfl, .inr ⟨trivial, nofun⟩⟩

/-- A peek at a datagram makes the next read report a sender without a name, and a peek without a place for
the sender takes the datagram. -/
theorem peek_loses_sender :
    let r := RingSize.ofRequest 4 (by decide)
    Run.answers (runRead r movedAddr) oneDatagram [readFrom 2 true, readFrom 2 false] =
      [.ok ([1, 2], some ⟨.Abstract, "a"⟩), .ok ([1, 2], some ⟨.Abstract, ""⟩)] ∧
    Run.answers (runRead r movedAddr) oneDatagram [.readShort 2 true, .readShort 2 false] =
      [.ok ([1, 2], none), .error .EAGAIN] := by
  decide +kernel

end Junction.MessageChannel

/-! ### Calls that run alone -/

namespace Junction.MessageChannel
open Interleaving
variable {T : Type} {r : RingSize} {movedFrom : T → T} {c : MessageChannel T}

def isEmpty (c : MessageChannel T) : Bool := c.in_ = c.out_

def isFull (r : RingSize) (c : MessageChannel T) : Bool := r.size ≤ c.in_ - c.out_

/-- The read takes a message out of the channel, if there is one. -/
def ReadCall.takes (call : ReadCall) : Bool := !call.leaves && !decide call.Idle

theorem afterRead_of_not_takes {call : ReadCall} (h : call.takes = false) :
    (afterRead r movedFrom c call).in_ = c.in_ ∧ (afterRead r movedFrom c call).out_ = c.out_ := by
  unfold afterRead
  split_ifs with hidle hleaves
  · exact ⟨rfl, rfl⟩
  · cases hout : call.auxOut with
    | true | false => exact ⟨rfl, rfl⟩
  · rw [not_or] at hidle
    simp [ReadCall.takes, hleaves, hidle.2] at h

variable [Inhabited T]

theorem write_of_full (hfull : isFull r c) (call : WriteCall T) :
    ((writer r).code call).run (perform movedFrom) c = (.error .EAGAIN, c) := by
  have hfull' : r.size ≤ c.in_ - c.out_ := of_decide_eq_true hfull
  cases call with
  | write | writev =>
    change Prog.run (perform movedFrom) (ite (r.size ≤ c.in_ - c.out_) _ _) c = _
    rw [if_pos hfull']
    rfl

theorem write_of_error {call : WriteCall T} {e : Error}
    (herror : (((writer r).code call).run (perform movedFrom) c).1 = .error e) :
    (((writer r).code call).run (perform movedFrom) c).2 = c := by
  by_cases hfull : r.size ≤ c.in_ - c.out_
  · rw [write_of_full (decide_eq_true hfull)]
  cases call with
  | write bytes auxIn =>
    change (Prog.run (perform movedFrom) (ite (r.size ≤ c.in_ - c.out_) _ _) c).1 = _ at herror
    rw [if_neg hfull] at herror
    cases auxIn with
    | none | some => cases herror
  | writev iov auxIn =>
    change (Prog.run (perform movedFrom) (ite (r.size ≤ c.in_ - c.out_) _
      (ite ((iov.map List.length).sum = 0) _ _)) c).1 = _ at herror
    change (Prog.run (perform movedFrom) (ite (r.size ≤ c.in_ - c.out_) _
      (ite ((iov.map List.length).sum = 0) _ _)) c).2 = _
    rw [if_neg hfull] at herror ⊢
    by_cases hlen : (iov.map List.length).sum = 0
    · rw [if_pos hlen]
      rfl
    rw [if_neg hlen] at herror
    cases auxIn with
    | none | some => cases herror

def channelType (r : RingSize) (movedFrom : T → T) (multiWriter : Bool) :
    ChannelType (MessageChannel T) (Access T) Access.Resp ReadCall (List UInt8 × Option T) (WriteCall T) where
  exec := perform movedFrom
  read := (reader r).code
  write := (writer r).code
  isEmpty := isEmpty
  isFull := isFull r
  eof := ([], none)
  skips _ := false
  multiWriter := multiWriter

/-- `Write` returns zero at once if it has no bytes. -/
def WriteCall.skipped : WriteCall T → Bool
  | .write bytes _ => bytes.isEmpty
  | .writev _ _ => false

/-- `MsgPipe`, with the record of its messages. -/
def msgPipeType (r : RingSize) : ChannelType (Shared Unit) (Access Unit) Access.Resp ReadCall
    (List UInt8 × Option Unit) (WriteCall Unit) where
  exec := MessageChannel.exec r id
  read := (reader r).code
  write := (writer r).code
  isEmpty s := isEmpty s.chan
  isFull s := isFull r s.chan
  eof := ([], none)
  skips := WriteCall.skipped
  multiWriter := false

theorem channelType_orderly {multiWriter : Bool} : (channelType r movedFrom multiWriter).Orderly fun _ => True where
  good_read _ _ _ := trivial
  good_write _ _ _ := trivial
  read_empty call c _ hempty := by
    change isEmpty (runRead r movedFrom c call).2
    rwa [runRead_eq, readAnswer_of_empty (of_decide_eq_true hempty)]
  write_full call c _ hfull := by
    change isFull r (((writer r).code call).run (perform movedFrom) c).2
    rwa [write_of_full hfull]
  read_error call c e _ herror hfull := by
    change isFull r (runRead r movedFrom c call).2
    replace herror : (runRead r movedFrom c call).1 = .error e := herror
    rw [runRead_eq] at herror ⊢
    by_cases hempty : c.in_ = c.out_
    · rwa [readAnswer_of_empty hempty]
    by_cases hidle : call.Idle
    · rwa [readAnswer_of_idle call hempty hidle]
    · rw [readAnswer_of_message call hempty hidle rfl] at herror
      cases herror
  write_error call c e _ herror hempty := by
    change isEmpty (((writer r).code call).run (perform movedFrom) c).2
    rwa [write_of_error herror]

end Junction.MessageChannel
