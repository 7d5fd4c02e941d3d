import Junction.ByteChannelRuns
import Junction.MessageChannelPeek

/-!
# Calls that transfer nothing

A read of zero bytes from a stream that has some fails like a read from an empty stream, but there is nothing to
wait for; so does a read of a message into no buffers, and a write of a message from buffers that are all empty.
These calls try again and again and never park. Every other call returns or parks.
-/

namespace Junction
open Interleaving ChannelType ByteChannel MessageChannel

inductive LoopEnd (σ ρ : Type)
  | returned (answer : Status ρ) (c : σ)
  | parked

section Retry
variable {σ ρ : Type} (attempt : σ → Status ρ × σ) (success : ρ → Status ρ) (giveUp : σ → Option (Status ρ))
  (ready : σ → Bool) (closed : σ → Option (Status ρ))

/-- The loop of `DoRead` and `DoWrite` when no other thread runs and no signal comes, for so many iterations. -/
def retry : ℕ → σ → Option (LoopEnd σ ρ)
  | 0, _ => none
  | n + 1, c =>
    match attempt c with
    | (.ok a, c') => some (.returned (success a) c')
    | (.error _, c') =>
      match giveUp c' with
      | some answer => some (.returned answer c')
      | none =>
        if ready c' then
          match closed c' with
          | some answer => some (.returned answer c')
          | none => retry n c'
        else some .parked

def Settles (loop : ℕ → σ → Option (LoopEnd σ ρ)) (c : σ) : Prop := ∃ n, (loop n c).isSome = true

def ReturnsUnchanged (loop : ℕ → σ → Option (LoopEnd σ ρ)) (c : σ) : Prop :=
  ∃ n answer, loop n c = some (.returned answer c)

variable {attempt success giveUp ready closed} {c : σ}

section Fails
variable {e : Error} (hfails : attempt c = (.error e, c))
include hfails

theorem retry_spins (hgive : giveUp c = none) (hready : ready c) (hclosed : closed c = none) (n : ℕ) :
    retry attempt success giveUp ready closed n c = none := by
  induction n with
  | zero => rfl
  | succ n ih => simp [retry, hfails, hgive, hready, hclosed, ih]

theorem settles_of_fails : Settles (retry attempt success giveUp ready closed) c ↔
    (giveUp c).isSome ∨ ready c = false ∨ (closed c).isSome := by
  cases hgive : giveUp c with
  | some answer => exact iff_of_true ⟨1, by simp [retry, hfails, hgive]⟩ (.inl rfl)
  | none =>
    cases hready : ready c with
    | false => exact iff_of_true ⟨1, by simp [retry, hfails, hgive, hready]⟩ (.inr (.inl rfl))
    | true =>
      cases hclosed : closed c with
      | some answer => exact iff_of_true ⟨1, by simp [retry, hfails, hgive, hready, hclosed]⟩ (.inr (.inr rfl))
      | none =>
        refine iff_of_false ?_ (by simp)
        rintro ⟨n, hn⟩
        rw [retry_spins hfails hgive hready hclosed] at hn
        cases hn

theorem returnsUnchanged_of_fails : ReturnsUnchanged (retry attempt success giveUp ready closed) c ↔
    (giveUp c).isSome ∨ ready c ∧ (closed c).isSome := by
  cases hgive : giveUp c with
  | some answer => exact iff_of_true ⟨1, answer, by simp [retry, hfails, hgive]⟩ (.inl rfl)
  | none =>
    cases hready : ready c with
    | false =>
      refine iff_of_false ?_ (by simp)
      rintro ⟨n, answer, hn⟩
      cases n with
      | zero => cases hn
      | succ n => simp [retry, hfails, hgive, hready] at hn
    | true =>
      cases hclosed : closed c with
      | some answer =>
        exact iff_of_true ⟨1, answer, by simp [retry, hfails, hgive, hready, hclosed]⟩ (.inr ⟨rfl, rfl⟩)
      | none =>
        refine iff_of_false ?_ (by simp)
        rintro ⟨n, answer, hn⟩
        rw [retry_spins hfails hgive hready hclosed] at hn
        cases hn

end Fails

theorem settles_of_ok {a : ρ} {c' : σ} (hok : attempt c = (.ok a, c')) :
    Settles (retry attempt success giveUp ready closed) c := ⟨1, by simp [retry, hok]⟩

theorem returnsUnchanged_of_ok {a : ρ} (hok : attempt c = (.ok a, c)) :
    ReturnsUnchanged (retry attempt success giveUp ready closed) c := ⟨1, success a, by simp [retry, hok]⟩

end Retry

structure ChannelEnds where
  reader_closed_ : Bool
  writer_closed_ : Bool

def ChannelEnds.closed (s : ChannelEnds) : Bool := s.reader_closed_ || s.writer_closed_

namespace ChannelType
variable {σ α : Type} {resp : α → Type} {κr ρ κw : Type} (C : ChannelType σ α resp κr ρ κw) (s : ChannelEnds)

/-- `DoRead` alone. -/
def doRead (call : κr) (nonblocking : Bool) : ℕ → σ → Option (LoopEnd σ ρ) :=
  retry (fun c => (C.read call).run C.exec c) .ok
    (fun c => if nonblocking then
        some (if s.writer_closed_ && C.isEmpty c then .ok C.eof else .error .EAGAIN)
      else none)
    (fun c => !C.isEmpty c || s.writer_closed_ || s.reader_closed_)
    (fun c => if (s.reader_closed_ || s.writer_closed_) && C.isEmpty c then some (.ok C.eof) else none)

/-- `DoWrite` alone, and the test before it. -/
def doWrite (call : κw) (nonblocking : Bool) (n : ℕ) (c : σ) : Option (LoopEnd σ ℕ) :=
  if C.skips call then some (.returned (.ok 0) c)
  else
    retry (fun c => (C.write call).run C.exec c) (fun n => if s.reader_closed_ then .error .EPIPE else .ok n)
      (fun _ => if nonblocking then some (.error (if s.reader_closed_ then .EPIPE else .EAGAIN)) else none)
      (fun c => !C.isFull c || s.reader_closed_ || s.writer_closed_)
      (fun _ => if s.writer_closed_ || s.reader_closed_ then some (.error .EPIPE) else none) n c

variable {C s} {nonblocking : Bool} {c : σ} {e : Error}

theorem doRead_settles {call : κr} (hfails : (C.read call).run C.exec c = (.error e, c)) :
    Settles (C.doRead s call nonblocking) c ↔ nonblocking ∨ C.isEmpty c := by
  rw [doRead, settles_of_fails hfails]
  cases nonblocking <;> cases C.isEmpty c <;> cases s.reader_closed_ <;> cases s.writer_closed_ <;> simp

theorem doRead_returns {call : κr} (hfails : (C.read call).run C.exec c = (.error e, c)) :
    ReturnsUnchanged (C.doRead s call nonblocking) c ↔ nonblocking ∨ C.isEmpty c ∧ s.closed := by
  rw [doRead, returnsUnchanged_of_fails hfails, ChannelEnds.closed]
  cases nonblocking <;> cases C.isEmpty c <;> cases s.reader_closed_ <;> cases s.writer_closed_ <;> simp

theorem doWrite_settles {call : κw} (hfails : (C.write call).run C.exec c = (.error e, c)) :
    Settles (C.doWrite s call nonblocking) c ↔ C.skips call ∨ nonblocking ∨ C.isFull c ∨ s.closed := by
  cases hskips : C.skips call with
  | true => exact iff_of_true ⟨0, by simp [doWrite, hskips]⟩ (.inl rfl)
  | false =>
    simp only [Settles, doWrite, hskips, Bool.false_eq_true, if_false]
    refine (settles_of_fails hfails).trans ?_
    rw [ChannelEnds.closed]
    cases nonblocking <;> cases C.isFull c <;> cases s.reader_closed_ <;> cases s.writer_closed_ <;> simp

theorem doWrite_returns {call : κw} (hfails : (C.write call).run C.exec c = (.error e, c)) :
    ReturnsUnchanged (C.doWrite s call nonblocking) c ↔ C.skips call ∨ nonblocking ∨ s.closed := by
  cases hskips : C.skips call with
  | true => exact iff_of_true ⟨0, .ok 0, by simp [doWrite, hskips]⟩ (.inl rfl)
  | false =>
    simp only [ReturnsUnchanged, doWrite, hskips, Bool.false_eq_true, if_false]
    refine (returnsUnchanged_of_fails hfails).trans ?_
    rw [ChannelEnds.closed]
    cases nonblocking <;> cases C.isFull c <;> cases s.reader_closed_ <;> cases s.writer_closed_ <;> simp

theorem doWrite_of_ok {call : κw} {n : ℕ} {c' : σ} (hok : (C.write call).run C.exec c = (.ok n, c')) :
    Settles (C.doWrite s call nonblocking) c ∧ (c' = c → ReturnsUnchanged (C.doWrite s call nonblocking) c) := by
  cases hskips : C.skips call with
  | true => exact ⟨⟨0, by simp [doWrite, hskips]⟩, fun _ => ⟨0, .ok 0, by simp [doWrite, hskips]⟩⟩
  | false =>
    simp only [Settles, ReturnsUnchanged, doWrite, hskips, Bool.false_eq_true, if_false]
    refine ⟨settles_of_ok hok, ?_⟩
    rintro rfl
    exact returnsUnchanged_of_ok hok

end ChannelType

namespace ByteChannel
variable {r : RingSize} {c : ByteChannel} {s : ChannelEnds} {nonblocking : Bool}

/-- A read that gets an answer: it has room for a byte, or may not block, or the stream has something to say. -/
def ReadCall.Served (nonblocking closed empty : Bool) : ReadCall → Prop
  | .read len _ => 0 < len ∨ nonblocking = true ∨ empty = true ∧ closed = true
  | .readv iov _ => 0 < iov.sum ∨ nonblocking = true ∨ empty = false ∨ closed = true

def WriteCall.Served (nonblocking closed full : Bool) : WriteCall → Prop
  | .write _ => True
  | .writev iov => 0 < iov.flatten.length ∨ nonblocking = true ∨ full = false ∨ closed = true

theorem doRead_iff (hfit : Fits r c) (call : ReadCall) : Settles ((pipeType r).doRead s call nonblocking) c ∧
        (call.room = 0 → ReturnsUnchanged ((pipeType r).doRead s call nonblocking) c) ↔
      call.Served nonblocking s.closed (isEmpty c) := by
  have hrun : ((pipeType r).read call).run (pipeType r).exec c = _ := run_read hfit call
  have hempty : isEmpty c ↔ c.used = 0 := isEmpty_iff
  by_cases hgives : call.gives c.used
  · rw [if_pos hgives] at hrun
    rw [doRead_settles hrun, doRead_returns hrun]
    change (_ ∨ isEmpty c) ∧ (_ → _ ∨ isEmpty c ∧ _) ↔ _
    cases call with
    | read len peek =>
      have hmin : min c.used len = 0 := by simpa [ReadCall.gives] using hgives
      simp only [ReadCall.Served, ReadCall.room]
      grind
    | readv iov peek =>
      have hused : isEmpty c := hempty.2 (by simpa [ReadCall.gives] using hgives)
      simp only [ReadCall.Served, ReadCall.room, hused]
      grind
  · rw [if_neg hgives] at hrun
    have hkeeps : call.room = 0 → (if call.peek then c
        else { c with out_ := c.out_ + BitVec.ofNat 64 (min c.used call.room) }) = c := by
      intro hroom
      rw [hroom, Nat.min_zero]
      split_ifs
      · rfl
      · exact congrArg (mk c.in_ · c.buf_) (BitVec.add_zero c.out_)
    refine iff_of_true ⟨settles_of_ok hrun, fun hroom => ?_⟩ ?_
    · rw [hkeeps hroom] at hrun
      exact returnsUnchanged_of_ok hrun
    cases call with
    | read len peek => exact .inl (by simp [ReadCall.gives] at hgives; omega)
    | readv iov peek =>
      refine .inr (.inr (.inl (Bool.eq_false_iff.2 fun h => ?_)))
      exact hgives (by simpa [ReadCall.gives] using hempty.1 h)

theorem run_write_eq (hfit : Fits r c) (call : WriteCall) : ((writer r).code call).run exec c =
    (deposit r call c.in_ c.out_).run exec c := by
  obtain ⟨rest, hcode, hrest⟩ := writer_code call
  rw [hcode]
  change (rest c.in_ c.out_).run exec c = _
  rw [hrest _ _ hfit]

theorem doWrite_iff (hfit : Fits r c) (call : WriteCall) : Settles ((pipeType r).doWrite s call nonblocking) c ∧
        (call.bytes.length = 0 → ReturnsUnchanged ((pipeType r).doWrite s call nonblocking) c) ↔
      call.Served nonblocking s.closed (isFull r c) := by
  have hrun : ((pipeType r).write call).run (pipeType r).exec c = _ := run_write_eq hfit call
  have hfull : isFull r c ↔ (r.size - (c.in_ - c.out_)).toNat = 0 := by
    have hle : (c.in_ - c.out_).toNat ≤ r.size.toNat := hfit
    rw [isFull_iff, BitVec.toNat_sub_of_le hle, used]
    omega
  rw [deposit] at hrun
  by_cases hgives : call.gives (r.size - (c.in_ - c.out_)).toNat
  · rw [if_pos hgives] at hrun
    rw [doWrite_settles hrun, doWrite_returns hrun]
    change (_ ∨ _ ∨ isFull r c ∨ _) ∧ _ ↔ _
    cases call with
    | write bytes =>
      have hmin : min (r.size - (c.in_ - c.out_)).toNat bytes.length = 0 := by
        simpa [WriteCall.gives] using hgives
      have hskips : (pipeType r).skips (.write bytes) ↔ bytes.length = 0 :=
        List.isEmpty_iff.trans List.length_eq_zero_iff.symm
      simp only [WriteCall.Served, WriteCall.bytes, iff_true, hskips]
      grind
    | writev iov =>
      have hroom : isFull r c := hfull.2 (by simpa [WriteCall.gives] using hgives)
      have hskips : (pipeType r).skips (.writev iov) = false := rfl
      simp only [WriteCall.Served, WriteCall.bytes, hroom, hskips]
      grind
  · rw [if_neg hgives, fillAndStore, Prog.run_bind] at hrun
    have hok := @ChannelType.doWrite_of_ok _ _ _ _ _ _ (pipeType r) s nonblocking c call _ _ hrun
    obtain ⟨hsettles, hreturns⟩ := hok
    refine iff_of_true ⟨hsettles, fun hlen => hreturns ?_⟩ ?_
    · rw [hlen, Nat.min_zero]
      exact congrArg (mk · c.out_ c.buf_) (BitVec.add_zero c.in_)
    cases call with
    | write bytes => trivial
    | writev iov =>
      refine .inr (.inr (.inl (Bool.eq_false_iff.2 fun h => ?_)))
      exact hgives (by simpa [WriteCall.gives] using hfull.1 h)

end ByteChannel

namespace MessageChannel
variable {T : Type} [Inhabited T] {r : RingSize} {movedFrom : T → T} {multiWriter : Bool}
  {c : MessageChannel T} {s : ChannelEnds} {nonblocking : Bool}

/-- The channel of a socket for datagrams, or of a pipe for messages, which skips some writes. -/
def waitableType (r : RingSize) (movedFrom : T → T) (multiWriter : Bool) (skips : WriteCall T → Bool) :
    ChannelType (MessageChannel T) (Access T) Access.Resp ReadCall (List UInt8 × Option T) (WriteCall T) :=
  { channelType r movedFrom multiWriter with skips := skips }

def WriteCall.Idle : WriteCall T → Prop
  | .write _ _ => False
  | .writev iov _ => (iov.map List.length).sum = 0

variable {skips : WriteCall T → Bool}

theorem doRead_iff (call : ReadCall) :
    Settles ((waitableType r movedFrom multiWriter skips).doRead s call nonblocking) c ↔
      ¬call.Idle ∨ nonblocking ∨ isEmpty c := by
  have hrun : ((waitableType r movedFrom multiWriter skips).read call).run
      (waitableType r movedFrom multiWriter skips).exec c = _ := runRead_eq call
  by_cases hempty : c.in_ = c.out_
  · rw [readAnswer_of_empty hempty] at hrun
    refine iff_of_true ((doRead_settles hrun).2 (.inr ?_)) (.inr (.inr ?_))
    · exact decide_eq_true hempty
    · exact decide_eq_true hempty
  by_cases hidle : call.Idle
  · rw [readAnswer_of_idle call hempty hidle] at hrun
    rw [doRead_settles hrun]
    exact (or_iff_right (not_not.2 hidle)).symm
  · rw [readAnswer_of_message call hempty hidle rfl] at hrun
    exact iff_of_true (settles_of_ok hrun) (.inl hidle)

theorem write_of_idle (hroom : isFull r c = false) {call : WriteCall T} (hidle : call.Idle) :
    ((writer r).code call).run (perform movedFrom) c = (.error .EINVAL, c) := by
  have hroom' : ¬r.size ≤ c.in_ - c.out_ := of_decide_eq_false hroom
  cases call with
  | write bytes auxIn => cases hidle
  | writev iov auxIn =>
    have hlen : (iov.map List.length).sum = 0 := hidle
    change Prog.run (perform movedFrom) (ite (r.size ≤ c.in_ - c.out_) _
      (ite ((iov.map List.length).sum = 0) _ _)) c = _
    rw [if_neg hroom', if_pos hlen]
    rfl

theorem write_of_not_idle (hroom : isFull r c = false) {call : WriteCall T} (hidle : ¬call.Idle) :
    ∃ n, (((writer r).code call).run (perform movedFrom) c).1 = .ok n := by
  have hroom' : ¬r.size ≤ c.in_ - c.out_ := of_decide_eq_false hroom
  cases call with
  | write bytes auxIn =>
    refine ⟨bytes.length, ?_⟩
    change (Prog.run (perform movedFrom) (ite (r.size ≤ c.in_ - c.out_) _ _) c).1 = _
    rw [if_neg hroom']
    cases auxIn with
    | none | some => rfl
  | writev iov auxIn =>
    have hlen : ¬(iov.map List.length).sum = 0 := hidle
    cases hanswer : (((writer r).code (.writev iov auxIn)).run (perform movedFrom) c).1 with
    | ok n => exact ⟨n, rfl⟩
    | error e =>
      change (Prog.run (perform movedFrom) (ite (r.size ≤ c.in_ - c.out_) _
        (ite ((iov.map List.length).sum = 0) _ _)) c).1 = _ at hanswer
      rw [if_neg hroom', if_neg hlen] at hanswer
      cases auxIn with
      | none | some => cases hanswer

theorem doWrite_iff (call : WriteCall T) :
    Settles ((waitableType r movedFrom multiWriter skips).doWrite s call nonblocking) c ↔
      ¬call.Idle ∨ skips call ∨ nonblocking ∨ isFull r c ∨ s.closed := by
  have hfails : ∀ e, ((writer r).code call).run (perform movedFrom) c = (.error e, c) →
      (Settles ((waitableType r movedFrom multiWriter skips).doWrite s call nonblocking) c ↔
        skips call ∨ nonblocking ∨ isFull r c ∨ s.closed) :=
    fun _ hrun => doWrite_settles hrun
  cases hfull : isFull r c with
  | true => exact iff_of_true ((hfails _ (write_of_full hfull call)).2 (by simp [hfull])) (by simp)
  | false =>
    by_cases hidle : call.Idle
    · rw [hfails _ (write_of_idle hfull hidle), hfull]
      exact (or_iff_right (not_not.2 hidle)).symm
    · obtain ⟨n, hok⟩ := @write_of_not_idle _ _ r movedFrom c hfull call hidle
      exact iff_of_true (doWrite_of_ok (Prod.ext hok rfl)).1 (.inl hidle)

end MessageChannel

/-- Which calls on a stream return or park, and return at once if they have nothing to transfer; and which calls
on a channel for messages return or park. -/
theorem transfers_settle_iff {T : Type} [Inhabited T] (r : RingSize) (s : ChannelEnds) (nonblocking : Bool)
    (movedFrom : T → T) (multiWriter : Bool) (skips : MessageChannel.WriteCall T → Bool) (bytes : ByteChannel)
    (messages : MessageChannel T) (hfit : ByteChannel.Fits r bytes) :
    (∀ call, Settles ((pipeType r).doRead s call nonblocking) bytes ∧
        (call.room = 0 → ReturnsUnchanged ((pipeType r).doRead s call nonblocking) bytes) ↔
      call.Served nonblocking s.closed (isEmpty bytes)) ∧
    (∀ call, Settles ((pipeType r).doWrite s call nonblocking) bytes ∧
        (call.bytes.length = 0 → ReturnsUnchanged ((pipeType r).doWrite s call nonblocking) bytes) ↔
      call.Served nonblocking s.closed (isFull r bytes)) ∧
    (∀ call, Settles ((waitableType r movedFrom multiWriter skips).doRead s call nonblocking)
        messages ↔ ¬call.Idle ∨ nonblocking = true ∨ isEmpty messages = true) ∧
    ∀ call, Settles ((waitableType r movedFrom multiWriter skips).doWrite s call nonblocking)
        messages ↔ ¬call.Idle ∨ skips call = true ∨ nonblocking = true ∨
          isFull r messages = true ∨ s.closed = true :=
  ⟨doRead_iff hfit, doWrite_iff hfit, doRead_iff, doWrite_iff⟩

def oneByteRing : RingSize := ⟨1, 0, by decide, rfl⟩

theorem transfers_settle_oneByte :
    Settles ((pipeType oneByteRing).doRead ⟨false, false⟩ (.read 1 false) false) ⟨1, 0, fun _ => 7⟩ :=
  (((transfers_settle_iff oneByteRing ⟨false, false⟩ false id false (fun _ => false)
    ⟨1, 0, fun _ => 7⟩ ⟨0, 0, fun _ => ⟨[], ()⟩⟩ (by unfold ByteChannel.Fits; decide)).1 (.read 1 false)).2
      (.inl Nat.zero_lt_one)).1

/-- A read of no bytes from a stream that has one never returns and never parks. -/
theorem read_nothing_spins : ¬Settles ((pipeType oneByteRing).doRead ⟨false, false⟩ (.read 0 false) false)
      ⟨1, 0, fun _ => 7⟩ := by
  rw [ChannelType.doRead_settles rfl]
  decide

end Junction
