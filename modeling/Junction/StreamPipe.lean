import Junction.ByteChannelRuns
import Junction.WaitableChannelTurns

/-!
# Pipes with one reader and one writer

A read returns nothing only at the end: an end is closed, and every byte that was written has been read. No
thread stays parked once it can go on, unless a thread of the other end is about to wake it.
-/

set_option linter.unusedSectionVars false

namespace Junction.StreamPipe
open Interleaving List ByteChannel
open Transfer WaitableChannel

abbrev Pipe := Stepwise ByteChannel ByteChannel.ReadCall (List UInt8) ByteChannel.WriteCall Unit Unit
  (ThreadWaker Unit)

abbrev PipeTick := ChannelTick ByteChannel.ReadCall ByteChannel.WriteCall Unit Unit

abbrev Reader := Transfer (ByteChannel.ReadCall ⊕ ByteChannel.WriteCall)
  (Sum.elim (fun _ => Status (List UInt8)) fun _ => Status ℕ) ByteChannel.ReadCall (List UInt8)

def written (s : Pipe) : List UInt8 := s.writeOps.flatMap ByteChannel.putBy

def consumed (s : Pipe) : List UInt8 := s.readOps.flatMap ByteChannel.takenBy

def step (r : RingSize) : Pipe → PipeTick → Pipe := WaitableChannel.step (ByteChannel.pipeType r).atomic

def start (c : ByteChannel) : Pipe := WaitableChannel.start c (some 0) [1]

def Filled : PipeTick → Prop
  | .reader _ call _ _ => 0 < call.room
  | .writer _ call _ _ => 0 < call.bytes.length
  | _ => True

instance : DecidablePred Filled := fun tick => by
  unfold Filled
  split <;> infer_instance

variable {r : RingSize} {s : Pipe}

section Ledger

/-- What was written is what was read, followed by what is in the pipe. -/
def Ledger (r : RingSize) (s : Pipe) : Prop := written s = consumed s ++ ByteChannel.contents r s.chan_

theorem Ledger.same {s' : Pipe} (h : Ledger r s) (hsame : SameChannel s s') : Ledger r s' := by
  rw [Ledger, written, consumed, hsame.chan, hsame.readOps, hsame.writeOps]
  exact h

theorem Ledger.readAccess (h : Ledger r s) (hs : Whole (ByteChannel.Fits r) s) (t : Reader) :
    Ledger r (s.readAccess (pipeType r).atomic () t ((pipeType r).atomic.read t.call)) := by
  have hcontents := contents_read hs.good t.call ()
  rw [readAccess_atomic, Ledger, consumed]
  change written s = (s.readOps ++ [_]).flatMap takenBy ++ ByteChannel.contents r _
  rw [flatMap_append, append_assoc, h, consumed, hcontents]
  simp only [flatMap_cons, flatMap_nil, append_nil]
  rfl

theorem Ledger.writeAccess (h : Ledger r s) (hs : Whole (ByteChannel.Fits r) s)
    (u : Transfer (ByteChannel.ReadCall ⊕ ByteChannel.WriteCall) _ ByteChannel.WriteCall ℕ) (lock : Option Unit) :
    Ledger r ({ s with lock_ := lock }.writeAccess (pipeType r).atomic () u ((pipeType r).atomic.write u.call)) := by
  have hcontents := contents_write hs.good u.call ()
  rw [writeAccess_atomic, Ledger, written]
  change (s.writeOps ++ [_]).flatMap putBy = consumed s ++ ByteChannel.contents r
    (((writer r).code u.call).run exec s.chan_).2
  rw [hcontents, ← append_assoc, ← h, flatMap_append]
  simp only [flatMap_cons, flatMap_nil, append_nil]
  rfl

theorem Ledger.step (h : Ledger r s) (hs : Whole (ByteChannel.Fits r) s) (tick : PipeTick) :
    Ledger r (step r s tick) := by
  refine step_cases tick h (fun i call nonblocking signal _ => ?_) (fun j call nonblocking signal _ => ?_)
    (fun _ => h) (fun _ => h) (fun p _ => h.same (same_closeReader p).1) (fun p => h.same (same_closeWriter p).1)
    (fun _ _ => h) fun _ _ => h
  · exact readTurn_moves hs call nonblocking signal h (fun t _ => h.readAccess hs t) (fun _ _ _ _ _ _ _ => h)
      fun _ _ _ _ _ => h
  · exact writeTurn_moves hs call nonblocking signal (fun _ => h) (fun u lock => h.writeAccess hs u lock)
      (fun _ _ _ _ _ _ _ => h) fun _ _ _ _ _ => h

end Ledger

variable {tick : PipeTick}

section Readers

/-- A reading thread has room, tests the channel only after it has seen that the writer is closed, and comes
out of its operation with some bytes. -/
structure Sound (closed : Bool) (t : Reader) : Prop where
  room : 0 < t.call.room
  test : t.place = .emptyTest → closed = true
  answer : ∀ bytes, t.place = .waking bytes → bytes ≠ []

def ReadersSound (s : Pipe) : Prop := ∀ i, ∀ t ∈ s.readers i, Sound s.writer_closed_ t

variable {closed : Bool} {t : Reader}

theorem Sound.move (h : Sound closed t) {place : TransferPlace _ _ (List UInt8)}
    (htest : place = .emptyTest → closed) (hanswer : ∀ bytes, place = .waking bytes → bytes ≠ []) :
    Sound closed (t.move place) := ⟨h.room, htest, hanswer⟩

theorem Sound.ready (h : Sound closed t) : Sound closed t.ready := by
  obtain ⟨call, nonblocking, place⟩ := t
  cases place with
  | parked => exact ⟨h.room, nofun, nofun⟩
  | _ => exact h

theorem Sound.close (h : Sound closed t) : Sound true t := { h with test := fun _ => rfl }

namespace ReadersSound
variable (h : ReadersSound s)
include h

theorem rouse (ths : List Unit) : ∀ i, ∀ t ∈ rouse s.readers ths i, Sound s.writer_closed_ t :=
  forall_rouse fun i t ht => ⟨fun _ => h i t ht, (h i t ht).ready⟩

theorem set {t' : Option Reader} (ht' : ∀ t ∈ t', Sound s.writer_closed_ t) :
    ∀ i, ∀ t ∈ Function.update s.readers () t' i, Sound s.writer_closed_ t :=
  forall_update (fun i _ => h i) ht'

theorem readAccess (hs : Whole (ByteChannel.Fits r) s) (ht : 0 < t.call.room) :
    ReadersSound (s.readAccess (pipeType r).atomic () t ((pipeType r).atomic.read t.call)) := by
  rw [readAccess_atomic]
  refine h.set (forall_mem_some ?_)
  cases hanswer : (((pipeType r).read t.call).run (pipeType r).exec s.chan_).1 with
  | ok bytes =>
    refine ⟨ht, nofun, fun bytes' hbytes => ?_⟩
    obtain rfl := TransferPlace.waking.inj hbytes
    exact read_ne_nil hs.good t.call ht hanswer
  | error e =>
    cases hblock : t.nonblocking with
    | true | false => exact ⟨ht, by simp [ended, hblock, move], by simp [ended, hblock, move]⟩

theorem readTurn (hs : Whole (ByteChannel.Fits r) s) {call : ByteChannel.ReadCall} (hroom : 0 < call.room)
    (nonblocking signal : Bool) :
    ReadersSound (s.readTurn (pipeType r).atomic () call nonblocking signal) := by
  refine readTurn_moves hs call nonblocking signal h (fun t ht => h.readAccess hs ?_)
    (fun _ t ht _ _ _ ht' => h.set fun u hu => ?_) fun _ _ _ _ _ => h.set forall_mem_none
  · rcases ht with ht | hcall
    · exact (h () t ht).room
    · rw [hcall]
      exact hroom
  obtain ⟨place, rfl, rfl | rfl | ⟨rfl, hclosed⟩⟩ := ht' u hu
  · exact (h () t ht).move nofun nofun
  · exact (h () t ht).move nofun nofun
  · exact (h () t ht).move (fun _ => hclosed) nofun

theorem writeTurn (hs : Whole (ByteChannel.Fits r) s) (call : ByteChannel.WriteCall) (nonblocking signal : Bool) :
    ReadersSound (s.writeTurn (pipeType r).atomic () call nonblocking signal) := by
  refine writeTurn_moves hs call nonblocking signal (fun _ => h) (fun u lock => ?_) (fun _ _ _ _ _ _ _ => h)
    fun _ _ _ _ hreaders => ?_
  · rw [writeAccess_atomic]
    exact h
  rcases hreaders with rfl | ⟨ths, rfl⟩
  · exact h
  · exact h.rouse ths

theorem closeReader (p : Option ℕ) : ReadersSound (s.closeReader p) := by
  dsimp only [WaitableChannel.closeReader, wakeReader, wakeWriters, setEvents]
  split_ifs <;> exact h.rouse _

theorem closeWriter (p : Option ℕ) : ReadersSound (s.closeWriter (pipeType r).atomic p) := by
  dsimp only [WaitableChannel.closeWriter, wakeReader, wakeWriters, setEvents]
  split_ifs
  · exact fun i t ht => (h.rouse _ i t ht).close
  · exact fun i t ht => (h i t ht).close

theorem step (hs : Whole (ByteChannel.Fits r) s) (hfilled : Filled tick) : ReadersSound (step r s tick) := by
  refine step_cases tick h (fun i call nonblocking signal htick => ?_)
    (fun j call nonblocking signal _ => h.writeTurn hs call nonblocking signal) (fun i => h.rouse [i])
    (fun _ => h) (fun p _ => h.closeReader p) h.closeWriter (fun _ _ => h) fun _ _ => h
  subst htick
  exact h.readTurn hs hfilled nonblocking signal

end ReadersSound
end Readers

theorem reader_closed_step (hs : Whole (ByteChannel.Fits r) s) (tick : PipeTick) :
    (step r s tick).reader_closed_ = s.reader_closed_ ∨ ∃ p, tick = .closeReader p :=
  step_cases (P := fun s' => s'.reader_closed_ = s.reader_closed_ ∨ ∃ p, tick = .closeReader p) tick (.inl rfl)
    (fun i call nonblocking signal _ => .inl (sameEnds_readTurn hs i call nonblocking signal).reader_closed)
    (fun j call nonblocking signal _ => .inl (sameEnds_writeTurn hs j call nonblocking signal).reader_closed)
    (fun _ => .inl rfl) (fun _ => .inl rfl) (fun p htick => .inr ⟨p, htick⟩)
    (fun p => .inl (same_closeWriter p).2.2.1) (fun _ _ => .inl rfl) fun _ _ => .inl rfl

structure Inv (r : RingSize) (s : Pipe) : Prop where
  whole : Whole (ByteChannel.Fits r) s
  attached : Attached s
  readers : ReadersWait (ByteChannel.pipeType r) s
  writers : WritersWait (ByteChannel.pipeType r) s
  ledger : Ledger r s
  sound : ReadersSound s

theorem Inv.step (h : Inv r s) (hfilled : Filled tick) : Inv r (step r s tick) where
  whole := h.whole.step pipeType_orderly tick
  attached := h.attached.step h.whole tick
  readers := h.readers.step pipeType_orderly h.whole h.attached.reader tick
  writers := by
    refine h.writers.step pipeType_orderly h.whole tick ?_
    cases tick with
    | writer j call nonblocking signal => exact fun _ _ _ _ _ hopen => h.attached.writer hopen
    | _ => trivial
  ledger := h.ledger.step h.whole tick
  sound := h.sound.step h.whole hfilled

variable {c : ByteChannel}

theorem Inv.start (hc : c.in_ = c.out_) : Inv r (start c) := by
  have hused : c.used = 0 := by simp [used, hc]
  refine ⟨⟨?_, fun _ => forall_mem_none, fun _ => forall_mem_none⟩, ⟨fun _ => rfl, fun _ => cons_ne_nil _ _⟩,
    fun _ => forall_mem_none, fun _ => forall_mem_none, ?_, fun _ => forall_mem_none⟩
  · change c.used ≤ r.size.toNat
    rw [hused]
    exact Nat.zero_le _
  change [] = [] ++ ByteChannel.contents r c
  rw [ByteChannel.contents, hused]
  rfl

variable {ticks : List PipeTick}

theorem Inv.run (hc : c.in_ = c.out_)
    (hfilled : ∀ tick ∈ ticks, Filled tick) : Inv r (Run.exec (StreamPipe.step r) (StreamPipe.start c) ticks) := by
  have hstep : ∀ s tick, Inv r s → Filled tick → Inv r (StreamPipe.step r s tick) := fun _ _ h hf => h.step hf
  exact Run.invariant_exec hstep (Inv.start hc) (Run.admitted_of_mem (fun tick htick _ => hfilled tick htick) _)

theorem reader_closed_run (h : Inv r s) (hfilled : ∀ tick ∈ ticks, Filled tick)
    (hclosed : (Run.exec (step r) s ticks).reader_closed_) :
    s.reader_closed_ ∨ ∃ p, ChannelTick.closeReader p ∈ ticks := by
  induction ticks generalizing s with
  | nil => exact .inl hclosed
  | cons tick ticks ih =>
    have hrest := ih (h.step (hfilled tick mem_cons_self)) (fun x hx => hfilled x (mem_cons_of_mem tick hx)) hclosed
    rcases hrest with hnow | ⟨p, hp⟩
    · rcases reader_closed_step h.whole tick with hsame | ⟨p, rfl⟩
      · exact .inl (hsame.symm.trans hnow)
      · exact .inr ⟨p, mem_cons_self⟩
    · exact .inr ⟨p, mem_cons_of_mem tick hp⟩

/-- If the next turn makes a read return nothing, then an end is closed and every byte that was written has been read.
Whoever is parked although it could go on is about to be woken. -/
structure Promises (r : RingSize) (ticks : List PipeTick) (s : Pipe) : Prop where
  end_of_data : ∀ tick e, (step r s tick).reads = s.reads ++ [e] → e.answer = .ok [] →
    (s.writer_closed_ = true ∨ ∃ p, ChannelTick.closeReader p ∈ ticks) ∧ written s = consumed s
  reader_woken : ∀ t ∈ s.readers (), t.parked = true →
    ByteChannel.isEmpty s.chan_ = false ∨ s.writer_closed_ = true ∨ s.reader_closed_ = true →
    ∃ u ∈ s.writers (), u.waking = true
  writer_woken : ∀ u ∈ s.writers (), u.parked = true →
    ByteChannel.isFull r s.chan_ = false ∨ s.writer_closed_ = true ∨ s.reader_closed_ = true →
    ∃ t ∈ s.readers (), t.waking = true

theorem Inv.end_of_data (h : Inv r s) {e : TransferEntry Unit ByteChannel.ReadCall (List UInt8)}
    (hreads : (StreamPipe.step r s tick).reads = s.reads ++ [e]) (hanswer : e.answer = .ok []) :
    (s.writer_closed_ ∨ s.reader_closed_) ∧ written s = consumed s := by
  rcases readsGrow_step h.whole tick with hsame | ⟨i, t, ht, answer, hgrow, hreturns⟩
  · have hlength := congrArg length (hreads.symm.trans hsame)
    rw [length_append, length_singleton] at hlength
    omega
  have he : e = ⟨i, t.call, answer⟩ := singleton_inj.1 (append_cancel_left (hreads.symm.trans hgrow))
  obtain rfl : answer = .ok [] := by rw [← hanswer, he]
  have hsound := h.sound i t ht
  rcases hreturns with hplace | ⟨hempty, hclosed⟩
  · exact absurd rfl (hsound.answer [] hplace)
  have hcontents : ByteChannel.contents r s.chan_ = [] := by
    rw [ByteChannel.contents, isEmpty_iff.1 hempty]
    rfl
  have hledger := h.ledger
  rw [Ledger, hcontents, append_nil] at hledger
  refine ⟨?_, hledger⟩
  rcases hclosed with hplace | hreader | hwriter
  · exact .inl (hsound.test hplace)
  · exact .inr hreader
  · exact .inl hwriter

/-- In every interleaving of blocking or nonblocking reads and writes with buffers that are not empty, of
signals and of calls that close an end, a pipe keeps its promises. -/
theorem pipe_promises (request : ℕ) (hrequest : request ≤ 2 ^ 63) (c : ByteChannel) (hc : c.in_ = c.out_)
    (ticks : List PipeTick) (hfilled : ∀ tick ∈ ticks, Filled tick) :
    Promises (RingSize.ofRequest request hrequest) ticks
      (Run.exec (step (RingSize.ofRequest request hrequest)) (start c) ticks) := by
  generalize RingSize.ofRequest request hrequest = r
  have h : Inv r (Run.exec (step r) (start c) ticks) := Inv.run hc hfilled
  refine ⟨fun tick e hreads hanswer => ?_, fun t ht hparked hgo => ?_, fun u hu hparked hgo => ?_⟩
  · obtain ⟨hclosed, hdrained⟩ := h.end_of_data hreads hanswer
    refine ⟨hclosed.imp_right fun hreader => ?_, hdrained⟩
    rcases reader_closed_run (Inv.start hc) hfilled hreader with hstart | hp
    · cases hstart
    · exact hp
  · obtain ⟨-, hblocked⟩ := h.readers () t ht hparked
    rcases hblocked.cause with hempty | ⟨_, u, hu, hwaking⟩
    · rcases hgo with hdata | hwriter | hreader
      · cases hempty.symm.trans hdata
      · cases hwriter.symm.trans hblocked.writer
      · cases hreader.symm.trans hblocked.reader
    · exact ⟨u, hu, hwaking⟩
  obtain ⟨-, hblocked⟩ := h.writers () u hu hparked
  rcases hblocked.cause with hfull | ⟨_, t, ht, hwaking⟩
  · rcases hgo with hroom | hwriter | hreader
    · cases hfull.symm.trans hroom
    · cases hwriter.symm.trans hblocked.writer
    · cases hreader.symm.trans hblocked.reader
  · exact ⟨t, ht, hwaking⟩

/-- The reader parks, is woken by a write and reads; after the writer has closed its end, the next read
returns nothing. -/
def closingTicks : List PipeTick :=
  replicate 2 (.reader () (.read 4 false) false false) ++
  replicate 2 (.writer () (.write [1, 2, 3]) false false) ++
  replicate 3 (.reader () (.read 4 false) false false) ++ [.closeWriter (some 1)] ++
  replicate 2 (.reader () (.readv [2, 2] false) false false)

def freshPipe : ByteChannel := ⟨BitVec.ofNat 64 (2 ^ 64 - 1), BitVec.ofNat 64 (2 ^ 64 - 1), fun _ => 0⟩

theorem pipe_promises_closingTicks : Promises (RingSize.ofRequest 2 (by decide)) closingTicks
      (Run.exec (step (RingSize.ofRequest 2 (by decide))) (start freshPipe) closingTicks) ∧
    (Run.exec (step (RingSize.ofRequest 2 (by decide))) (start freshPipe) closingTicks).reads.map
      TransferEntry.answer = [.ok [1, 2], .ok []] :=
  ⟨pipe_promises 2 (by decide) freshPipe rfl closingTicks (by decide), by decide +kernel⟩

end Junction.StreamPipe

/-! ### Calls on a pipe whose other end is closed return after at most three turns -/

namespace Junction
open Interleaving ByteChannel

theorem Transfer.rouse_of_none {α κ ρ ι : Type} {resp : α → Type} [DecidableEq ι]
    {threads : ι → Option (Transfer α resp κ ρ)} {i : ι} (h : threads i = none) (ths : List ι) :
    rouse threads ths i = none := by
  unfold rouse
  rw [h]
  split_ifs <;> rfl

namespace StreamPipe
open Transfer WaitableChannel

theorem readers_setReader (s : Pipe) (t : Option Reader) : (s.setReader () t).readers () = t := by
  dsimp only [setReader]
  exact Function.update_self ..

theorem writers_setWriter (s : Pipe) (t : Option (Transfer _ _ ByteChannel.WriteCall ℕ)) :
    (s.setWriter () t).writers () = t := by
  dsimp only [setWriter]
  exact Function.update_self ..

/-- There are no bytes in the pipe, and no thread is in a call. -/
structure Idle (s : Pipe) : Prop where
  reader : s.readers () = none
  writer : s.writers () = none
  unlocked : s.lock_.isNone = true
  empty : ByteChannel.isEmpty s.chan_ = true

def ReadsEnd (r : RingSize) (s : Pipe) : Prop := ∀ call nonblocking signal, ∃ turns,
  (Run.exec (step r) s (List.replicate turns (.reader () call nonblocking signal))).reads =
    s.reads ++ [⟨(), call, .ok []⟩]

def WritesFail (r : RingSize) (s : Pipe) : Prop := ∀ (call : ByteChannel.WriteCall) nonblocking signal,
  0 < call.bytes.length → ∃ turns,
  (Run.exec (step r) s (List.replicate turns (.writer () call nonblocking signal))).writes =
    s.writes ++ [⟨(), call, .error .EPIPE⟩]

variable {r : RingSize} {s : Pipe} {call : ByteChannel.ReadCall} {data : ByteChannel.WriteCall}
  {nonblocking : Bool}

/-- The other end of the pipe is closed for a thread that is in a read. -/
structure AtEnd (s : Pipe) (t : Reader) : Prop where
  thread : s.readers () = some t
  closed : s.writer_closed_ = true
  unlocked : s.lock_.isNone = true
  empty : ByteChannel.isEmpty s.chan_ = true

theorem AtEnd.wait {t : Reader} (h : AtEnd s t) (hplace : t.place = .waiting)
    (call : ByteChannel.ReadCall) (nonblocking signal : Bool) :
    (step r s (.reader () call nonblocking signal)).reads = s.reads ++ [⟨(), t.call, .ok []⟩] := by
  have hwait : waitInterruptible () false
      (!(pipeType r).atomic.isEmpty s.chan_ || s.writer_closed_ || s.reader_closed_) signal
      s.read_waker_ = (.through true, s.read_waker_) := by
    simp [waitInterruptible, h.closed]
  have hend : ((s.reader_closed_ || s.writer_closed_) && (pipeType r).atomic.isEmpty s.chan_) := by
    rw [h.closed, Bool.or_true, Bool.true_and]
    exact h.empty
  dsimp only [step, WaitableChannel.step, readTurn]
  rw [h.thread]
  dsimp only [readOn]
  rw [hplace]
  rw [if_pos h.unlocked, readWait, hwait]
  dsimp only
  rw [if_pos hend]
  rfl

theorem AtEnd.test {t : Reader} (h : AtEnd s t) (hplace : t.place = .closedTest)
    (call : ByteChannel.ReadCall) (nonblocking signal : Bool) :
    AtEnd (step r s (.reader () call nonblocking signal)) (t.move .emptyTest) ∧
      (step r s (.reader () call nonblocking signal)).reads = s.reads := by
  dsimp only [step, WaitableChannel.step, readTurn]
  rw [h.thread]
  dsimp only [readOn]
  rw [hplace]
  rw [if_pos h.closed]
  exact ⟨{ h with thread := readers_setReader .. }, rfl⟩

theorem AtEnd.finish {t : Reader} (h : AtEnd s t) (hplace : t.place = .emptyTest)
    (call : ByteChannel.ReadCall) (nonblocking signal : Bool) :
    (step r s (.reader () call nonblocking signal)).reads = s.reads ++ [⟨(), t.call, .ok []⟩] := by
  have hempty : (pipeType r).atomic.isEmpty s.chan_ := h.empty
  dsimp only [step, WaitableChannel.step, readTurn]
  rw [h.thread]
  dsimp only [readOn]
  rw [hplace]
  rw [if_pos hempty]
  rfl

theorem Idle.read (h : Idle s) (hclosed : s.writer_closed_) (call : ByteChannel.ReadCall)
    (nonblocking signal : Bool) : AtEnd (step r s (.reader () call nonblocking signal))
        ⟨call, nonblocking, if nonblocking then .closedTest else .waiting⟩ ∧
      (step r s (.reader () call nonblocking signal)).reads = s.reads := by
  have hused : s.chan_.used = 0 := isEmpty_iff.1 h.empty
  have hrun : ((pipeType r).read call).run (pipeType r).exec s.chan_ = (.error .EAGAIN, s.chan_) := by
    have hfit : ByteChannel.Fits r s.chan_ := hused.trans_le (Nat.zero_le _)
    have hrun := run_read hfit call
    rwa [hused, if_pos (gives_zero call)] at hrun
  dsimp only [step, WaitableChannel.step, readTurn]
  rw [h.reader]
  rw [readAccess_atomic, hrun]
  exact ⟨⟨readers_setReader .., hclosed, h.unlocked, h.empty⟩, rfl⟩

theorem Idle.readsEnd (h : Idle s) (hclosed : s.writer_closed_) : ReadsEnd r s := by
  intro call nonblocking signal
  obtain ⟨hend, hreads⟩ := h.read hclosed call nonblocking signal
  cases nonblocking with
  | false => exact ⟨2, (hend.wait rfl call false signal).trans (by rw [hreads])⟩
  | true =>
    obtain ⟨hend', hreads'⟩ := hend.test rfl call true signal
    exact ⟨3, (hend'.finish rfl call true signal).trans (by rw [hreads', hreads]; rfl)⟩

theorem write_closed {t : Transfer _ _ ByteChannel.WriteCall ℕ} (hthread : s.writers () = some t)
    (hclosed : s.reader_closed_) (hplace : t.place = .closedTest ∨ t.place = .waiting ∨
      ∃ n, t.place = .waking n) (data : ByteChannel.WriteCall) (nonblocking signal : Bool) :
    (step r s (.writer () data nonblocking signal)).writes = s.writes ++ [⟨(), t.call, .error .EPIPE⟩] := by
  dsimp only [step, WaitableChannel.step, writeTurn]
  rw [hthread]
  dsimp only [writeOn]
  rcases hplace with hplace | hplace | ⟨n, hplace⟩
  · rw [hplace]
    rw [if_pos hclosed]
    rfl
  · have hwait : waitInterruptible () false
        (!(pipeType r).atomic.isFull s.chan_ || s.reader_closed_ || s.writer_closed_) signal
        s.write_waker_ = (.through true, s.write_waker_) := by
      simp [waitInterruptible, hclosed]
    rw [hplace]
    rw [writeWait, hwait]
    rw [hclosed, Bool.or_true, if_pos rfl]
    rfl
  · rw [hplace]
    dsimp only [writeWake]
    rw [if_pos hclosed]
    rfl

theorem Idle.writesFail (h : Idle s) (hclosed : s.reader_closed_) : WritesFail r s := by
  intro data nonblocking signal hdata
  have hskips : (pipeType r).atomic.skips data = false := by
    cases data with
    | write bytes => exact List.isEmpty_eq_false_iff.2 (List.ne_nil_of_length_pos hdata)
    | writev iov => rfl
  have hfirst : step r s (.writer () data nonblocking signal) =
      { s with lock_ := none }.writeAccess (pipeType r).atomic () ⟨data, nonblocking, .attempt⟩
        ((pipeType r).atomic.write data) := by
    dsimp only [step, WaitableChannel.step, writeTurn]
    rw [h.writer]
    rw [hskips, if_neg Bool.false_ne_true, if_pos h.unlocked]
    rfl
  rw [writeAccess_atomic] at hfirst
  refine ⟨2, ?_⟩
  change (step r (step r s (.writer () data nonblocking signal)) (.writer () data nonblocking signal)).writes = _
  rw [hfirst]
  generalize ((pipeType r).write data).run (pipeType r).exec s.chan_ = result
  refine write_closed (writers_setWriter _ _) ?_ ?_ data nonblocking signal
  · exact hclosed
  cases result.1 with
  | ok n => exact .inr (.inr ⟨n, rfl⟩)
  | error e =>
    cases nonblocking with
    | true => exact .inl rfl
    | false => exact .inr (.inl rfl)

section Ends
variable (h : Idle s)
include h

theorem Idle.wakeReader : Idle s.wakeReader := { h with reader := rouse_of_none h.reader _ }

theorem Idle.wakeWriters : Idle s.wakeWriters := { h with writer := rouse_of_none h.writer _ }

theorem Idle.closeReader (p : Option ℕ) : Idle (s.closeReader p) := by
  have h₁ : Idle { s with reader_closed_ := true } := { h with }
  have h₂ : Idle (if !s.writer_closed_ && !s.write_poll_.isEmpty then
      ({ s with reader_closed_ := true }.setEvents s.write_poll_ kPollErr).wakeWriters
    else { s with reader_closed_ := true }) := by
    split_ifs
    · exact Idle.wakeWriters { h with }
    · exact h₁
  exact Idle.wakeReader { h₂ with }

theorem Idle.closeWriter (p : Option ℕ) : Idle (s.closeWriter (pipeType r).atomic p) := by
  have h₁ : Idle { s with writer_closed_ := true } := { h with }
  have h₂ : Idle (if !s.reader_closed_ && s.read_poll_.isSome then
      ({ s with writer_closed_ := true }.setEvents s.read_poll_.toList kPollHUp).wakeReader
    else { s with writer_closed_ := true }) := by
    split_ifs
    · exact Idle.wakeReader { h with }
    · exact h₁
  exact Idle.wakeWriters { h₂ with }

theorem Idle.attachReadPoll (p : ℕ) : Idle (s.attachReadPoll (pipeType r).atomic p) := by
  unfold WaitableChannel.attachReadPoll
  split_ifs <;> exact { h with }

theorem Idle.attachWritePoll (p : ℕ) : Idle (s.attachWritePoll (pipeType r).atomic p) := by
  unfold WaitableChannel.attachWritePoll
  split_ifs <;> exact { h with }

end Ends
end StreamPipe
end Junction
