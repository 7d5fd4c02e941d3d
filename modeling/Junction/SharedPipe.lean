import Junction.ByteChannelRuns
import Junction.MessageChannelPeek
import Junction.SharedEndsRefinement

/-!
# Pipe files that several threads share

Nothing in a pipe file makes the threads that use it wait for one another. As long as the operations of the
channel do not overlap at either end, no byte and no message is lost or received twice. If two writes overlap,
both can fill the same part of the ring and report it.
-/

set_option linter.unusedSectionVars false

namespace Junction.PipeFile
open Interleaving List ByteChannel
open Transfer WaitableChannel
variable {ι κ : Type}

/-- `PipeReaderFile::Read` and `PipeWriterFile::Write` by some thread, or a signal that makes a parked thread
run again. -/
inductive FileTick (ι κ : Type)
  | read (i : ι) (len : ℕ) (nonblocking signal : Bool)
  | write (j : κ) (bytes : List UInt8) (nonblocking signal : Bool)
  | signalReader (i : ι)
  | signalWriter (j : κ)

def FileTick.onStream : FileTick ι κ → ChannelTick ByteChannel.ReadCall ByteChannel.WriteCall ι κ
  | .read i len nonblocking signal => .reader i (.read len false) nonblocking signal
  | .write j bytes nonblocking signal => .writer j (.write bytes) nonblocking signal
  | .signalReader i => .signalReader i
  | .signalWriter j => .signalWriter j

def FileTick.onMessages : FileTick ι κ →
    ChannelTick MessageChannel.ReadCall (MessageChannel.WriteCall Unit) ι κ
  | .read i len nonblocking signal => .reader i (.readShort len false) nonblocking signal
  | .write j bytes nonblocking signal => .writer j (.write bytes none) nonblocking signal
  | .signalReader i => .signalReader i
  | .signalWriter j => .signalWriter j

variable [DecidableEq ι] [DecidableEq κ] {δ β : Type}

theorem coe_flatMap (f : δ → List β) (l : List δ) :
    ((l.flatMap f : List β) : Multiset β) = (l.map fun x => (f x : Multiset β)).sum := by
  induction l with
  | nil => rfl
  | cons x l ih => rw [flatMap_cons, map_cons, sum_cons, ← ih, Multiset.coe_add]

variable {r : RingSize} {tick : FileTick ι κ}

section Stream

abbrev StreamFile (ι κ : Type) := WaitableChannel ByteChannel ByteChannel.Access ByteChannel.Access.Resp
  ByteChannel.ReadCall (List UInt8) ByteChannel.WriteCall ι κ (ThreadWaker κ)

/-- The bytes that some reads received, and those that some writes reported. -/
def received (reads : List (TransferEntry ι ByteChannel.ReadCall (List UInt8))) : Multiset UInt8 :=
  (reads.map fun e => (ByteChannel.takenBy e : Multiset UInt8)).sum

def reported (writes : List (TransferEntry κ ByteChannel.WriteCall ℕ)) : Multiset UInt8 :=
  (writes.map fun e => (ByteChannel.putBy e : Multiset UInt8)).sum

def streamProtocol (r : RingSize) : Protocol (ByteChannel.pipeType r) UInt8 UInt8 where
  allow := ByteChannel.always
  good := ByteChannel.Fits r
  watchRead := ByteChannel.isEmpty
  watchWrite := ByteChannel.isFull r
  readerContract := ByteChannel.readerContract r
  writerContract := ByteChannel.writerContract r
  acceptRead _ := True
  acceptWrite _ := True
  linked := ByteChannel.Linked r []
  reader_honours := ByteChannel.reader_honours
  writer_honours := ByteChannel.writer_honours
  coupled := ByteChannel.coupled []
  receives call bytes := if call.peek then 0 else bytes
  sends call n := call.bytes.take n
  sends_skip _ _ := rfl

def stepStream (r : RingSize) (s : StreamFile ι κ) (tick : FileTick ι κ) : StreamFile ι κ :=
  s.step (ByteChannel.pipeType r) tick.onStream

def startStream (c : ByteChannel) : StreamFile ι κ := WaitableChannel.start c (some 0) [1]

/-- Bytes are received at most once and only if they were written, and every reported byte has been received when all
threads are done with the channel and it is empty. -/
structure BytesKept (s : StreamFile ι κ) : Prop where
  received_le : received s.reads ≤ reported s.writeOps
  received_part : (∀ j, ∀ u ∈ s.writers j, u.waking = false) → received s.reads ≤ reported s.writes
  drained : (∀ i, ∀ t ∈ s.readers i, t.apart = true) → (∀ j, ∀ u ∈ s.writers j, u.apart = true) →
    ByteChannel.isEmpty s.chan_ = true → received s.reads = reported s.writes

theorem receivesBy_stream (r : RingSize) (e : ByteChannel.ReadEntry) :
    (streamProtocol r).receivesBy e.call e.answer = (taken e : Multiset UInt8) := by
  unfold taken Protocol.receivesBy streamProtocol
  cases e.answer with
  | error err => rfl
  | ok bytes =>
    cases hpeek : e.call.peek with
    | true | false => simp [hpeek]

theorem sendsBy_stream (r : RingSize) (e : ByteChannel.WriteEntry) :
    (streamProtocol r).sendsBy e.call e.answer = (put e : Multiset UInt8) := by
  unfold put Protocol.sendsBy streamProtocol
  cases e.answer with
  | error | ok => rfl

theorem received_stream (r : RingSize) (reads : List (TransferEntry ι ByteChannel.ReadCall (List UInt8))) :
    (streamProtocol r).received reads = received reads :=
  congrArg sum (map_congr_left fun e _ => receivesBy_stream r { e with seen := false })

theorem sent_stream (r : RingSize) (writes : List (TransferEntry κ ByteChannel.WriteCall ℕ)) :
    (streamProtocol r).sent writes = reported writes :=
  congrArg sum (map_congr_left fun e _ => sendsBy_stream r { e with seen := false })

variable {s : StreamFile ι κ}

theorem shared_step_stream (h : Shared (streamProtocol r) s) (htick : Exclusive s tick.onStream) :
    Shared (streamProtocol r) (stepStream r s tick) := by
  cases tick with
  | read i len nonblocking signal =>
    exact h.readTurn trivial htick (fun p _ => allowed_always _ p) nonblocking signal
  | write j bytes nonblocking signal =>
    exact h.writeTurn trivial htick (fun p _ => allowed_always _ p) nonblocking signal
  | signalReader i => exact h.signalReader i
  | signalWriter j => exact h.signalWriter j

theorem bytesKept_of_shared (h : Shared (streamProtocol r) s) : BytesKept s := by
  obtain ⟨sys, hinv, hshared, -, -, hreads, hwrites, -⟩ := h.pair
  have hlinked : ByteChannel.Linked r [] sys.shared sys.left.log sys.right.log := hinv.coupled
  have hstream := congrArg (fun l : List UInt8 => (l : Multiset UInt8)) hlinked.stream
  rw [nil_append, ← Multiset.coe_add, written, consumed, coe_flatMap, coe_flatMap]
    at hstream
  simp only [receivesBy_stream, sendsBy_stream] at hreads hwrites
  rw [← hreads, ← hwrites, received_stream, sent_stream, hshared] at hstream
  have hreceived : received s.reads ≤ received s.readOps := by
    rw [← received_stream r, ← received_stream r]
    exact h.reads.returned_le
  have hle : received s.reads ≤ reported s.writeOps := by
    rw [hstream]
    exact hreceived.trans (Multiset.le_add_right _ _)
  have hreported : (∀ j, ∀ u ∈ s.writers j, u.waking = false) → reported s.writes = reported s.writeOps := by
    intro hwaking
    rw [← sent_stream r, ← sent_stream r]
    exact h.writes.settled hwaking
  refine ⟨hle, fun hwaking => (hreported hwaking).symm ▸ hle, fun hreaders hwriters hempty => ?_⟩
  have hcontents : ByteChannel.contents r s.chan_ = [] := by
    rw [ByteChannel.contents, isEmpty_iff.1 hempty]
    rfl
  have hreturned : received s.reads = received s.readOps := by
    rw [← received_stream r, ← received_stream r]
    exact h.reads.settled fun i t ht => waking_of_apart (hreaders i t ht)
  rw [hreturned, hreported fun j u hu => waking_of_apart (hwriters j u hu), hstream, hcontents]
  exact (add_zero _).symm

end Stream

section Messages
open MessageChannel (Delivery)

abbrev MessageFile (ι κ : Type) := WaitableChannel (MessageChannel.Shared Unit) (MessageChannel.Access Unit)
  MessageChannel.Access.Resp MessageChannel.ReadCall (List UInt8 × Option Unit) (MessageChannel.WriteCall Unit)
  ι κ (ThreadWaker κ)

/-- The answers of some reads that received a message, and the messages that some writes reported. A write
without bytes returns without sending anything. -/
def receivedMessages (reads : List (TransferEntry ι MessageChannel.ReadCall (List UInt8 × Option Unit))) :
    Multiset (Delivery Unit) :=
  (reads.map fun e => ((MessageChannel.delivery { e with seen := false }).toList : Multiset (Delivery Unit))).sum

def reportedMessages (writes : List (TransferEntry κ (MessageChannel.WriteCall Unit) ℕ)) :
    Multiset (Message Unit) :=
  (writes.map fun e => if e.call.skipped then 0
    else ((MessageChannel.posting { e with seen := false }).toList : Multiset (Message Unit))).sum

def messageProtocol (r : RingSize) :
    Protocol (MessageChannel.msgPipeType r) (Delivery Unit) (Message Unit) where
  allow := MessageChannel.allow id
  good := MessageChannel.Shared.Good r id
  watchRead _ := false
  watchWrite _ := false
  readerContract := MessageChannel.readerContract r id
  writerContract := MessageChannel.writerContract r id
  acceptRead := MessageChannel.ReadCall.Fair
  acceptWrite := MessageChannel.WriteCall.Fair
  linked := MessageChannel.Linked r id
  reader_honours := MessageChannel.reader_honours
  writer_honours := MessageChannel.writer_honours
  coupled := MessageChannel.coupled
  receives call answer := if call.peek then 0 else {(call, answer)}
  sends call _ := if call.skipped then 0 else {call.message}
  sends_skip _ hskip := if_pos hskip

def stepMessages (r : RingSize) (s : MessageFile ι κ) (tick : FileTick ι κ) : MessageFile ι κ :=
  s.step (MessageChannel.msgPipeType r) tick.onMessages

def startMessages (index : BitVec 64) (msgs : ℕ → Message Unit) : MessageFile ι κ :=
  WaitableChannel.start (MessageChannel.start index msgs).shared (some 0) [1]

/-- An answer is the beginning of a message, as long as the buffer. -/
def Answers (d : Delivery Unit) (m : Message Unit) : Prop := d.1.Delivers d.2 m

/-- Messages are received at most once and only if they were written, and every reported message has been received when
all threads are done with the channel and it is empty. -/
structure MessagesKept (s : MessageFile ι κ) : Prop where
  received_le : ∃ M ≤ (s.chan_.sent : Multiset (Message Unit)), Multiset.Rel Answers (receivedMessages s.reads) M
  received_part : (∀ j, ∀ u ∈ s.writers j, u.apart = true) →
    ∃ M ≤ reportedMessages s.writes, Multiset.Rel Answers (receivedMessages s.reads) M
  drained : (∀ i, ∀ t ∈ s.readers i, t.apart = true) → (∀ j, ∀ u ∈ s.writers j, u.apart = true) →
    MessageChannel.isEmpty s.chan_.chan = true →
    Multiset.Rel Answers (receivedMessages s.reads) (reportedMessages s.writes)

theorem receivesBy_messages (r : RingSize) (e : MessageChannel.ReadEntry Unit) :
    (messageProtocol r).receivesBy e.call e.answer =
      ((MessageChannel.delivery e).toList : Multiset (Delivery Unit)) := by
  unfold MessageChannel.delivery Protocol.receivesBy messageProtocol
  cases e.answer with
  | error err => rfl
  | ok answer =>
    cases hpeek : e.call.peek with
    | true | false => simp [hpeek]

theorem sendsBy_messages (r : RingSize) (e : MessageChannel.WriteEntry Unit) :
    (messageProtocol r).sendsBy e.call e.answer = if e.call.skipped then 0
      else ((MessageChannel.posting e).toList : Multiset (Message Unit)) := by
  unfold MessageChannel.posting Protocol.sendsBy messageProtocol
  cases e.answer with
  | error | ok => simp

theorem received_messages (r : RingSize)
    (reads : List (TransferEntry ι MessageChannel.ReadCall (List UInt8 × Option Unit))) :
    (messageProtocol r).received reads = receivedMessages reads :=
  congrArg sum (map_congr_left fun e _ => receivesBy_messages r { e with seen := false })

theorem sent_messages (r : RingSize) (writes : List (TransferEntry κ (MessageChannel.WriteCall Unit) ℕ)) :
    (messageProtocol r).sent writes = reportedMessages writes :=
  congrArg sum (map_congr_left fun e _ => sendsBy_messages r { e with seen := false })

theorem shared_step_messages {s : MessageFile ι κ}
    (h : Shared (messageProtocol r) s) (htick : Exclusive s tick.onMessages)
    (hallowed : AllowedTurn (MessageChannel.allow id) (MessageChannel.msgPipeType r) s tick.onMessages) :
    Shared (messageProtocol r) (stepMessages r s tick) := by
  cases tick with
  | read i len nonblocking signal =>
    have hfair : (messageProtocol r).acceptRead (.readShort len false) := rfl
    exact h.readTurn hfair htick hallowed nonblocking signal
  | write j bytes nonblocking signal =>
    have hfair : (messageProtocol r).acceptWrite (.write bytes none) := .inr fun _ _ => rfl
    exact h.writeTurn hfair htick hallowed nonblocking signal
  | signalReader i => exact h.signalReader i
  | signalWriter j => exact h.signalWriter j

theorem coe_filterMap (f : δ → Option β) (l : List δ) :
    ((l.filterMap f : List β) : Multiset β) = (l.map fun x => ((f x).toList : Multiset β)).sum := by
  rw [filterMap_eq_flatMap_toList, coe_flatMap]

theorem rel_take {ε : Type} {R : δ → ε → Prop} {l : List δ} {l' : List ε}
    (h : ∀ (i : ℕ) (d : δ), l[i]? = some d → ∃ m, l'[i]? = some m ∧ R d m) :
    Multiset.Rel R (l : Multiset δ) (l'.take l.length : Multiset ε) := by
  induction l generalizing l' with
  | nil => exact Multiset.Rel.zero
  | cons d l ih =>
    obtain ⟨m, hm, hd⟩ := h 0 d rfl
    cases l' with
    | nil => cases hm
    | cons m' l' =>
      obtain rfl := Option.some.inj hm
      exact Multiset.Rel.cons hd (ih fun i d' hd' => h (i + 1) d' hd')

theorem messagesKept_of_shared {s : MessageFile ι κ} (h : Shared (messageProtocol r) s) : MessagesKept s := by
  obtain ⟨sys, hinv, hshared, hleft, hright, hreads, hwrites, hskips⟩ := h.pair
  have hlinked : MessageChannel.Linked r id sys.shared sys.left.log sys.right.log := hinv.coupled
  have hposted : reportedMessages s.writeOps = (sys.shared.ghost.reported : Multiset (Message Unit)) := by
    rw [← sent_messages r, hwrites, hlinked.reported, MessageChannel.postings, coe_filterMap]
    refine congrArg sum (map_congr_left fun e he => ?_)
    have hskip : e.call.skipped = false := hskips e he
    rw [sendsBy_messages, hskip]
    rfl
  have hdelivered : receivedMessages s.readOps =
      (MessageChannel.deliveries sys.left.log : Multiset (Delivery Unit)) := by
    rw [← received_messages r, hreads, MessageChannel.deliveries, coe_filterMap]
    exact congrArg sum (map_congr_left fun e _ => receivesBy_messages r e)
  have hrel := rel_take hlinked.matched
  rw [← hdelivered] at hrel
  have hpart : ∃ M ≤ (s.chan_.sent : Multiset (Message Unit)), Multiset.Rel Answers (receivedMessages s.reads) M := by
    have hle : receivedMessages s.reads ≤ receivedMessages s.readOps := by
      rw [← received_messages r, ← received_messages r]
      exact h.reads.returned_le
    obtain ⟨due, hdue⟩ := Multiset.le_iff_exists_add.1 hle
    rw [hdue] at hrel
    obtain ⟨M, N, hM, -, hsum⟩ := Multiset.rel_add_left.1 hrel
    refine ⟨M, ?_, hM⟩
    calc M ≤ M + N := Multiset.le_add_right _ _
      _ = (sys.shared.sent.take (MessageChannel.deliveries sys.left.log).length : Multiset (Message Unit)) := hsum.symm
      _ ≤ (s.chan_.sent : Multiset (Message Unit)) := by
        rw [hshared]
        exact Multiset.coe_le.2 (take_sublist _ _).subperm
  have hreported : (∀ j, ∀ u ∈ s.writers j, u.apart) →
      (s.chan_.sent : Multiset (Message Unit)) = reportedMessages s.writes := by
    intro hwriters
    have hpending : sys.shared.ghost.pending = none := (hinv.right.idle (hright hwriters)).2
    have hsettled : reportedMessages s.writes = reportedMessages s.writeOps := by
      rw [← sent_messages r, ← sent_messages r]
      exact h.writes.settled fun j u hu => waking_of_apart (hwriters j u hu)
    rw [hsettled, hposted, ← hshared, MessageChannel.Shared.sent, hpending, Option.toList_none, append_nil]
  refine ⟨hpart, fun hwriters => hreported hwriters ▸ hpart, fun hreaders hwriters hempty => ?_⟩
  have hreturned : receivedMessages s.reads = receivedMessages s.readOps := by
    rw [← received_messages r, ← received_messages r]
    exact h.reads.settled fun i t ht => waking_of_apart (hreaders i t ht)
  have hhanded : sys.shared.ghost.handed = none := hinv.left.idle (hleft hreaders)
  have hused : sys.shared.used = 0 := by
    have hin : s.chan_.chan.in_ = s.chan_.chan.out_ := of_decide_eq_true hempty
    rw [MessageChannel.Shared.used, hshared, hin, BitVec.sub_self]
    rfl
  have hall : (MessageChannel.deliveries sys.left.log).length = sys.shared.sent.length := by
    rw [← hlinked.good.count, hused, MessageChannel.Shared.taken, hhanded, hlinked.delivered]
    rfl
  rw [hall, take_length, hshared] at hrel
  rw [hreturned, ← hreported hwriters]
  exact hrel

end Messages

/-- If the operations of each end are made one after the other, and no write begins to fill a message slot that a read
has not cleared yet, then nothing is lost and nothing is received twice. -/
theorem shared_files_keep_data (request : ℕ) (hrequest : request ≤ 2 ^ 63) :
    let r := RingSize.ofRequest request hrequest
    (∀ (c : ByteChannel) (ticks : List (FileTick ι κ)), c.in_ = c.out_ →
      Run.Admitted (stepStream r) (fun s tick => Exclusive s tick.onStream) (startStream c) ticks →
      BytesKept (Run.exec (stepStream r) (startStream c) ticks)) ∧
    ∀ (index : BitVec 64) (msgs : ℕ → Message Unit) (ticks : List (FileTick ι κ)),
      Run.Admitted (stepMessages r) (fun s tick => Exclusive s tick.onMessages ∧
        AllowedTurn (MessageChannel.allow id) (MessageChannel.msgPipeType r) s tick.onMessages)
        (startMessages index msgs) ticks →
      MessagesKept (Run.exec (stepMessages r) (startMessages index msgs) ticks) := by
  intro r
  refine ⟨fun c ticks hc hticks => ?_, fun index msgs ticks hticks => ?_⟩
  · have hused : c.used = 0 := by rw [ByteChannel.used, hc, BitVec.sub_self]; rfl
    have hlinked : ByteChannel.Linked r [] c [] [] := by
      refine ⟨hused.trans_le (Nat.zero_le _), ?_, trivial, by simp⟩
      rw [ByteChannel.contents, hused]
      rfl
    have hstart : Shared (streamProtocol r) (startStream c : StreamFile ι κ) :=
      Shared.start hlinked trivial trivial (some 0) [1]
    have hstep : ∀ (s : StreamFile ι κ) tick, Shared (streamProtocol r) s → Exclusive s tick.onStream →
        Shared (streamProtocol r) (stepStream r s tick) := fun _ _ => shared_step_stream
    exact bytesKept_of_shared (Run.invariant_exec hstep hstart hticks)
  · have hidle : (messageProtocol r).writerContract.idle (MessageChannel.start index msgs).shared := ⟨rfl, rfl⟩
    have hstart : Shared (messageProtocol r) (startMessages index msgs : MessageFile ι κ) :=
      Shared.start (MessageChannel.linked_start index msgs) rfl hidle (some 0) [1]
    have hstep : ∀ (s : MessageFile ι κ) tick, Shared (messageProtocol r) s →
        (Exclusive s tick.onMessages ∧ AllowedTurn (MessageChannel.allow id) (MessageChannel.msgPipeType r) s
          tick.onMessages) → Shared (messageProtocol r) (stepMessages r s tick) :=
      fun _ _ h htick => shared_step_messages h htick.1 htick.2
    exact messagesKept_of_shared (Run.invariant_exec hstep hstart hticks)

/-- A thread makes `w` accesses to write, and another one writes before it returns; then two threads read, in
`r₁` and `r₂` turns. -/
def politeTicks (w r₁ r₂ : ℕ) : List (FileTick Bool Bool) :=
  replicate w (.write false [1, 2] false false) ++ replicate 5 (.write true [3] false false) ++
  [.write false [1, 2] false false] ++ replicate r₁ (.read true 2 false false) ++
  replicate r₂ (.read false 4 false false)

def lastIndex : BitVec 64 := BitVec.ofNat 64 (2 ^ 64 - 1)

theorem shared_files_keep_data_politeTicks :
    let r := RingSize.ofRequest 4 (by decide)
    let stream := Run.exec (stepStream r) (startStream ⟨lastIndex, lastIndex, fun _ => 0⟩) (politeTicks 5 6 5)
    let messages := Run.exec (stepMessages r) (startMessages lastIndex fun _ => ⟨[], ()⟩) (politeTicks 4 7 7)
    BytesKept stream ∧ received stream.reads = {1, 2} + {3} ∧ MessagesKept messages ∧
      reportedMessages messages.writes = {⟨[1, 2], ()⟩, ⟨[3], ()⟩} :=
  ⟨(shared_files_keep_data 4 (by decide)).1 ⟨lastIndex, lastIndex, fun _ => 0⟩ (politeTicks 5 6 5) rfl
    (by decide +kernel),
    by decide +kernel, (shared_files_keep_data 4 (by decide)).2 lastIndex (fun _ => ⟨[], ()⟩) (politeTicks 4 7 7)
      (by decide +kernel),
    by decide +kernel⟩

/-- The turns of two threads that make the same number of turns alternately. -/
def alternately (n : ℕ) (a b : FileTick Bool Bool) : List (FileTick Bool Bool) :=
  (replicate n [a, b]).flatten

/-- Two writes fill the same byte of the ring and both report it; one byte is missing when the pipe is empty.
Two reads of the same byte receive it twice. -/
theorem overlapping_calls_lose_bytes :
    let r := RingSize.ofRequest 65536 (by decide)
    let empty : StreamFile Bool Bool := startStream ⟨0, 0, fun _ => 0⟩
    let lost := Run.exec (stepStream r) empty (alternately 5 (.write false [1] false false)
      (.write true [2] false false) ++ replicate 5 (.read true 4 false false))
    let doubled := Run.exec (stepStream r) empty (replicate 5 (.write true [1] false false) ++
      alternately 5 (.read false 4 false false) (.read true 4 false false))
    ((∀ i, (lost.readers i).isNone) ∧ (∀ j, (lost.writers j).isNone) ∧
      ByteChannel.isEmpty lost.chan_ = true ∧ reported lost.writes = {1, 2} ∧ received lost.reads = {2}) ∧
    reported doubled.writes = {1} ∧ received doubled.reads = {1, 1} := by
  decide +kernel

end Junction.PipeFile
