import Junction.WaitableChannelWakeups

/-!
# Turns of a channel

A writer wakes the reader when it has put something into the channel, readers wake the writers when they have made room,
and whoever closes an end wakes both. Only the attempts touch the channel, and only the calls that close or attach touch
the flags and the poll sources of the ends.
-/

set_option linter.unusedSectionVars false

variable (p : Option ℕ)

namespace Junction.WaitableChannel
open Function Interleaving
open Transfer
variable {σ α : Type} {resp : α → Type} {κr ρ κw ι κ ω : Type} [DecidableEq ι] [DecidableEq κ] [Wakeable ω κ]
  {C : ChannelType σ α resp κr ρ κw} {Good : σ → Prop} {s s' : Stepwise σ κr ρ κw ι κ ω}

/-! There is one waker for the reader, so that there has to be one reading thread only. -/

variable (u : Transfer (κr ⊕ κw) _ κw ℕ) (t : Transfer (κr ⊕ κw) _ κr ρ)

section Readers
variable [Subsingleton ι]

def ReadersWait (C : ChannelType σ α resp κr ρ κw) (s : Stepwise σ κr ρ κw ι κ ω) : Prop :=
  Waits s.readers s.read_waker_ (ReadBlocked C s)

namespace ReadersWait
variable (h : ReadersWait C s)
include h

variable {j : κ}

theorem moveWriter (hnot : ∀ u ∈ s.writers j, u.waking = false) (w : ω)
    (u' : Option (Transfer (κr ⊕ κw) _ κw ℕ)) (lock : Option κ) (writes writeOps : List (TransferEntry κ κw ℕ)) :
    ReadersWait C { s with
      write_waker_ := w, writers := update s.writers j u', lock_ := lock, writes := writes,
      writeOps := writeOps } :=
  h.imp fun hb => { hb with cause := hb.cause.imp_right fun howes => howes.update hnot }

theorem writeAccess (hC : C.Orderly Good) (hgood : Good s.chan_)
    (hnot : ∀ u ∈ s.writers j, u.waking = false) (u : Transfer (κr ⊕ κw) _ κw ℕ) (call : κw) (lock : Option κ) :
    ReadersWait C ({ s with lock_ := lock }.writeAccess C.atomic j u (C.atomic.write call)) := by
  rw [writeAccess_atomic]
  refine h.imp fun hb => { hb with cause := ?_ }
  cases hanswer : ((C.write call).run C.exec s.chan_).1 with
  | ok n => exact .inr (owes_update ⟨_, rfl, rfl⟩)
  | error e =>
    exact hb.cause.imp (hC.write_error call s.chan_ e hgood hanswer) fun howes => howes.update hnot

theorem writeWait (hnot : ∀ u ∈ s.writers j, u.waking = false) (u : Transfer (κr ⊕ κw) _ κw ℕ)
    (resumed signal : Bool) : ReadersWait C (s.writeWait C.atomic j u resumed signal) := by
  obtain ⟨w, u', lock, writes, heq, -⟩ := writeWait_moves (s := s) u resumed signal
  rw [heq]
  exact h.moveWriter hnot w u' lock writes _

theorem writeWake (n : ℕ) : ReadersWait C (s.writeWake C.atomic j u n) := by
  dsimp only [WaitableChannel.writeWake, finishWrite, setWriter, wakeReader, setEvents, clearEventsIf]
  split_ifs with hclosed hwake
  · refine h.imp fun hb => ?_
    rw [hb.reader] at hclosed
    cases hclosed
  · exact Waits.wakeAll h
  refine h.imp fun hb => { hb with cause := .inl ?_ }
  rw [hb.attached, Bool.and_true, Bool.not_eq_true, Bool.not_eq_false'] at hwake
  exact hwake

theorem writeTurn (hC : C.Orderly Good) (hs : Whole Good s) (j : κ) (call : κw) (nonblocking signal : Bool) :
    ReadersWait C (s.writeTurn C.atomic j call nonblocking signal) :=
  writeTurn_cases hs call nonblocking signal h (fun _ => h.imp fun hb => { hb with })
    (fun hnot u lock => h.writeAccess hC hs.good hnot u u.call lock)
    (fun hnot _ _ => h.moveWriter hnot _ _ _ _ _)
    (fun hnot u _ _ resumed => h.writeWait hnot u resumed signal) fun u n => h.writeWake u n

variable {i : ι}

theorem moveReader {w : ThreadWaker ι} (hw : ∀ k, k ≠ i → LawfulWakeable.Armed k s.read_waker_ →
      LawfulWakeable.Armed k w) {t' : Option (Transfer (κr ⊕ κw) _ κr ρ)} (ht' : ∀ t ∈ t', t.parked = false)
    (events : ℕ → BitVec 32) (reads readOps : List (TransferEntry ι κr ρ)) : ReadersWait C { s with
      read_waker_ := w, readers := update s.readers i t', events := events, reads := reads,
      readOps := readOps } :=
  (Waits.update h hw ht').imp fun hb => { hb with }

theorem readAccess (hC : C.Orderly Good) (hgood : Good s.chan_) (t : Transfer (κr ⊕ κw) _ κr ρ)
    (call : κr) : ReadersWait C (s.readAccess C.atomic i t (C.atomic.read call)) := by
  rw [readAccess_atomic]
  exact (Waits.update h (fun _ _ => id) (forall_mem_some (parked_ended t _))).imp fun hb =>
    { hb with cause := hb.cause.imp_left (hC.read_empty call s.chan_ hgood) }

theorem readWait (hpoll : s.reader_closed_ = false → s.read_poll_.isSome)
    (t : Transfer (κr ⊕ κw) _ κr ρ) (resumed signal : Bool) :
    ReadersWait C (s.readWait C.atomic i t resumed signal) := by
  unfold WaitableChannel.readWait
  have harmed : ∀ k, k ≠ i → LawfulWakeable.Armed k s.read_waker_ → LawfulWakeable.Armed k
      (waitInterruptible i resumed (!C.atomic.isEmpty s.chan_ || s.writer_closed_ || s.reader_closed_) signal
        s.read_waker_).2 := fun k hk => waitInterruptible_armed hk
  cases hr : waitInterruptible i resumed (!C.atomic.isEmpty s.chan_ || s.writer_closed_ || s.reader_closed_)
      signal s.read_waker_ with
  | mk outcome w =>
  rw [hr] at harmed
  cases outcome with
  | park =>
    obtain ⟨hstop, w₀, rfl⟩ := waitInterruptible_park hr
    rw [Bool.or_eq_false_iff, Bool.or_eq_false_iff, Bool.not_eq_false'] at hstop
    obtain ⟨⟨hempty, hwriter⟩, hreader⟩ := hstop
    have hb : ReadBlocked C s := ⟨hpoll hreader, hreader, hwriter, .inl hempty⟩
    exact (Waits.park h harmed (LawfulWakeable.arm_self i w₀) hb).imp fun hb => { hb with }
  | through normally =>
    dsimp only
    split_ifs
    · exact h.moveReader harmed forall_mem_none _ _ _
    · exact h.moveReader harmed forall_mem_none _ _ _
    · exact h.moveReader harmed (forall_mem_some rfl) _ _ _

theorem readWake (a : ρ) : ReadersWait C (s.readWake C.atomic i t a) := by
  dsimp only [WaitableChannel.readWake, finishRead, setReader, wakeWriters, setEvents, clearEventsIf]
  split_ifs
  · exact h.moveReader (fun _ _ => id) forall_mem_none _ _ _
  · have hgone : Waits (update s.readers i none) s.read_waker_ (ReadBlocked C s) :=
      Waits.update h (fun _ _ => id) forall_mem_none
    exact hgone.imp fun hb => { hb with cause := hb.cause.imp_right fun howes => howes.rouse _ }
  · exact h.moveReader (fun _ _ => id) forall_mem_none _ _ _

theorem readTurn (hC : C.Orderly Good) (hs : Whole Good s)
    (hpoll : s.reader_closed_ = false → s.read_poll_.isSome) (i : ι) (call : κr)
    (nonblocking signal : Bool) : ReadersWait C (s.readTurn C.atomic i call nonblocking signal) :=
  readTurn_cases hs call nonblocking signal h (fun _ t _ _ => h.readAccess hC hs.good t t.call)
    (fun _ _ _ _ => h.moveReader (fun _ _ => id) (forall_mem_some rfl) _ _ _)
    (fun _ _ _ _ _ => h.moveReader (fun _ _ => id) forall_mem_none _ _ _)
    (fun _ t _ resumed => h.readWait hpoll t resumed signal) fun t _ a _ => h.readWake t a

theorem closeReader : ReadersWait C (s.closeReader p) := by
  dsimp only [WaitableChannel.closeReader]
  split_ifs <;> exact Waits.wakeAll h

theorem closeWriter : ReadersWait C (s.closeWriter C.atomic p) := by
  unfold WaitableChannel.closeWriter
  split_ifs with hwake
  · exact Waits.wakeAll h
  refine h.imp fun hb => absurd ?_ hwake
  rw [hb.reader, hb.attached]
  rfl

theorem step (hC : C.Orderly Good) (hs : Whole Good s)
    (hpoll : s.reader_closed_ = false → s.read_poll_.isSome) (tick : ChannelTick κr κw ι κ) :
    ReadersWait C (s.step C.atomic tick) := by
  refine step_cases tick h (fun i call nonblocking signal _ => h.readTurn hC hs hpoll i call nonblocking signal)
    (fun j call nonblocking signal _ => h.writeTurn hC hs j call nonblocking signal) (fun i => ?_)
    (fun j => ?_) (fun p _ => h.closeReader p) h.closeWriter (fun p events => ?_) fun p events => ?_
  · exact (Waits.rouse h [i]).imp fun hb => { hb with }
  · exact h.imp fun hb => { hb with cause := hb.cause.imp_right fun howes => howes.rouse _ }
  · exact h.imp fun hb => { hb with attached := rfl }
  · exact h.imp fun hb => { hb with }

end ReadersWait

end Readers

/-! A reader that finds the channel full again when it has taken the lock leaves the writers parked. -/

section Writers
variable [LawfulWakeable ω]

def WritersWait (C : ChannelType σ α resp κr ρ κw) (s : Stepwise σ κr ρ κw ι κ ω) : Prop :=
  Waits s.writers s.write_waker_ (WriteBlocked C s)

namespace WritersWait
variable (h : WritersWait C s)
include h

variable {i : ι}

theorem moveReader (hnot : ∀ t ∈ s.readers i, t.waking = false) (w : ThreadWaker ι)
    (t' : Option (Transfer (κr ⊕ κw) _ κr ρ)) (reads readOps : List (TransferEntry ι κr ρ)) : WritersWait C { s with
      read_waker_ := w, readers := update s.readers i t', reads := reads, readOps := readOps } :=
  h.imp fun hb => { hb with cause := hb.cause.imp_right fun howes => howes.update hnot }

theorem readAccess (hC : C.Orderly Good) (hgood : Good s.chan_)
    (hnot : ∀ t ∈ s.readers i, t.waking = false) (t : Transfer (κr ⊕ κw) _ κr ρ) (call : κr) :
    WritersWait C (s.readAccess C.atomic i t (C.atomic.read call)) := by
  rw [readAccess_atomic]
  refine h.imp fun hb => { hb with cause := ?_ }
  cases hanswer : ((C.read call).run C.exec s.chan_).1 with
  | ok a => exact .inr (owes_update ⟨_, rfl, rfl⟩)
  | error e =>
    exact hb.cause.imp (hC.read_error call s.chan_ e hgood hanswer) fun howes => howes.update hnot

theorem readWait (hnot : ∀ t ∈ s.readers i, t.waking = false) (t : Transfer (κr ⊕ κw) _ κr ρ)
    (resumed signal : Bool) : WritersWait C (s.readWait C.atomic i t resumed signal) := by
  obtain ⟨w, t', reads, heq, -⟩ := readWait_moves (s := s) t resumed signal
  rw [heq]
  exact h.moveReader hnot w t' reads _

theorem readWake (a : ρ) : WritersWait C (s.readWake C.atomic i t a) := by
  dsimp only [WaitableChannel.readWake, finishRead, setReader, wakeWriters, setEvents, clearEventsIf]
  split_ifs with hclosed hwake
  · refine h.imp fun hb => ?_
    rw [hb.writer] at hclosed
    cases hclosed
  · exact Waits.wakeAll h
  refine h.imp fun hb => { hb with cause := .inl ?_ }
  have hattached : s.write_poll_.isEmpty = false := by
    rw [List.isEmpty_eq_false_iff]
    exact hb.attached
  rw [hattached, Bool.not_false, Bool.and_true, Bool.not_eq_true, Bool.not_eq_false'] at hwake
  exact hwake

theorem readTurn (hC : C.Orderly Good) (hs : Whole Good s) (i : ι) (call : κr) (nonblocking signal : Bool) :
    WritersWait C (s.readTurn C.atomic i call nonblocking signal) :=
  readTurn_cases hs call nonblocking signal h (fun hnot t _ _ => h.readAccess hC hs.good hnot t t.call)
    (fun hnot _ _ _ => h.moveReader hnot _ _ _ _) (fun hnot _ _ _ _ => h.moveReader hnot _ _ _ _)
    (fun hnot t _ resumed => h.readWait hnot t resumed signal) fun t _ a _ => h.readWake t a

variable {j : κ}

theorem moveWriter {w : ω} (hw : ∀ k, k ≠ j → LawfulWakeable.Armed k s.write_waker_ →
      LawfulWakeable.Armed k w) {u' : Option (Transfer (κr ⊕ κw) _ κw ℕ)} (hu' : ∀ u ∈ u', u.parked = false)
    (lock : Option κ) (events : ℕ → BitVec 32) (writes writeOps : List (TransferEntry κ κw ℕ)) :
    WritersWait C { s with
      write_waker_ := w, writers := update s.writers j u', lock_ := lock, events := events,
      writes := writes, writeOps := writeOps } :=
  (Waits.update h hw hu').imp fun hb => { hb with }

theorem writeAccess (hC : C.Orderly Good) (hgood : Good s.chan_) (u : Transfer (κr ⊕ κw) _ κw ℕ)
    (call : κw) (lock : Option κ) :
    WritersWait C ({ s with lock_ := lock }.writeAccess C.atomic j u (C.atomic.write call)) := by
  rw [writeAccess_atomic]
  exact (Waits.update h (fun _ _ => id) (forall_mem_some (parked_ended u _))).imp fun hb =>
    { hb with cause := hb.cause.imp_left (hC.write_full call s.chan_ hgood) }

theorem writeWait (hpoll : C.isFull s.chan_ → s.reader_closed_ = false →
      s.writer_closed_ = false → s.write_poll_ ≠ []) (u : Transfer (κr ⊕ κw) _ κw ℕ)
    (resumed signal : Bool) : WritersWait C (s.writeWait C.atomic j u resumed signal) := by
  unfold WaitableChannel.writeWait
  have harmed : ∀ k, k ≠ j → LawfulWakeable.Armed k s.write_waker_ → LawfulWakeable.Armed k
      (waitInterruptible j resumed (!C.atomic.isFull s.chan_ || s.reader_closed_ || s.writer_closed_) signal
        s.write_waker_).2 := fun k hk => waitInterruptible_armed hk
  cases hr : waitInterruptible j resumed (!C.atomic.isFull s.chan_ || s.reader_closed_ || s.writer_closed_)
      signal s.write_waker_ with
  | mk outcome w =>
  rw [hr] at harmed
  cases outcome with
  | park =>
    obtain ⟨hstop, w₀, rfl⟩ := waitInterruptible_park hr
    rw [Bool.or_eq_false_iff, Bool.or_eq_false_iff, Bool.not_eq_false'] at hstop
    obtain ⟨⟨hfull, hreader⟩, hwriter⟩ := hstop
    have hb : WriteBlocked C s := ⟨hpoll hfull hreader hwriter, hreader, hwriter, .inl hfull⟩
    exact (Waits.park h harmed (LawfulWakeable.arm_self j w₀) hb).imp fun hb => { hb with }
  | through normally =>
    dsimp only
    split_ifs
    · exact h.moveWriter harmed forall_mem_none _ _ _ _
    · exact h.moveWriter harmed forall_mem_none _ _ _ _
    · exact h.moveWriter harmed (forall_mem_some rfl) _ _ _ _

theorem writeWake (n : ℕ) : WritersWait C (s.writeWake C.atomic j u n) := by
  dsimp only [WaitableChannel.writeWake, finishWrite, setWriter, wakeReader, setEvents, clearEventsIf]
  split_ifs
  · exact h.moveWriter (fun _ _ => id) forall_mem_none _ _ _ _
  · have hgone : Waits (update s.writers j none) s.write_waker_ (WriteBlocked C s) :=
      Waits.update h (fun _ _ => id) forall_mem_none
    exact hgone.imp fun hb => { hb with cause := hb.cause.imp_right fun howes => howes.rouse _ }
  · exact h.moveWriter (fun _ _ => id) forall_mem_none _ _ _ _

theorem writeTurn (hC : C.Orderly Good) (hs : Whole Good s) (hpoll : ∀ u ∈ s.writers j,
      u.waits → C.isFull s.chan_ → s.reader_closed_ = false → s.writer_closed_ = false →
      s.write_poll_ ≠ []) (call : κw) (nonblocking signal : Bool) :
    WritersWait C (s.writeTurn C.atomic j call nonblocking signal) :=
  writeTurn_cases hs call nonblocking signal h (fun _ => h.imp fun hb => { hb with })
    (fun _ u lock => h.writeAccess hC hs.good u u.call lock)
    (fun _ _ _ => h.moveWriter (fun _ _ => id) forall_mem_none _ _ _ _)
    (fun _ u hu hwaits resumed => h.writeWait (hpoll u hu hwaits) u resumed signal)
    fun u n => h.writeWake u n

theorem closeReader : WritersWait C (s.closeReader p) := by
  dsimp only [WaitableChannel.closeReader]
  by_cases hwake : (!s.writer_closed_ && !s.write_poll_.isEmpty)
  · rw [if_pos hwake]
    exact Waits.wakeAll h
  rw [if_neg hwake]
  refine h.imp fun hb => absurd ?_ hwake
  have hattached : s.write_poll_.isEmpty = false := by
    rw [List.isEmpty_eq_false_iff]
    exact hb.attached
  rw [hb.writer, hattached]
  rfl

theorem closeWriter : WritersWait C (s.closeWriter C.atomic p) := by
  unfold WaitableChannel.closeWriter
  split_ifs <;> exact Waits.wakeAll h

end WritersWait

/-- A writer that goes to wait finds a poll source attached to its end, unless the channel has room or an
end is closed. -/
def WriterAttached (C : ChannelType σ α resp κr ρ κw) (s : Stepwise σ κr ρ κw ι κ ω) :
    ChannelTick κr κw ι κ → Prop
  | .writer j _ _ _ => ∀ u ∈ s.writers j, u.waits = true → C.isFull s.chan_ = true →
      s.reader_closed_ = false → s.writer_closed_ = false → s.write_poll_ ≠ []
  | _ => True

instance : (tick : ChannelTick κr κw ι κ) → Decidable (WriterAttached C s tick)
  | .writer j .. => inferInstanceAs (Decidable (∀ u ∈ s.writers j, _))
  | .reader .. | .signalReader _ | .signalWriter _ | .closeReader _ | .closeWriter _ | .attachReadPoll _
  | .attachWritePoll _ => .isTrue trivial

theorem WritersWait.step (h : WritersWait C s) (hC : C.Orderly Good) (hs : Whole Good s)
    (tick : ChannelTick κr κw ι κ) (hattached : WriterAttached C s tick) : WritersWait C (s.step C.atomic tick) := by
  refine step_cases tick h (fun i call nonblocking signal _ => h.readTurn hC hs i call nonblocking signal)
    (fun j call nonblocking signal htick => ?_) (fun i => ?_) (fun j => ?_) (fun p _ => h.closeReader p) h.closeWriter
    (fun p events => ?_) fun p events => ?_
  · subst htick
    exact h.writeTurn hC hs hattached call nonblocking signal
  · exact h.imp fun hb => { hb with cause := hb.cause.imp_right fun howes => howes.rouse _ }
  · exact (Waits.rouse h [j]).imp fun hb => { hb with }
  · exact h.imp fun hb => { hb with }
  · exact h.imp fun hb => { hb with attached := C.attach_ne_nil _ p }

end Writers

/-! ### What the turns leave alone -/

structure SameChannel (s s' : Stepwise σ κr ρ κw ι κ ω) : Prop where
  chan : s'.chan_ = s.chan_
  readOps : s'.readOps = s.readOps
  writeOps : s'.writeOps = s.writeOps

structure SameEnds (s s' : Stepwise σ κr ρ κw ι κ ω) : Prop where
  reader_closed : s'.reader_closed_ = s.reader_closed_
  writer_closed : s'.writer_closed_ = s.writer_closed_
  read_poll : s'.read_poll_ = s.read_poll_
  write_poll : s'.write_poll_ = s.write_poll_

theorem same_closeReader : SameChannel s (s.closeReader p) ∧
    (s.closeReader p).reader_closed_ ∧ (s.closeReader p).writer_closed_ = s.writer_closed_ ∧
    (s.closeReader p).write_poll_ = s.write_poll_ := by
  dsimp only [closeReader, wakeReader, wakeWriters, setEvents]
  split_ifs <;> exact ⟨⟨rfl, rfl, rfl⟩, rfl, rfl, rfl⟩

theorem same_closeWriter : SameChannel s (s.closeWriter C.atomic p) ∧
    (s.closeWriter C.atomic p).writer_closed_ ∧ (s.closeWriter C.atomic p).reader_closed_ = s.reader_closed_ ∧
    (s.closeWriter C.atomic p).read_poll_ = s.read_poll_ := by
  dsimp only [closeWriter, wakeReader, wakeWriters, setEvents]
  split_ifs <;> exact ⟨⟨rfl, rfl, rfl⟩, rfl, rfl, rfl⟩

variable (hs : Whole Good s)
include hs

theorem sameEnds_readTurn (i : ι) (call : κr) (nonblocking signal : Bool) :
    SameEnds s (s.readTurn C.atomic i call nonblocking signal) := by
  refine readTurn_moves hs call nonblocking signal ⟨rfl, rfl, rfl, rfl⟩ (fun t _ => ?_)
    (fun _ _ _ _ _ _ _ => ⟨rfl, rfl, rfl, rfl⟩) fun _ _ _ _ _ => ⟨rfl, rfl, rfl, rfl⟩
  rw [readAccess_atomic]
  exact ⟨rfl, rfl, rfl, rfl⟩

theorem sameEnds_writeTurn (j : κ) (call : κw) (nonblocking signal : Bool) :
    SameEnds s (s.writeTurn C.atomic j call nonblocking signal) := by
  refine writeTurn_moves hs call nonblocking signal (fun _ => ⟨rfl, rfl, rfl, rfl⟩) (fun u lock => ?_)
    (fun _ _ _ _ _ _ _ => ⟨rfl, rfl, rfl, rfl⟩) fun _ _ _ _ _ => ⟨rfl, rfl, rfl, rfl⟩
  rw [writeAccess_atomic]
  exact ⟨rfl, rfl, rfl, rfl⟩

omit hs

structure Attached (s : Stepwise σ κr ρ κw ι κ ω) : Prop where
  reader : s.reader_closed_ = false → s.read_poll_.isSome = true
  writer : s.writer_closed_ = false → s.write_poll_ ≠ []

theorem Attached.sameEnds (h : Attached s) (hsame : SameEnds s s') : Attached s' where
  reader hopen := by
    rw [hsame.read_poll]
    exact h.reader (hsame.reader_closed.symm.trans hopen)
  writer hopen := by
    rw [hsame.write_poll]
    exact h.writer (hsame.writer_closed.symm.trans hopen)

theorem Attached.step (h : Attached s) (hs : Whole Good s) (tick : ChannelTick κr κw ι κ) :
    Attached (s.step C.atomic tick) := by
  refine step_cases tick h (fun i call nonblocking signal _ => h.sameEnds (sameEnds_readTurn hs i call nonblocking signal))
    (fun j call nonblocking signal _ => h.sameEnds (sameEnds_writeTurn hs j call nonblocking signal))
    (fun _ => ⟨h.reader, h.writer⟩) (fun _ => ⟨h.reader, h.writer⟩) (fun p _ => ?_) (fun p => ?_)
    (fun _ _ => ⟨fun _ => rfl, h.writer⟩) fun p _ => ⟨h.reader, fun _ => C.attach_ne_nil _ p⟩
  · obtain ⟨-, hclosed, hwriter, hpoll⟩ := same_closeReader (s := s) p
    refine ⟨fun hopen => ?_, fun hopen => ?_⟩
    · rw [hclosed] at hopen
      cases hopen
    · rw [hpoll]
      exact h.writer (hwriter.symm.trans hopen)
  obtain ⟨-, hclosed, hreader, hpoll⟩ := same_closeWriter (s := s) p
  refine ⟨fun hopen => ?_, fun hopen => ?_⟩
  · rw [hpoll]
    exact h.reader (hreader.symm.trans hopen)
  · rw [hclosed] at hopen
    cases hopen

def Returns (C : ChannelType σ α resp κr ρ κw) (s : Stepwise σ κr ρ κw ι κ ω)
    (t : Transfer (κr ⊕ κw) (Sum.elim (fun _ => Status ρ) fun _ => Status ℕ) κr ρ) : Status ρ → Prop
  | .ok a => t.place = .waking a ∨ C.isEmpty s.chan_ = true ∧
      (t.place = .emptyTest ∨ s.reader_closed_ = true ∨ s.writer_closed_ = true)
  | .error _ => True

/-- A step leaves the list of the reads that have returned, or adds one. -/
def ReadsGrow (C : ChannelType σ α resp κr ρ κw) (s s' : Stepwise σ κr ρ κw ι κ ω) : Prop :=
  s'.reads = s.reads ∨ ∃ i, ∃ t ∈ s.readers i, ∃ answer,
    s'.reads = s.reads ++ [⟨i, t.call, answer⟩] ∧ Returns C s t answer

theorem readsGrow_readWait {i : ι} {t : Transfer (κr ⊕ κw) _ κr ρ} (ht : t ∈ s.readers i)
    (resumed signal : Bool) : ReadsGrow C s (s.readWait C.atomic i t resumed signal) := by
  unfold readWait
  generalize waitInterruptible i resumed _ signal s.read_waker_ = r
  obtain ⟨outcome, w⟩ := r
  cases outcome with
  | park => exact .inl rfl
  | through normally =>
    dsimp only [finishRead, setReader]
    split_ifs with hclosed
    · rw [Bool.and_eq_true, Bool.or_eq_true] at hclosed
      exact .inr ⟨i, t, ht, _, rfl, .inr ⟨hclosed.2, .inr hclosed.1⟩⟩
    · exact .inr ⟨i, t, ht, _, rfl, trivial⟩
    · exact .inl rfl

include hs

theorem readsGrow_readTurn (i : ι) (call : κr) (nonblocking signal : Bool) :
    ReadsGrow C s (s.readTurn C.atomic i call nonblocking signal) := by
  refine readTurn_cases hs call nonblocking signal (.inl rfl) (fun _ t _ _ => ?_) (fun _ _ _ _ => .inl rfl)
    (fun _ t ht answer hanswer => .inr ⟨i, t, ht, answer, rfl, ?_⟩)
    (fun _ t ht resumed => readsGrow_readWait ht resumed signal)
    fun t ht a hplace => ?_
  · rw [readAccess_atomic]
    exact .inl rfl
  · rcases hanswer with rfl | ⟨hplace, hempty, rfl⟩
    · trivial
    · exact .inr ⟨hempty, .inl hplace⟩
  · dsimp only [readWake, finishRead, setReader, wakeWriters, setEvents, clearEventsIf]
    split_ifs <;> exact .inr ⟨i, t, ht, _, rfl, .inl hplace⟩

theorem readsGrow_step (tick : ChannelTick κr κw ι κ) : ReadsGrow C s (s.step C.atomic tick) := by
  refine step_cases tick (.inl rfl) (fun i call nonblocking signal _ => readsGrow_readTurn hs i call nonblocking signal)
    (fun j call nonblocking signal _ => .inl (writeTurn_moves (P := fun s' => s'.reads = s.reads) hs call nonblocking
      signal (fun _ => rfl) (fun u lock => by rw [writeAccess_atomic]; rfl) (fun _ _ _ _ _ _ _ => rfl)
      fun _ _ _ _ _ => rfl))
    (fun _ => .inl rfl) (fun _ => .inl rfl) (fun p _ => .inl ?_) (fun p => .inl ?_) (fun _ _ => .inl rfl)
    fun _ _ => .inl rfl
  · dsimp only [closeReader, wakeReader, wakeWriters, setEvents]
    split_ifs with hwake
    · rfl
    · rfl
  · dsimp only [closeWriter, wakeReader, wakeWriters, setEvents]
    split_ifs <;> rfl

end Junction.WaitableChannel
