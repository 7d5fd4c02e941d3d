import Junction.WaitableChannel

/-!
# Event counters

Readers and writers of an event counter wait in one queue, each for a condition of its own. Every change of the
counter, with the events of its poll source, happens under the lock and ends with a wakeup of the whole queue.
-/

namespace Junction
open Function

namespace EventFd

/-- A call that takes the lock; the write of a zero does not. -/
inductive Call
  | read
  | write (val : { val : BitVec 64 // val ≠ 0 })
  deriving DecidableEq

inductive Answer
  | read (out : BitVec 64)
  | write (val : BitVec 64)
  | error (e : Error)
  deriving DecidableEq

def Answer.taken : Answer → ℕ
  | read out => out.toNat
  | _ => 0

def Answer.added : Answer → ℕ
  | write val => val.toNat
  | _ => 0

inductive Place
  | idle
  | parked (call : Call)
  | woken (call : Call)
  deriving DecidableEq

/-- `ThreadReady`. -/
def Place.ready : Place → Place
  | parked call => woken call
  | place => place

inductive Event
  | read (th size : ℕ) (nonblocking signal : Bool)
  | write (th size : ℕ) (val : BitVec 64) (nonblocking signal : Bool)
  | resume (th : ℕ) (signal : Bool)
  | interrupt (th : ℕ)

end EventFd

/-- An `EventFDFile` with its threads and the answers that they got. -/
structure EventFd where
  semaphore : Bool
  val_ : BitVec 64
  events : BitVec 32
  queue_ : WaitQueue ℕ
  place : ℕ → EventFd.Place
  answers : List EventFd.Answer

namespace EventFd

def kEventFdValSize : ℕ := 8

def uint64Max : BitVec 64 := 0xffffffffffffffff

def construct (initval : BitVec 32) (semaphore : Bool) : EventFd :=
  ⟨semaphore, initval.setWidth 64, kPollOut, Wakeable.idle, fun _ => .idle, []⟩

/-- `load`: the event mask is not part of the archive. -/
def load (val : BitVec 64) (semaphore : Bool) : EventFd :=
  let events := if val < uint64Max then kPollOut else 0
  ⟨semaphore, val, if 0 < val then events ||| kPollIn else events, Wakeable.idle, fun _ => .idle, []⟩

def stop (s : EventFd) : Call → Bool
  | .read => s.val_ ≠ 0
  | .write val => val.1 ≤ val.1 + s.val_

def answer (s : EventFd) (th : ℕ) (a : Answer) : EventFd :=
  { s with place := update s.place th .idle, answers := a :: s.answers }

def wakeAll (s : EventFd) : EventFd :=
  { s with
    queue_ := (Wakeable.wakeAll s.queue_).2
    place := fun u => if u ∈ (Wakeable.wakeAll s.queue_).1 then (s.place u).ready else s.place u }

def left (s : EventFd) : BitVec 64 := if s.semaphore then s.val_ - 1 else 0

def take (s : EventFd) : Answer × EventFd :=
  let events := if s.left = 0 then s.events &&& ~~~kPollIn else s.events
  (.read (if s.semaphore then 1 else s.val_),
    { s with val_ := s.left, events := if s.left < uint64Max then events ||| kPollOut else events })

def add (s : EventFd) (val : BitVec 64) : Answer × EventFd :=
  let sum := s.val_ + val
  let events := s.events ||| kPollIn
  (.write val, { s with val_ := sum, events := if sum = uint64Max then events &&& ~~~kPollOut else events })

def effect (s : EventFd) : Call → Answer × EventFd
  | .read => s.take
  | .write val => s.add val.1

/-- From the lock to the park or to the return. -/
def turn (s : EventFd) (th : ℕ) (call : Call) (resumed signal : Bool) : EventFd :=
  match waitInterruptible th resumed (s.stop call) signal s.queue_ with
  | (.park, q) => { s with queue_ := q, place := update s.place th (.parked call) }
  | (.through false, q) => { s with queue_ := q }.answer th (.error .EINTR)
  | (.through true, q) =>
    { (s.effect call).2 with queue_ := q }.wakeAll.answer th (s.effect call).1

def enter (s : EventFd) (th : ℕ) (call : Call) (nonblocking signal : Bool) : EventFd :=
  if !s.stop call && nonblocking then s.answer th (.error .EAGAIN) else s.turn th call false signal

def step (s : EventFd) : Event → EventFd
  | .read th size nonblocking signal =>
    if s.place th ≠ .idle then s
    else if size < kEventFdValSize then s.answer th (.error .EINVAL)
    else s.enter th .read nonblocking signal
  | .write th size val nonblocking signal =>
    if s.place th ≠ .idle then s
    else if size < kEventFdValSize ∨ val = uint64Max then s.answer th (.error .EINVAL)
    else if hval : val = 0 then s.answer th (.write 0)
    else s.enter th (.write ⟨val, hval⟩) nonblocking signal
  | .resume th signal =>
    match s.place th with
    | .woken call => s.turn th call true signal
    | _ => s
  | .interrupt th => { s with place := update s.place th (s.place th).ready }

def exec : EventFd → List Event → EventFd := Run.exec step

/-- What the steps keep: the balance of the counter, and that who is parked is in the queue and has to wait. -/
structure Sound (initial : ℕ) (s : EventFd) : Prop where
  balance : initial + (s.answers.map Answer.added).sum =
    (s.answers.map Answer.taken).sum + s.val_.toNat
  waits : ∀ th call, s.place th = .parked call → th ∈ s.queue_.waiters_ ∧ s.stop call = false

structure Exact (s : EventFd) : Prop where
  readable : s.events &&& kPollIn ≠ 0 ↔ 0 < s.val_
  writable : s.events &&& kPollOut ≠ 0 ↔ s.stop (.write ⟨1, by decide⟩) = true

variable {s s' : EventFd} {initial : ℕ}

def Keeps (s : EventFd) (th : ℕ) (q : WaitQueue ℕ) : Prop :=
  ∀ u, u ≠ th → u ∈ s.queue_.waiters_ → u ∈ q.waiters_

/-- What a step can do. A thread that does not take the step stays in the queue until it is woken. -/
inductive Effect (s : EventFd) : EventFd → Prop
  | stay : Effect s s
  | ready (th : ℕ) : Effect s { s with place := update s.place th (s.place th).ready }
  | give (th : ℕ) (a : Answer) (q : WaitQueue ℕ) (hadded : a.added = 0) (htaken : a.taken = 0)
    (hq : s.Keeps th q) : Effect s ({ s with queue_ := q }.answer th a)
  | park (th : ℕ) (call : Call) (q : WaitQueue ℕ) (hstop : s.stop call = false) (hth : th ∈ q.waiters_)
    (hq : s.Keeps th q) : Effect s { s with queue_ := q, place := update s.place th (.parked call) }
  | finish (th : ℕ) (call : Call) (q : WaitQueue ℕ) (hstop : s.stop call = true) (hq : s.Keeps th q) :
    Effect s ({ (s.effect call).2 with queue_ := q }.wakeAll.answer th (s.effect call).1)

theorem turn_effect (s : EventFd) (th : ℕ) (call : Call) (resumed signal : Bool) :
    Effect s (s.turn th call resumed signal) := by
  have hq : s.Keeps th (waitInterruptible th resumed (s.stop call) signal s.queue_).2 := fun u hne hu =>
    waitInterruptible_armed (w := s.queue_) hne hu
  unfold turn
  cases hw : waitInterruptible th resumed (s.stop call) signal s.queue_ with
  | mk outcome q =>
    rw [hw] at hq
    cases outcome with
    | park =>
      obtain ⟨hstop, w, rfl⟩ := waitInterruptible_park hw
      exact .park th call _ hstop (LawfulWakeable.arm_self th w) hq
    | through normally =>
      cases normally with
      | false => exact .give th _ q rfl rfl hq
      | true => exact .finish th call q (waitInterruptible_through hw) hq

theorem enter_effect (s : EventFd) (th : ℕ) (call : Call) (nonblocking signal : Bool) :
    Effect s (s.enter th call nonblocking signal) := by
  unfold enter
  split_ifs
  · exact .give th _ s.queue_ rfl rfl fun _ _ hu => hu
  · exact turn_effect s th call false signal

theorem step_effect (s : EventFd) (e : Event) : Effect s (s.step e) := by
  cases e with
  | read th size nonblocking signal =>
    simp only [step]
    split_ifs
    · exact .stay
    · exact .give th _ s.queue_ rfl rfl fun _ _ hu => hu
    · exact enter_effect s th _ nonblocking signal
  | write th size val nonblocking signal =>
    simp only [step]
    split_ifs
    · exact .stay
    · exact .give th _ s.queue_ rfl rfl fun _ _ hu => hu
    · exact .give th _ s.queue_ rfl rfl fun _ _ hu => hu
    · exact enter_effect s th _ nonblocking signal
  | resume th signal =>
    simp only [step]
    split
    · exact turn_effect s th _ true signal
    · exact .stay
  | interrupt th => exact .ready th

theorem effect_balance {call : Call} (h : s.stop call) :
    s.val_.toNat + (s.effect call).1.added = (s.effect call).1.taken + (s.effect call).2.val_.toNat := by
  cases call with
  | read =>
    simp only [stop, decide_eq_true_eq] at h
    simp only [effect, take, left, Answer.added, Answer.taken]
    split_ifs
    · bv_omega
    · simp
  | write val =>
    simp only [stop, decide_eq_true_eq] at h
    simp only [effect, add, Answer.added, Answer.taken]
    bv_omega

theorem parked_update {place : ℕ → Place} {th u : ℕ} {pl : Place} {call : Call}
    (h : update place th pl u = .parked call) :
    u = th ∧ pl = .parked call ∨ u ≠ th ∧ place u = .parked call := by
  rcases eq_or_ne u th with rfl | hne
  · exact .inl ⟨rfl, by rwa [update_self] at h⟩
  · exact .inr ⟨hne, by rwa [update_of_ne hne] at h⟩

theorem ready_ne_parked (pl : Place) (call : Call) : pl.ready ≠ .parked call := by
  cases pl <;> nofun

theorem Sound.effect (h : Sound initial s) (he : Effect s s') : Sound initial s' := by
  cases he with
  | stay => exact h
  | ready th =>
    refine ⟨h.balance, fun u call hu => ?_⟩
    rcases parked_update hu with ⟨-, hpl⟩ | ⟨-, hold⟩
    · exact absurd hpl (ready_ne_parked _ _)
    · exact h.waits u call hold
  | give th a q hadded htaken hq =>
    refine ⟨by simpa [answer, hadded, htaken] using h.balance, fun u call hu => ?_⟩
    rcases parked_update hu with ⟨-, hpl⟩ | ⟨hne, hold⟩
    · cases hpl
    · exact ⟨hq u hne (h.waits u call hold).1, (h.waits u call hold).2⟩
  | park th call q hstop hth hq =>
    refine ⟨h.balance, fun u c hu => ?_⟩
    rcases parked_update hu with ⟨rfl, hpl⟩ | ⟨hne, hold⟩
    · obtain rfl := Place.parked.inj hpl
      exact ⟨hth, hstop⟩
    · exact ⟨hq u hne (h.waits u c hold).1, (h.waits u c hold).2⟩
  | finish th call q hstop hq =>
    have hbalance := h.balance
    have heffect := effect_balance hstop
    refine ⟨?_, fun u c hu => ?_⟩
    · have hanswers : (s.effect call).2.answers = s.answers := by cases call <;> rfl
      simp only [answer, wakeAll, hanswers, List.map_cons, List.sum_cons]
      omega
    have hplace : (s.effect call).2.place = s.place := by cases call <;> rfl
    rcases parked_update hu with ⟨-, hpl⟩ | ⟨hne, hold⟩
    · cases hpl
    simp only [wakeAll, hplace] at hold
    split_ifs at hold with hmem
    · exact absurd hold (ready_ne_parked _ _)
    · exact absurd (hq u hne (h.waits u c hold).1) hmem

theorem and_kPollIn {m : BitVec 32} : m &&& kPollIn ≠ 0 ↔ m.getLsbD 0 := by
  rw [show kPollIn = BitVec.twoPow 32 0 from rfl, BitVec.and_twoPow]
  cases m.getLsbD 0 <;> decide

theorem and_kPollOut {m : BitVec 32} : m &&& kPollOut ≠ 0 ↔ m.getLsbD 2 := by
  rw [show kPollOut = BitVec.twoPow 32 2 from rfl, BitVec.and_twoPow]
  cases m.getLsbD 2 <;> decide

theorem stop_write_one : s.stop (.write ⟨1, by decide⟩) ↔ s.val_ < uint64Max := by
  simp only [stop, decide_eq_true_eq, uint64Max]
  bv_omega

theorem left_lt (h : s.val_ ≠ 0) : s.left < uint64Max := by
  unfold left uint64Max
  split_ifs
  · bv_omega
  · decide

theorem Exact.take (h : Exact s) (hstop : s.val_ ≠ 0) : Exact s.take.2 := by
  have hin : s.events.getLsbD 0 := and_kPollIn.1 (h.readable.2 (by bv_omega))
  have hlt : s.left < uint64Max := left_lt hstop
  constructor
  · rw [and_kPollIn]
    simp only [EventFd.take, if_pos hlt]
    split_ifs with h0
    · simp [h0, kPollIn, kPollOut]
    · simp only [BitVec.getLsbD_or, hin, Bool.true_or, true_iff]
      bv_omega
  · rw [and_kPollOut, stop_write_one]
    simp only [EventFd.take, if_pos hlt]
    simp [hlt, kPollOut]

theorem Exact.add {val : BitVec 64} (h : Exact s) (hval : val ≠ 0) (hstop : val ≤ val + s.val_) :
    Exact (s.add val).2 := by
  have hout : s.events.getLsbD 2 := and_kPollOut.1 (h.writable.2 (stop_write_one.2 (by unfold uint64Max; bv_omega)))
  have hpos : 0 < s.val_ + val := by bv_omega
  constructor
  · rw [and_kPollIn]
    simp only [EventFd.add, hpos, iff_true]
    split_ifs <;> simp [kPollIn, kPollOut]
  rw [and_kPollOut, stop_write_one]
  simp only [EventFd.add]
  split_ifs with hmax
  · simp [kPollOut, hmax]
  simp only [BitVec.getLsbD_or, hout, Bool.true_or, true_iff]
  unfold uint64Max at hmax ⊢
  bv_omega

theorem Exact.effect (h : Exact s) (he : Effect s s') : Exact s' := by
  cases he with
  | stay => exact h
  | ready | give | park => exact ⟨h.readable, h.writable⟩
  | finish th call q hstop hq =>
    have hdone : Exact (s.effect call).2 := by
      cases call with
      | read => exact h.take (of_decide_eq_true hstop)
      | write val => exact h.add val.2 (of_decide_eq_true hstop)
    exact ⟨hdone.readable, hdone.writable⟩

theorem Sound.exec (h : Sound initial s) (events : List Event) : Sound initial (exec s events) := by
  have hstep : ∀ s e, Sound initial s → Sound initial (step s e) := fun s e h => h.effect (step_effect s e)
  exact Run.invariant_run hstep h events

theorem Exact.exec (h : Exact s) (events : List Event) : Exact (exec s events) := by
  have hstep : ∀ s e, Exact s → Exact (step s e) := fun s e h => h.effect (step_effect s e)
  exact Run.invariant_run hstep h events

theorem exact_load (val : BitVec 64) (semaphore : Bool) : Exact (load val semaphore) := by
  constructor
  · rw [and_kPollIn]
    simp only [load]
    split_ifs with hpos hmax <;> simp only [hpos, iff_true, iff_false] <;> decide
  rw [and_kPollOut, stop_write_one]
  simp only [load]
  split_ifs with hpos hmax hmax <;> simp only [hmax, iff_true, iff_false] <;> decide

theorem exact_construct {initval : BitVec 32} {semaphore : Bool} :
    Exact (construct initval semaphore) ↔ initval = 0 := by
  constructor
  · intro h
    have hval : ¬ 0 < initval.setWidth 64 := fun hlt =>
      absurd (h.readable.2 hlt) (show ¬ kPollOut &&& kPollIn ≠ 0 by decide)
    bv_omega
  · rintro rfl
    cases semaphore <;> exact ⟨by decide, by decide⟩

theorem ready_iff (initval : BitVec 32) (semaphore : Bool) :
    ((∀ events, Exact (exec (construct initval semaphore) events)) ↔ initval = 0) ∧
      ∀ val events, Exact (exec (load val semaphore) events) := by
  refine ⟨⟨fun h => ?_, fun h events => ?_⟩, fun val events => ?_⟩
  · exact exact_construct.1 (h [])
  · exact (exact_construct.2 h).exec events
  · exact (exact_load val semaphore).exec events

/-- A new counter with a value: a read returns at once, and the poll source has no event for it. -/
theorem ready_unseen :
    let s := exec (construct 1 false) []
    s.events &&& kPollIn = 0 ∧ (s.step (.read 0 8 false false)).answers = [.read 1] := by
  decide

end EventFd

end Junction
