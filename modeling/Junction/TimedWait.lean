import Junction.Sync

/-!
# Waits with a timeout

`WakeOnTimeout` starts its timer before the waiting thread takes the lock. The callback runs under the lock
and records the timeout only if it finds the thread armed. So an expiry before the thread has parked, or
between a wake and the next park, is forgotten, and the timer does not fire again.
-/

namespace Junction
open Option Wakeable

inductive TimerState
  | unset
  | pending
  | fired
  deriving DecidableEq

/-- Where the waiting thread is: before the lock, parked, running again, or back from the wait. -/
inductive WaitPlace
  | entering
  | parked
  | woken
  | through (normally : Bool)
  deriving DecidableEq

/-- A `WakeOnTimeout` and the wait that it is made for. -/
structure TimedWait where
  waker : ThreadWaker Unit
  timer : TimerState
  timedOut : Bool
  place : WaitPlace
  deriving DecidableEq

namespace TimedWait

def construct (timeout : Bool) : TimedWait :=
  ⟨idle, if timeout then .pending else .unset, false, .entering⟩

/-- `ThreadReady`. -/
def ready (t : TimedWait) : TimedWait :=
  if t.place = .parked then { t with place := .woken } else t

def wake (t : TimedWait) : TimedWait :=
  if (wakeAll t.waker).1 = [] then t
  else ready { t with waker := (wakeAll t.waker).2 }

/-- The timer fires: `DoWake`. -/
def fire (t : TimedWait) : TimedWait :=
  if t.timer = .pending then
    if t.waker.th_.isSome then { t.wake with timer := .fired, timedOut := true }
    else { t with timer := .fired }
  else t

def settle (t : TimedWait) : WaitOutcome × ThreadWaker Unit → TimedWait
  | (.park, w) => { t with waker := w, place := .parked }
  | (.through normally, w) => { t with waker := w, place := .through normally }

def pass (t : TimedWait) (condition signal : Bool) : TimedWait :=
  match t.place with
  | .entering => t.settle (waitInterruptible () false (condition || t.timedOut) signal t.waker)
  | .woken => t.settle (waitInterruptible () true (condition || t.timedOut) signal t.waker)
  | _ => t

def again (t : TimedWait) : TimedWait := { t with place := .entering }

structure Sound (t : TimedWait) : Prop where
  armed : t.place = .parked → t.waker.th_ = some ()
  waits : t.place = .parked → t.timedOut = false

variable {t : TimedWait}

theorem sound_of_not_parked (h : t.place ≠ .parked) : t.Sound := ⟨fun hp => absurd hp h, fun hp => absurd hp h⟩

theorem ready_place_ne : t.ready.place ≠ .parked := by
  unfold ready
  split_ifs with h
  · exact nofun
  · exact h

theorem Sound.wake (h : t.Sound) : t.wake.Sound := by
  unfold TimedWait.wake
  split_ifs with hnone
  · exact h
  · exact sound_of_not_parked ready_place_ne

theorem fire_place_ne (h : t.waker.th_.isSome) (hpending : t.timer = .pending) : t.fire.place ≠ .parked := by
  obtain ⟨u, hu⟩ := isSome_iff_exists.1 h
  have hwoken : (wakeAll t.waker).1 ≠ [] := by
    change t.waker.th_.toList ≠ []
    rw [hu]
    exact List.cons_ne_nil _ _
  rw [fire, if_pos hpending, if_pos h, TimedWait.wake, if_neg hwoken]
  exact ready_place_ne

theorem Sound.fire (h : t.Sound) : t.fire.Sound := by
  by_cases hpending : t.timer = .pending
  · by_cases harmed : t.waker.th_.isSome
    · exact sound_of_not_parked (fire_place_ne harmed hpending)
    · rw [TimedWait.fire, if_pos hpending, if_neg harmed]
      exact ⟨h.armed, h.waits⟩
  · rw [TimedWait.fire, if_neg hpending]
    exact h

theorem settle_sound {resumed condition signal : Bool} :
    (t.settle (waitInterruptible () resumed (condition || t.timedOut) signal t.waker)).Sound := by
  cases hr : waitInterruptible () resumed (condition || t.timedOut) signal t.waker with
  | mk outcome w =>
    cases outcome with
    | through normally => exact sound_of_not_parked nofun
    | park =>
      obtain ⟨hstop, w₀, rfl⟩ := waitInterruptible_park hr
      exact ⟨fun _ => rfl, fun _ => (Bool.or_eq_false_iff.1 hstop).2⟩

theorem Sound.pass (h : t.Sound) (condition signal : Bool) : (t.pass condition signal).Sound := by
  cases hplace : t.place with
  | entering | woken =>
    rw [TimedWait.pass, hplace]
    exact settle_sound
  | parked | through =>
    rw [TimedWait.pass, hplace]
    exact h

theorem ready_timer : t.ready.timer = t.timer ∧ t.ready.timedOut = t.timedOut := by
  unfold ready
  split_ifs <;> exact ⟨rfl, rfl⟩

theorem wake_timer : t.wake.timer = t.timer ∧ t.wake.timedOut = t.timedOut := by
  unfold wake
  split_ifs
  · exact ⟨rfl, rfl⟩
  · exact ready_timer

theorem pass_timer (condition signal : Bool) :
    (t.pass condition signal).timer = t.timer ∧ (t.pass condition signal).timedOut = t.timedOut := by
  have hsettle : ∀ r, (t.settle r).timer = t.timer ∧ (t.settle r).timedOut = t.timedOut := by
    rintro ⟨outcome, w⟩
    cases outcome with
    | park | through => exact ⟨rfl, rfl⟩
  unfold pass
  split
  · exact hsettle _
  · exact hsettle _
  · exact ⟨rfl, rfl⟩

/-- What others can do to a wait: make the thread run again and empty its waker. -/
structure Roused (t t' : TimedWait) : Prop where
  place : t'.place = t.place ∨ t.place = .parked ∧ t'.place = .woken
  waker : t.waker.th_ = none → t'.waker.th_ = none

theorem roused_ready : t.Roused t.ready := by
  unfold ready
  split_ifs with h
  · exact ⟨.inr ⟨h, rfl⟩, id⟩
  · exact ⟨.inl rfl, id⟩

theorem roused_wake : t.Roused t.wake := by
  unfold wake
  split_ifs with h
  · exact ⟨.inl rfl, id⟩
  · obtain ⟨hplace, hwaker⟩ := roused_ready (t := { t with waker := (wakeAll t.waker).2 })
    exact ⟨hplace, fun _ => hwaker rfl⟩

theorem roused_fire : t.Roused t.fire := by
  unfold fire
  split_ifs
  · exact ⟨roused_wake.place, roused_wake.waker⟩
  · exact ⟨.inl rfl, id⟩
  · exact ⟨.inl rfl, id⟩

theorem Sound.wake_place (h : t.Sound) : t.wake.place ≠ .parked ∧ t.wake.waker.th_ = none := by
  unfold TimedWait.wake
  split_ifs with hnone
  · have hempty : t.waker.th_ = none := toList_eq_nil_iff.1 hnone
    refine ⟨fun hparked => ?_, hempty⟩
    cases (h.armed hparked).symm.trans hempty
  refine ⟨ready_place_ne, ?_⟩
  unfold ready
  split_ifs <;> rfl

theorem settle_place_ne {r : WaitOutcome × ThreadWaker Unit} : (t.settle r).place ≠ .entering := by
  obtain ⟨outcome, w⟩ := r
  cases outcome with
  | park | through => exact nofun

theorem pass_place_ne (condition signal : Bool) (h : t.place = .entering ∨ t.place = .woken) :
    (t.pass condition signal).place ≠ .entering := by
  unfold pass
  rcases h with h | h
  · rw [h]
    exact settle_place_ne
  · rw [h]
    exact settle_place_ne

theorem pass_of_condition (h : t.place = .woken) (hwaker : t.waker.th_ = none) (signal : Bool) :
    t.pass true signal = { t with waker := ⟨none⟩, place := .through true } := by
  unfold pass
  rw [h]
  have hdisarm : (disarm () t.waker : Bool × ThreadWaker Unit) = (false, ⟨none⟩) :=
    congrArg (·, _) (by rw [hwaker]; rfl)
  simp [waitInterruptible, hdisarm, Bool.false_eq_true, Bool.true_or, settle]

end TimedWait

/-- A thread that waits for a condition, with a timeout: `FutexTable::Wait`, `DoPoll`, `DoSelect` and
`EPollFile::Wait`. Between two waits there is no `WakeOnTimeout`. -/
structure TimedCall where
  condition : Bool
  wait : Option TimedWait
  deriving DecidableEq

/-- The thread makes its `WakeOnTimeout`, takes its next turn under the lock, waits again because the
condition was taken back (as `poll` and `select` do), or returns; the timer fires; a signal arrives; another
thread changes the condition under the lock, with or without a wake. -/
inductive TimedTick
  | construct (timeout : Bool)
  | go (signal : Bool)
  | again
  | leave
  | timer
  | signal
  | other (condition wake : Bool)

namespace TimedCall

def isThrough (t : TimedWait) : Bool :=
  match t.place with
  | .through _ => true
  | _ => false

def step (s : TimedCall) : TimedTick → TimedCall
  | .construct timeout => { s with wait := some (s.wait.getD (.construct timeout)) }
  | .go signal => { s with wait := s.wait.map fun t => t.pass s.condition signal }
  | .again => { s with wait := s.wait.map fun t =>
    if t.place = .through true ∧ s.condition = false ∧ t.timedOut = false then t.again else t }
  | .leave => { s with wait := s.wait.filter fun t => !isThrough t }
  | .timer => { s with wait := s.wait.map TimedWait.fire }
  | .signal => { s with wait := s.wait.map TimedWait.ready }
  | .other condition wake =>
    ⟨condition, s.wait.map fun t => if wake then t.wake else t⟩

/-- The timer has fired, there is nothing to wait for any more, and the thread is parked. -/
def Stuck (s : TimedCall) : Prop :=
  ∃ t, s.wait = some t ∧ t.timer = .fired ∧ s.condition = false ∧ t.place = .parked

def Timely (s : TimedCall) : TimedTick → Prop
  | .timer => ∀ t ∈ s.wait, t.timer = .pending → t.waker.th_.isSome = true
  | _ => True

instance (s : TimedCall) : DecidablePred s.Timely := fun tick => by
  unfold Timely
  split <;> infer_instance

def Sound (s : TimedCall) : Prop := ∀ t ∈ s.wait, t.Sound ∧ (t.timer = .fired → t.timedOut = true)

theorem Sound.step {s : TimedCall} (h : s.Sound) {tick : TimedTick} (htimely : s.Timely tick) :
    (s.step tick).Sound := by
  intro t' ht'
  cases tick with
  | construct timeout =>
    obtain rfl := some.inj ht'
    cases hwait : s.wait with
    | none => exact ⟨TimedWait.sound_of_not_parked nofun, by cases timeout <;> exact nofun⟩
    | some t => exact h t hwait
  | go signal =>
    obtain ⟨t, ht, rfl⟩ := map_eq_some_iff.1 ht'
    obtain ⟨hsound, hfired⟩ := h t ht
    obtain ⟨htimer, htimedOut⟩ := t.pass_timer s.condition signal
    exact ⟨hsound.pass _ _, by rwa [htimer, htimedOut]⟩
  | again =>
    obtain ⟨t, ht, rfl⟩ := map_eq_some_iff.1 ht'
    split_ifs
    · exact ⟨TimedWait.sound_of_not_parked nofun, (h t ht).2⟩
    · exact h t ht
  | leave => exact h t' (filter_eq_some_iff.1 ht').1
  | timer =>
    obtain ⟨t, ht, rfl⟩ := map_eq_some_iff.1 ht'
    obtain ⟨hsound, hfired⟩ := h t ht
    refine ⟨hsound.fire, ?_⟩
    by_cases hpending : t.timer = .pending
    · -- the callback finds the thread armed, so that it records the timeout
      rw [TimedWait.fire, if_pos hpending, if_pos (htimely t ht hpending)]
      exact fun _ => rfl
    · rw [TimedWait.fire, if_neg hpending]
      exact hfired
  | signal =>
    obtain ⟨t, ht, rfl⟩ := map_eq_some_iff.1 ht'
    obtain ⟨htimer, htimedOut⟩ := t.ready_timer
    exact ⟨TimedWait.sound_of_not_parked TimedWait.ready_place_ne, by rw [htimer, htimedOut]; exact (h t ht).2⟩
  | other condition wake =>
    obtain ⟨t, ht, rfl⟩ := map_eq_some_iff.1 ht'
    obtain ⟨htimer, htimedOut⟩ := t.wake_timer
    split_ifs
    · exact ⟨(h t ht).1.wake, by rw [htimer, htimedOut]; exact (h t ht).2⟩
    · exact h t ht

theorem timeout_ends_wait (condition : Bool) (ticks : List TimedTick)
    (htimely : Run.Admitted step Timely ⟨condition, none⟩ ticks) :
    ¬(Run.exec step ⟨condition, none⟩ ticks).Stuck := by
  have hstep : ∀ s tick, Sound s → Timely s tick → Sound (step s tick) := fun _ _ h ht => h.step ht
  have hstart : Sound ⟨condition, none⟩ := nofun
  have hsound := Run.invariant_exec hstep hstart htimely
  rintro ⟨t, ht, hfired, -, hparked⟩
  obtain ⟨h, htimedOut⟩ := hsound t ht
  exact absurd ((h.waits hparked).symm.trans (htimedOut hfired)) Bool.false_ne_true

def timelyTicks : List TimedTick := [.construct true, .go false, .timer, .go false]

theorem timeout_ends_wait_timelyTicks : ¬(Run.exec step ⟨false, none⟩ timelyTicks).Stuck ∧
      (Run.exec step ⟨false, none⟩ timelyTicks).wait = some ⟨⟨none⟩, .fired, true, .through true⟩ :=
  ⟨timeout_ends_wait false timelyTicks (by decide), by decide⟩

/-- The timer fires before the thread has parked, or between a wake and the next park. The thread parks, and
its own turns and the timer leave it there. -/
theorem timeout_forgotten :
    let early := Run.exec step ⟨false, none⟩ [.construct true, .timer, .go false]
    let late := Run.exec step ⟨false, none⟩
      [.construct true, .go false, .other true true, .timer, .other false false, .go false]
    (early.Stuck ∧ (∀ signal, early.step (.go signal) = early) ∧ early.step .timer = early) ∧
      late.Stuck ∧ (∀ signal, late.step (.go signal) = late) ∧ late.step .timer = late :=
  ⟨⟨⟨_, rfl, rfl, rfl, rfl⟩, fun _ => rfl, rfl⟩, ⟨_, rfl, rfl, rfl, rfl⟩, fun _ => rfl, rfl⟩

end TimedCall

/-!
### Several threads that wait for one waker

`Accept`, `EPollFile::Wait` and `DoRead` park a thread with the one waker of their listener, epoll file or channel. The
waker remembers the last thread that armed it. What is waited for is a number of items.
-/

open Function

/-- `owed` is the number of items that were added and are still to be announced. -/
structure WakerSlot where
  items : ℕ
  owed : ℕ
  waker : ThreadWaker ℕ
  place : ℕ → WaitPlace

/-- `EnqueueConnection`, `AddEvent` and `DoWrite` add an item and then wake, the first two in one section under the lock.
A wait and its continuation after a park are told whether there is another reason to end it. -/
inductive WakerEvent
  | add
  | wake
  | take (n : ℕ)
  | wait (th : ℕ) (other signal : Bool)
  | resume (th : ℕ) (other signal : Bool)
  | interrupt (th : ℕ)
  | timer

namespace WakerSlot

def start : WakerSlot := ⟨0, 0, idle, fun _ => .entering⟩

def rouse (s : WakerSlot) : WakerSlot :=
  { s with
    waker := (wakeAll s.waker).2
    place := fun u => if u ∈ (wakeAll s.waker).1 ∧ s.place u = .parked then .woken else s.place u }

def turn (s : WakerSlot) (th : ℕ) (resumed other signal : Bool) : WakerSlot :=
  match waitInterruptible th resumed (0 < s.items || other) signal s.waker with
  | (.park, w) => { s with waker := w, place := update s.place th .parked }
  | (.through _, w) => { s with waker := w, place := update s.place th .entering }

def step (s : WakerSlot) : WakerEvent → WakerSlot
  | .add => { s with items := s.items + 1, owed := s.owed + 1 }
  | .wake =>
    if s.owed = 0 then s
    else if s.items = 0 then { s with owed := s.owed - 1 }
    else { s with owed := s.owed - 1 }.rouse
  | .take n => { s with items := s.items - n }
  | .wait th other signal => if s.place th = .entering then s.turn th false other signal else s
  | .resume th other signal => if s.place th = .woken then s.turn th true other signal else s
  | .interrupt th => if s.place th = .parked then { s with place := update s.place th .woken } else s
  | .timer => s.rouse

/-- A wait begins when no other thread is in one. -/
def Alone (s : WakerSlot) : WakerEvent → Prop
  | .wait th _ _ => ∀ u, u ≠ th → s.place u = .entering
  | _ => True

structure Single (s : WakerSlot) : Prop where
  alone : ∀ th u, s.place th ≠ .entering → u ≠ th → s.place u = .entering
  parked : ∀ th, s.place th = .parked → s.waker.th_ = some th ∧ (s.items = 0 ∨ 0 < s.owed)

variable {s : WakerSlot} {th : ℕ}

variable (hth : ∀ u, u ≠ th → s.place u = .entering)
include hth

theorem Single.move {pl : WaitPlace} {w : ThreadWaker ℕ}
    (hpl : pl = .parked → w.th_ = some th ∧ (s.items = 0 ∨ 0 < s.owed)) :
    Single { s with waker := w, place := update s.place th pl } := by
  have hrest : ∀ u, u ≠ th → update s.place th pl u = .entering := fun u hu => by rw [update_of_ne hu, hth u hu]
  constructor
  · intro u v hu hv
    rcases eq_or_ne u th with rfl | hne
    · exact hrest v hv
    · exact absurd (hrest u hne) hu
  intro u hu
  rcases eq_or_ne u th with rfl | hne
  · exact hpl (by simpa using hu)
  have hentering := hrest u hne
  rw [show update s.place th pl u = .parked from hu] at hentering
  cases hentering

theorem Single.turn (resumed other signal : Bool) : Single (s.turn th resumed other signal) := by
  unfold WakerSlot.turn
  cases hw : waitInterruptible th resumed (0 < s.items || other) signal s.waker with
  | mk outcome w =>
    cases outcome with
    | through normally => exact .move hth nofun
    | park =>
      obtain ⟨hstop, w₀, rfl⟩ := waitInterruptible_park hw
      have hitems : s.items = 0 := by simpa using (Bool.or_eq_false_iff.1 hstop).1
      exact .move hth fun _ => ⟨rfl, .inl hitems⟩

omit hth

theorem rouse_place (h : Single s) (th : ℕ) :
    s.rouse.place th ≠ .parked ∧ (s.rouse.place th = .entering ↔ s.place th = .entering) := by
  simp only [rouse]
  split_ifs with hwoken
  · simp [hwoken.2]
  · refine ⟨fun hp => hwoken ⟨?_, hp⟩, Iff.rfl⟩
    exact Option.mem_toList.2 (h.parked th hp).1

theorem Single.rouse (h : Single s) : Single s.rouse where
  alone th u hth hu := (rouse_place h u).2.2 (h.alone th u (fun he => hth ((rouse_place h th).2.2 he)) hu)
  parked th hth := absurd hth (rouse_place h th).1

theorem Single.step (h : Single s) (e : WakerEvent) (halone : s.Alone e) : Single (s.step e) := by
  cases e with
  | add => exact ⟨h.alone, fun th hth => ⟨(h.parked th hth).1, .inr (Nat.succ_pos _)⟩⟩
  | wake =>
    simp only [WakerSlot.step]
    split_ifs with howed hitems
    · exact h
    · exact ⟨h.alone, fun th hth => ⟨(h.parked th hth).1, .inl hitems⟩⟩
    · have hr := h.rouse
      exact ⟨hr.alone, fun th hth => absurd hth (rouse_place h th).1⟩
  | take n =>
    refine ⟨h.alone, fun th hth => ⟨(h.parked th hth).1, (h.parked th hth).2.imp_left fun hitems => ?_⟩⟩
    exact show s.items - n = 0 by omega
  | wait th other signal =>
    simp only [WakerSlot.step]
    split_ifs
    · exact .turn halone false other signal
    · exact h
  | resume th other signal =>
    simp only [WakerSlot.step]
    split_ifs with hwoken
    · exact .turn (fun u => h.alone th u (by rw [hwoken]; nofun)) true other signal
    · exact h
  | interrupt th =>
    simp only [WakerSlot.step]
    split_ifs with hparked
    · exact .move (fun u => h.alone th u (by rw [hparked]; nofun)) nofun
    · exact h
  | timer => exact h.rouse

/-- If all waits begin alone, a thread that is parked is the one that the waker remembers, and it is not parked when
there are items and nothing is still to be announced. -/
theorem waiter_kept {es : List WakerEvent} (hes : Run.Admitted step Alone start es) :
    let s := Run.exec step start es
    (∀ th, s.place th = .parked → s.waker.th_ = some th) ∧ (s.owed = 0 → 0 < s.items → ∀ th, s.place th ≠ .parked) := by
  intro s
  have hstep : ∀ s e, Single s → Alone s e → Single (s.step e) := fun s e h he => h.step e he
  have h : Single s := Run.invariant_exec hstep ⟨fun _ _ h => absurd rfl h, fun _ h => WaitPlace.noConfusion h⟩ hes
  refine ⟨fun th hth => (h.parked th hth).1, fun howed hitems th hth => ?_⟩
  rcases (h.parked th hth).2 with hnone | hsome
  · omega
  · omega

theorem waiter_kept_once :
    let s := Run.exec step start [.wait 1 false false, .add, .wake]
    s.place 1 = .woken ∧ (s.owed = 0 → 0 < s.items → ∀ th, s.place th ≠ .parked) :=
  ⟨by decide, (@waiter_kept [.wait 1 false false, .add, .wake] ⟨fun _ _ => rfl, trivial, trivial, trivial⟩).2⟩

/-- Two threads wait, and the second is remembered. After two items the first is still parked, with an item left. -/
theorem waiter_forgotten :
    let s := Run.exec step start [.wait 1 false false, .wait 2 false false, .add, .wake, .resume 2 false false, .take 1,
      .add, .wake]
    s.owed = 0 ∧ s.items = 1 ∧ s.place 1 = .parked ∧ s.place 2 = .entering ∧ s.waker.th_ = none := by
  decide

end WakerSlot

end Junction
