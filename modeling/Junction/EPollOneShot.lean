import Junction.EPoll

/-!
# Observers with one shot

Beside the polling state stands how often each observer has been returned since it was armed last. The code
uses the shot when it notifies the observer and not when it returns it. The count is exact only if the observer
is edge-triggered and not exclusive, if a notification that uses the shot has an event for it exactly when it
has not been returned yet, and if the observer is armed again while its copy of the mask is up to date.
-/

namespace Junction.EPoll
open Function List
variable {ε φ : Type*}

/-- The polling state with the number of times that each observer was returned since it was armed. -/
structure Shots (ε φ : Type*) where
  poll : EPoll ε φ
  returned : ε → φ → ℕ

def Shots.start (mask : φ → BitVec 32) : Shots ε φ := ⟨EPoll.start mask, fun _ _ => 0⟩

variable [DecidableEq ε] [DecidableEq φ]

/-- The count of the observer of `e` at `f` starts again. -/
def Shots.arm (s : Shots ε φ) (e : ε) (f : φ) : ε → φ → ℕ :=
  update s.returned e (update (s.returned e) f 0)

def Shots.step (s : Shots ε φ) (c : Call ε φ) : Shots ε φ where
  poll := s.poll.step c
  returned :=
    match c with
    | .add e f _ _ => if e ∈ s.poll.epollObservers f then s.returned else s.arm e f
    | .modify e f _ _ => if e ∈ s.poll.epollObservers f then s.arm e f else s.returned
    | .wait e n =>
      update s.returned e fun f =>
        s.returned e f + ((s.poll.wait e n).1.map Prod.fst).count f
    | .set _ _ _ | .clear _ _ | .propagate _ | .delete _ _ => s.returned

def singleEdge (events : BitVec 32) : Bool :=
  meets events kEPollEdgeTriggered && !meets events kEPollExclusive

/-- Whether a registered observer with its shot left has not been returned yet. -/
def fresh (o : EPollObserver) : Bool := o.attached || !meets o.triggeredEvents o.watchedEvents

/-- The calls after which the count of every observer with one shot is right. -/
def ShotKept (s : EPoll ε φ) : Call ε φ → Prop
  | .add _ _ events _ => meets (watched events) kEPollOneShot = true → singleEdge (watched events) = true
  | .modify e f events _ =>
    e ∈ s.epollObservers f →
      (meets (watched events) kEPollOneShot = true → singleEdge (watched events) = true) ∧
      ((s.observer e f).isOneShot = true ∨ meets (watched events) kEPollOneShot = true →
        (s.observer e f).triggeredEvents = s.eventMask f)
  | .propagate f =>
    s.owed f = true → ∀ e ∈ s.epollObservers f, (s.observer e f).isOneShot = true →
      (s.observer e f).oneShotTriggered = false →
        fresh (s.observer e f) = meets (s.eventMask f) (s.observer e f).watchedEvents
  | _ => True

instance (s : EPoll ε φ) : (c : Call ε φ) → Decidable (s.ShotKept c)
  | .add .. | .modify .. | .propagate _ => inferInstanceAs (Decidable (_ → _))
  | .set .. | .clear .. | .delete .. | .wait .. => .isTrue trivial

/-- What is known of an observer that was returned `k` times. -/
structure Counted (mask : BitVec 32) (owed : Bool) (o : EPollObserver) (k : ℕ) : Prop where
  flags : singleEdge o.watchedEvents = true
  used : o.oneShotTriggered = true → k + o.attached.toNat = 1
  armed : o.oneShotTriggered = false →
    k + o.attached.toNat = (meets o.triggeredEvents o.watchedEvents).toNat
  cached : o.oneShotTriggered = false → owed = false → o.triggeredEvents = mask

structure ShotsCounted (s : Shots ε φ) : Prop where
  wired : Wired s.poll
  counted : s.poll.ForRegistered fun e f mask owed o =>
    o.isOneShot = true → Counted mask owed o (s.returned e f)

variable {o : EPollObserver} {mask : BitVec 32} {owed : Bool}

theorem counted_told {events : BitVec 32} (hflags : singleEdge o.watchedEvents) (harmed : o.oneShotTriggered = false)
    (hevents : events = mask) : Counted mask owed (told o events) 0 where
  flags := hflags
  used h := by
    have h' : o.oneShotTriggered := h
    rw [harmed] at h'
    cases h'
  armed _ := Nat.zero_add _
  cached _ _ := hevents

variable {mask' : BitVec 32} {k : ℕ}

theorem Counted.owe (h : Counted mask owed o k) : Counted mask' true o k :=
  { h with cached := fun _ h => Bool.noConfusion h }

/-- A notification uses the shot, and the observer has then been returned or is ready. -/
theorem Counted.notified {owed' : Bool} {o o' : EPollObserver}
    (h : Counted mask owed o k) (hone : o.isOneShot) (hn : Notified mask' o o')
    (hfresh : o.oneShotTriggered = false → fresh o = meets mask' o.watchedEvents) : Counted mask' owed' o' k := by
  cases hn with
  | spent hspent =>
    refine { h with cached := fun harmed => ?_ }
    rw [hspent.2] at harmed
    cases harmed
  | passedOver hexclusive =>
    have hflags := h.flags
    rw [singleEdge, show meets o.watchedEvents kEPollExclusive = true from hexclusive] at hflags
    simp at hflags
  | told hspent =>
    have harmed : o.oneShotTriggered = false := Bool.eq_false_iff.mpr fun ht => hspent ⟨hone, ht⟩
    have hfired : fired o = { o with oneShotTriggered := true } := if_pos hone
    have hcount := h.armed harmed
    have hmatch := hfresh harmed
    rw [hfired]
    refine ⟨h.flags, fun _ => ?_, fun h' => Bool.noConfusion h', fun h' => Bool.noConfusion h'⟩
    change k + (meets mask' o.watchedEvents).toNat = 1
    rw [← hmatch, fresh]
    cases ha : o.attached <;> cases hm : meets o.triggeredEvents o.watchedEvents <;>
      simp_all

theorem Counted.le_one (h : Counted mask owed o k) : k ≤ 1 := by
  cases hshot : o.oneShotTriggered with
  | true =>
    have hcount := h.used hshot
    omega
  | false =>
    have hcount := h.armed hshot
    have hle := Bool.toNat_le (meets o.triggeredEvents o.watchedEvents)
    omega

theorem Counted.returned_of_event (h : Counted mask owed o k) (howed : owed = false) (hoff : o.attached = false)
    (hevent : meets mask o.watchedEvents) : 1 ≤ k := by
  cases hshot : o.oneShotTriggered with
  | true =>
    have hcount := h.used hshot
    rw [hoff] at hcount
    exact hcount.ge
  | false =>
    have hcount := h.armed hshot
    rw [hoff, h.cached hshot howed, hevent] at hcount
    exact hcount.ge

section Steps
variable {s : Shots ε φ} (h : ShotsCounted s)
include h

omit [DecidableEq ε] in
theorem ShotsCounted.write (f : φ) (mask : BitVec 32) : ShotsCounted
      ⟨{ s.poll with
          eventMask := update s.poll.eventMask f mask
          owed := update s.poll.owed f true }, s.returned⟩ where
  wired := { h.wired with }
  counted := h.counted.write fun _ hk hone => (hk hone).owe

theorem shotsCounted_set (f : φ) (mask : BitVec 32) (force : Bool) : ShotsCounted (s.step (.set f mask force)) := by
  change ShotsCounted ⟨s.poll.set f mask force, s.returned⟩
  dsimp only [set]
  split_ifs
  · exact h
  · exact h.write f _

theorem shotsCounted_clear (f : φ) (mask : BitVec 32) : ShotsCounted (s.step (.clear f mask)) := by
  change ShotsCounted ⟨s.poll.clear f mask, s.returned⟩
  dsimp only [clear]
  split_ifs
  · exact h
  · exact h.write f _

theorem shotsCounted_propagate (f : φ) (hkept : s.poll.ShotKept (.propagate f)) :
    ShotsCounted (s.step (.propagate f)) := by
  refine ⟨wired_step h.wired (.propagate f), h.counted.propagate h.wired f fun howed e he o hn hk hone => ?_⟩
  have hone' : (s.poll.observer e f).isOneShot := by
    rwa [EPollObserver.isOneShot, hn.keeps.1] at hone
  exact (hk hone').notified hone' hn (hkept howed e he hone')

variable {e : ε} {f : φ}

theorem ShotsCounted.placed {c : Call ε φ} {es : List ε} {o : EPollObserver} (hp : Placed s.poll e f c es o)
    (hreturned : ∀ e' f', ¬ (e' = e ∧ f' = f) → (s.step c).returned e' f' = s.returned e' f')
    (ho : e ∈ es → o.isOneShot → Counted (s.poll.eventMask f) (s.poll.owed f) o ((s.step c).returned e f)) :
    ShotsCounted (s.step c) := by
  refine ⟨hp.wired h.wired, ?_⟩
  change (s.poll.step c).ForRegistered _
  rw [hp.step_eq h.wired]
  refine h.counted.place hp.same (fun e' f' hne hk hone => ?_) ho
  rw [hreturned e' f' hne]
  exact hk hone

omit h in
theorem arm_self (e : ε) (f : φ) : s.arm e f e f = 0 := by
  simp [Shots.arm]

omit h in
theorem arm_of_ne {e' : ε} {f' : φ} (hef : ¬ (e' = e ∧ f' = f)) : s.arm e f e' f' = s.returned e' f' := by
  by_cases he : e' = e
  · subst he
    have hf : f' ≠ f := fun hf => hef ⟨rfl, hf⟩
    simp [Shots.arm, hf]
  · simp [Shots.arm, he]

theorem shotsCounted_add (e : ε) (f : φ) (events : BitVec 32) (userData : BitVec 64)
    (hkept : s.poll.ShotKept (.add e f events userData)) : ShotsCounted (s.step (.add e f events userData)) := by
  by_cases he : e ∈ s.poll.epollObservers f
  · have hsame : s.step (.add e f events userData) = s := by
      simp [Shots.step, step, add, he]
    rw [hsame]
    exact h
  have hstep : (s.step (.add e f events userData)).returned = s.arm e f := if_neg he
  refine h.placed (.add he events userData) (fun e' f' hef => ?_) fun _ hone => ?_
  · rw [hstep, arm_of_ne hef]
  · rw [hstep, arm_self]
    exact counted_told (hkept hone) rfl BitVec.or_zero

theorem shotsCounted_modify (e : ε) (f : φ) (events : BitVec 32) (userData : BitVec 64)
    (hkept : s.poll.ShotKept (.modify e f events userData)) :
    ShotsCounted (s.step (.modify e f events userData)) := by
  by_cases he : e ∈ s.poll.epollObservers f
  · have hstep : (s.step (.modify e f events userData)).returned = s.arm e f := if_pos he
    obtain ⟨hflags, hcopy⟩ := hkept he
    refine h.placed (.modify he events userData) (fun e' f' hef => ?_) fun _ hone => ?_
    · rw [hstep, arm_of_ne hef]
    · rw [hstep, arm_self]
      exact counted_told (hflags hone) rfl (hcopy (.inr hone))
  have hsame : s.step (.modify e f events userData) = s := by
    simp [Shots.step, step, modify, he]
  rw [hsame]
  exact h

theorem shotsCounted_delete (e : ε) (f : φ) : ShotsCounted (s.step (.delete e f)) := by
  by_cases he : e ∈ s.poll.epollObservers f
  · have hout : e ∉ (s.poll.epollObservers f).erase e := (h.wired.nodup_observers f).not_mem_erase
    exact h.placed (.delete he) (fun _ _ _ => rfl) fun hin => absurd hin hout
  have hsame : s.step (.delete e f) = s := by
    simp [Shots.step, step, delete, he]
  rw [hsame]
  exact h

theorem count_wait (e : ε) (n : ℕ) (f : φ) :
    ((s.poll.wait e n).1.map Prod.fst).count f = if f ∈ (s.poll.events e).take n then 1 else 0 := by
  have hnodup : ((s.poll.events e).take n).Nodup := (h.wired.nodup_events e).sublist (take_sublist n _)
  rw [wait_eq, map_map, show (Prod.fst ∘ fun f => (f, report (s.poll.observer e f))) = id from rfl, map_id]
  split_ifs with hf
  · exact count_eq_one_of_mem hnodup hf
  · exact count_eq_zero_of_not_mem hf

omit h in
theorem Counted.delivered {o : EPollObserver}
    (hc : Counted mask owed o k) (ha : o.attached) : Counted mask owed o.detached (k + 1) := { hc with
  used hused := by
    have hcount := hc.used hused
    rw [ha] at hcount
    exact hcount
  armed harmed := by
    have hcount := hc.armed harmed
    rw [ha] at hcount
    exact hcount }

theorem wait_returned (e : ε) (n : ℕ) (e' : ε) (f : φ) : (s.step (.wait e n)).returned e' f =
      s.returned e' f + if e' = e ∧ f ∈ (s.poll.events e).take n then 1 else 0 := by
  by_cases he : e' = e
  · subst he
    simp [Shots.step, count_wait h]
  · simp [Shots.step, he]

theorem shotsCounted_wait (e : ε) (n : ℕ) : ShotsCounted (s.step (.wait e n)) := by
  refine ⟨wired_step h.wired (.wait e n), h.counted.wait e n (fun e' f hout hk hone => ?_) fun f hin hk hone => ?_⟩
  · rw [wait_returned h, if_neg hout]
    exact hk hone
  have ha := (h.wired.mem_events e f).mp (mem_of_mem_take hin)
  have hone' : (s.poll.observer e f).isOneShot := by
    unfold delivered at hone
    split_ifs at hone <;> exact hone
  have hc := hk hone'
  have hedge : (s.poll.observer e f).isEdgeTriggered := ((Bool.and_eq_true _ _).mp hc.flags).1
  rw [wait_returned h, if_pos ⟨rfl, hin⟩, delivered, if_pos hedge]
  exact hc.delivered ha

end Steps

theorem shotsCounted_step {s : Shots ε φ} (h : ShotsCounted s) (c : Call ε φ)
    (hc : s.poll.Serialized c ∧ s.poll.ShotKept c) : ShotsCounted (s.step c) := by
  cases c with
  | set f mask force => exact shotsCounted_set h f mask force
  | clear f mask => exact shotsCounted_clear h f mask
  | propagate f => exact shotsCounted_propagate h f hc.2
  | add e f events userData => exact shotsCounted_add h e f events userData hc.2
  | modify e f events userData => exact shotsCounted_modify h e f events userData hc.2
  | delete e f => exact shotsCounted_delete h e f
  | wait e n => exact shotsCounted_wait h e n

/-- An observer with one shot is returned at most once after it was armed, and by the end of a wait that has room for
the ready list while its source has an event that it watches. -/
theorem one_shot_returned_once (mask : φ → BitVec 32) (calls : List (Call ε φ))
    (hcalls : Run.Admitted Shots.step (fun s c => s.poll.Serialized c ∧ s.poll.ShotKept c) (Shots.start mask) calls) :
    let s : Shots ε φ := Run.exec Shots.step (Shots.start mask) calls
    ∀ e f, e ∈ s.poll.epollObservers f → (s.poll.observer e f).isOneShot = true →
      s.returned e f ≤ 1 ∧
      (s.poll.owed f = false → s.poll.eventMask f &&& (s.poll.observer e f).watchedEvents ≠ 0 →
        ∀ n, (s.poll.events e).length ≤ n → 1 ≤ (s.step (.wait e n)).returned e f) ∧
      ∀ events userData, s.poll.ShotKept (.modify e f events userData) →
        let s' := s.step (.modify e f events userData)
        (f ∈ s'.poll.events e ↔ s'.poll.eventMask f &&& watched events ≠ 0) := by
  intro s e f he hone
  have hstep : ∀ (s : Shots ε φ) c, ShotsCounted s → s.poll.Serialized c ∧ s.poll.ShotKept c →
      ShotsCounted (s.step c) := fun s c hs hc => shotsCounted_step hs c hc
  have hstart : ShotsCounted (Shots.start mask : Shots ε φ) :=
    ⟨wired_start mask, fun e f h => by simp [Shots.start, start] at h⟩
  have h : ShotsCounted s := Run.invariant_exec hstep hstart hcalls
  have hc := h.counted e f he hone
  refine ⟨hc.le_one, fun howed hevent n hn => ?_, fun events userData hkept => ?_⟩
  · rw [wait_returned h, take_of_length_le hn]
    split_ifs with hin
    · exact Nat.le_add_left 1 _
    have hoff : (s.poll.observer e f).attached = false :=
      Bool.eq_false_iff.mpr fun ha => hin ⟨rfl, (h.wired.mem_events e f).mpr ha⟩
    exact hc.returned_of_event howed hoff (bne_iff_ne.mpr hevent)
  have hplaced := Placed.modify he events userData
  have hcopy := (hkept he).2 (.inl hone)
  change f ∈ (s.poll.step (.modify e f events userData)).events e ↔
    (s.poll.step (.modify e f events userData)).eventMask f &&& watched events ≠ 0
  rw [(hplaced.wired h.wired).mem_events, hplaced.step_eq h.wired, place_self, hcopy]
  exact bne_iff_ne

def armedTwice : List (Call Bool Bool) :=
  [.add true false (kPollIn ||| kEPollOneShot ||| kEPollEdgeTriggered) 7, .set false kPollIn false,
    .propagate false, .wait true 4, .set false kPollOut false, .propagate false, .wait true 4,
    .clear false kPollOut, .propagate false,
    .modify true false (kPollIn ||| kEPollOneShot ||| kEPollEdgeTriggered) 8]

theorem one_shot_returned_once_armedTwice :
    let s : Shots Bool Bool := Run.exec Shots.step (Shots.start fun _ => 0) armedTwice
    s.returned true false ≤ 1 ∧ 1 ≤ (s.step (.wait true 1)).returned true false ∧
      (false ∈ (s.step (.modify true false (kPollOut ||| kEPollOneShot ||| kEPollEdgeTriggered) 9)).poll.events true ↔
        (s.step (.modify true false (kPollOut ||| kEPollOneShot ||| kEPollEdgeTriggered) 9)).poll.eventMask
          false &&& watched (kPollOut ||| kEPollOneShot ||| kEPollEdgeTriggered) ≠ 0) := by
  have h := one_shot_returned_once (fun _ => 0) armedTwice (by decide +kernel) true false
    (by decide +kernel) (by decide +kernel)
  exact ⟨h.1, h.2.1 (by decide +kernel) (by decide +kernel) 1 (by decide +kernel), h.2.2 _ 9 (by decide +kernel)⟩

/-- A level-triggered observer with one shot is returned by every wait; an event that an observer does not
watch uses its shot; an observer that was ready when it was armed is returned again after the next event;
and a modification makes an observer ready for an event that has gone. -/
theorem one_shot_miscounted :
    let exec := fun calls : List (Call Bool Bool) => Run.exec Shots.step (Shots.start fun _ => 0) calls
    let edge := kPollIn ||| kEPollOneShot ||| kEPollEdgeTriggered
    (exec [.add true false (kPollIn ||| kEPollOneShot) 7, .set false kPollIn false, .propagate false,
        .wait true 4, .wait true 4]).returned true false = 2 ∧
      (let s := exec [.add true false edge 7, .set false kPollOut false, .propagate false,
        .set false kPollIn false, .propagate false, .wait true 4]
      s.poll.eventMask false &&& kPollIn ≠ 0 ∧ s.returned true false = 0) ∧
      (exec [.set false kPollIn false, .propagate false, .add true false edge 7, .wait true 4,
        .set false kPollOut false, .propagate false, .wait true 4]).returned true false = 2 ∧
      (let s := exec [.add true false edge 7, .set false kPollIn false, .propagate false, .wait true 4,
        .clear false kPollIn, .propagate false, .modify true false edge 7]
      s.poll.eventMask false = 0 ∧ false ∈ s.poll.events true) := by
  decide +kernel

end Junction.EPoll
