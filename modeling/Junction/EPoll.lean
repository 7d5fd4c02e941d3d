import Junction.WaitableChannel

/-!
# Event polling

A source has a mask of events and the observers that epoll files have registered with it. A change of the mask
is written first and then propagated to the observers under the lock of the source. Each observer keeps a copy
of the mask it was told last, and is in the ready list of its epoll file or not. A section under the lock of a
source and one under the lock of an epoll file are each one step.
-/

namespace Junction
open Function

def kEPollEdgeTriggered : BitVec 32 := 0x80000000
def kEPollOneShot : BitVec 32 := 0x40000000
def kEPollExclusive : BitVec 32 := 0x10000000

/-- The test `(a & b) != 0` for two masks. -/
def meets (a b : BitVec 32) : Bool := a &&& b != 0

structure EPollObserver where
  attached : Bool := false
  oneShotTriggered : Bool := false
  watchedEvents : BitVec 32 := 0
  triggeredEvents : BitVec 32 := 0
  userData : BitVec 64 := 0
deriving DecidableEq

namespace EPollObserver

def isOneShot (o : EPollObserver) : Bool := meets o.watchedEvents kEPollOneShot
def isExclusive (o : EPollObserver) : Bool := meets o.watchedEvents kEPollExclusive
def isEdgeTriggered (o : EPollObserver) : Bool := meets o.watchedEvents kEPollEdgeTriggered

def detached (o : EPollObserver) : EPollObserver := { o with attached := false }

end EPollObserver

structure EpollEvent where
  events : BitVec 32
  data : BitVec 64
deriving DecidableEq

/-- Epoll files `ε` and monitored files `φ`, each with its source. A source has at most one observer of each
epoll file, so an observer is named by the two. `owed` marks the sources whose mask has been written by a
`Set` or `Clear` that has not called `Notify` yet. -/
structure EPoll (ε φ : Type*) where
  eventMask : φ → BitVec 32
  epollObservers : φ → List ε
  observer : ε → φ → EPollObserver
  events : ε → List φ
  owed : φ → Bool

namespace EPoll
variable {ε φ : Type*} [DecidableEq ε] [DecidableEq φ]

/-- Sources with their initial masks, before any file is monitored. -/
def start (mask : φ → BitVec 32) : EPoll ε φ :=
  ⟨mask, fun _ => [], fun _ _ => {}, fun _ => [], fun _ => false⟩

def setObserver (s : EPoll ε φ) (e : ε) (f : φ) (o : EPollObserver) : EPoll ε φ :=
  { s with observer := update s.observer e (update (s.observer e) f o) }

def setEvents (s : EPoll ε φ) (e : ε) (l : List φ) : EPoll ε φ :=
  { s with events := update s.events e l }

variable (s : EPoll ε φ)

def addEvent (e : ε) (f : φ) : EPoll ε φ :=
  if (s.observer e f).attached then s
  else (s.setObserver e f { s.observer e f with attached := true }).setEvents e (s.events e ++ [f])

def removeEvent (e : ε) (f : φ) : EPoll ε φ :=
  if (s.observer e f).attached then
    (s.setObserver e f (s.observer e f).detached).setEvents e ((s.events e).erase f)
  else s

/-- `EPollObserver::Notify`. -/
def notifyObserver (s : EPoll ε φ) (e : ε) (f : φ) (events : BitVec 32) : EPoll ε φ :=
  let s := s.setObserver e f { s.observer e f with triggeredEvents := events }
  if meets events (s.observer e f).watchedEvents then s.addEvent e f else s.removeEvent e f

/-- The loop of `EPollFile::Notify` over the observers of a source. -/
def notifyLoop (f : φ) : List ε → Bool → EPoll ε φ → EPoll ε φ
  | [], _, s => s
  | e :: es, exclusive, s =>
    let o := s.observer e f
    if o.isOneShot && o.oneShotTriggered then notifyLoop f es exclusive s
    else
      let s := if o.isOneShot then s.setObserver e f { o with oneShotTriggered := true } else s
      if o.isExclusive && exclusive then notifyLoop f es exclusive s
      else notifyLoop f es (exclusive || o.isExclusive) (s.notifyObserver e f (s.eventMask f))

def notify (f : φ) : EPoll ε φ := notifyLoop f (s.epollObservers f) false s

/-- The write of `PollSource::Set`. -/
def set (s : EPoll ε φ) (f : φ) (mask : BitVec 32) (forceNotify : Bool) : EPoll ε φ :=
  let cur := s.eventMask f
  if cur &&& mask = mask ∧ ¬ forceNotify then s
  else
    { s with
      eventMask := update s.eventMask f (cur ||| mask)
      owed := update s.owed f true }

/-- The write of `PollSource::Clear`. -/
def clear (s : EPoll ε φ) (f : φ) (mask : BitVec 32) : EPoll ε φ :=
  let cur := s.eventMask f
  if cur &&& mask = 0 then s
  else
    { s with
      eventMask := update s.eventMask f (cur &&& ~~~mask)
      owed := update s.owed f true }

/-- The call of `Notify` that a `Set` or `Clear` ends with. -/
def propagate (s : EPoll ε φ) (f : φ) : EPoll ε φ :=
  if s.owed f then { s.notify f with owed := update s.owed f false } else s

/-- The events that an observer watches; `kPollHUp` and `kPollErr` cannot be ignored. -/
def watched (events : BitVec 32) : BitVec 32 := events ||| (kPollHUp ||| kPollErr)

def add (s : EPoll ε φ) (e : ε) (f : φ) (events : BitVec 32) (userData : BitVec 64)
    (oneShotTriggered : Bool) (triggeredEvents : BitVec 32) : Bool × EPoll ε φ :=
  let o : EPollObserver :=
    { watchedEvents := watched events, userData := userData, oneShotTriggered := oneShotTriggered }
  if e ∈ s.epollObservers f then (false, s)
  else
    let s := { s with epollObservers := update s.epollObservers f (s.epollObservers f ++ [e]) }
    (true, (s.setObserver e f o).notifyObserver e f (s.eventMask f ||| triggeredEvents))

def modify (e : ε) (f : φ) (events : BitVec 32) (userData : BitVec 64) : Bool × EPoll ε φ :=
  if e ∈ s.epollObservers f then
    let o := s.observer e f
    let s := s.setObserver e f
      { o with watchedEvents := watched events, userData := userData, oneShotTriggered := false }
    (true, s.notifyObserver e f o.triggeredEvents)
  else (false, s)

def delete (s : EPoll ε φ) (e : ε) (f : φ) : Bool × EPoll ε φ :=
  if e ∈ s.epollObservers f then
    let s := { s with epollObservers := update s.epollObservers f ((s.epollObservers f).erase e) }
    (true, s.removeEvent e f)
  else (false, s)

def report (o : EPollObserver) : EpollEvent := ⟨o.triggeredEvents &&& o.watchedEvents, o.userData⟩

/-- The loop of `DeliverEvents` with room for `n` more entries, where `tmp` holds the observers that stay
ready. Each entry stands beside the file of the observer that it reports. -/
def deliverLoop (e : ε) : ℕ → EPoll ε φ → List φ → List (φ × EpollEvent) × EPoll ε φ
  | 0, s, tmp => ([], s.setEvents e (s.events e ++ tmp))
  | n + 1, s, tmp =>
    match s.events e with
    | [] => ([], s.setEvents e ([] ++ tmp))
    | f :: rest =>
      let o := s.observer e f
      let s := s.setEvents e rest
      let (out, s) :=
        if o.isEdgeTriggered then
          deliverLoop e n (s.setObserver e f o.detached) tmp
        else deliverLoop e n s (tmp ++ [f])
      ((f, report o) :: out, s)

def deliverEvents (e : ε) (n : ℕ) : List (φ × EpollEvent) × EPoll ε φ := deliverLoop e n s []

/-- The section of `EPollFile::Wait` that ends it: it delivers what is ready, or nothing. A thread that waits
longer takes this step later. -/
def wait (s : EPoll ε φ) (e : ε) (n : ℕ) : List (φ × EpollEvent) × EPoll ε φ :=
  if (s.events e).isEmpty then ([], s) else s.deliverEvents e n

inductive Call (ε φ : Type*) where
  | set (f : φ) (mask : BitVec 32) (forceNotify : Bool)
  | clear (f : φ) (mask : BitVec 32)
  | propagate (f : φ)
  | add (e : ε) (f : φ) (events : BitVec 32) (userData : BitVec 64)
  | modify (e : ε) (f : φ) (events : BitVec 32) (userData : BitVec 64)
  | delete (e : ε) (f : φ)
  | wait (e : ε) (n : ℕ)

def step : Call ε φ → EPoll ε φ
  | .set f mask forceNotify => s.set f mask forceNotify
  | .clear f mask => s.clear f mask
  | .propagate f => s.propagate f
  | .add e f events userData => (s.add e f events userData false 0).2
  | .modify e f events userData => (s.modify e f events userData).2
  | .delete e f => (s.delete e f).2
  | .wait e n => (s.wait e n).2

/-- The callers of `Set` and `Clear` serialize them for each source. -/
def Serialized (s : EPoll ε φ) : Call ε φ → Prop
  | .set f _ _ => s.owed f = false
  | .clear f _ => s.owed f = false
  | _ => True

instance (s : EPoll ε φ) (c : Call ε φ) : Decidable (s.Serialized c) := by
  unfold Serialized
  split <;> infer_instance

end EPoll
end Junction

/-! ### What the operations do to the observers -/

namespace Junction.EPoll
open Function List
variable {ε φ : Type*}

structure Queued (s : EPoll ε φ) : Prop where
  mem_events : ∀ e f, f ∈ s.events e ↔ (s.observer e f).attached
  nodup_events : ∀ e, (s.events e).Nodup

structure Wired (s : EPoll ε φ) : Prop extends Queued s where
  nodup_observers : ∀ f, (s.epollObservers f).Nodup
  registered : ∀ e f, (s.observer e f).attached → e ∈ s.epollObservers f

theorem wired_start (mask : φ → BitVec 32) : Wired (start mask : EPoll ε φ) where
  mem_events e f := by simp [start]
  nodup_events e := nodup_nil
  nodup_observers f := nodup_nil
  registered e f h := by simp [start] at h

/-- Every registered observer satisfies `P` with the mask of its source and what the source owes. -/
def ForRegistered (s : EPoll ε φ) (P : ε → φ → BitVec 32 → Bool → EPollObserver → Prop) : Prop :=
  ∀ e f, e ∈ s.epollObservers f → P e f (s.eventMask f) (s.owed f) (s.observer e f)

variable [DecidableEq ε] [DecidableEq φ] {s : EPoll ε φ} {e : ε} {f : φ} {o o' : EPollObserver}
  {P P' : ε → φ → BitVec 32 → Bool → EPollObserver → Prop}

theorem setObserver_apply (e' : ε) (f' : φ) :
    (s.setObserver e f o).observer e' f' = if e' = e ∧ f' = f then o else s.observer e' f' := by
  by_cases he : e' = e
  · subst he
    simp [setObserver, update_apply]
  · simp [setObserver, he]

/-- The observer of `e` at `f` becomes `o`, and the file is put on the ready list or taken off it as `o` says. -/
def place (s : EPoll ε φ) (e : ε) (f : φ) (o : EPollObserver) : EPoll ε φ :=
  (s.setObserver e f o).setEvents e
    (if o.attached then if f ∈ s.events e then s.events e else s.events e ++ [f] else (s.events e).erase f)

theorem place_apply (e' : ε) (f' : φ) :
    (s.place e f o).observer e' f' = if e' = e ∧ f' = f then o else s.observer e' f' := setObserver_apply e' f'

@[simp] theorem place_self : (s.place e f o).observer e f = o := by
  rw [place_apply, if_pos ⟨rfl, rfl⟩]

namespace Queued
variable (h : Queued s)
include h

theorem place (e : ε) (f : φ) (o : EPollObserver) : Queued (s.place e f o) where
  mem_events e' f' := by
    rw [place_apply]
    change f' ∈ update s.events e _ e' ↔ _
    by_cases he : e' = e
    · subst he
      rw [update_self]
      by_cases hf : f' = f
      · subst hf
        simp only [and_self, if_true]
        split_ifs with ho hin
        · simp [ho, hin]
        · simp [ho]
        · simp [ho, (h.nodup_events e').mem_erase_iff]
      · simp only [hf, and_false, if_false, ← h.mem_events]
        split_ifs <;> simp [hf, mem_erase_of_ne]
    · rw [update_of_ne he, if_neg fun h => he h.1, h.mem_events]
  nodup_events e' := by
    change (update s.events e _ e').Nodup
    by_cases he : e' = e
    · subst he
      rw [update_self]
      split_ifs with ho hin
      · exact h.nodup_events e'
      · exact nodup_append.mpr ⟨h.nodup_events e', nodup_singleton f,
          by simpa using fun a ha => ne_of_mem_of_not_mem ha hin⟩
      · exact (h.nodup_events e').erase f
    · rw [update_of_ne he]
      exact h.nodup_events e'

variable (ho : o.attached = (s.observer e f).attached)
include ho

theorem place_of_attached : s.place e f o = s.setObserver e f o := by
  have hlist : (if o.attached then if f ∈ s.events e then s.events e else s.events e ++ [f]
      else (s.events e).erase f) = s.events e := by
    have hmem := h.mem_events e f
    rw [ho]
    split_ifs with ha hin
    · rfl
    · exact absurd (hmem.2 ha) hin
    · exact erase_of_not_mem fun hin => ha (hmem.1 hin)
  rw [EPoll.place, hlist]
  simp [setEvents, setObserver]

theorem place_place : (s.place e f o).place e f o' = s.place e f o' := by
  have hset : (s.setObserver e f o).setObserver e f o' = s.setObserver e f o' := by simp [setObserver]
  rw [h.place_of_attached ho, EPoll.place, hset]
  rfl

omit ho

theorem place_observer (e : ε) (f : φ) : s.place e f (s.observer e f) = s := by
  rw [h.place_of_attached rfl]
  simp [setObserver]

theorem addEvent_eq (e : ε) (f : φ) : s.addEvent e f = s.place e f { s.observer e f with attached := true } := by
  unfold addEvent
  split_ifs with ha
  · rw [show ({ s.observer e f with attached := true } : EPollObserver) = s.observer e f by rw [← ha], h.place_observer]
  · simp [EPoll.place, h.mem_events, ha]

theorem removeEvent_eq (e : ε) (f : φ) : s.removeEvent e f = s.place e f (s.observer e f).detached := by
  unfold removeEvent
  split_ifs with ha
  · rfl
  · rw [show (s.observer e f).detached = s.observer e f by rw [EPollObserver.detached, ← Bool.eq_false_iff.mpr ha],
      h.place_observer]

end Queued

def told (o : EPollObserver) (events : BitVec 32) : EPollObserver :=
  { o with triggeredEvents := events, attached := meets events o.watchedEvents }

theorem Queued.notifyObserver_eq (h : Queued s) (e : ε) (f : φ) (events : BitVec 32) :
    s.notifyObserver e f events = s.place e f (told (s.observer e f) events) := by
  set o : EPollObserver := { s.observer e f with triggeredEvents := events } with ho
  have hsame : o.attached = (s.observer e f).attached := rfl
  have hset : s.setObserver e f o = s.place e f o := (h.place_of_attached hsame).symm
  have hq := h.place e f o
  dsimp only [notifyObserver]
  rw [← ho, hset, place_self]
  split_ifs with hm
  · rw [hq.addEvent_eq, place_self, h.place_place hsame]
    simp [told, ho, show meets events (s.observer e f).watchedEvents = true from hm]
  · rw [hq.removeEvent_eq, place_self, h.place_place hsame]
    simp [told, ho, EPollObserver.detached, show meets events (s.observer e f).watchedEvents = false by simpa using hm]

theorem Queued.notify_setObserver (h : Queued s) (ho : o.attached = (s.observer e f).attached) (events : BitVec 32) :
    (s.setObserver e f o).notifyObserver e f events = s.place e f (told o events) := by
  have htold := (h.place e f o).notifyObserver_eq e f events
  rwa [place_self, h.place_place ho, h.place_of_attached ho] at htold

def listed (s : EPoll ε φ) (f : φ) (es : List ε) : EPoll ε φ :=
  { s with epollObservers := update s.epollObservers f es }

omit [DecidableEq ε] in
theorem listed_observers (s : EPoll ε φ) (f : φ) : s.listed f (s.epollObservers f) = s := by
  rw [listed, update_eq_self]

section Placed
variable {es : List ε} (hsame : ∀ e' ≠ e, e' ∈ es ↔ e' ∈ s.epollObservers f)
include hsame

omit [DecidableEq ε] in
theorem mem_listed {e' : ε} {f' : φ} (hne : ¬ (e' = e ∧ f' = f)) :
    e' ∈ (s.listed f es).epollObservers f' ↔ e' ∈ s.epollObservers f' := by
  change e' ∈ update s.epollObservers f es f' ↔ _
  rcases eq_or_ne f' f with rfl | hf
  · rw [update_self]
    exact hsame e' fun he => hne ⟨he, rfl⟩
  · rw [update_of_ne hf]

theorem Wired.place (hw : Wired s) (hes : es.Nodup) (ho : o.attached → e ∈ es) :
    Wired ((s.listed f es).place e f o) := { Queued.place ⟨hw.mem_events, hw.nodup_events⟩ e f o with
  nodup_observers f' := by
    change (update s.epollObservers f es f').Nodup
    rcases eq_or_ne f' f with rfl | hf
    · rw [update_self]
      exact hes
    · rw [update_of_ne hf]
      exact hw.nodup_observers f'
  registered e' f' ha := by
    rw [place_apply] at ha
    split_ifs at ha with hef
    · obtain ⟨rfl, rfl⟩ := hef
      change e' ∈ update s.epollObservers f' es f'
      rw [update_self]
      exact ho ha
    · exact (mem_listed hsame hef).2 (hw.registered e' f' ha) }

theorem ForRegistered.place (h : ForRegistered s P)
    (hP : ∀ e' f', ¬ (e' = e ∧ f' = f) → P e' f' (s.eventMask f') (s.owed f') (s.observer e' f') →
      P' e' f' (s.eventMask f') (s.owed f') (s.observer e' f'))
    (ho : e ∈ es → P' e f (s.eventMask f) (s.owed f) o) : ForRegistered ((s.listed f es).place e f o) P' := by
  intro e' f' he
  rw [place_apply]
  split_ifs with hef
  · obtain ⟨rfl, rfl⟩ := hef
    refine ho ?_
    change e' ∈ update s.epollObservers f' es f' at he
    rwa [update_self] at he
  · exact hP e' f' hef (h e' f' ((mem_listed hsame hef).1 he))

end Placed

/-! ### A notification of all observers -/

def fired (o : EPollObserver) : EPollObserver :=
  if o.isOneShot then { o with oneShotTriggered := true } else o

inductive Notified (mask : BitVec 32) (o : EPollObserver) : EPollObserver → Prop
  | spent (h : o.isOneShot ∧ o.oneShotTriggered) : Notified mask o o
  | passedOver (h : o.isExclusive) : Notified mask o (fired o)
  | told (h : ¬ (o.isOneShot ∧ o.oneShotTriggered)) : Notified mask o (told (fired o) mask)

theorem fired_eq (o : EPollObserver) : (fired o).attached = o.attached ∧ (fired o).watchedEvents = o.watchedEvents ∧
      (fired o).triggeredEvents = o.triggeredEvents ∧ (fired o).userData = o.userData := by
  unfold fired
  split_ifs <;> exact ⟨rfl, rfl, rfl, rfl⟩

theorem Notified.keeps {mask : BitVec 32} (h : Notified mask o o') :
    o'.watchedEvents = o.watchedEvents ∧ o'.userData = o.userData := by
  obtain ⟨-, hw, -, hd⟩ := fired_eq o
  cases h with
  | spent _ => exact ⟨rfl, rfl⟩
  | passedOver _ | told _ => exact ⟨hw, hd⟩

/-- The observers of `es` at `f` have been notified, and nothing else has changed. -/
structure Notifies (s : EPoll ε φ) (f : φ) (es : List ε) (s' : EPoll ε φ) : Prop where
  notified : ∀ e ∈ es, Notified (s.eventMask f) (s.observer e f) (s'.observer e f)
  observer_of_ne : ∀ e' f', ¬ (e' ∈ es ∧ f' = f) → s'.observer e' f' = s.observer e' f'
  wired : Wired s'
  frame : s' = { s with observer := s'.observer, events := s'.events }

theorem Notifies.cons {s' : EPoll ε φ} {es : List ε} (ho : Notified (s.eventMask f) (s.observer e f) o)
    (he : e ∉ es) (hrest : Notifies (s.place e f o) f es s') : Notifies s f (e :: es) s' where
  notified e' he' := by
    rcases mem_cons.mp he' with rfl | hin
    · rw [hrest.observer_of_ne e' f (fun h' => he h'.1), place_self]
      exact ho
    have hnote := hrest.notified e' hin
    have hne : ¬ (e' = e ∧ f = f) := fun h' => ne_of_mem_of_not_mem hin he h'.1
    rwa [place_apply, if_neg hne] at hnote
  observer_of_ne e' f' hne := by
    have hhead : ¬ (e' = e ∧ f' = f) := fun h' => hne ⟨h'.1 ▸ mem_cons_self, h'.2⟩
    rw [hrest.observer_of_ne e' f' fun h' => hne ⟨mem_cons_of_mem e h'.1, h'.2⟩, place_apply, if_neg hhead]
  wired := hrest.wired
  frame := hrest.frame

theorem Queued.notifyLoop_cons (h : Queued s) (f : φ) (e : ε) (es : List ε) (exclusive : Bool) :
    notifyLoop f (e :: es) exclusive s =
      if (s.observer e f).isOneShot && (s.observer e f).oneShotTriggered then notifyLoop f es exclusive s
      else if (s.observer e f).isExclusive && exclusive then
        notifyLoop f es exclusive (s.place e f (fired (s.observer e f)))
      else notifyLoop f es (exclusive || (s.observer e f).isExclusive)
        (s.place e f (told (fired (s.observer e f)) (s.eventMask f))) := by
  have hattached := (fired_eq (s.observer e f)).1
  have hfire : (if (s.observer e f).isOneShot then s.setObserver e f { s.observer e f with oneShotTriggered := true }
      else s) = s.setObserver e f (fired (s.observer e f)) := by
    unfold fired
    split_ifs
    · rfl
    · simp [setObserver]
  rw [h.place_of_attached hattached, ← h.notify_setObserver hattached, notifyLoop]
  rw [hfire]
  rfl

theorem notifies_notifyLoop (f : φ) (es : List ε) (hw : Wired s) (hes : es.Nodup)
    (hreg : ∀ e ∈ es, e ∈ s.epollObservers f) (exclusive : Bool) : Notifies s f es (notifyLoop f es exclusive s) := by
  induction es generalizing s exclusive with
  | nil => exact ⟨by simp, fun _ _ _ => rfl, hw, rfl⟩
  | cons e es ih =>
    obtain ⟨he, hes⟩ := nodup_cons.mp hes
    obtain ⟨hin, hrest⟩ := forall_mem_cons.mp hreg
    have hwired : ∀ o, Wired (s.place e f o) := fun o => by
      have hplaced := hw.place (o := o) (fun _ _ => Iff.rfl) (hw.nodup_observers f) fun _ => hin
      rwa [listed_observers] at hplaced
    rw [hw.notifyLoop_cons]
    split_ifs with hspent hskip
    · refine Notifies.cons (.spent ((Bool.and_eq_true _ _).mp hspent)) he ?_
      rw [hw.place_observer]
      exact ih hw hes hrest exclusive
    · exact Notifies.cons (.passedOver ((Bool.and_eq_true _ _).mp hskip).1) he (ih (hwired _) hes hrest exclusive)
    · exact Notifies.cons (.told fun h => hspent ((Bool.and_eq_true _ _).mpr h)) he (ih (hwired _) hes hrest _)

theorem notifies_notify (hw : Wired s) (f : φ) : Notifies s f (s.epollObservers f) (s.notify f) :=
  notifies_notifyLoop f _ hw (hw.nodup_observers f) (fun _ h => h) false

theorem propagate_frame (hw : Wired s) (f : φ) :
    (s.propagate f).eventMask = s.eventMask ∧ (s.propagate f).epollObservers = s.epollObservers := by
  have hn := notifies_notify hw f
  unfold propagate
  split_ifs
  · exact ⟨(congrArg EPoll.eventMask hn.frame :), (congrArg EPoll.epollObservers hn.frame :)⟩
  · exact ⟨rfl, rfl⟩

theorem ForRegistered.propagate (h : ForRegistered s P) (hw : Wired s) (f : φ)
    (hP : s.owed f → ∀ e ∈ s.epollObservers f, ∀ o, Notified (s.eventMask f) (s.observer e f) o →
      P e f (s.eventMask f) (s.owed f) (s.observer e f) → P e f (s.eventMask f) false o) :
    ForRegistered (s.propagate f) P := by
  have hn := notifies_notify hw f
  unfold EPoll.propagate
  split_ifs with howed
  · intro e f' he
    dsimp only at he ⊢
    rw [hn.frame] at he
    rw [congrArg EPoll.eventMask hn.frame]
    rcases eq_or_ne f' f with rfl | hf
    · rw [update_self]
      exact hP howed e he _ (hn.notified e he) (h e f' he)
    · rw [update_of_ne hf, hn.observer_of_ne e f' fun hin => hf hin.2]
      exact h e f' he
  · exact h

omit [DecidableEq ε] in
theorem ForRegistered.write (h : ForRegistered s P) {mask : BitVec 32}
    (hP : ∀ e, P e f (s.eventMask f) (s.owed f) (s.observer e f) → P e f mask true (s.observer e f)) :
    ForRegistered { s with eventMask := update s.eventMask f mask, owed := update s.owed f true } P := by
  intro e f' he
  dsimp only
  rcases eq_or_ne f' f with rfl | hf
  · rw [update_self, update_self]
    exact hP e (h e f' he)
  · rw [update_of_ne hf, update_of_ne hf]
    exact h e f' he

/-! ### A delivery -/

def delivered (o : EPollObserver) : EPollObserver := if o.isEdgeTriggered then o.detached else o

theorem delivered_eq (o : EPollObserver) : report (delivered o) = report o ∧
    (delivered o).isEdgeTriggered = o.isEdgeTriggered ∧ delivered (delivered o) = delivered o := by
  cases hedge : o.isEdgeTriggered with
  | false => simp [delivered, hedge]
  | true =>
    have hdetached : o.detached.isEdgeTriggered = true := hedge
    rw [delivered, if_pos hedge, delivered, if_pos hdetached]
    exact ⟨rfl, hdetached, rfl⟩

/-- The state after a delivery of the first `n` files of a ready list: the edge-triggered ones are off it,
the others have moved to its end. -/
def afterDelivery (s : EPoll ε φ) (e : ε) (n : ℕ) (tmp : List φ) : EPoll ε φ :=
  { s with
    observer := fun e' f =>
      if e' = e ∧ f ∈ (s.events e).take n then delivered (s.observer e f) else s.observer e' f
    events := update s.events e ((s.events e).drop n ++ (tmp ++
      ((s.events e).take n).filter fun f => !(s.observer e f).isEdgeTriggered)) }

theorem deliverLoop_cons {rest : List φ} (hl : s.events e = f :: rest) (n : ℕ) (tmp : List φ) :
    deliverLoop e (n + 1) s tmp =
      ((f, report (s.observer e f)) :: (deliverLoop e n ((s.setEvents e rest).setObserver e f
          (delivered (s.observer e f))) (tmp ++ if (s.observer e f).isEdgeTriggered then [] else [f])).1,
        (deliverLoop e n ((s.setEvents e rest).setObserver e f (delivered (s.observer e f)))
          (tmp ++ if (s.observer e f).isEdgeTriggered then [] else [f])).2) := by
  rw [deliverLoop, hl]
  cases hedge : (s.observer e f).isEdgeTriggered with
  | false => simp [delivered, hedge, setObserver, setEvents]
  | true => simp [delivered, hedge]

theorem deliverLoop_eq (e : ε) (n : ℕ) (s : EPoll ε φ) (tmp : List φ) : deliverLoop e n s tmp =
      (((s.events e).take n).map fun f => (f, report (s.observer e f)), s.afterDelivery e n tmp) := by
  induction n generalizing s tmp with
  | zero => simp [deliverLoop, setEvents, afterDelivery]
  | succ n ih =>
    cases hl : s.events e with
    | nil => simp [deliverLoop, setEvents, afterDelivery, hl]
    | cons f rest =>
      rw [deliverLoop_cons hl, ih]
      set s' := (s.setEvents e rest).setObserver e f (delivered (s.observer e f)) with hs'
      have hobserver : ∀ e' g, s'.observer e' g =
          if e' = e ∧ g = f then delivered (s.observer e f) else s.observer e' g := fun e' g => setObserver_apply e' g
      have hsame : ∀ g, report (s'.observer e g) = report (s.observer e g) ∧
          (s'.observer e g).isEdgeTriggered = (s.observer e g).isEdgeTriggered ∧
          delivered (s'.observer e g) = delivered (s.observer e g) := by
        intro g
        rw [hobserver]
        split_ifs with hg
        · rw [hg.2]
          exact delivered_eq _
        · exact ⟨rfl, rfl, rfl⟩
      simp only [forall_and] at hsame
      obtain ⟨hreport, hedge, hagain⟩ := hsame
      have hrest : s'.events e = rest := update_self ..
      have hafter : s'.afterDelivery e n (tmp ++ if (s.observer e f).isEdgeTriggered then [] else [f]) =
          s.afterDelivery e (n + 1) tmp := by
        unfold afterDelivery
        rw [hrest, hl, take_succ_cons, drop_succ_cons]
        simp only [hedge, hagain, filter_cons]
        congr 1
        · funext e' g
          rw [hobserver]
          grind
        · rw [hs']
          cases (s.observer e f).isEdgeTriggered <;> simp [setObserver, setEvents]
      rw [hrest, hafter]
      simp [hreport]

theorem wait_eq (s : EPoll ε φ) (e : ε) (n : ℕ) : s.wait e n =
      (((s.events e).take n).map fun f => (f, report (s.observer e f)), s.afterDelivery e n []) := by
  unfold wait
  split_ifs with hempty
  · have hnil : s.events e = [] := isEmpty_iff.mp hempty
    have hevents : update s.events e [] = s.events := by rw [← hnil, update_eq_self]
    simp [afterDelivery, hnil, hevents]
  · exact deliverLoop_eq e n s []

theorem ForRegistered.wait (h : ForRegistered s P) (e : ε) (n : ℕ)
    (hP : ∀ e' f', ¬ (e' = e ∧ f' ∈ (s.events e).take n) →
      P e' f' (s.eventMask f') (s.owed f') (s.observer e' f') → P' e' f' (s.eventMask f') (s.owed f') (s.observer e' f'))
    (hd : ∀ f' ∈ (s.events e).take n, P e f' (s.eventMask f') (s.owed f') (s.observer e f') →
      P' e f' (s.eventMask f') (s.owed f') (delivered (s.observer e f'))) : ForRegistered (s.wait e n).2 P' := by
  rw [wait_eq]
  intro e' f' he
  dsimp only [afterDelivery]
  split_ifs with hin
  · obtain ⟨rfl, hin⟩ := hin
    exact hd f' hin (h e' f' he)
  · exact hP e' f' hin (h e' f' he)

/-! ### The operations keep the ready lists and the observers together -/

omit [DecidableEq ε] in
theorem mem_afterDelivery (hw : Wired s) (e : ε) (n : ℕ) (f : φ) : f ∈ (s.events e).drop n ++ ([] ++
        ((s.events e).take n).filter fun g => !(s.observer e g).isEdgeTriggered) ↔
      (if f ∈ (s.events e).take n then delivered (s.observer e f) else s.observer e f).attached := by
  have hlist : f ∈ s.events e ↔ f ∈ (s.events e).take n ∨ f ∈ (s.events e).drop n := by
    rw [← mem_append, take_append_drop]
  have hmem := hw.mem_events e f
  split_ifs with htake
  · have hdrop : f ∉ (s.events e).drop n := fun h => (disjoint_take_drop (hw.nodup_events e) le_rfl) htake h
    have ha := hmem.1 (mem_of_mem_take htake)
    cases hedge : (s.observer e f).isEdgeTriggered <;>
      simp [hdrop, htake, hedge, delivered, EPollObserver.detached, ha]
  · simp [← hmem, hlist, htake]

theorem wired_afterDelivery (hw : Wired s) (e : ε) (n : ℕ) : Wired (s.afterDelivery e n []) where
  mem_events e' f := by
    change f ∈ update s.events e _ e' ↔ (if e' = e ∧ f ∈ _ then _ else s.observer e' f).attached
    by_cases he : e' = e
    · subst he
      rw [update_self]
      simpa using mem_afterDelivery hw e' n f
    · rw [update_of_ne he, if_neg fun h => he h.1]
      exact hw.mem_events e' f
  nodup_events e' := by
    change (update s.events e _ e').Nodup
    by_cases he : e' = e
    · subst he
      have hperm : (s.events e').Perm ((s.events e').drop n ++ (s.events e').take n) := by
        have h : ((s.events e').take n ++ (s.events e').drop n).Perm _ := perm_append_comm
        rwa [take_append_drop] at h
      rw [update_self]
      exact (hperm.nodup_iff.mp (hw.nodup_events e')).sublist (List.Sublist.append_left filter_sublist _)
    · rw [update_of_ne he]
      exact hw.nodup_events e'
  nodup_observers := hw.nodup_observers
  registered e' f ha := by
    refine hw.registered e' f ?_
    dsimp only [afterDelivery, delivered] at ha
    split_ifs at ha with hin hedge
    · cases ha
    · rwa [hin.1]
    · exact ha

/-- The observer that `Add` creates. -/
def created (events : BitVec 32) (userData : BitVec 64) (oneShotTriggered : Bool) : EPollObserver :=
  { watchedEvents := watched events, userData := userData, oneShotTriggered := oneShotTriggered }

/-- The observer with what `Modify` writes to it. -/
def rearmed (o : EPollObserver) (events : BitVec 32) (userData : BitVec 64) : EPollObserver :=
  { o with watchedEvents := watched events, userData := userData, oneShotTriggered := false }

/-- What a call that registers, modifies or removes the observer of `e` at `f` leaves of the list of the source and of
the observer. -/
inductive Placed (s : EPoll ε φ) (e : ε) (f : φ) : Call ε φ → List ε → EPollObserver → Prop
  | add (h : e ∉ s.epollObservers f) (events : BitVec 32) (userData : BitVec 64) :
    Placed s e f (.add e f events userData) (s.epollObservers f ++ [e])
      (told (created events userData false) (s.eventMask f ||| 0))
  | modify (h : e ∈ s.epollObservers f) (events : BitVec 32) (userData : BitVec 64) :
    Placed s e f (.modify e f events userData) (s.epollObservers f)
      (told (rearmed (s.observer e f) events userData) (s.observer e f).triggeredEvents)
  | delete (h : e ∈ s.epollObservers f) :
    Placed s e f (.delete e f) ((s.epollObservers f).erase e) (s.observer e f).detached

namespace Placed
variable {c : Call ε φ} {es : List ε} (h : Placed s e f c es o) (hw : Wired s)
include h

omit [DecidableEq φ] in
theorem same : ∀ e' ≠ e, e' ∈ es ↔ e' ∈ s.epollObservers f := by
  intro e' hne
  cases h with
  | add _ => simp [hne]
  | modify _ => rfl
  | delete _ => exact mem_erase_of_ne hne

include hw

theorem step_eq : s.step c = (s.listed f es).place e f o := by
  have hq : ∀ es, Queued (s.listed f es) := fun _ => ⟨hw.mem_events, hw.nodup_events⟩
  cases h with
  | add he events userData =>
    have hoff : (s.observer e f).attached = false := Bool.eq_false_iff.mpr fun ha => he (hw.registered e f ha)
    rw [EPoll.step, EPoll.add, if_neg he]
    exact (hq (s.epollObservers f ++ [e])).notify_setObserver hoff.symm _
  | modify he events userData =>
    rw [EPoll.step, EPoll.modify, if_pos he, listed_observers]
    exact hw.notify_setObserver (o := rearmed (s.observer e f) events userData) rfl _
  | delete he =>
    rw [EPoll.step, EPoll.delete, if_pos he]
    exact (hq _).removeEvent_eq e f

theorem wired : Wired (s.step c) := by
  rw [h.step_eq hw]
  have hobservers := hw.nodup_observers f
  refine hw.place h.same ?_ ?_
  · cases h with
    | add he => exact nodup_append.mpr ⟨hobservers, nodup_singleton e, by simpa using fun a ha => ne_of_mem_of_not_mem ha he⟩
    | modify _ => exact hobservers
    | delete _ => exact hobservers.erase e
  intro ha
  cases h with
  | add _ => simp
  | modify he => exact he
  | delete _ => cases ha

end Placed

theorem wired_step (hw : Wired s) (c : Call ε φ) : Wired (s.step c) := by
  cases c with
  | set f mask force =>
    change Wired (s.set f mask force)
    dsimp only [set]
    split_ifs
    · exact hw
    · exact { hw with }
  | clear f mask =>
    change Wired (s.clear f mask)
    dsimp only [clear]
    split_ifs
    · exact hw
    · exact { hw with }
  | propagate f =>
    change Wired (s.propagate f)
    have hn := (notifies_notify hw f).wired
    unfold propagate
    split_ifs
    · exact { hn with }
    · exact hw
  | add e f events userData =>
    by_cases he : e ∈ s.epollObservers f
    · rwa [step, add, if_pos he]
    · exact (Placed.add he events userData).wired hw
  | modify e f events userData =>
    by_cases he : e ∈ s.epollObservers f
    · exact (Placed.modify he events userData).wired hw
    · rwa [step, modify, if_neg he]
  | delete e f =>
    by_cases he : e ∈ s.epollObservers f
    · exact (Placed.delete he).wired hw
    · rwa [step, delete, if_neg he]
  | wait e n =>
    change Wired (s.wait e n).2
    rw [wait_eq]
    exact wired_afterDelivery hw e n

/-- A wait moves a ready file that it has no room for up by its room. -/
theorem exists_served {e : ε} {f : φ} {n : ℕ} (hn : 0 < n) {before behind : List φ} {s : EPoll ε φ}
    (hs : s.events e = before ++ f :: behind) : ∃ j, j * n ≤ before.length ∧
      f ∈ ((Run.exec step s (replicate j (.wait e n))).wait e n).1.map Prod.fst := by
  induction hlen : before.length using Nat.strong_induction_on generalizing before behind s with
  | _ k ih =>
    by_cases hroom : k < n
    · refine ⟨0, by omega, ?_⟩
      obtain ⟨m, hm⟩ := Nat.exists_eq_add_of_lt (hlen ▸ hroom)
      simp [Run.exec, wait_eq, hs, take_append, hm, Nat.add_assoc]
    have hnext : (s.step (.wait e n)).events e = before.drop n ++ f :: (behind ++
        (((s.events e).take n).filter fun g => !(s.observer e g).isEdgeTriggered)) := by
      simp [step, wait_eq, afterDelivery, hs, drop_append_of_le_length (hlen ▸ Nat.le_of_not_lt hroom)]
    obtain ⟨j, hj, hserved⟩ := ih (k - n) (by omega) hnext (by simp [hlen])
    exact ⟨j + 1, by rw [Nat.succ_mul]; omega, hserved⟩

/-- A ready list holds the observers that are ready, each once, and all are registered. With whatever room, the next
waits report every file on it, as early as its place says. -/
theorem ready_files_served (mask : φ → BitVec 32) (calls : List (Call ε φ)) (e : ε) (n : ℕ) :
    let s := Run.exec step (start mask) calls
    (s.events e).Nodup ∧ (∀ f, f ∈ s.events e ↔ (s.observer e f).attached) ∧ (∀ f ∈ s.events e, e ∈ s.epollObservers f) ∧
      (0 < n → ∀ before f behind, s.events e = before ++ f :: behind → ∃ j, j * n ≤ before.length ∧
        f ∈ ((Run.exec step s (replicate j (.wait e n))).wait e n).1.map Prod.fst) := by
  intro s
  have hw : Wired s := List.foldlRecOn calls _ (wired_start mask) fun _ h c _ => wired_step h c
  exact ⟨hw.nodup_events e, hw.mem_events e, fun f hf => hw.registered e f ((hw.mem_events e f).1 hf),
    fun hn _ _ _ => exists_served hn⟩

end Junction.EPoll
