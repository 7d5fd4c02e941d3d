import Junction.EPoll

/-!
# Level-triggered polling

In a state where no change of a mask is being propagated, an observer without the flags for edges, one shot or
exclusive wake-ups is ready exactly if its source has an event that it watches, and a wait reports that.

An observer that has used its shot, or has been passed over as exclusive, keeps an old copy of the mask. A
modification that takes both flags away evaluates that copy, so it must not come while the copy is old.
-/

namespace Junction
open Function EPoll BitVec EPollObserver

structure Interest (ε φ : Type*) where
  mask : φ → BitVec 32
  registered : ε → φ → Option (BitVec 32 × BitVec 64)

namespace Interest
variable {ε φ : Type*}

def start (mask : φ → BitVec 32) : Interest ε φ := ⟨mask, fun _ _ => none⟩

variable [DecidableEq ε] [DecidableEq φ]

def register (r : Interest ε φ) (e : ε) (f : φ) (o : Option (BitVec 32 × BitVec 64)) : Interest ε φ :=
  { r with registered := update r.registered e (update (r.registered e) f o) }

def step (r : Interest ε φ) : Call ε φ → Interest ε φ
  | .set f mask _ => { r with mask := update r.mask f (r.mask f ||| mask) }
  | .clear f mask => { r with mask := update r.mask f (r.mask f &&& ~~~mask) }
  | .add e f events userData =>
    if r.registered e f = none then r.register e f (some (watched events, userData)) else r
  | .modify e f events userData =>
    if r.registered e f = none then r else r.register e f (some (watched events, userData))
  | .delete e f => r.register e f none
  | .propagate _ | .wait _ _ => r

theorem register_self (r : Interest ε φ) (e : ε) (f : φ) (o : Option (BitVec 32 × BitVec 64)) :
    (r.register e f o).registered e f = o := by
  simp [register]

theorem register_of_ne (r : Interest ε φ) {e e' : ε} {f f' : φ} (o : Option (BitVec 32 × BitVec 64))
    (h : ¬ (e' = e ∧ f' = f)) : (r.register e f o).registered e' f' = r.registered e' f' := by
  by_cases he : e' = e
  · subst he
    have hf : f' ≠ f := fun hf => h ⟨rfl, hf⟩
    simp [register, hf]
  · simp [register, he]

end Interest

namespace EPoll

variable {w : ℕ} {a m : BitVec w}

theorem or_eq_of_and_eq (h : a &&& m = m) : a ||| m = a := by
  ext i hi
  have hbit : (a[i] && m[i]) = m[i] := by rw [← getElem_and, h]
  rw [getElem_or, ← hbit]
  cases a[i] <;> rfl

theorem and_not_eq_of_and_eq_zero (h : a &&& m = 0) : a &&& ~~~m = a := by
  ext i hi
  have hbit : (a[i] && m[i]) = false := by rw [← getElem_and, h]; simp
  rw [getElem_and, getElem_not]
  cases ha : a[i] with
  | false => rfl
  | true => rw [ha, Bool.true_and] at hbit; rw [hbit]; rfl

variable {ε φ : Type*} [DecidableEq ε] [DecidableEq φ]

/-- Neither of the flags under which a notification can pass an observer over. -/
def tracked (events : BitVec 32) : Bool := !meets events kEPollOneShot && !meets events kEPollExclusive

def plain (events : BitVec 32) : Bool := !meets events kEPollEdgeTriggered && tracked events

/-- A modification that makes an observer tracked finds its copy of the mask up to date, or a notification
on its way. -/
def Refreshed (s : EPoll ε φ) : Call ε φ → Prop
  | .modify e f events _ =>
    e ∈ s.epollObservers f → tracked (s.observer e f).watchedEvents = false →
      tracked (watched events) = true →
        s.owed f = true ∨ (s.observer e f).triggeredEvents = s.eventMask f
  | _ => True

instance (s : EPoll ε φ) : (c : Call ε φ) → Decidable (s.Refreshed c)
  | .modify .. => inferInstanceAs (Decidable (_ → _))
  | .set .. | .clear .. | .propagate _ | .add .. | .delete .. | .wait .. => .isTrue trivial

/-- The copy of the mask that an observer keeps, and its place on the ready list. -/
structure Fits (mask : BitVec 32) (owed : Bool) (o : EPollObserver) : Prop where
  cached : tracked o.watchedEvents = true → owed = false → o.triggeredEvents = mask
  level : o.isEdgeTriggered = false → o.attached = meets o.triggeredEvents o.watchedEvents

variable {mask : BitVec 32} {owed : Bool} {o : EPollObserver} {events : BitVec 32}

theorem fits_told
    (h : tracked o.watchedEvents → owed = false → events = mask) : Fits mask owed (told o events) :=
  ⟨h, fun _ => rfl⟩

variable {mask' : BitVec 32}

theorem Fits.owe (h : Fits mask owed o) : Fits mask' true o :=
  ⟨fun _ h => (Bool.noConfusion h), h.level⟩

theorem Fits.notified {owed' : Bool} {o' : EPollObserver}
    (h : Fits mask owed o) (hn : Notified mask' o o') : Fits mask' owed' o' := by
  cases hn with
  | spent hspent => exact ⟨fun ht => by simp_all [tracked, isOneShot], h.level⟩
  | passedOver hx =>
    obtain ⟨ha, hw, ht, -⟩ := fired_eq o
    refine ⟨fun htr => ?_, fun hedge => ?_⟩
    · rw [hw] at htr
      simp_all [tracked, isExclusive]
    rw [ha, ht, hw]
    refine h.level ?_
    rwa [isEdgeTriggered, hw] at hedge
  | told _ => exact fits_told fun _ _ => rfl

theorem Fits.delivered (h : Fits mask owed o) : Fits mask owed (delivered o) := by
  unfold EPoll.delivered
  split_ifs with hedge
  · refine ⟨h.cached, fun hlevel => ?_⟩
    rw [show o.isEdgeTriggered = false from hlevel] at hedge
    cases hedge
  · exact h

/-- A registered observer fits, and has what the program gave last. -/
structure Known (registered : ε → φ → Option (BitVec 32 × BitVec 64)) (e : ε) (f : φ) (mask : BitVec 32) (owed : Bool)
    (o : EPollObserver) : Prop extends Fits mask owed o where
  registered : registered e f = some (o.watchedEvents, o.userData)

structure Exact (s : EPoll ε φ) (r : Interest ε φ) : Prop where
  wired : Wired s
  mask : s.eventMask = r.mask
  known : s.ForRegistered (Known r.registered)
  unknown : ∀ e f, e ∉ s.epollObservers f → r.registered e f = none

omit [DecidableEq ε] [DecidableEq φ] in
theorem exact_start (mask : φ → BitVec 32) : Exact (start mask : EPoll ε φ) (Interest.start mask) :=
  ⟨wired_start mask, rfl, fun e f h => by simp [start] at h, fun _ _ _ => rfl⟩

section Steps
variable {s : EPoll ε φ} {r : Interest ε φ} (h : Exact s r)
include h

variable (f : φ)

omit [DecidableEq ε] in
theorem Exact.write (hmask : mask = mask') : Exact
      { s with eventMask := update s.eventMask f mask, owed := update s.owed f true }
      { r with mask := update r.mask f mask' } where
  wired := { h.wired with }
  mask := by rw [← h.mask, hmask]
  known := h.known.write fun _ hk => ⟨hk.owe, hk.registered⟩
  unknown := h.unknown

theorem exact_set (mask : BitVec 32) (force : Bool) : Exact (s.set f mask force) (r.step (.set f mask force)) := by
  dsimp only [set]
  split_ifs with hskip
  · have hsame : r.mask f ||| mask = r.mask f := by
      rw [← h.mask]
      exact or_eq_of_and_eq hskip.1
    have hr : r.step (.set f mask force) = r := by
      simp [Interest.step, hsame, update_eq_self]
    rw [hr]
    exact h
  · exact h.write f (by rw [h.mask])

theorem exact_clear (mask : BitVec 32) : Exact (s.clear f mask) (r.step (.clear f mask)) := by
  dsimp only [clear]
  split_ifs with hskip
  · have hsame : r.mask f &&& ~~~mask = r.mask f := by
      rw [← h.mask]
      exact and_not_eq_of_and_eq_zero hskip
    have hr : r.step (.clear f mask) = r := by
      simp [Interest.step, hsame, update_eq_self]
    rw [hr]
    exact h
  · exact h.write f (by rw [h.mask])

theorem exact_propagate : Exact (s.propagate f) r := by
  obtain ⟨hmask, hobservers⟩ := propagate_frame h.wired f
  refine ⟨wired_step h.wired (.propagate f), hmask.trans h.mask,
    h.known.propagate h.wired f fun _ e _ o hn hk => ⟨hk.notified hn, ?_⟩, ?_⟩
  · rw [hn.keeps.1, hn.keeps.2]
    exact hk.registered
  · rw [hobservers]
    exact h.unknown

theorem Exact.placed {c : Call ε φ} {e : ε} {f : φ} {es : List ε} (hp : Placed s e f c es o)
    (ho : e ∈ es → Fits (s.eventMask f) (s.owed f) o)
    (hr : r.step c = r.register e f (if e ∈ es then some (o.watchedEvents, o.userData) else none)) :
    Exact (s.step c) (r.step c) := by
  have hw := hp.wired h.wired
  rw [hp.step_eq h.wired] at hw ⊢
  rw [hr]
  refine ⟨hw, h.mask, h.known.place hp.same (fun e' f' hne hk => ⟨hk.toFits, ?_⟩) fun he => ⟨ho he, ?_⟩,
    fun e' f' he => ?_⟩
  · rw [Interest.register_of_ne r _ hne]
    exact hk.registered
  · rw [Interest.register_self, if_pos he]
  by_cases hef : e' = e ∧ f' = f
  · obtain ⟨rfl, rfl⟩ := hef
    change e' ∉ update s.epollObservers f' es f' at he
    rw [update_self] at he
    rw [Interest.register_self, if_neg he]
  · rw [Interest.register_of_ne r _ hef]
    exact h.unknown e' f' fun hin => he ((mem_listed hp.same hef).2 hin)

variable (e : ε)

theorem exact_add (f : φ) (events : BitVec 32) (userData : BitVec 64) :
    Exact (s.step (.add e f events userData)) (r.step (.add e f events userData)) := by
  by_cases he : e ∈ s.epollObservers f
  · rw [step, add, if_pos he, Interest.step, (h.known e f he).registered, if_neg (by simp)]
    exact h
  refine h.placed (.add he events userData) (fun _ => fits_told fun _ _ => or_zero) ?_
  rw [Interest.step, if_pos (h.unknown e f he), if_pos (by simp)]
  rfl

theorem exact_modify (f : φ) (events : BitVec 32) (userData : BitVec 64)
    (hfresh : s.Refreshed (.modify e f events userData)) :
    Exact (s.step (.modify e f events userData)) (r.step (.modify e f events userData)) := by
  by_cases he : e ∈ s.epollObservers f
  · refine h.placed (.modify he events userData) (fun _ => fits_told fun htracked howed => ?_) ?_
    · by_cases hold : tracked (s.observer e f).watchedEvents
      · exact (h.known e f he).cached hold howed
      refine (hfresh he (Bool.eq_false_iff.mpr hold) htracked).resolve_left ?_
      rw [howed]
      exact Bool.false_ne_true
    · rw [Interest.step, (h.known e f he).registered, if_neg (by simp), if_pos he]
      rfl
  · rw [step, modify, if_neg he, Interest.step, if_pos (h.unknown e f he)]
    exact h

theorem exact_delete (f : φ) : Exact (s.step (.delete e f)) (r.step (.delete e f)) := by
  by_cases he : e ∈ s.epollObservers f
  · have hout : e ∉ (s.epollObservers f).erase e := (h.wired.nodup_observers f).not_mem_erase
    refine h.placed (.delete he) (fun hin => absurd hin hout) ?_
    rw [Interest.step, if_neg hout]
  have hsame : r.step (.delete e f) = r := by
    rw [Interest.step, Interest.register, ← h.unknown e f he, update_eq_self, update_eq_self]
  rw [hsame, step, delete, if_neg he]
  exact h

theorem exact_wait (n : ℕ) : Exact (s.step (.wait e n)) r := by
  have hknown : (s.wait e n).2.ForRegistered (Known r.registered) := by
    refine h.known.wait e n (fun _ _ _ => id) fun f' _ hk => ⟨hk.delivered, ?_⟩
    unfold delivered
    split_ifs <;> exact hk.registered
  have hw := wired_step h.wired (.wait e n)
  rw [step, wait_eq] at hw ⊢
  rw [wait_eq] at hknown
  exact ⟨hw, h.mask, hknown, h.unknown⟩

end Steps

theorem exact_step {s : EPoll ε φ} {r : Interest ε φ} (h : Exact s r) (c : Call ε φ)
    (hc : s.Serialized c ∧ s.Refreshed c) : Exact (s.step c) (r.step c) := by
  cases c with
  | set f mask force => exact exact_set h f mask force
  | clear f mask => exact exact_clear h f mask
  | propagate f => exact exact_propagate h f
  | add e f events userData => exact exact_add h e f events userData
  | modify e f events userData => exact exact_modify h e f events userData hc.2
  | delete e f => exact exact_delete h e f
  | wait e n => exact exact_wait h e n

omit [DecidableEq ε] [DecidableEq φ] in
theorem Exact.plain_observer {s : EPoll ε φ} {r : Interest ε φ} (h : Exact s r) {e : ε} {f : φ} {userData : BitVec 64} (howed : s.owed f = false)
    (hreg : r.registered e f = some (events, userData)) (hplain : plain events) :
    (s.observer e f).attached = meets (r.mask f) events ∧
      report (s.observer e f) = ⟨r.mask f &&& events, userData⟩ := by
  have he : e ∈ s.epollObservers f := by
    by_contra he
    rw [h.unknown e f he] at hreg
    cases hreg
  have hfits := h.known e f he
  rw [hfits.registered] at hreg
  obtain ⟨rfl, rfl⟩ := Prod.mk.inj (Option.some.inj hreg)
  obtain ⟨hedge, htracked⟩ := (Bool.and_eq_true _ _).mp hplain
  have hcached := hfits.cached htracked howed
  have hlevel : (s.observer e f).isEdgeTriggered = false := by
    simpa [isEdgeTriggered] using hedge
  refine ⟨?_, ?_⟩
  · rw [hfits.level hlevel, hcached, h.mask]
  · rw [report, hcached, h.mask]

/-- Where no notification is owed, a wait with enough room reports the plain observers whose source has an event that
they watch, with these events and the data that the program gave last. -/
theorem level_triggered_exact (mask : φ → BitVec 32) (calls : List (Call ε φ))
    (hcalls : Run.Admitted step (fun s c => s.Serialized c ∧ s.Refreshed c) (start mask) calls) :
    let s : EPoll ε φ := Run.exec step (start mask) calls
    let r : Interest ε φ := Run.exec Interest.step (Interest.start mask) calls
    (∀ f, s.owed f = false) → ∀ e,
      (s.events e).Nodup ∧
      (∀ f ∈ s.events e, r.registered e f ≠ none) ∧
      (∀ f events userData, r.registered e f = some (events, userData) → plain events = true →
        (f ∈ s.events e ↔ r.mask f &&& events ≠ 0)) ∧
      ∀ n, (s.events e).length ≤ n →
        (s.wait e n).1.map Prod.fst = s.events e ∧
        ∀ entry ∈ (s.wait e n).1, ∀ events userData,
          r.registered e entry.1 = some (events, userData) → plain events = true →
            entry.2 = ⟨r.mask entry.1 &&& events, userData⟩ := by
  intro s r hquiet e
  have h : Exact s r := Run.relation_exec (R := Exact) (fun s r c hs hc => exact_step hs c hc) (exact_start mask) hcalls
  refine ⟨h.wired.nodup_events e, fun f hf => ?_, fun f events userData hreg hplain => ?_, fun n hn => ?_⟩
  · rw [(h.known e f (h.wired.registered e f ((h.wired.mem_events e f).mp hf))).registered]
    exact Option.some_ne_none _
  · rw [h.wired.mem_events, (h.plain_observer (hquiet f) hreg hplain).1, meets, bne_iff_ne]
  rw [wait_eq, List.take_of_length_le hn, List.map_map]
  refine ⟨List.map_id _, fun entry hentry events userData hreg hplain => ?_⟩
  obtain ⟨f, -, rfl⟩ := List.mem_map.mp hentry
  exact (h.plain_observer (hquiet f) hreg hplain).2

/-- A plain observer and one with a single shot, which becomes plain while its copy of the mask is up to
date. -/
def plainAndOneShot : List (Call Bool Bool) :=
  [.add true false kPollIn 7, .add false false (kPollIn ||| kEPollOneShot) 8,
    .set false kPollIn false, .propagate false, .wait true 4, .wait false 4,
    .modify false false (kPollIn ||| kPollOut) 9, .set false kPollOut false, .propagate false,
    .clear false kPollIn, .propagate false]

theorem level_triggered_exact_plainAndOneShot :
    let s : EPoll Bool Bool := Run.exec step (start fun _ => 0) plainAndOneShot
    let r : Interest Bool Bool := Run.exec Interest.step (Interest.start fun _ => 0) plainAndOneShot
    false ∈ s.events false ↔ r.mask false &&& watched (kPollIn ||| kPollOut) ≠ 0 :=
  (level_triggered_exact (fun _ => 0) plainAndOneShot (by decide +kernel) (by decide +kernel) false).2.2.1
    false (watched (kPollIn ||| kPollOut)) 9 (by decide +kernel) (by decide +kernel)

/-- An observer with one shot is told of an event, the event goes away, and a modification takes the flag
off: the observer stays ready without an event. -/
theorem ready_without_event : let calls : List (Call Bool Bool) :=
      [.add true false (kPollIn ||| kEPollOneShot) 7, .set false kPollIn false, .propagate false,
        .clear false kPollIn, .propagate false, .modify true false kPollIn 7]
    let s : EPoll Bool Bool := Run.exec step (start fun _ => 0) calls
    let r : Interest Bool Bool := Run.exec Interest.step (Interest.start fun _ => 0) calls
    Run.Admitted step Serialized (start fun _ => 0) calls ∧ (∀ f, s.owed f = false) ∧
      r.registered true false = some (watched kPollIn, 7) ∧ plain (watched kPollIn) = true ∧
      r.mask false &&& watched kPollIn = 0 ∧ false ∈ s.events true ∧
      (s.wait true 1).1 = [(false, ⟨kPollIn, 7⟩)] := by
  decide +kernel

end EPoll
end Junction
