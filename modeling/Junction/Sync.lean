import Junction.Library.Run

/-!
# Wakers, interruptible waits and the mutex

A thread that waits arms a waker under a lock and parks; the unlock and the park are one step. Whoever wakes
it takes it out of the waker. A signal makes a parked thread run again but leaves the waker armed, and this
is how the thread finds out that nobody woke it.
-/

namespace Junction
variable {θ ω : Type}

structure ThreadWaker (θ : Type) where
  th_ : Option θ
  deriving DecidableEq

/-- A waker for a group of threads, in the order of their arrival. -/
structure WaitQueue (θ : Type) where
  waiters_ : List θ
  deriving DecidableEq

/-- `disarm` tells whether the waker was armed, `wakeAll` which threads are to run again. -/
class Wakeable (ω : Type) (θ : outParam Type) where
  idle : ω
  arm : θ → ω → ω
  disarm : θ → ω → Bool × ω
  wakeAll : ω → List θ × ω

instance : Wakeable (ThreadWaker θ) θ where
  idle := ⟨none⟩
  arm th _ := ⟨some th⟩
  disarm _ w := (w.th_.isSome, ⟨none⟩)
  wakeAll w := (w.th_.toList, ⟨none⟩)

instance [DecidableEq θ] : Wakeable (WaitQueue θ) θ where
  idle := ⟨[]⟩
  arm th q := ⟨q.waiters_ ++ [th]⟩
  disarm th q := (decide (th ∈ q.waiters_), ⟨q.waiters_.erase th⟩)
  wakeAll q := (q.waiters_, ⟨[]⟩)

/-- A waker that forgets no thread before it wakes it. -/
class LawfulWakeable (ω : Type) {θ : outParam Type} [Wakeable ω θ] where
  Armed : θ → ω → Prop
  arm_self : ∀ th (w : ω), Armed th (Wakeable.arm th w)
  arm_of_armed : ∀ th u (w : ω), Armed u w → Armed u (Wakeable.arm th w)
  disarm_of_ne : ∀ th u (w : ω), u ≠ th → Armed u w → Armed u (Wakeable.disarm th w).2
  mem_wakeAll : ∀ th (w : ω), Armed th w → th ∈ (Wakeable.wakeAll w).1

instance [DecidableEq θ] : LawfulWakeable (WaitQueue θ) where
  Armed th q := th ∈ q.waiters_
  arm_self _ _ := List.mem_append_right _ (List.mem_singleton_self _)
  arm_of_armed _ _ _ h := List.mem_append_left _ h
  disarm_of_ne _ _ _ hne h := (List.mem_erase_of_ne hne).2 h
  mem_wakeAll _ _ h := h

instance [Subsingleton θ] : LawfulWakeable (ThreadWaker θ) where
  Armed th w := w.th_ = some th
  arm_self _ _ := rfl
  arm_of_armed th u _ _ := congrArg some (Subsingleton.elim th u)
  disarm_of_ne th u _ hne _ := absurd (Subsingleton.elim u th) hne
  mem_wakeAll _ _ h := Option.mem_toList.2 h

inductive WaitOutcome
  | park
  | through (normally : Bool)

/-- `WaitInterruptible` with a predicate, from the lock to the park or to the return. `resumed` says that
the thread comes back from a park, `stop` is the value of the predicate, and `signal` says that
`SetInterruptible` finds a signal. -/
def waitInterruptible [Wakeable ω θ] (th : θ) (resumed stop signal : Bool) (w : ω) : WaitOutcome × ω :=
  let r := if resumed then Wakeable.disarm th w else (false, w)
  if r.1 then (.through false, r.2)
  else if stop then (.through true, r.2)
  else if signal then (.through false, r.2)
  else (.park, Wakeable.arm th r.2)

variable {th : θ} {resumed stop signal : Bool} {w w' : ω}

theorem waitInterruptible_park [Wakeable ω θ] (h : waitInterruptible th resumed stop signal w = (.park, w')) :
    stop = false ∧ ∃ w₀ : ω, w' = Wakeable.arm th w₀ := by
  unfold waitInterruptible at h
  dsimp only at h
  generalize (if resumed = true then Wakeable.disarm th w else (false, w)) = r at h
  split_ifs at h with harmed hstop hsignal
  · cases h
  · cases h
  · cases h
  · exact ⟨Bool.eq_false_iff.2 hstop, r.2, (congrArg Prod.snd h).symm⟩

theorem waitInterruptible_through [Wakeable ω θ]
    (h : waitInterruptible th resumed stop signal w = (.through true, w')) : stop := by
  unfold waitInterruptible at h
  dsimp only at h
  generalize (if resumed = true then Wakeable.disarm th w else (false, w)) = r at h
  split_ifs at h with harmed hstop hsignal
  · cases h
  · exact hstop
  · cases h
  · cases h

theorem waitInterruptible_armed [Wakeable ω θ] [LawfulWakeable ω] {u : θ} (hne : u ≠ th) (h : LawfulWakeable.Armed u w) :
    LawfulWakeable.Armed u (waitInterruptible th resumed stop signal w).2 := by
  dsimp only [waitInterruptible]
  have hr : LawfulWakeable.Armed u (if resumed = true then Wakeable.disarm th w else (false, w)).2 := by
    split_ifs
    · exact LawfulWakeable.disarm_of_ne th u w hne h
    · exact h
  generalize (if resumed = true then Wakeable.disarm th w else (false, w)) = r at hr ⊢
  split_ifs
  · exact hr
  · exact hr
  · exact hr
  · exact LawfulWakeable.arm_of_armed th u r.2 hr

end Junction

/-! ### The mutex

A release takes the first thread from the queue and makes it ready, and the mutex stays held. An interrupted waiter
that is still in the queue leaves it; one that is not has been given the mutex. Beside the threads stands the owner. -/

namespace Junction
open Function List
variable {τ : Type} [DecidableEq τ]

structure Mutex (τ : Type) where
  held : Bool := false
  queue : WaitQueue τ := ⟨[]⟩
deriving DecidableEq

/-- Where a thread is. `idle held` is outside of the functions of the mutex, where `held` is what the calls of the
thread have told it. -/
inductive MutexPlace where
  | idle (held : Bool)
  | parked (interruptible : Bool)
  | interrupted
  | ready
deriving DecidableEq

/-- `ThreadReady`, which has no effect on a thread that a signal has made run. -/
def MutexPlace.woken : MutexPlace → MutexPlace
  | .parked _ => .ready
  | p => p

structure MutexSystem (τ : Type) where
  mutex : Mutex τ := {}
  place : τ → MutexPlace := fun _ => .idle false
  pending : τ → Bool := fun _ => false
  owner : Option τ := none

namespace MutexSystem

inductive Event (τ : Type) where
  | lock (th : τ)
  | tryLock (th : τ)
  | interruptibleLock (th : τ)
  | unlock (th : τ)
  | run (th : τ)
  | signal (th : τ)
  | clear (th : τ)
deriving DecidableEq

variable (s : MutexSystem τ)

def taken (th : τ) : MutexSystem τ :=
  { s with
    mutex := { s.mutex with held := true }
    place := update s.place th (.idle true)
    owner := some th }

def parks (th : τ) (interruptible : Bool) : MutexSystem τ :=
  { s with
    mutex := { s.mutex with queue := Wakeable.arm th s.mutex.queue }
    place := update s.place th (.parked interruptible) }

def moves (s : MutexSystem τ) (th : τ) (p : MutexPlace) : MutexSystem τ :=
  { s with place := update s.place th p }

def released (th : τ) : MutexSystem τ :=
  match s.mutex.queue.waiters_ with
  | [] =>
    { s with
      mutex := { s.mutex with held := false }
      place := update s.place th (.idle false)
      owner := none }
  | w :: rest =>
    { s with
      mutex := { s.mutex with queue := ⟨rest⟩ }
      place := update (update s.place th (.idle false)) w (s.place w).woken
      owner := some w }

def disarmed (th : τ) : MutexSystem τ :=
  let r := Wakeable.disarm th s.mutex.queue
  { s with
    mutex := { s.mutex with queue := r.2 }
    place := update s.place th (.idle !r.1) }

def step (s : MutexSystem τ) : Event τ → MutexSystem τ
  | .lock th =>
    if s.place th = .idle false then
      if s.mutex.held then s.parks th false else s.taken th
    else s
  | .tryLock th =>
    if s.place th = .idle false then
      if s.mutex.held then s else s.taken th
    else s
  | .interruptibleLock th =>
    if s.place th = .idle false then
      if s.mutex.held then
        if s.pending th then s else s.parks th true
      else s.taken th
    else s
  | .unlock th => if s.place th = .idle true then s.released th else s
  | .run th =>
    match s.place th with
    | .ready => s.moves th (.idle true)
    | .interrupted => s.disarmed th
    | _ => s
  | .signal th =>
    let s := { s with pending := update s.pending th true }
    if s.place th = .parked true then s.moves th .interrupted else s
  | .clear th =>
    match s.place th with
    | .idle _ => { s with pending := update s.pending th false }
    | _ => s

/-- The mutex is free, no thread uses it, and some threads have signals pending. -/
def start (pending : τ → Bool) : MutexSystem τ := { pending := pending }

/-! ### Owners and waiters -/

/-- How a thread stands to the mutex: it does not wait, it is queued, or it has been given the mutex after a signal
had made it run. -/
inductive Standing (p : MutexPlace) (own queued : Prop) : Prop
  | settled (hplace : p = .idle true ∨ p = .ready) (hown : own) (hqueued : ¬ queued)
  | outside (hplace : p = .idle false) (hown : ¬ own) (hqueued : ¬ queued)
  | queued (hplace : p = .interrupted ∨ ∃ interruptible, p = .parked interruptible) (hown : ¬ own) (hqueued : queued)
  | given (hplace : p = .interrupted) (hown : own) (hqueued : ¬ queued)

def Stands (th : τ) : Prop :=
  Standing (s.place th) (s.owner = some th) (th ∈ s.mutex.queue.waiters_)

structure Sound : Prop where
  held : s.mutex.held = s.owner.isSome
  free : s.owner = none → s.mutex.queue.waiters_ = []
  nodup : s.mutex.queue.waiters_.Nodup
  stands : ∀ th, s.Stands th

variable {s : MutexSystem τ} {th u : τ} {p : MutexPlace} {own queued : Prop}

variable (h : Standing p own queued)
include h

theorem Standing.congr {own' queued' : Prop}
    (hown : own' ↔ own) (hqueued : queued' ↔ queued) : Standing p own' queued' := by
  rw [propext hown, propext hqueued]
  exact h

omit h in
theorem Standing.of_outside (h : Standing (.idle false) own queued) : ¬ own ∧ ¬ queued := by
  cases h with
  | settled hplace => rcases hplace with hplace | hplace <;> cases hplace
  | outside _ hown hqueued => exact ⟨hown, hqueued⟩
  | queued hplace => rcases hplace with hplace | ⟨_, hplace⟩ <;> cases hplace
  | given hplace => cases hplace

theorem Standing.of_holds (hp : p = .idle true ∨ p = .ready) : own ∧ ¬ queued := by
  cases h with
  | settled _ hown hqueued => exact ⟨hown, hqueued⟩
  | outside hplace | given hplace => rcases hp with hp | hp <;> rw [hplace] at hp <;> cases hp
  | queued hplace =>
    rcases hplace with hplace | ⟨_, hplace⟩ <;> rcases hp with hp | hp <;> rw [hplace] at hp <;> cases hp

theorem Standing.of_queued (hq : queued) : ¬ own ∧ (p = .interrupted ∨ ∃ interruptible, p = .parked interruptible) := by
  cases h with
  | settled _ _ hqueued | outside _ _ hqueued | given _ _ hqueued => exact absurd hq hqueued
  | queued hplace hown _ => exact ⟨hown, hplace⟩

omit h

theorem stands_of_update {s' : MutexSystem τ} {place : τ → MutexPlace} (hplace : s'.place = update place th p)
    (hself : Standing p (s'.owner = some th) (th ∈ s'.mutex.queue.waiters_))
    (hothers : ∀ u, u ≠ th → Standing (place u) (s'.owner = some u) (u ∈ s'.mutex.queue.waiters_)) (u : τ) :
    s'.Stands u := by
  unfold Stands
  rw [hplace]
  by_cases hu : u = th
  · subst hu
    rw [update_self]
    exact hself
  · rw [update_of_ne hu]
    exact hothers u hu

variable (hs : Sound s)
include hs

variable (hidle : s.place th = .idle false)
include hidle

omit [DecidableEq τ] in
theorem Sound.at_idle : s.owner ≠ some th ∧ th ∉ s.mutex.queue.waiters_ := by
  have hstands := hs.stands th
  unfold Stands at hstands
  rw [hidle] at hstands
  exact hstands.of_outside

omit hidle in
omit [DecidableEq τ] in
theorem Sound.owner_none (hfree : ¬ s.mutex.held) : s.owner = none := by
  cases howner : s.owner with
  | none => rfl
  | some th =>
    have hheld := hs.held
    rw [howner] at hheld
    exact absurd hheld hfree

theorem Sound.taken (hfree : ¬ s.mutex.held) : Sound (s.taken th) := by
  have howner := hs.owner_none hfree
  refine ⟨rfl, fun h => (by cases h), hs.nodup, ?_⟩
  refine stands_of_update rfl (.settled (.inl rfl) rfl (hs.at_idle hidle).2) fun u hu => ?_
  refine (hs.stands u).congr ?_ Iff.rfl
  rw [howner]
  exact iff_of_false (fun h => hu (Option.some.inj h).symm) nofun

theorem Sound.parks (hheld : s.mutex.held) (interruptible : Bool) : Sound (s.parks th interruptible) := by
  obtain ⟨hown, hqueued⟩ := hs.at_idle hidle
  have hmem : ∀ u, u ∈ (s.parks th interruptible).mutex.queue.waiters_ ↔ u ∈ s.mutex.queue.waiters_ ∨ u = th := by
    intro u
    change u ∈ s.mutex.queue.waiters_ ++ [th] ↔ _
    rw [mem_append, mem_singleton]
  refine ⟨hs.held, fun h => ?_, ?_, ?_⟩
  · have hfalse := hs.held
    rw [hheld, show s.owner = none from h] at hfalse
    cases hfalse
  · refine nodup_append.mpr ⟨hs.nodup, nodup_singleton th, fun a ha b hb heq => hqueued ?_⟩
    rw [← mem_singleton.mp hb, ← heq]
    exact ha
  · refine stands_of_update rfl (.queued (.inr ⟨interruptible, rfl⟩) hown ((hmem th).mpr (.inr rfl))) fun u hu => ?_
    exact (hs.stands u).congr Iff.rfl ((hmem u).trans (or_iff_left hu))

omit hidle

theorem Sound.released (hidle : s.place th = .idle true) : Sound (s.released th) := by
  have hstands := hs.stands th
  unfold Stands at hstands
  rw [hidle] at hstands
  obtain ⟨howner, hqueued⟩ := hstands.of_holds (.inl rfl)
  have hsingle : ∀ u, u ≠ th → s.owner ≠ some u := fun u hu h => hu (Option.some.inj (h.symm.trans howner))
  unfold MutexSystem.released
  cases hqueue : s.mutex.queue.waiters_ with
  | nil =>
    refine ⟨rfl, fun _ => hqueue, hs.nodup, ?_⟩
    refine stands_of_update rfl (.outside rfl (by simp) hqueued) fun u hu => ?_
    exact (hs.stands u).congr (iff_of_false (by simp) (hsingle u hu)) Iff.rfl
  | cons w rest =>
    have hnodup := hs.nodup
    rw [hqueue] at hnodup
    obtain ⟨hw, hrest⟩ := nodup_cons.mp hnodup
    have hin : w ∈ s.mutex.queue.waiters_ := hqueue ▸ mem_cons_self
    have hheld : s.mutex.held := by
      rw [hs.held, howner]
      rfl
    refine ⟨hheld, fun h => (by cases h), hrest, ?_⟩
    refine stands_of_update rfl ?_ fun u hu => ?_
    · rcases ((hs.stands w).of_queued hin).2 with hplace | ⟨interruptible, hplace⟩
      · rw [hplace]
        exact .given rfl rfl hw
      · rw [hplace]
        exact .settled (.inr rfl) rfl hw
    have hother : ¬ some w = some u := fun h => hu (Option.some.inj h).symm
    by_cases hth : u = th
    · subst hth
      rw [update_self]
      exact .outside rfl hother fun h => hqueued (hqueue ▸ mem_cons_of_mem w h)
    rw [update_of_ne hth]
    refine (hs.stands u).congr (iff_of_false hother (hsingle u hth)) ?_
    rw [hqueue, mem_cons]
    simp [hu]

theorem Sound.disarmed (hplace : s.place th = .interrupted) : Sound (s.disarmed th) := by
  have hmem : ∀ u, u ∈ (s.disarmed th).mutex.queue.waiters_ ↔ u ∈ s.mutex.queue.waiters_ ∧ u ≠ th := by
    intro u
    change u ∈ s.mutex.queue.waiters_.erase th ↔ _
    rw [hs.nodup.mem_erase_iff, and_comm]
  have hstands := hs.stands th
  unfold Stands at hstands
  rw [hplace] at hstands
  refine ⟨hs.held, fun h => ?_, hs.nodup.erase th, ?_⟩
  · change s.mutex.queue.waiters_.erase th = []
    rw [hs.free h]
    rfl
  refine stands_of_update rfl ?_ fun u hu => (hs.stands u).congr Iff.rfl ((hmem u).trans (and_iff_left hu))
  have hout : th ∉ (s.disarmed th).mutex.queue.waiters_ := fun h => ((hmem th).mp h).2 rfl
  by_cases hqueued : th ∈ s.mutex.queue.waiters_
  · have hdisarm : (Wakeable.disarm th s.mutex.queue).1 := decide_eq_true hqueued
    rw [hdisarm]
    exact .outside rfl (hstands.of_queued hqueued).1 hout
  have hdisarm : (Wakeable.disarm th s.mutex.queue).1 = false := decide_eq_false hqueued
  rw [hdisarm]
  refine .settled (.inl rfl) ?_ hout
  cases hstands with
  | settled hp => rcases hp with hp | hp <;> cases hp
  | outside hp => cases hp
  | queued _ _ hq => exact absurd hq hqueued
  | given _ hown _ => exact hown

theorem Sound.moves (hstands : Standing p (s.owner = some th) (th ∈ s.mutex.queue.waiters_)) : Sound (s.moves th p) :=
  { hs with stands := stands_of_update rfl hstands fun u _ => hs.stands u }

omit [DecidableEq τ] in
theorem Sound.pending (pending : τ → Bool) : Sound { s with pending := pending } := { hs with }

omit hs

theorem sound_step (s : MutexSystem τ) (e : Event τ) (hs : Sound s) : Sound (s.step e) := by
  unfold step
  cases e with
  | lock th | tryLock th | interruptibleLock th =>
    dsimp only
    split_ifs with hidle hheld
    all_goals first | exact hs | exact hs.parks hidle hheld _ | exact hs.taken hidle hheld
  | unlock th =>
    dsimp only
    split_ifs with hidle
    · exact hs.released hidle
    · exact hs
  | run th =>
    cases hplace : s.place th with
    | idle | parked =>
      simp only [hplace]
      exact hs
    | ready =>
      simp only [hplace]
      obtain ⟨hown, hqueued⟩ := (hs.stands th).of_holds (.inr hplace)
      exact hs.moves (.settled (.inl rfl) hown hqueued)
    | interrupted =>
      simp only [hplace]
      exact hs.disarmed hplace
  | signal th =>
    dsimp only
    have hpending := hs.pending (update s.pending th true)
    split_ifs with hplace
    · have hstands := hpending.stands th
      unfold Stands at hstands
      rw [show s.place th = _ from hplace] at hstands
      cases hstands with
      | settled hp => rcases hp with hp | hp <;> cases hp
      | outside hp | given hp => cases hp
      | queued _ hown hqueued => exact hpending.moves (.queued (.inl rfl) hown hqueued)
    · exact hpending
  | clear th =>
    dsimp only
    split
    · exact hs.pending _
    · exact hs

omit [DecidableEq τ] in
theorem sound_start (pending : τ → Bool) : Sound (start pending) :=
  ⟨rfl, fun _ => rfl, nodup_nil, fun _ => .outside rfl nofun not_mem_nil⟩

end MutexSystem
end Junction
