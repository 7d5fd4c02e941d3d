import Junction.Sync
import Junction.SharedMutexErasure

/-!
# Interrupted acquisitions of the mutex

A thread that waits for the mutex has no influence on the others as long as it is not given the mutex. The run with
an acquisition that is interrupted ends in the state of the run without it.
-/

namespace Junction.MutexSystem
open Function List
variable {τ : Type} [DecidableEq τ] {s : MutexSystem τ} {th u : τ}

def without (s : MutexSystem τ) (th : τ) : MutexSystem τ :=
  { s with
    mutex := { s.mutex with queue := ⟨s.mutex.queue.waiters_.erase th⟩ }
    place := update s.place th (.idle false) }

def Event.actor : Event τ → Option τ
  | .lock th | .tryLock th | .interruptibleLock th | .unlock th | .run th | .clear th => some th
  | .signal _ => none

theorem place_without (hu : u ≠ th) : (s.without th).place u = s.place u := update_of_ne hu ..

theorem held_without : (s.without th).mutex.held = s.mutex.held := rfl

theorem taken_without (hu : u ≠ th) : (s.without th).taken u = (s.taken u).without th := by
  unfold taken without
  rw [update_comm hu.symm]

theorem parks_without (hu : u ≠ th) (hqueue : th ∈ s.mutex.queue.waiters_) (interruptible : Bool) :
    (s.without th).parks u interruptible = (s.parks u interruptible).without th := by
  have happend : s.mutex.queue.waiters_.erase th ++ [u] = (s.mutex.queue.waiters_ ++ [u]).erase th :=
    (erase_append_left [u] hqueue).symm
  unfold parks without
  dsimp only [Wakeable.arm]
  rw [update_comm hu.symm, happend]

theorem moves_without (hu : u ≠ th) (p : MutexPlace) : (s.without th).moves u p = (s.moves u p).without th := by
  unfold moves without
  rw [update_comm hu.symm]

theorem disarmed_without (hu : u ≠ th) : (s.without th).disarmed u = (s.disarmed u).without th := by
  have hmem : decide (u ∈ s.mutex.queue.waiters_.erase th) = decide (u ∈ s.mutex.queue.waiters_) :=
    decide_eq_decide.mpr (mem_erase_of_ne hu)
  unfold disarmed without
  dsimp only [Wakeable.disarm]
  rw [hmem, update_comm hu.symm, erase_comm]

variable (hs : Sound s)
include hs

theorem released_without (hu : u ≠ th) (hafter : th ∈ (s.released u).mutex.queue.waiters_) :
    (s.without th).released u = (s.released u).without th := by
  have hnodup := hs.nodup
  unfold released at hafter
  cases hqueue : s.mutex.queue.waiters_ with
  | nil =>
    rw [hqueue] at hafter
    rw [hqueue] at hafter
    cases hafter
  | cons w rest =>
    rw [hqueue] at hafter hnodup
    have hw : w ≠ th := fun heq => (nodup_cons.mp hnodup).1 (heq ▸ hafter)
    have herase : (s.without th).mutex.queue.waiters_ = w :: rest.erase th := by
      change s.mutex.queue.waiters_.erase th = _
      rw [hqueue, erase_cons_tail (by simpa using hw)]
    unfold released
    rw [herase, hqueue]
    dsimp only
    rw [place_without hw]
    unfold without
    rw [update_comm hu.symm, update_comm hw.symm]

variable {e : Event τ}

theorem step_without (hqueue : th ∈ s.mutex.queue.waiters_)
    (hactor : e.actor ≠ some th) (hafter : th ∈ (s.step e).mutex.queue.waiters_) :
    (s.without th).step e = (s.step e).without th := by
  have hne : ∀ u, e.actor = some u → u ≠ th := fun u hu heq => hactor (heq ▸ hu)
  unfold step
  cases e with
  | lock u | tryLock u =>
    have hu := hne u rfl
    dsimp only
    rw [place_without hu, held_without]
    split_ifs
    all_goals first | rfl | exact parks_without hu hqueue _ | exact taken_without hu
  | interruptibleLock u =>
    have hu := hne u rfl
    dsimp only
    rw [place_without hu, held_without, show (s.without th).pending = s.pending from rfl]
    split_ifs
    all_goals first | rfl | exact parks_without hu hqueue _ | exact taken_without hu
  | unlock u =>
    have hu := hne u rfl
    unfold step at hafter
    dsimp only at hafter ⊢
    rw [place_without hu]
    by_cases hidle : s.place u = .idle true
    · rw [if_pos hidle] at hafter ⊢
      rw [if_pos hidle]
      exact released_without hs hu hafter
    · rw [if_neg hidle, if_neg hidle]
  | run u =>
    have hu := hne u rfl
    dsimp only
    rw [place_without hu]
    cases s.place u with
    | idle | parked => rfl
    | ready => exact moves_without hu _
    | interrupted => exact disarmed_without hu
  | signal u =>
    dsimp only
    by_cases hu : u = th
    · subst hu
      rw [show (s.without u).place u = .idle false from update_self ..]
      rw [if_neg nofun]
      split_ifs
      · unfold moves without
        rw [update_idem]
      · rfl
    · rw [place_without hu]
      split_ifs
      · exact moves_without (s := { s with pending := update s.pending u true }) hu _
      · rfl
  | clear u =>
    have hu := hne u rfl
    dsimp only
    rw [place_without hu]
    split <;> rfl

/-! ### The run without the call -/

variable (hidle : s.place th = .idle false)
include hidle

theorem without_of_idle : s.without th = s := by
  unfold without
  rw [erase_of_not_mem (hs.at_idle hidle).2, ← hidle, update_eq_self]

omit hidle

omit hs

def Hidden (th : τ) (s : MutexSystem τ) : Prop := th ∈ s.mutex.queue.waiters_ ∨ s.place th = .idle false

def Passive (th : τ) (e : Event τ) : Prop := e.actor = some th → e = .run th

instance (th : τ) (e : Event τ) : Decidable (Passive th e) := inferInstanceAs (Decidable (_ → _))

def others (th : τ) (events : List (Event τ)) : List (Event τ) := events.filter (¬ ·.actor = some th)

theorem without_without (hs : Sound s) : (s.without th).without th = s.without th := by
  have hnot : th ∉ s.mutex.queue.waiters_.erase th := List.Nodup.not_mem_erase hs.nodup
  unfold without
  rw [update_idem, erase_of_not_mem hnot]

theorem disarmed_eq_without (hqueue : th ∈ s.mutex.queue.waiters_) : s.disarmed th = s.without th := by
  unfold disarmed without
  dsimp only [Wakeable.disarm]
  rw [decide_eq_true hqueue]
  rfl

theorem owner_step (hs : Sound s) (hown : Passive th e) (howner : s.owner = some th) : (s.step e).owner = some th := by
  have hheld : s.mutex.held := by
    rw [hs.held, howner]
    rfl
  have hnot : ∀ u, s.place u = .idle true → u = th := by
    intro u hu
    exact Option.some.inj (((hs.stands u).of_holds (.inl hu)).1.symm.trans howner)
  unfold step
  cases e with
  | lock u | tryLock u | interruptibleLock u =>
    dsimp only
    rw [if_pos hheld]
    split_ifs <;> exact howner
  | unlock u =>
    dsimp only
    split_ifs with hidle
    · cases hown (congrArg some (hnot u hidle))
    · exact howner
  | run u | clear u =>
    dsimp only
    split <;> exact howner
  | signal u =>
    dsimp only
    split_ifs <;> exact howner

theorem queue_step (hactor : e.actor ≠ some th) (hqueue : th ∈ s.mutex.queue.waiters_) :
    th ∈ (s.step e).mutex.queue.waiters_ ∨ (s.step e).owner = some th := by
  unfold step
  cases e with
  | lock u | interruptibleLock u =>
    left
    dsimp only
    split_ifs
    all_goals first | exact hqueue | exact mem_append_left _ hqueue
  | tryLock u | signal u =>
    left
    dsimp only
    split_ifs <;> exact hqueue
  | unlock u =>
    dsimp only
    split_ifs
    · unfold released
      cases hwaiters : s.mutex.queue.waiters_ with
      | nil =>
        rw [hwaiters] at hqueue
        cases hqueue
      | cons w rest =>
        rw [hwaiters] at hqueue
        rcases mem_cons.mp hqueue with rfl | hrest
        · exact .inr rfl
        · exact .inl hrest
    · exact .inl hqueue
  | run u =>
    left
    have hu : th ≠ u := fun h => hactor (congrArg some h.symm)
    dsimp only
    split
    · exact hqueue
    · exact (mem_erase_of_ne hu).mpr hqueue
    · exact hqueue
  | clear u =>
    left
    dsimp only
    split <;> exact hqueue

theorem place_step_idle (hactor : e.actor ≠ some th) (hidle : s.place th = .idle false) :
    (s.step e).place th = .idle false := by
  have hupdate : ∀ u p, e.actor = some u → update s.place u p th = .idle false := by
    intro u p hu
    have hne : th ≠ u := fun heq => hactor (heq ▸ hu)
    rw [update_of_ne hne]
    exact hidle
  unfold step
  cases e with
  | lock u | tryLock u | interruptibleLock u =>
    dsimp only
    split_ifs
    all_goals first | exact hidle | exact hupdate u _ rfl
  | unlock u =>
    dsimp only
    split_ifs
    · unfold released
      cases s.mutex.queue.waiters_ with
      | nil => exact hupdate u _ rfl
      | cons w rest =>
        by_cases hw : th = w
        · subst hw
          refine (update_self ..).trans ?_
          rw [hidle]
          rfl
        · exact (update_of_ne hw ..).trans (hupdate u _ rfl)
    · exact hidle
  | run u =>
    dsimp only
    split
    · exact hupdate u _ rfl
    · exact hupdate u _ rfl
    · exact hidle
  | signal u =>
    dsimp only
    split_ifs with hplace
    · have hne : th ≠ u := by
        rintro rfl
        rw [hidle] at hplace
        cases hplace
      exact (update_of_ne hne ..).trans hidle
    · exact hidle
  | clear u =>
    dsimp only
    split <;> exact hidle

include hs

/-- A thread that is queued is given the mutex, or the step is not to be seen without the thread. -/
theorem step_hidden (hown : Passive th e) (hhidden : Hidden th s) : (s.step e).owner = some th ∨ (Hidden th (s.step e) ∧
      (s.step e).without th = if e.actor = some th then s.without th else (s.without th).step e) := by
  by_cases hactor : e.actor = some th
  · right
    rw [if_pos hactor]
    obtain rfl := hown hactor
    rcases hhidden with hqueue | hidle
    · rcases ((hs.stands th).of_queued hqueue).2 with hplace | ⟨interruptible, hplace⟩
      · simp only [step, hplace]
        rw [disarmed_eq_without hqueue]
        exact ⟨.inr (update_self ..), without_without hs⟩
      · simp only [step, hplace]
        exact ⟨.inl hqueue, trivial⟩
    · simp only [step, hidle]
      exact ⟨.inr hidle, trivial⟩
  · rw [if_neg hactor]
    rcases hhidden with hqueue | hidle
    · rcases queue_step (e := e) hactor hqueue with hafter | howner
      · exact .inr ⟨.inl hafter, (step_without hs hqueue hactor hafter).symm⟩
      · exact .inl howner
    have hidle' := place_step_idle (s := s) hactor hidle
    refine .inr ⟨.inr hidle', ?_⟩
    rw [without_of_idle hs hidle, without_of_idle (sound_step s e hs) hidle']

include hidle

theorem interruptibleLock_cases : (s.step (.interruptibleLock th)).owner = some th ∨
      (Hidden th (s.step (.interruptibleLock th)) ∧ (s.step (.interruptibleLock th)).without th = s) := by
  have hnot := (hs.at_idle hidle).2
  unfold step
  dsimp only
  rw [if_pos hidle]
  split_ifs
  · exact .inr ⟨.inr hidle, without_of_idle hs hidle⟩
  · refine .inr ⟨.inl (mem_append_right _ (mem_singleton_self th)), ?_⟩
    have herase : (s.mutex.queue.waiters_ ++ [th]).erase th = s.mutex.queue.waiters_ := by
      rw [erase_append_right [th] hnot, erase_cons_head, append_nil]
    unfold without parks
    dsimp only [Wakeable.arm]
    rw [herase, update_idem, ← hidle, update_eq_self]
  · exact .inl rfl

/-- An interruptible acquisition that returns without the mutex leaves the state that there is without it. -/
theorem call_without {events : List (Event τ)} (hown : ∀ e ∈ events, Passive th e)
    (hback : (Run.exec step s (.interruptibleLock th :: events)).place th = .idle false) :
    Run.exec step s (others th events) = Run.exec step s (.interruptibleLock th :: events) := by
  have hs' := sound_step s (.interruptibleLock th) hs
  have hstep : ∀ (s : MutexSystem τ) e, (Sound s ∧ Hidden th s) → Passive th e →
      (Sound (s.step e) ∧ (s.step e).owner = some th) ∨ ((Sound (s.step e) ∧ Hidden th (s.step e)) ∧
        (s.step e).without th = if e.actor = some th then s.without th else (s.without th).step e) := by
    intro s e hinv hguard
    have hsound := sound_step s e hinv.1
    exact (step_hidden hinv.1 hguard hinv.2).imp (fun h => ⟨hsound, h⟩) fun h => ⟨⟨hsound, h.1⟩, h.2⟩
  have howner : ∀ (s : MutexSystem τ) e, (Sound s ∧ s.owner = some th) → Passive th e →
      Sound (s.step e) ∧ (s.step e).owner = some th :=
    fun s e hinv hguard => ⟨sound_step s e hinv.1, owner_step hinv.1 hguard hinv.2⟩
  have hadmitted : Run.Admitted step (fun _ e => Passive th e) (s.step (.interruptibleLock th)) events :=
    Run.admitted_of_mem (fun e he _ => hown e he) _
  have hcontra : ¬ (Sound (Run.exec step s (.interruptibleLock th :: events)) ∧
      (Run.exec step s (.interruptibleLock th :: events)).owner = some th) :=
    fun h => (h.1.at_idle hback).1 h.2
  rcases interruptibleLock_cases hs hidle with htaken | ⟨hhidden, hsame⟩
  · exact absurd (Run.invariant_exec howner ⟨hs', htaken⟩ hadmitted) hcontra
  rcases Run.exec_hidden (v := (without · th)) hstep howner ⟨hs', hhidden⟩ hadmitted with
    hend | ⟨hend, hrun⟩
  · exact absurd hend hcontra
  · rw [hsame] at hrun
    exact hrun.trans (without_of_idle hend.1 hback)

end Junction.MutexSystem

/-!
### Both locks

For the reader-writer lock the same holds as long as no reader is interrupted and no writer is interrupted that a release
is about to wake. A reader that is interrupted stays counted as a waiter, and a writer that is interrupted in the
temporary queue of a release stays counted as the owner.
-/

namespace Junction
variable {τ : Type} [DecidableEq τ]

namespace LockSystem

theorem Sound.free {s : LockSystem τ} (hs : Sound s) (hnobody : ∀ mode u, ¬ s.owners.Owns mode u) : s.mutex = {} := by
  have hzero : s.mutex.cnt = 0 := by
    rw [hs.count]
    cases howners : s.owners with
    | exclusive owner =>
      rw [howners] at hnobody
      exact absurd (LockOwners.owns_exclusive.mpr ⟨rfl, rfl⟩) (hnobody .exclusive owner)
    | shared owners =>
      rw [howners] at hnobody
      have hempty : owners = ∅ := Finset.eq_empty_of_forall_notMem fun u hu =>
        hnobody .shared u (LockOwners.owns_shared.mpr ⟨rfl, hu⟩)
      simp [LockOwners.count, hempty]
  have hreaders := hs.noReaders hzero.ge
  have hcount := hs.sharedCount
  rw [hreaders] at hcount
  have hwriters := hs.noWriters hzero
  cases hm : s.mutex with
  | mk cnt sharedCnt exclusiveQueue sharedQueue =>
    rw [hm] at hzero hcount hreaders hwriters
    dsimp only at hzero hcount hreaders hwriters
    rw [hzero, hcount, hreaders, hwriters]
    rfl

end LockSystem

theorem MutexSystem.Sound.told_iff_owner {s : MutexSystem τ} (hs : MutexSystem.Sound s) {u : τ} {held : Bool}
    (hidle : s.place u = .idle held) : held ↔ s.owner = some u := by
  cases held with
  | false => exact iff_of_false nofun (hs.at_idle hidle).1
  | true => exact iff_of_true rfl ((hs.stands u).of_holds (.inl hidle)).1

theorem MutexSystem.Sound.free_of_none {s : MutexSystem τ} (hs : MutexSystem.Sound s) (hnobody : s.owner = none) :
    s.mutex = {} := by
  have hheld := hs.held
  rw [hnobody] at hheld
  have hqueue := hs.free hnobody
  cases hm : s.mutex with
  | mk held queue =>
    rw [hm] at hheld hqueue
    dsimp only at hheld hqueue
    rw [hheld, show queue = ⟨[]⟩ from congrArg WaitQueue.mk hqueue]
    rfl

/-- A thread has been told that it holds the lock exactly if it owns it, and an interruptible acquisition that returns
without the lock ends in the state of the run without it. -/
theorem interrupted_lock_leaves_no_trace (pending : τ → Bool) (th : τ) :
    (∀ (mode : LockMode) (before during : List (LockSystem.Event τ)),
      let s := Run.exec LockSystem.step (LockSystem.start pending) before
      let s' := Run.exec LockSystem.step s (.interruptibleLock mode th :: during)
      Run.Admitted LockSystem.step LockSystem.Undisturbed (LockSystem.start pending) before →
      Run.Admitted LockSystem.step LockSystem.Undisturbed s (.interruptibleLock mode th :: during) →
      (∀ u held mode', s'.place u = .idle held → (held = some mode' ↔ s'.owners.Owns mode' u)) ∧
      ((∀ mode' u, ¬ s'.owners.Owns mode' u) → s'.mutex = {}) ∧
      (s.place th = .idle none → (∀ e ∈ during, LockSystem.Passive th e) → s'.place th = .idle none →
        Run.exec LockSystem.step s (LockSystem.others th during) = s')) ∧
    ∀ before during : List (MutexSystem.Event τ),
      let s := Run.exec MutexSystem.step (MutexSystem.start pending) before
      let s' := Run.exec MutexSystem.step s (.interruptibleLock th :: during)
      (∀ u held, s'.place u = .idle held → (held = true ↔ s'.owner = some u)) ∧
      (s'.owner = none → s'.mutex = {}) ∧
      (s.place th = .idle false → (∀ e ∈ during, MutexSystem.Passive th e) → s'.place th = .idle false →
        Run.exec MutexSystem.step s (MutexSystem.others th during) = s') := by
  refine ⟨fun mode before during => ?_, fun before during => ?_⟩
  · intro s s' hbefore hcalm
    have hs : LockSystem.Sound s := Run.invariant_exec LockSystem.sound_step (LockSystem.sound_start pending) hbefore
    have hs' : LockSystem.Sound s' := Run.invariant_exec LockSystem.sound_step hs hcalm
    refine ⟨fun u held mode' hidle => (hs'.owns_idle hidle).symm, hs'.free, fun hidle hown hback => ?_⟩
    exact LockSystem.call_without hs hidle hcalm hown hback
  intro s s'
  have hs : MutexSystem.Sound s := Run.invariant_run MutexSystem.sound_step (MutexSystem.sound_start pending) before
  have hs' : MutexSystem.Sound s' := Run.invariant_run MutexSystem.sound_step hs _
  refine ⟨fun u held => hs'.told_iff_owner, hs'.free_of_none, fun hidle hown hback => ?_⟩
  exact MutexSystem.call_without hs hidle hown hback

section Signalled
open LockSystem

theorem interrupted_lock_leaves_no_trace_writer :
    let s := Run.exec step (start fun _ => false) [.lock .exclusive (0 : Fin 2)]
    let s' := Run.exec step s [.interruptibleLock .exclusive 1, .signal 1, .run 1]
    s'.place 1 = .idle none ∧ Run.exec step s [.signal 1] = s' := by
  intro s s'
  have hback : s'.place 1 = .idle none := by decide +kernel
  have hcalls := (interrupted_lock_leaves_no_trace (fun _ => false) (1 : Fin 2)).1 .exclusive
    [.lock .exclusive 0] [.signal 1, .run 1] (by decide +kernel) (by decide +kernel)
  exact ⟨hback, hcalls.2.2 (by decide +kernel) (by decide +kernel) hback⟩

/-- A reader is interrupted in the queue: it stays counted, and a later hand-over makes a reader count twice. A
writer is interrupted after the lock has been handed over to it: nobody has the lock, and it is not free. -/
theorem interrupted_lock_leaves_traces :
    let reader : LockSystem (Fin 2) := Run.exec step (start fun _ => false)
      [.lock .exclusive 0, .interruptibleLock .shared 1, .signal 1, .run 1, .unlock .exclusive 0, .wake 0]
    let later := Run.exec step reader
      [.lock .exclusive 0, .lock .shared 1, .unlock .exclusive 0, .wake 0, .wake 0, .run 1, .unlock .shared 1, .wake 1]
    let writer : LockSystem (Fin 2) := Run.exec step (start fun _ => false)
      [.lock .exclusive 0, .interruptibleLock .exclusive 1, .signal 1, .unlock .exclusive 0, .run 1, .wake 0]
    (∀ th, reader.place th = .idle none) ∧ reader.mutex = { sharedCnt := 1 } ∧
      (∀ th, later.place th = .idle none) ∧ later.mutex = { cnt := 1 } ∧
      (∀ th, writer.place th = .idle none) ∧ writer.mutex = { cnt := -1 } := by
  decide +kernel

end Signalled
end Junction
