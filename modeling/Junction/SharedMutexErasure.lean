import Junction.SharedMutexRuns

/-!
# The reader-writer lock without a waiting writer

A writer that only waits has no influence on the others: each section, each wake-up and each signal does to the
lock without the writer's entry in the queue what it does to the lock with it, as long as it leaves the writer in
the queue.
-/

namespace Junction
open Function SharedMutex List
variable {τ : Type} [DecidableEq τ]

namespace SharedMutex

def without (m : SharedMutex τ) (th : τ) : SharedMutex τ :=
  { m with exclusiveQueue := m.exclusiveQueue.erase th }

variable {m : SharedMutex τ} {th : τ}

theorem cnt_without : (m.without th).cnt = m.cnt := rfl

theorem sharedQueue_without : (m.without th).sharedQueue = m.sharedQueue := rfl

theorem without_append (u : τ) (h : th ∈ m.exclusiveQueue) :
    { m.without th with exclusiveQueue := (m.without th).exclusiveQueue ++ [u] } =
      { m with exclusiveQueue := m.exclusiveQueue ++ [u] }.without th := by
  unfold without
  rw [erase_append_left [u] h]

theorem lock_without (u : τ) (h : th ∈ m.exclusiveQueue) :
    (m.without th).lock u = ((m.lock u).1, (m.lock u).2.without th) := by
  unfold lock
  rw [cnt_without]
  split_ifs
  · exact congrArg (Prod.mk _) (without_append u h)
  · rfl

theorem tryLock_without : (m.without th).tryLock = (m.tryLock.1, m.tryLock.2.without th) := by
  unfold tryLock
  rw [cnt_without]
  split_ifs <;> rfl

theorem interruptibleLock_without (u : τ) (signal : Bool) (h : th ∈ m.exclusiveQueue) :
    (m.without th).interruptibleLock u signal =
      ((m.interruptibleLock u signal).1, (m.interruptibleLock u signal).2.without th) := by
  unfold interruptibleLock
  rw [cnt_without]
  split_ifs
  · rfl
  · exact congrArg (Prod.mk _) (without_append u h)
  · rfl

theorem lockShared_without (u : τ) :
    (m.without th).lockShared u = ((m.lockShared u).1, (m.lockShared u).2.without th) := by
  unfold lockShared
  rw [cnt_without]
  split_ifs <;> rfl

theorem tryLockShared_without : (m.without th).tryLockShared = (m.tryLockShared.1, m.tryLockShared.2.without th) := by
  unfold tryLockShared
  rw [cnt_without]
  split_ifs <;> rfl

theorem interruptibleLockShared_without (u : τ) (signal : Bool) : (m.without th).interruptibleLockShared u signal =
      ((m.interruptibleLockShared u signal).1, (m.interruptibleLockShared u signal).2.without th) := by
  unfold interruptibleLockShared
  rw [cnt_without]
  split_ifs <;> rfl

variable (hnodup : m.exclusiveQueue.Nodup)
include hnodup

theorem wakeOneExclusive_without (h : th ∈ m.wakeOneExclusive.2.exclusiveQueue) : (m.without th).exclusiveQueue ≠ [] ∧
      (m.without th).wakeOneExclusive = (m.wakeOneExclusive.1, m.wakeOneExclusive.2.without th) := by
  cases hqueue : m.exclusiveQueue with
  | nil =>
    simp only [wakeOneExclusive, hqueue] at h
    cases h
  | cons w rest =>
    simp only [wakeOneExclusive, hqueue] at h
    rw [hqueue] at hnodup
    have hne : w ≠ th := fun heq => (nodup_cons.mp hnodup).1 (heq ▸ h)
    have herase : (m.without th).exclusiveQueue = w :: rest.erase th := by
      change m.exclusiveQueue.erase th = _
      rw [hqueue, erase_cons_tail (by simpa using hne)]
    refine ⟨herase ▸ cons_ne_nil w _, ?_⟩
    simp only [wakeOneExclusive, hqueue, herase]
    rfl

theorem unlock_without (h : th ∈ m.unlock.2.exclusiveQueue) :
    (m.without th).unlock = (m.unlock.1, m.unlock.2.without th) := by
  unfold unlock at h ⊢
  rw [sharedQueue_without]
  by_cases hreaders : m.sharedQueue ≠ []
  · rw [if_pos hreaders, if_pos hreaders]
    rfl
  rw [if_neg hreaders] at h
  rw [if_neg hreaders, if_neg hreaders]
  by_cases hwriters : m.exclusiveQueue ≠ []
  · rw [if_pos hwriters] at h ⊢
    obtain ⟨hleft, hpop⟩ := wakeOneExclusive_without hnodup h
    rw [if_pos hleft, hpop]
  rw [if_neg hwriters] at h
  rw [not_not.mp hwriters] at h
  cases h

theorem unlockShared_without (h : th ∈ m.unlockShared.2.exclusiveQueue) :
    (m.without th).unlockShared = (m.unlockShared.1, m.unlockShared.2.without th) := by
  unfold unlockShared at h ⊢
  rw [cnt_without]
  by_cases hmore : 0 < m.cnt - 1
  · rw [if_pos hmore, if_pos hmore]
    rfl
  rw [if_neg hmore] at h
  rw [if_neg hmore, if_neg hmore]
  by_cases hwriters : m.exclusiveQueue ≠ []
  · rw [if_pos hwriters] at h ⊢
    obtain ⟨hleft, hpop⟩ := wakeOneExclusive_without (m := { m with cnt := m.cnt - 1 }) hnodup h
    have hleft' : (m.without th).exclusiveQueue ≠ [] := hleft
    rw [if_pos hleft', ← hpop]
    rfl
  · rw [if_neg hwriters] at h
    rw [not_not.mp hwriters] at h
    cases h

omit hnodup

theorem upgradeLock_without (u : τ) (h : th ∈ m.exclusiveQueue) :
    (m.without th).upgradeLock u = ((m.upgradeLock u).1, (m.upgradeLock u).2.without th) := by
  dsimp only [upgradeLock]
  rw [cnt_without]
  split_ifs
  · exact congrArg (Prod.mk _) (without_append (m := { m with cnt := m.cnt - 1 }) u h)
  · rfl

end SharedMutex

namespace LockSystem

def without (s : LockSystem τ) (th : τ) : LockSystem τ :=
  { s with
    mutex := s.mutex.without th
    place := update s.place th (.idle none)
    linkArmed := update s.linkArmed th false }

variable {s : LockSystem τ} {th u : τ}

variable (hu : u ≠ th)
include hu

theorem place_without : (s.without th).place u = s.place u := update_of_ne hu ..

theorem acquired_without (mode : LockMode) (interruptible : Bool) (r : LockOutcome × SharedMutex τ) :
    (s.without th).acquired u mode interruptible (r.1, r.2.without th) =
      (s.acquired u mode interruptible r).without th := by
  obtain ⟨outcome, m⟩ := r
  cases outcome with
  | taken =>
    unfold acquired without
    rw [update_comm hu.symm]
  | refused => rfl
  | parks =>
    dsimp only [acquired, without]
    rw [update_comm hu.symm, update_comm hu.symm]

theorem released_without (next : List τ → LockPlace τ) (r : List τ × SharedMutex τ) :
    (s.without th).released u next (r.1, r.2.without th) = (s.released u next r).without th := by
  unfold released without
  rw [update_comm hu.symm]
  rfl

theorem moves_without (p : LockPlace τ) : (s.without th).moves u p = (s.moves u p).without th := by
  unfold moves without
  rw [update_comm hu.symm]

theorem wakes_without {w : τ} (hw : w ≠ th) (p : LockPlace τ) :
    (s.without th).wakes w p u = (s.wakes w p u).without th := by
  dsimp only [wakes, without]
  rw [update_comm hu.symm, update_comm hw.symm, update_of_ne hu, update_comm hu.symm]

theorem disarmed_without : (s.without th).disarmed u = (s.disarmed u).without th := by
  have hplace : update (fun v => (update s.place th (.idle none) v).unlink u) u (.idle none) =
      update (update (fun v => (s.place v).unlink u) u (.idle none)) th (.idle none) := by
    rw [update_comm hu]
    congr 1
    funext v
    by_cases hv : v = th
    · rw [hv, update_self, update_self]
      rfl
    · rw [update_of_ne hv, update_of_ne hv]
  unfold disarmed without
  rw [hplace, update_comm hu.symm]
  unfold SharedMutex.unlink SharedMutex.without
  rw [erase_comm]

theorem acquire_without {mode : LockMode} {p : LockPlace τ} (interruptible : Bool)
    {r r' : LockOutcome × SharedMutex τ} (hr : r' = (r.1, r.2.without th)) :
    (if (s.without th).place u = p then (s.without th).acquired u mode interruptible r' else s.without th) =
      (if s.place u = p then s.acquired u mode interruptible r else s).without th := by
  rw [place_without hu, hr, acquired_without hu]
  split_ifs <;> rfl

omit hu

def Event.actor : Event τ → Option τ
  | .lock _ th | .tryLock _ th | .interruptibleLock _ th | .unlock _ th | .upgradeLock th | .downgradeLock th
  | .wake th | .run th | .clear th => some th
  | .signal _ => none

/-- The step of another thread does the same in the system without a queued writer, if the writer stays queued. -/
theorem step_without (hs : Sound s) (hqueue : th ∈ s.mutex.exclusiveQueue) {e : Event τ}
    (hactor : e.actor ≠ some th) (hafter : th ∈ (s.step e).mutex.exclusiveQueue) :
    (s.without th).step e = (s.step e).without th := by
  have hnodup : s.mutex.exclusiveQueue.Nodup := hs.nodup .exclusive
  have hne : ∀ u, e.actor = some u → u ≠ th := fun u hu heq => hactor (heq ▸ hu)
  unfold step
  cases e with
  | lock mode u =>
    cases mode with
    | exclusive => exact acquire_without (hne u rfl) false (lock_without u hqueue)
    | shared => exact acquire_without (hne u rfl) false (lockShared_without u)
  | tryLock mode u =>
    cases mode with
    | exclusive => exact acquire_without (hne u rfl) false tryLock_without
    | shared => exact acquire_without (hne u rfl) false tryLockShared_without
  | interruptibleLock mode u =>
    cases mode with
    | exclusive => exact acquire_without (hne u rfl) true (interruptibleLock_without u _ hqueue)
    | shared => exact acquire_without (hne u rfl) true (interruptibleLockShared_without u _)
  | unlock mode u =>
    have hu := hne u rfl
    unfold step at hafter
    dsimp only at hafter ⊢
    rw [place_without hu]
    by_cases hidle : s.place u = .idle (some mode)
    · rw [if_pos hidle] at hafter ⊢
      rw [if_pos hidle]
      cases mode with
      | exclusive =>
        dsimp only
        rw [← released_without hu]
        exact congrArg _ (unlock_without hnodup hafter)
      | shared =>
        dsimp only
        rw [← released_without hu]
        exact congrArg _ (unlockShared_without hnodup hafter)
    · rw [if_neg hidle, if_neg hidle]
  | upgradeLock u =>
    have hu := hne u rfl
    dsimp only
    rw [place_without hu]
    by_cases hidle : s.place u = .idle (some .shared)
    · rw [if_pos hidle, if_pos hidle, ← acquired_without hu]
      exact congrArg _ (upgradeLock_without u hqueue)
    · rw [if_neg hidle, if_neg hidle]
  | downgradeLock u =>
    have hu := hne u rfl
    dsimp only
    rw [place_without hu]
    by_cases hidle : s.place u = .idle (some .exclusive)
    · rw [if_pos hidle, if_pos hidle, ← released_without hu]
      rfl
    · rw [if_neg hidle, if_neg hidle]
  | wake w =>
    have hw := hne w rfl
    have hnot : ¬ s.Handed th := ((hs.stands th).of_queued (m := .exclusive) hqueue).2.2.2.2
    have hwoken : ∀ u ∈ (s.place w).tmp, u ≠ th := fun u hu heq => hnot ⟨w, heq ▸ hu⟩
    dsimp only
    rw [place_without hw]
    cases hplace : s.place w with
    | idle | parked | interrupted | ready => rfl
    | wakingAll tmp downgrade | wakingOne tmp =>
      rw [hplace] at hwoken
      cases tmp with
      | nil => exact moves_without hw _
      | cons u tmp => exact wakes_without (hwoken u mem_cons_self) hw _
  | run u =>
    have hu := hne u rfl
    have harmed : (s.without th).linkArmed u = s.linkArmed u := update_of_ne hu ..
    dsimp only
    rw [place_without hu]
    cases hplace : s.place u with
    | idle | parked | wakingAll | wakingOne => rfl
    | ready mode => exact moves_without hu _
    | interrupted mode =>
      dsimp only
      rw [harmed]
      by_cases hlinked : s.linkArmed u
      · rw [if_pos hlinked, if_pos hlinked]
        exact disarmed_without hu
      · rw [if_neg hlinked, if_neg hlinked]
        exact moves_without hu _
  | signal u =>
    dsimp only
    by_cases hu : u = th
    · subst hu
      rw [show (s.without u).place u = .idle none from update_self ..]
      dsimp only
      split
      · unfold moves without
        rw [update_idem]
      · rfl
    · rw [place_without hu]
      split
      · exact moves_without (s := { s with pending := update s.pending u true }) hu _
      · rfl
  | clear u =>
    have hu := hne u rfl
    dsimp only
    rw [place_without hu]
    split <;> rfl

end LockSystem

/-! ### Interrupted acquisitions

As long as the thread is queued, the runs with and without it differ by its entry in the writers' queue only. -/

namespace LockSystem
variable {s : LockSystem τ} {th u : τ}

omit [DecidableEq τ] in
theorem Sound.outside (hs : Sound s) (hidle : s.place th = .idle none) :
    s.linkArmed th = false ∧ th ∉ s.mutex.exclusiveQueue := by
  have hstands := hs.stands th
  unfold Stands at hstands
  rw [hidle] at hstands
  obtain ⟨harmed, -, hqueued, -⟩ := hstands.of_waitsFor_none rfl
  exact ⟨harmed, hqueued .exclusive⟩

theorem without_of_idle (hs : Sound s) (hidle : s.place th = .idle none) : s.without th = s := by
  obtain ⟨harmed, hnot⟩ := hs.outside hidle
  have herase : s.mutex.exclusiveQueue.erase th = s.mutex.exclusiveQueue := erase_of_not_mem hnot
  unfold without SharedMutex.without
  rw [herase, ← hidle, update_eq_self, ← harmed, update_eq_self]

theorem disarmed_eq_without (hs : Sound s) (hqueue : th ∈ s.mutex.exclusiveQueue) : s.disarmed th = s.without th := by
  obtain ⟨-, -, -, hqueued, hnot⟩ := (hs.stands th).of_queued (m := .exclusive) hqueue
  have hreader : th ∉ s.mutex.sharedQueue := fun h => by cases (hqueued .shared).mp h
  unfold disarmed without SharedMutex.unlink SharedMutex.without
  rw [unlink_places hnot, erase_of_not_mem hreader]

theorem without_without (hs : Sound s) : (s.without th).without th = s.without th := by
  have hnot : th ∉ s.mutex.exclusiveQueue.erase th := List.Nodup.not_mem_erase (hs.nodup .exclusive)
  unfold without SharedMutex.without
  rw [update_idem, update_idem, erase_of_not_mem hnot]

theorem place_step {e : Event τ} (hactor : e.actor ≠ some th) :
    (s.step e).place th = s.place th ∨ (s.step e).place th = (s.place th).woken ∨
      (∃ u, (s.step e).place th = (s.place th).unlink u) ∨
      ∃ mode, s.place th = .parked mode true ∧ (s.step e).place th = .interrupted mode := by
  have hne : ∀ u, e.actor = some u → th ≠ u := fun u hu heq => hactor (heq ▸ hu)
  have hacquired : ∀ (s' : LockSystem τ) u mode interruptible r, s'.place = s.place → th ≠ u →
      (s'.acquired u mode interruptible r).place th = s.place th := by
    intro s' u mode interruptible r hplace hu
    obtain ⟨outcome, m⟩ := r
    cases outcome with
    | taken | parks => exact (update_of_ne hu ..).trans (congrFun hplace th)
    | refused => exact congrFun hplace th
  cases e with
  | lock mode u | tryLock mode u | interruptibleLock mode u =>
    left
    dsimp only [step]
    split_ifs
    · exact hacquired s u mode _ _ rfl (hne u rfl)
    · rfl
  | unlock mode u =>
    left
    dsimp only [step]
    split_ifs
    · cases mode <;> exact update_of_ne (hne u rfl) ..
    · rfl
  | upgradeLock u =>
    left
    dsimp only [step]
    split_ifs
    · exact hacquired (s.left u) u .exclusive _ _ rfl (hne u rfl)
    · rfl
  | downgradeLock u =>
    left
    dsimp only [step]
    split_ifs
    · exact update_of_ne (hne u rfl) ..
    · rfl
  | wake w =>
    have hwakes : ∀ p u, (s.wakes w p u).place th = s.place th ∨ (s.wakes w p u).place th = (s.place th).woken := by
      intro p u
      by_cases hu : th = u
      · subst hu
        exact .inr (update_self ..)
      · exact .inl ((update_of_ne hu ..).trans (update_of_ne (hne w rfl) ..))
    have hmoves : ∀ p, (s.moves w p).place th = s.place th := fun p => update_of_ne (hne w rfl) ..
    dsimp only [step]
    split
    · exact .inl (hmoves _)
    · exact (hwakes _ _).imp_right .inl
    · exact .inl (hmoves _)
    · exact (hwakes _ _).imp_right .inl
    · exact .inl rfl
  | run u =>
    dsimp only [step]
    split
    · exact .inl (update_of_ne (hne u rfl) ..)
    · split_ifs
      · refine .inr (.inr (.inl ⟨u, ?_⟩))
        change update (fun v => (s.place v).unlink u) u (.idle none) th = _
        rw [update_of_ne (hne u rfl)]
      · exact .inl (update_of_ne (hne u rfl) ..)
    · exact .inl rfl
  | signal u =>
    dsimp only [step]
    split
    · rename_i mode hplace
      by_cases hu : th = u
      · subst hu
        exact .inr (.inr (.inr ⟨mode, hplace, update_self ..⟩))
      · exact .inl (update_of_ne hu ..)
    · exact .inl rfl
  | clear u =>
    left
    dsimp only [step]
    split <;> rfl

theorem place_step_idle {e : Event τ} (hactor : e.actor ≠ some th) (hidle : s.place th = .idle none) :
    (s.step e).place th = .idle none := by
  rcases place_step hactor with h | h | ⟨u, h⟩ | ⟨mode, hplace, -⟩
  · rw [h, hidle]
  · rw [h, hidle]
    rfl
  · rw [h, hidle]
    rfl
  · rw [hidle] at hplace
    cases hplace

theorem notMem_queue_step {e : Event τ} (hactor : e.actor ≠ some th) (hnot : th ∉ s.mutex.exclusiveQueue) :
    th ∉ (s.step e).mutex.exclusiveQueue := by
  have hne : ∀ u, e.actor = some u → th ≠ u := fun u hu heq => hactor (heq ▸ hu)
  have happend : ∀ u, e.actor = some u → th ∉ s.mutex.exclusiveQueue ++ [u] := by
    intro u hu hmem
    rcases mem_append.mp hmem with h | h
    · exact hnot h
    · exact hne u hu (mem_singleton.mp h)
  have hacquired : ∀ (s' : LockSystem τ) u mode interruptible (r : LockOutcome × SharedMutex τ),
      (s'.acquired u mode interruptible r).mutex = r.2 := by
    rintro s' u mode interruptible ⟨outcome, m⟩
    cases outcome <;> rfl
  have hpop : ∀ m : SharedMutex τ, th ∉ m.exclusiveQueue → th ∉ m.wakeOneExclusive.2.exclusiveQueue := by
    intro m hm
    unfold wakeOneExclusive
    cases hqueue : m.exclusiveQueue with
    | nil => exact not_mem_nil
    | cons w rest => exact fun h => hm (hqueue ▸ mem_cons_of_mem w h)
  unfold step
  cases e with
  | lock mode u | tryLock mode u | interruptibleLock mode u =>
    dsimp only
    split_ifs
    · rw [hacquired]
      cases mode
      all_goals
        dsimp only [lock, lockShared, tryLock, tryLockShared, interruptibleLock, interruptibleLockShared]
        split_ifs
        all_goals first | exact hnot | exact happend u rfl
    · exact hnot
  | unlock mode u =>
    dsimp only
    split_ifs
    · cases mode with
      | exclusive =>
        unfold unlock
        split_ifs
        · exact hnot
        · exact hpop s.mutex hnot
        · exact hnot
      | shared =>
        dsimp only [unlockShared]
        split_ifs
        · exact hnot
        · exact hpop { s.mutex with cnt := s.mutex.cnt - 1 } hnot
        · exact hnot
    · exact hnot
  | upgradeLock u =>
    dsimp only
    split_ifs
    · rw [hacquired]
      dsimp only [upgradeLock]
      split_ifs
      · exact happend u rfl
      · exact hnot
    · exact hnot
  | downgradeLock u =>
    dsimp only
    split_ifs <;> exact hnot
  | wake | signal | clear =>
    dsimp only
    split <;> exact hnot
  | run u =>
    dsimp only
    split
    · exact hnot
    · split_ifs
      · exact fun h => hnot (mem_of_mem_erase h)
      · exact hnot
    · exact hnot

end LockSystem

/-- The thread is in an acquisition, or has come out of it with the lock. -/
def LockPlace.engaged {τ : Type} : LockPlace τ → Bool
  | .parked _ _ | .interrupted _ | .ready _ | .idle (some _) => true
  | _ => false

namespace LockSystem
variable {s : LockSystem τ} {th : τ}

omit [DecidableEq τ] in
theorem engaged_of_waitsFor {p : LockPlace τ} {mode : LockMode} (h : p.waitsFor = some mode) : p.engaged := by
  cases p with
  | parked | interrupted => rfl
  | _ => cases h

theorem engaged_step_other {e : Event τ} (hactor : e.actor ≠ some th) (hengaged : (s.place th).engaged) :
    ((s.step e).place th).engaged := by
  rcases place_step hactor with h | h | ⟨u, h⟩ | ⟨mode, -, h⟩
  · rw [h]
    exact hengaged
  · rw [h]
    cases hplace : s.place th with
    | parked => rfl
    | _ =>
      rw [hplace] at hengaged
      exact hengaged
  · rw [h]
    cases hplace : s.place th with
    | wakingAll | wakingOne =>
      rw [hplace] at hengaged
      cases hengaged
    | _ =>
      rw [hplace] at hengaged
      exact hengaged
  · rw [h]
    rfl

/-- The thread has been given the lock, or waits for it as a reader. -/
def Engaged (th : τ) (s : LockSystem τ) : Prop := (s.place th).engaged = true ∧ th ∉ s.mutex.exclusiveQueue

/-- The thread queues as a writer, or is outside without the lock. -/
def Hidden (th : τ) (s : LockSystem τ) : Prop := th ∈ s.mutex.exclusiveQueue ∨ s.place th = .idle none

def Passive (th : τ) (e : Event τ) : Prop := e.actor = some th → e = .run th

instance (th : τ) (e : Event τ) : Decidable (Passive th e) := inferInstanceAs (Decidable (_ → _))

theorem engaged_step {e : Event τ} (hcalm : Undisturbed s e) (hown : Passive th e) (hs : Engaged th s) :
    Engaged th (s.step e) := by
  obtain ⟨hengaged, hnot⟩ := hs
  by_cases hactor : e.actor = some th
  · obtain rfl := hown hactor
    unfold Undisturbed at hcalm
    dsimp only at hcalm
    cases hplace : s.place th with
    | idle | parked =>
      simp only [step, hplace]
      exact ⟨hengaged, hnot⟩
    | ready mode =>
      simp only [step, hplace]
      refine ⟨?_, hnot⟩
      rw [show (s.moves th (.idle (some mode))).place th = _ from update_self ..]
      rfl
    | wakingAll | wakingOne =>
      rw [hplace] at hengaged
      cases hengaged
    | interrupted mode =>
      have harmed : ¬ s.linkArmed th := by
        rw [hplace] at hcalm
        cases mode with
        | exclusive => exact fun h => hnot (hcalm h)
        | shared => exact Bool.eq_false_iff.mp hcalm
      simp only [step, hplace]
      rw [if_neg harmed]
      refine ⟨?_, hnot⟩
      rw [show (s.moves th (.idle (some mode))).place th = _ from update_self ..]
      rfl
  · exact ⟨engaged_step_other hactor hengaged, notMem_queue_step hactor hnot⟩

variable {events : List (Event τ)}

theorem engaged_run (hcalm : Run.Admitted step Undisturbed s events)
    (hown : ∀ e ∈ events, Passive th e) (hs : Engaged th s) : Engaged th (Run.exec step s events) := by
  have hstep : ∀ (s : LockSystem τ) e, Engaged th s → (Undisturbed s e ∧ Passive th e) → Engaged th (s.step e) :=
    fun s e hs hguard => engaged_step hguard.1 hguard.2 hs
  exact Run.invariant_exec hstep hs (hcalm.and_of_mem hown)

def others (th : τ) (events : List (Event τ)) : List (Event τ) := events.filter (¬ ·.actor = some th)

/-- A thread that queues as a writer is given the lock, or the step is not to be seen without the thread. -/
theorem step_hidden {e : Event τ} (hs : Sound s) (hcalm : Undisturbed s e) (hown : Passive th e)
    (hhidden : Hidden th s) : Engaged th (s.step e) ∨ (Hidden th (s.step e) ∧
      (s.step e).without th = if e.actor = some th then s.without th else (s.without th).step e) := by
  by_cases hactor : e.actor = some th
  · right
    rw [if_pos hactor]
    obtain rfl := hown hactor
    rcases hhidden with hqueue | hidle
    · obtain ⟨hwaitsFor, harmed, -, -, -⟩ := (hs.stands th).of_queued (m := .exclusive) hqueue
      cases hplace : s.place th with
      | idle | ready | wakingAll | wakingOne =>
        rw [hplace] at hwaitsFor
        cases hwaitsFor
      | parked mode interruptible =>
        simp only [step, hplace]
        exact ⟨.inl hqueue, trivial⟩
      | interrupted mode =>
        simp only [step, hplace]
        rw [if_pos harmed, disarmed_eq_without hs hqueue]
        exact ⟨.inr (update_self ..), without_without hs⟩
    · simp only [step, hidle]
      exact ⟨.inr hidle, trivial⟩
  · rw [if_neg hactor]
    rcases hhidden with hqueue | hidle
    · by_cases hafter : th ∈ (s.step e).mutex.exclusiveQueue
      · exact .inr ⟨.inl hafter, (step_without hs hqueue hactor hafter).symm⟩
      · have hwaitsFor := ((hs.stands th).of_queued (m := .exclusive) hqueue).1
        exact .inl ⟨engaged_step_other hactor (engaged_of_waitsFor hwaitsFor), hafter⟩
    have hidle' := place_step_idle hactor hidle
    refine .inr ⟨.inr hidle', ?_⟩
    rw [without_of_idle hs hidle, without_of_idle (sound_step s e hs hcalm) hidle']

/-- If the thread is outside without the lock in the end, the run without it ends in the same state. -/
theorem run_without (hs : Sound s) (hhidden : Hidden th s)
    (hcalm : Run.Admitted step Undisturbed s events) (hown : ∀ e ∈ events, Passive th e)
    (hback : (Run.exec step s events).place th = .idle none) :
    Run.exec step (s.without th) (others th events) = Run.exec step s events := by
  have hstep : ∀ (s : LockSystem τ) e, (Sound s ∧ Hidden th s) → (Undisturbed s e ∧ Passive th e) →
      Engaged th (s.step e) ∨ ((Sound (s.step e) ∧ Hidden th (s.step e)) ∧
        (s.step e).without th = if e.actor = some th then s.without th else (s.without th).step e) := by
    intro s e hinv hguard
    have hsound := sound_step s e hinv.1 hguard.1
    exact (step_hidden hinv.1 hguard.1 hguard.2 hinv.2).imp_right fun h => ⟨⟨hsound, h.1⟩, h.2⟩
  have hengaged : ∀ (s : LockSystem τ) e, Engaged th s → (Undisturbed s e ∧ Passive th e) → Engaged th (s.step e) :=
    fun s e hs hguard => engaged_step hguard.1 hguard.2 hs
  rcases Run.exec_hidden (v := (without · th)) hstep hengaged ⟨hs, hhidden⟩ (hcalm.and_of_mem hown) with
    ⟨hplace, -⟩ | ⟨hend, hrun⟩
  · rw [hback] at hplace
    cases hplace
  · exact hrun.trans (without_of_idle hend.1 hback)

theorem parks_without (hs : Sound s) (hidle : s.place th = .idle none) : (s.acquired th .exclusive true
      (.parks, { s.mutex with exclusiveQueue := s.mutex.exclusiveQueue ++ [th] })).without th = s := by
  obtain ⟨harmed, hnot⟩ := hs.outside hidle
  have herase : (s.mutex.exclusiveQueue ++ [th]).erase th = s.mutex.exclusiveQueue := by
    rw [erase_append_right [th] hnot, erase_cons_head, append_nil]
  unfold without acquired SharedMutex.without
  rw [herase, update_idem, update_idem, ← hidle, update_eq_self, ← harmed, update_eq_self]

theorem interruptibleLock_cases (hs : Sound s) (hidle : s.place th = .idle none) {mode : LockMode}
    (hcalm : Undisturbed s (.interruptibleLock mode th)) : Engaged th (s.step (.interruptibleLock mode th)) ∨
      (Hidden th (s.step (.interruptibleLock mode th)) ∧ (s.step (.interruptibleLock mode th)).without th = s) := by
  have hnot := (hs.outside hidle).2
  have htaken : ∀ p : LockPlace τ, p.engaged → (update s.place th p th).engaged := by
    intro p hp
    rw [update_self]
    exact hp
  dsimp only [step]
  rw [if_pos hidle]
  cases mode with
  | exclusive =>
    dsimp only [interruptibleLock]
    by_cases hcnt : s.mutex.cnt ≠ 0
    · rw [if_pos hcnt]
      split_ifs with hpending
      · exact .inr ⟨.inr hidle, without_of_idle hs hidle⟩
      · exact .inr ⟨.inl (mem_append_right _ (mem_singleton_self th)), parks_without hs hidle⟩
    · rw [if_neg hcnt]
      exact .inl ⟨htaken _ rfl, hnot⟩
  | shared =>
    dsimp only [interruptibleLockShared]
    by_cases hcnt : s.mutex.cnt < 0
    · rw [if_pos hcnt, hcalm hcnt]
      exact .inl ⟨htaken _ rfl, hnot⟩
    · rw [if_neg hcnt]
      exact .inl ⟨htaken _ rfl, hnot⟩

/-- An interruptible acquisition that returns without the lock leaves the state that there is without it. -/
theorem call_without (hs : Sound s) (hidle : s.place th = .idle none) {mode : LockMode}
    (hcalm : Run.Admitted step Undisturbed s (.interruptibleLock mode th :: events))
    (hown : ∀ e ∈ events, Passive th e)
    (hback : (Run.exec step s (.interruptibleLock mode th :: events)).place th = .idle none) :
    Run.exec step s (others th events) = Run.exec step s (.interruptibleLock mode th :: events) := by
  have hs' := sound_step s _ hs hcalm.1
  rcases interruptibleLock_cases hs hidle hcalm.1 with hengaged | ⟨hhidden, hsame⟩
  · have hend := (engaged_run hcalm.2 hown hengaged).1
    rw [Run.exec_cons] at hback
    rw [hback] at hend
    cases hend
  have hrun := run_without hs' hhidden hcalm.2 hown hback
  rw [hsame] at hrun
  exact hrun

end LockSystem
end Junction
