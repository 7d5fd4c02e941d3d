import Junction.SharedMutexInvariant

/-!
# The sections of the reader-writer lock

The sections under the spin lock keep the correspondence between the lock and its owners, with one exception: the
section of `InterruptibleLockShared` counts a waiter that then does not wait because a signal is pending.
-/

namespace Junction.LockSystem
open Function LockOwners SharedMutex List
variable {τ : Type} [DecidableEq τ] {s : LockSystem τ}

/-- No signal is pending for a thread that has to wait in `InterruptibleLockShared`, and a thread that a signal has
made run finds itself in the writers' queue or already woken. -/
def Undisturbed (s : LockSystem τ) : Event τ → Prop
  | .interruptibleLock .shared th => s.mutex.cnt < 0 → s.pending th = false
  | .run th =>
    match s.place th with
    | .interrupted .exclusive => s.linkArmed th = true → th ∈ s.mutex.exclusiveQueue
    | .interrupted .shared => s.linkArmed th = false
    | _ => True
  | _ => True

instance (s : LockSystem τ) (e : Event τ) : Decidable (Undisturbed s e) := by
  unfold Undisturbed
  split
  · infer_instance
  · split <;> infer_instance
  · infer_instance

variable {mode : LockMode}

omit [DecidableEq τ] in
theorem Sound.owns_idle (hs : Sound s) {th : τ} {held : Option LockMode} (hidle : s.place th = .idle held) : s.owners.Owns mode th ↔ held = some mode := by
  have hstands := hs.stands th
  unfold Stands at hstands
  rw [hidle] at hstands
  exact (hstands.of_waitsFor_none rfl).2.1 mode

theorem Sound.left_eq (hs : Sound s) {th : τ} (hidle : s.place th = .idle none) : s.left th = s := by
  have hnone : ∀ mode, ¬ s.owners.Owns mode th := by
    intro mode hown
    cases (hs.owns_idle hidle).mp hown
  unfold left
  rw [leave_eq_self hnone]

variable {m : SharedMutex τ}

theorem Sound.taken_idle (hs : Sound s) {th : τ} (hidle : s.place th = .idle none)
    {interruptible : Bool} (hqueue : ∀ mode, m.queue mode = s.mutex.queue mode)
    (hshared : m.sharedCnt = s.mutex.sharedCnt) (hadmits : s.owners.Admits mode)
    (hcount : m.cnt = (s.owners.grant mode th).count) (hzero : m.cnt ≠ 0)
    (hreaders : 0 ≤ m.cnt → s.mutex.sharedQueue = []) : Sound (s.acquired th mode interruptible (.taken, m)) := by
  have hleft := hs.left_eq hidle
  have howners : s.owners.leave th = s.owners := congrArg owners hleft
  have htaken : Sound ((s.left th).acquired th mode interruptible (.taken, m)) := by
    refine hs.taken ?_ ?_ hqueue hshared ?_ ?_ hzero hreaders
    · rw [hidle]
      rfl
    · rw [hidle]
      rfl
    · rw [howners]
      exact hadmits
    · rw [howners]
      exact hcount
  rwa [hleft] at htaken

theorem Sound.parks_idle (hs : Sound s) {th : τ} (hidle : s.place th = .idle none) {interruptible : Bool}
    (hqueue : ∀ mode', m.queue mode' = s.mutex.queue mode' ++ if mode' = mode then [th] else [])
    (hshared : m.sharedCnt = m.sharedQueue.length) (hcount : m.cnt = s.mutex.cnt) (hzero : m.cnt ≠ 0)
    (hreaders : 0 ≤ m.cnt → m.sharedQueue = []) : Sound (s.acquired th mode interruptible (.parks, m)) := by
  have hleft := hs.left_eq hidle
  have howners : s.owners.leave th = s.owners := congrArg owners hleft
  have hparks : Sound ((s.left th).acquired th mode interruptible (.parks, m)) := by
    refine hs.parks ?_ ?_ hqueue hshared ?_ hzero hreaders
    · rw [hidle]
      rfl
    · rw [hidle]
      rfl
    · rw [howners, hcount]
      exact hs.count
  rwa [hleft] at hparks

section Sections
variable {th : τ} (interruptible : Bool)

theorem Sound.taken_exclusive (hs : Sound s) (hidle : s.place th = .idle none) (hcnt : s.mutex.cnt = 0) :
    Sound (s.acquired th .exclusive interruptible (.taken, { s.mutex with cnt := -1 })) := by
  have hneg : (-1 : ℤ) < 0 := by decide
  refine hs.taken_idle hidle ?_ rfl ?_ rfl hneg.ne (fun h => absurd hneg (not_lt.mpr h))
  · intro mode
    cases mode <;> rfl
  · exact admits_exclusive_iff.mpr (hs.count ▸ hcnt)

theorem Sound.parks_exclusive (hs : Sound s) (hidle : s.place th = .idle none) (hcnt : s.mutex.cnt ≠ 0) :
    Sound (s.acquired th .exclusive interruptible
      (.parks, { s.mutex with exclusiveQueue := s.mutex.exclusiveQueue ++ [th] })) := by
  refine hs.parks_idle hidle ?_ hs.sharedCount rfl hcnt hs.noReaders
  intro mode
  cases mode <;> simp [queue]

theorem Sound.taken_shared (hs : Sound s) (hidle : s.place th = .idle none) (hcnt : ¬ s.mutex.cnt < 0) :
    Sound (s.acquired th .shared interruptible (.taken, { s.mutex with cnt := s.mutex.cnt + 1 })) := by
  have hadmits : s.owners.Admits .shared := admits_shared_iff.mpr (hs.count ▸ not_lt.mp hcnt)
  refine hs.taken_idle hidle ?_ rfl hadmits ?_ (by dsimp only; omega) (fun _ => hs.noReaders (not_lt.mp hcnt))
  · intro mode
    cases mode <;> rfl
  · have hnew : ¬ s.owners.Owns .shared th := fun h => by cases (hs.owns_idle hidle).mp h
    rw [count_grant_shared hadmits hnew, ← hs.count]

theorem Sound.parks_shared (hs : Sound s) (hidle : s.place th = .idle none) (hcnt : s.mutex.cnt < 0) :
    Sound (s.acquired th .shared interruptible
      (.parks, { s.mutex with
        sharedCnt := s.mutex.sharedCnt + 1
        sharedQueue := s.mutex.sharedQueue ++ [th] })) := by
  refine hs.parks_idle hidle ?_ ?_ rfl hcnt.ne (fun h => absurd hcnt (not_lt.mpr h))
  · intro mode
    cases mode <;> simp [queue]
  · rw [hs.sharedCount, length_append]
    rfl

end Sections

variable {p : LockPlace τ}

omit [DecidableEq τ] in
theorem Sound.ite {th : τ} [Decidable (s.place th = p)] {s' : LockSystem τ} (hs : Sound s)
    (h : s.place th = p → Sound s') : Sound (if s.place th = p then s' else s) := by
  split_ifs with hplace
  · exact h hplace
  · exact hs

theorem sound_lock (hs : Sound s) (mode : LockMode) (th : τ) : Sound (s.step (.lock mode th)) := by
  refine hs.ite fun hidle => ?_
  cases mode with
  | exclusive =>
    dsimp only [lock]
    split_ifs with hcnt
    · exact hs.parks_exclusive false hidle hcnt
    · exact hs.taken_exclusive false hidle (not_not.mp hcnt)
  | shared =>
    dsimp only [lockShared]
    split_ifs with hcnt
    · exact hs.parks_shared false hidle hcnt
    · exact hs.taken_shared false hidle hcnt

theorem sound_tryLock (hs : Sound s) (mode : LockMode) (th : τ) : Sound (s.step (.tryLock mode th)) := by
  refine hs.ite fun hidle => ?_
  cases mode with
  | exclusive =>
    dsimp only [tryLock]
    split_ifs with hcnt
    · exact hs
    · exact hs.taken_exclusive false hidle (not_not.mp hcnt)
  | shared =>
    dsimp only [tryLockShared]
    split_ifs with hcnt
    · exact hs
    · exact hs.taken_shared false hidle hcnt

theorem sound_interruptibleLock (hs : Sound s) (mode : LockMode) (th : τ)
    (hcalm : Undisturbed s (.interruptibleLock mode th)) : Sound (s.step (.interruptibleLock mode th)) := by
  refine hs.ite fun hidle => ?_
  cases mode with
  | exclusive =>
    dsimp only [interruptibleLock]
    split_ifs with hcnt hpending
    · exact hs
    · exact hs.parks_exclusive true hidle hcnt
    · exact hs.taken_exclusive true hidle (not_not.mp hcnt)
  | shared =>
    dsimp only [interruptibleLockShared]
    by_cases hcnt : s.mutex.cnt < 0
    · rw [if_pos hcnt, hcalm hcnt]
      exact hs.parks_shared true hidle hcnt
    · rw [if_neg hcnt]
      exact hs.taken_shared true hidle hcnt

/-! ### Releases -/

section Releases
variable {th : τ} {held : LockMode} {w : τ} {rest : List τ}

omit [DecidableEq τ] in
theorem wakeOneExclusive_cons (h : m.exclusiveQueue = w :: rest) :
    m.wakeOneExclusive = ([w], { m with cnt := -1, exclusiveQueue := rest }) := by
  unfold wakeOneExclusive
  rw [h]

omit [DecidableEq τ] in
theorem waitsFor_idle (hidle : s.place th = .idle (some held)) :
    (s.place th).waitsFor = none ∧ (s.place th).tmp = [] := by
  rw [hidle]
  exact ⟨rfl, rfl⟩

variable {cnt : ℤ}

theorem Sound.handsNobody (hs : Sound s) (hidle : s.place th = .idle (some held))
    (hp : p.waitsFor = none) (htmp : p.tmp = []) (hholds : p.holds = none)
    (hcount : cnt = (s.owners.leave th).count) (hreaders : 0 ≤ cnt → s.mutex.sharedQueue = [])
    (hwriters : cnt = 0 → s.mutex.exclusiveQueue = []) : Sound { s with
      mutex := { s.mutex with cnt := cnt }
      place := update s.place th p
      owners := s.owners.leave th } := by
  obtain ⟨hwaits, hnone⟩ := waitsFor_idle hidle
  refine hs.released (k := .shared) hwaits hnone hp htmp (fun _ => Nat.zero_le 1) (fun mode => ?_) (fun mode => ?_)
    (fun mode u hu => ?_) hs.sharedCount hcount hreaders hwriters
  · cases mode <;> rfl
  · rw [owns_leave, hholds]
    simp
  · rw [owns_leave]
    simp [hu]

theorem Sound.handsWriter (hs : Sound s) (hidle : s.place th = .idle (some held)) (hp : p.waitsFor = none) (htmp : p.tmp = [w]) (hholds : p.holds = none)
    (hlast : (s.owners.leave th).count = 0) (hqueue : s.mutex.exclusiveQueue = w :: rest) : Sound { s with
      mutex := { s.mutex with cnt := -1, exclusiveQueue := rest }
      place := update s.place th p
      owners := (s.owners.leave th).grant .exclusive w } := by
  obtain ⟨hwaits, hnone⟩ := waitsFor_idle hidle
  have hadmits := admits_exclusive_iff.mpr hlast
  have hne : w ≠ th := by
    have hw : w ∈ s.mutex.queue .exclusive := by
      change w ∈ s.mutex.exclusiveQueue
      rw [hqueue]
      exact mem_cons_self
    exact hs.ne_of_queued hwaits hw
  have hneg : (-1 : ℤ) < 0 := by decide
  refine hs.released (k := .exclusive) hwaits hnone hp htmp (fun _ => le_rfl) (fun mode => ?_) (fun mode => ?_)
    (fun mode u hu => ?_) hs.sharedCount rfl (fun h => absurd hneg (not_lt.mpr h)) (fun h => absurd h hneg.ne)
  · cases mode with
    | exclusive => exact hqueue
    | shared => rfl
  · rw [owns_grant hadmits, owns_leave, hholds]
    simp [hne.symm]
  · rw [owns_grant hadmits, owns_leave, mem_singleton]
    simp [hu]

theorem Sound.handsReaders (hs : Sound s) (hidle : s.place th = .idle (some .exclusive))
    (hp : p.waitsFor = none) (htmp : p.tmp = s.mutex.sharedQueue) (hone : ∀ tmp, p ≠ .wakingOne tmp)
    {owners : LockOwners τ} (hadmits : owners.Admits .shared)
    (hown : ∀ mode u, owners.Owns mode u ↔ u = th ∧ p.holds = some mode)
    (hcount : cnt = owners.count + s.mutex.sharedQueue.length) (hpos : 0 < cnt) : Sound { s with
      mutex := { s.mutex with cnt := cnt, sharedCnt := 0, sharedQueue := [] }
      place := update s.place th p
      owners := owners.grantAll .shared s.mutex.sharedQueue } := by
  obtain ⟨hwaits, hnone⟩ := waitsFor_idle hidle
  have howner := count_of_owns_exclusive ((hs.owns_idle hidle).mpr rfl)
  have hne : th ∉ s.mutex.sharedQueue := fun h =>
    hs.ne_of_queued (m := .shared) hwaits h rfl
  refine hs.released (k := .shared) hwaits hnone hp htmp (fun h => ?_) (fun mode => ?_) (fun mode => ?_)
    (fun mode u hu => ?_) rfl ?_ (fun _ => rfl) (fun h => absurd h hpos.ne')
  · obtain ⟨rest, hrest⟩ := h
    exact absurd hrest (hone rest)
  · cases mode <;> simp [queue]
  · rw [owns_grantAll_shared hadmits, hown]
    simp [hne]
  · rw [owns_grantAll_shared hadmits, hown, howner, owns_exclusive]
    simp [hu]
  have hnodup : s.mutex.sharedQueue.Nodup := hs.nodup .shared
  refine hcount.trans (count_grantAll_shared hadmits hnodup fun u hu hmem => ?_).symm
  exact hne (((hown _ u).mp hmem).1 ▸ hu)

end Releases

theorem sound_unlock_exclusive (hs : Sound s) (th : τ) : Sound (s.step (.unlock .exclusive th)) := by
  refine hs.ite fun hidle => ?_
  have hown := (hs.owns_idle hidle).mpr rfl
  have hzero := count_leave_exclusive hown
  have hadmits : (s.owners.leave th).Admits .shared := admits_shared_iff.mpr hzero.ge
  unfold unlock
  by_cases hreaders : s.mutex.sharedQueue = []
  · rw [if_neg (not_not.mpr hreaders)]
    by_cases hwriters : s.mutex.exclusiveQueue = []
    · rw [if_neg (not_not.mpr hwriters)]
      exact hs.handsNobody hidle rfl rfl rfl hzero.symm (fun _ => hreaders)
        (fun _ => hwriters)
    obtain ⟨w, rest, hqueue⟩ := exists_cons_of_ne_nil hwriters
    rw [if_pos hwriters, wakeOneExclusive_cons hqueue]
    exact hs.handsWriter hidle rfl rfl rfl hzero hqueue
  rw [if_pos hreaders]
  have hpos : 0 < s.mutex.sharedCnt := by
    rw [hs.sharedCount]
    exact_mod_cast length_pos_iff.mpr hreaders
  have hhands := hs.handsReaders hidle (p := .wakingAll s.mutex.sharedQueue false) rfl rfl (fun _ => nofun)
    hadmits (fun mode u => ?_) (hs.sharedCount.trans (by rw [hzero, zero_add])) hpos
  · unfold released
    rw [if_neg (show ¬ s.mutex.wakeAllShared.2.cnt < 0 from not_lt.mpr hpos.le)]
    exact hhands
  · rw [owns_leave, count_of_owns_exclusive hown, owns_exclusive]
    simp [LockPlace.holds]

theorem Sound.leave_shared {th : τ} (hs : Sound s) (hidle : s.place th = .idle (some .shared)) :
    s.mutex.cnt - 1 = (s.owners.leave th).count ∧ 0 ≤ s.mutex.cnt - 1 ∧ s.mutex.sharedQueue = [] := by
  have hown := (hs.owns_idle hidle).mpr rfl
  have hcount := count_leave_shared hown
  have hpos := admits_shared_iff.mp (admits_shared_leave hown)
  rw [← hs.count] at hcount
  exact ⟨hcount.symm, by omega, hs.noReaders (by omega)⟩

theorem sound_unlock_shared (hs : Sound s) (th : τ) : Sound (s.step (.unlock .shared th)) := by
  refine hs.ite fun hidle => ?_
  obtain ⟨hcount, hpos, hreaders⟩ := hs.leave_shared hidle
  unfold unlockShared
  by_cases hmore : 0 < s.mutex.cnt - 1
  · rw [if_pos hmore]
    exact hs.handsNobody hidle rfl rfl rfl hcount (fun _ => hreaders) (fun h => absurd h hmore.ne')
  rw [if_neg hmore]
  by_cases hwriters : s.mutex.exclusiveQueue = []
  · rw [if_neg (not_not.mpr hwriters)]
    exact hs.handsNobody hidle rfl rfl rfl hcount (fun _ => hreaders) (fun _ => hwriters)
  obtain ⟨w, rest, hqueue⟩ := exists_cons_of_ne_nil hwriters
  have hpop := wakeOneExclusive_cons (m := { s.mutex with cnt := s.mutex.cnt - 1 }) hqueue
  rw [if_pos hwriters, hpop]
  exact hs.handsWriter hidle rfl rfl rfl (by omega) hqueue

theorem sound_upgradeLock (hs : Sound s) (th : τ) : Sound (s.step (.upgradeLock th)) := by
  refine hs.ite fun hidle => ?_
  obtain ⟨hwaits, hnone⟩ := waitsFor_idle hidle
  obtain ⟨hcount, hpos, hreaders⟩ := hs.leave_shared hidle
  dsimp only [upgradeLock]
  split_ifs with hmore
  · refine hs.parks hwaits hnone (fun mode => ?_) hs.sharedCount hcount hmore.ne' (fun _ => hreaders)
    cases mode <;> simp [queue]
  have hneg : (-1 : ℤ) < 0 := by decide
  refine hs.taken hwaits hnone (fun mode => ?_) rfl (admits_exclusive_iff.mpr (by omega)) rfl
    hneg.ne (fun h => absurd hneg (not_lt.mpr h))
  cases mode <;> rfl

theorem sound_downgradeLock (hs : Sound s) (th : τ) : Sound (s.step (.downgradeLock th)) := by
  refine hs.ite fun hidle => ?_
  have hown := (hs.owns_idle hidle).mpr rfl
  have hzero := count_leave_exclusive hown
  have hadmits : (s.owners.leave th).Admits .shared := admits_shared_iff.mpr hzero.ge
  have hgone : ¬ (s.owners.leave th).Owns .shared th := fun h => (owns_leave.mp h).2 rfl
  have hcount := count_grant_shared hadmits hgone
  have hpos : 0 < s.mutex.sharedCnt + 1 := by
    rw [hs.sharedCount]
    positivity
  have hhands := hs.handsReaders hidle (p := .wakingAll s.mutex.sharedQueue true) rfl rfl (fun _ => nofun)
    (admits_shared_grant hadmits th) (fun mode u => ?_)
    (show s.mutex.sharedCnt + 1 = _ by rw [hcount, hzero, hs.sharedCount]; ring) hpos
  · unfold released
    rw [if_neg (show ¬ s.mutex.downgradeLock.2.cnt < 0 from not_lt.mpr hpos.le)]
    exact hhands
  rw [owns_grant hadmits, owns_leave, count_of_owns_exclusive hown, owns_exclusive]
  simp only [LockPlace.holds, Option.some.injEq]
  tauto

end Junction.LockSystem

/-! ### Wake-ups, and signals as long as no interrupted waiter is lost -/

namespace Junction
open Function List LockPlace

theorem LockPlace.unlink_of_notMem {τ : Type} [DecidableEq τ] {p : LockPlace τ} {th : τ} (h : th ∉ p.tmp) :
    p.unlink th = p := by
  cases p with
  | wakingAll tmp downgrade | wakingOne tmp =>
    have herase : tmp.erase th = tmp := erase_of_not_mem h
    rw [unlink, herase]
  | _ => rfl

namespace LockSystem
variable {τ : Type} [DecidableEq τ] {s : LockSystem τ}

/-! ### Wake-ups and signals -/

variable (hs : Sound s)
include hs

theorem sound_wake (w : τ) : Sound (s.step (.wake w)) := by
  have hstands := hs.stands w
  cases hplace : s.place w with
  | idle | parked | interrupted | ready =>
    simp only [step, hplace]
    exact hs
  | wakingAll tmp downgrade =>
    have hwaits : (s.place w).waitsFor = none := by rw [hplace]; rfl
    cases tmp with
    | nil =>
      simp only [step, hplace]
      obtain ⟨harmed, hown, hqueued, hnot⟩ := hstands.of_waitsFor_none hwaits
      refine hs.moves (by rw [hplace]; rfl) (fun _ => nofun) (.settled rfl harmed (fun mode => ?_) hqueued hnot)
      rw [hown, hplace]
      cases downgrade <;> rfl
    | cons th tmp =>
      simp only [step, hplace]
      exact hs.wakes hwaits (by rw [hplace]; rfl) rfl rfl (fun _ => nofun) (by rw [hplace]; cases downgrade <;> rfl)
  | wakingOne tmp =>
    have hwaits : (s.place w).waitsFor = none := by rw [hplace]; rfl
    have hone := hs.wakers.wakesOne hplace
    cases tmp with
    | nil =>
      simp only [step, hplace]
      obtain ⟨harmed, hown, hqueued, hnot⟩ := hstands.of_waitsFor_none hwaits
      refine hs.moves (by rw [hplace]; rfl) (fun _ => nofun) (.settled rfl harmed (fun mode => ?_) hqueued hnot)
      rw [hown, hplace]
      rfl
    | cons th tmp =>
      simp only [step, hplace]
      have hrest : tmp = [] := length_eq_zero_iff.mp (by simpa using hone)
      exact hs.wakes hwaits (by rw [hplace]; rfl) rfl hrest.symm (fun _ => nofun) (by rw [hplace]; rfl)

omit hs in
theorem unlink_places {th : τ} (hnot : ¬ s.Handed th) : (fun u => (s.place u).unlink th) = s.place :=
  funext fun u => unlink_of_notMem fun h => hnot ⟨u, h⟩

theorem Sound.disarmed {th : τ} (hplace : s.place th = .interrupted .exclusive)
    (hqueue : th ∈ s.mutex.exclusiveQueue) : Sound (s.disarmed th) := by
  obtain ⟨-, -, hown, hqueued, hnot⟩ := (hs.stands th).of_queued (m := .exclusive) hqueue
  have hreader : th ∉ s.mutex.sharedQueue := fun h => by cases (hqueued .shared).mp h
  have hqueues : ∀ mode u, u ∈ (s.mutex.unlink th).queue mode ↔ u ∈ s.mutex.queue mode ∧ u ≠ th := by
    intro mode u
    have herase : (s.mutex.unlink th).queue mode = (s.mutex.queue mode).erase th := by cases mode <;> rfl
    rw [herase, (hs.nodup mode).mem_erase_iff, and_comm]
  have htmp : (idle none : LockPlace τ).tmp = (s.place th).tmp := by rw [hplace]; rfl
  have hhanded := handed_update htmp
  unfold LockSystem.disarmed
  rw [unlink_places hnot]
  refine ⟨hs.count, ?_, fun h => ?_, fun h => ?_, fun mode => ?_, ?_,
    hs.wakers.update (htmp ▸ List.Sublist.refl _) (fun _ => nofun)⟩
  · change s.mutex.sharedCnt = (s.mutex.sharedQueue.erase th).length
    rw [erase_of_not_mem hreader]
    exact hs.sharedCount
  · change s.mutex.sharedQueue.erase th = []
    rw [erase_of_not_mem hreader]
    exact hs.noReaders h
  · change s.mutex.exclusiveQueue.erase th = []
    rw [hs.noWriters h]
    rfl
  · cases mode with
    | exclusive => exact (hs.nodup .exclusive).erase th
    | shared => exact (hs.nodup .shared).erase th
  refine stands_of_update rfl
    (.settled rfl (update_self ..) (fun mode => ?_) (fun mode h => ?_) (fun h => ?_)) fun u hu => ?_
  · exact iff_of_false (hown mode) nofun
  · exact ((hqueues mode th).mp h).2 rfl
  · exact hnot ((hhanded th).mp h)
  change Standing _ (update s.linkArmed th false u) _ _ _
  rw [update_of_ne hu]
  refine (hs.stands u).congr (fun _ => Iff.rfl) (fun mode => ?_) (hhanded u)
  exact (hqueues mode u).trans (and_iff_left hu)

theorem sound_run (th : τ) (hcalm : Undisturbed s (.run th)) : Sound (s.step (.run th)) := by
  have hstands := hs.stands th
  unfold Stands at hstands
  cases hplace : s.place th with
  | idle | parked | wakingAll | wakingOne =>
    simp only [step, hplace]
    exact hs
  | ready mode =>
    simp only [step, hplace]
    have hwaits : (s.place th).waitsFor = none := by rw [hplace]; rfl
    obtain ⟨harmed, hown, hqueued, hnot⟩ := hstands.of_waitsFor_none hwaits
    refine hs.moves (by rw [hplace]; rfl) (fun _ => nofun) (.settled rfl harmed (fun mode' => ?_) hqueued hnot)
    rw [hown, hplace]
    rfl
  | interrupted mode =>
    simp only [step, hplace]
    split_ifs with harmed
    · unfold Undisturbed at hcalm
      dsimp only at hcalm
      rw [hplace] at hcalm
      cases mode with
      | exclusive => exact hs.disarmed hplace (hcalm harmed)
      | shared => exact absurd harmed (Bool.eq_false_iff.mp hcalm)
    rw [hplace] at hstands
    cases hstands with
    | settled hwaits => cases hwaits
    | queued _ _ hlinked | handed _ _ hlinked => exact absurd hlinked harmed
    | woken mode' hwoken hlinked hown hqueued hnot =>
      obtain rfl := interrupted.inj hwoken
      refine hs.moves (by rw [hplace]; rfl) (fun _ => nofun) (.settled rfl hlinked (fun mode' => ?_) hqueued hnot)
      rw [hown]
      simp [holds, eq_comm]

omit [DecidableEq τ] in
theorem Sound.pending (pending : τ → Bool) : Sound { s with pending := pending } := { hs with }

theorem sound_signal (th : τ) : Sound (s.step (.signal th)) := by
  dsimp only [step]
  have hpending := hs.pending (update s.pending th true)
  split
  · rename_i mode hplace
    have hstands := hpending.stands th
    unfold Stands at hstands
    rw [hplace] at hstands
    have harmed := hstands.armed_of_parked
    exact hpending.moves (by rw [hplace]; rfl) (fun _ => nofun) (hstands.of_armed harmed rfl)
  · exact hpending

omit hs

theorem sound_step (s : LockSystem τ) (e : Event τ) (hs : Sound s) (hcalm : Undisturbed s e) : Sound (s.step e) := by
  cases e with
  | lock mode th => exact sound_lock hs mode th
  | tryLock mode th => exact sound_tryLock hs mode th
  | interruptibleLock mode th => exact sound_interruptibleLock hs mode th hcalm
  | unlock mode th =>
    cases mode with
    | exclusive => exact sound_unlock_exclusive hs th
    | shared => exact sound_unlock_shared hs th
  | upgradeLock th => exact sound_upgradeLock hs th
  | downgradeLock th => exact sound_downgradeLock hs th
  | wake w => exact sound_wake hs w
  | run th => exact sound_run hs th hcalm
  | signal th => exact sound_signal hs th
  | clear th =>
    dsimp only [step]
    split
    · exact hs.pending _
    · exact hs

omit [DecidableEq τ] in
theorem sound_start (pending : τ → Bool) : Sound (start pending) := by
  refine ⟨rfl, rfl, fun _ => rfl, fun _ => rfl, fun mode => ?_, fun th => ?_, ?_⟩
  · cases mode <;> exact nodup_nil
  · refine .settled rfl rfl (fun mode => ?_) (fun mode h => ?_) ?_
    · cases mode <;> simp [start, holds]
    · cases mode <;> cases h
    · rintro ⟨w, hw⟩
      cases hw
  refine ⟨fun _ => nodup_nil, ?_, ?_⟩
  · intro w w' th hw
    cases hw
  · intro w tmp hw
    cases hw

end LockSystem
end Junction

/-! ### Without interruptible acquisitions -/

namespace Junction
open Function

def LockPlace.calm {τ : Type} : LockPlace τ → Bool
  | .interrupted _ => false
  | .parked _ interruptible => !interruptible
  | _ => true

namespace LockSystem
variable {τ : Type}

def Event.interruptible : Event τ → Bool
  | .interruptibleLock _ _ => true
  | _ => false

/-- The thread is in possession of the lock, also while it wakes others after a downgrade. -/
def Holds (s : LockSystem τ) (mode : LockMode) (th : τ) : Prop :=
  s.place th = .idle (some mode) ∨ (mode = .shared ∧ ∃ tmp, s.place th = .wakingAll tmp true)

/-- The lock has been handed over to the thread, which does not run yet. -/
def Receives (s : LockSystem τ) (mode : LockMode) (th : τ) : Prop :=
  s.place th = .ready mode ∨ (s.place th = .parked mode false ∧ s.Handed th)

def Has (s : LockSystem τ) (mode : LockMode) (th : τ) : Prop := s.Holds mode th ∨ s.Receives mode th

variable {s : LockSystem τ} {th : τ} {mode : LockMode}

theorem Sound.owns_iff_has (hs : Sound s) (hcalm : (s.place th).calm) : s.owners.Owns mode th ↔ s.Has mode th := by
  have hstands := hs.stands th
  unfold Stands at hstands
  unfold Has Holds Receives
  cases hplace : s.place th with
  | idle | ready | wakingOne =>
    rw [hplace] at hstands
    rw [(hstands.of_waitsFor_none rfl).2.1]
    simp [LockPlace.holds]
  | wakingAll tmp downgrade =>
    rw [hplace] at hstands
    rw [(hstands.of_waitsFor_none rfl).2.1]
    cases downgrade <;> simp [LockPlace.holds, eq_comm]
  | interrupted mode' =>
    rw [hplace] at hcalm
    cases hcalm
  | parked mode' interruptible =>
    rw [hplace] at hcalm hstands
    have hnever : interruptible = false := by simpa [LockPlace.calm] using hcalm
    subst hnever
    cases hstands with
    | settled hwaits => cases hwaits
    | woken _ hwoken => cases hwoken
    | queued mode'' hwaits _ hown _ hnot => simp [hown mode, hnot]
    | handed mode'' hwaits _ hown _ hhanded =>
      obtain rfl := Option.some.inj hwaits
      simp [hown mode, hhanded, eq_comm]

variable [DecidableEq τ] {p : LockPlace τ}

theorem calm_update {place : τ → LockPlace τ} (h : ∀ u, (place u).calm)
    (hp : p.calm) (u : τ) : (update place th p u).calm := by
  by_cases hu : u = th
  · rw [hu, update_self]
    exact hp
  · rw [update_of_ne hu]
    exact h u

variable (h : ∀ u, (s.place u).calm)
include h

theorem calm_acquired (r : LockOutcome × SharedMutex τ) (u : τ) : ((s.acquired th mode false r).place u).calm := by
  obtain ⟨outcome, m⟩ := r
  cases outcome with
  | taken | parks => exact calm_update h rfl u
  | refused => exact h u

omit h in
omit [DecidableEq τ] in
theorem calm_woken (h : p.calm) : p.woken.calm := by
  cases p with
  | parked => rfl
  | _ => exact h

variable {e : Event τ}

theorem calm_step (he : e.interruptible = false) (u : τ) : ((s.step e).place u).calm := by
  unfold step
  cases e with
  | lock mode th | tryLock mode th =>
    dsimp only
    split_ifs
    · exact calm_acquired h _ u
    · exact h u
  | interruptibleLock mode th => cases he
  | unlock mode th =>
    dsimp only
    split_ifs
    · cases mode <;> exact calm_update h rfl u
    · exact h u
  | upgradeLock th =>
    dsimp only
    split_ifs
    · exact calm_acquired (s := s.left th) h _ u
    · exact h u
  | downgradeLock th =>
    dsimp only
    split_ifs
    · exact calm_update h rfl u
    · exact h u
  | wake w =>
    dsimp only
    split
    · exact calm_update h rfl u
    · exact calm_update (calm_update h rfl) (calm_woken (h _)) u
    · exact calm_update h rfl u
    · exact calm_update (calm_update h rfl) (calm_woken (h _)) u
    · exact h u
  | run th =>
    dsimp only
    split
    · exact calm_update h rfl u
    · rename_i hplace
      have hcalm := h th
      rw [hplace] at hcalm
      cases hcalm
    · exact h u
  | signal th =>
    dsimp only
    split
    · rename_i hplace
      have hcalm := h th
      rw [hplace] at hcalm
      cases hcalm
    · exact h u
  | clear th =>
    dsimp only
    split <;> exact h u

omit [DecidableEq τ] in
theorem undisturbed_of_calm (he : e.interruptible = false) : Undisturbed s e := by
  unfold Undisturbed
  split
  · cases he
  · rename_i th
    have hcalm := h th
    split
    · rename_i hplace
      rw [hplace] at hcalm
      cases hcalm
    · rename_i hplace
      rw [hplace] at hcalm
      cases hcalm
    · trivial
  · trivial

omit h

/-- In every run without interruptible acquisitions the count says how the lock is held, and every thread that waits is
queued, or has been handed the lock and is still to be woken. -/
theorem reader_writer_lock (pending : τ → Bool) (events : List (Event τ))
    (hplain : ∀ e ∈ events, e.interruptible = false) :
    let s := Run.exec step (start pending) events
    (((∀ mode th, ¬ s.Has mode th) ∧ s.mutex.cnt = 0 ∧ s.mutex.exclusiveQueue = [] ∧ s.mutex.sharedQueue = [] ∧
        ∀ th mode interruptible, s.place th ≠ .parked mode interruptible) ∨
      (∃ owner, (∀ mode th, s.Has mode th ↔ mode = .exclusive ∧ th = owner) ∧ s.mutex.cnt = -1) ∨
      ∃ owners : Finset τ, owners.Nonempty ∧ (∀ mode th, s.Has mode th ↔ mode = .shared ∧ th ∈ owners) ∧
        s.mutex.cnt = owners.card) ∧
    ∀ th mode interruptible, s.place th = .parked mode interruptible → th ∈ s.mutex.queue mode ∨ s.Handed th := by
  intro s
  have hstep : ∀ (s : LockSystem τ) e, (Sound s ∧ ∀ u, (s.place u).calm = true) → e.interruptible = false →
      Sound (s.step e) ∧ ∀ u, ((s.step e).place u).calm = true :=
    fun s e hinv he => ⟨sound_step s e hinv.1 (undisturbed_of_calm hinv.2 he), calm_step hinv.2 he⟩
  have hadmitted : Run.Admitted step (fun _ e => e.interruptible = false) (start pending) events :=
    Run.admitted_of_mem (fun e he _ => hplain e he) _
  obtain ⟨hs, hcalm⟩ : Sound s ∧ ∀ u, (s.place u).calm = true :=
    Run.invariant_exec hstep ⟨sound_start pending, fun _ => rfl⟩ hadmitted
  have hhas : ∀ mode th, s.Has mode th ↔ s.owners.Owns mode th := fun mode th => (hs.owns_iff_has (hcalm th)).symm
  have hwaiting : ∀ th mode interruptible, s.place th = .parked mode interruptible →
      th ∈ s.mutex.queue mode ∨ s.Handed th := by
    intro th mode interruptible hplace
    have hstands := hs.stands th
    unfold Stands at hstands
    rw [hplace] at hstands
    cases hstands with
    | settled hwaits => cases hwaits
    | queued mode' hwaits _ _ hqueued _ =>
      obtain rfl := Option.some.inj hwaits
      exact .inl ((hqueued mode).mpr rfl)
    | handed _ _ _ _ _ hhanded => exact .inr hhanded
    | woken _ hwoken => cases hwoken
  refine ⟨?_, hwaiting⟩
  cases howners : s.owners with
  | exclusive owner =>
    refine .inr (.inl ⟨owner, fun mode th => ?_, ?_⟩)
    · rw [hhas, howners, LockOwners.owns_exclusive]
    · rw [hs.count, howners]
      rfl
  | shared owners =>
    have hcount : s.mutex.cnt = owners.card := by
      rw [hs.count, howners]
      rfl
    by_cases hempty : owners = ∅
    · have hzero : s.mutex.cnt = 0 := by
        rw [hcount, hempty]
        rfl
      have hreaders := hs.noReaders hzero.ge
      have hwriters := hs.noWriters hzero
      have hnobody : ∀ mode th, ¬ s.owners.Owns mode th := fun mode th =>
        LockOwners.not_owns_of_count_zero (hs.count ▸ hzero) mode th
      refine .inl ⟨fun mode th h => hnobody mode th ((hhas mode th).mp h), hzero, hwriters, hreaders, ?_⟩
      intro th mode interruptible hplace
      rcases hwaiting th mode interruptible hplace with hqueue | hhanded
      · cases mode with
        | exclusive =>
          change th ∈ s.mutex.exclusiveQueue at hqueue
          rw [hwriters] at hqueue
          cases hqueue
        | shared =>
          change th ∈ s.mutex.sharedQueue at hqueue
          rw [hreaders] at hqueue
          cases hqueue
      · obtain ⟨mode', -, -, hown, -⟩ := (hs.stands th).of_handed hhanded
        exact hnobody mode' th ((hown mode').mpr rfl)
    · refine .inr (.inr ⟨owners, Finset.nonempty_iff_ne_empty.mpr hempty, fun mode th => ?_, hcount⟩)
      rw [hhas, howners, LockOwners.owns_shared]

/-- A writer, a reader and another writer: the first writer hands the lock over to the reader. -/
def handover : List (Event (Fin 3)) :=
  [.lock .exclusive 0, .lock .shared 1, .lock .exclusive 2, .unlock .exclusive 0, .wake 0]

theorem reader_writer_lock_handover :
    let s := Run.exec step (start fun _ => false) handover
    s.mutex = { cnt := 1, exclusiveQueue := [2] } ∧ s.place 1 = .ready .shared ∧
      (2 ∈ s.mutex.queue .exclusive ∨ s.Handed 2) := by
  refine ⟨by decide +kernel, by decide +kernel, ?_⟩
  exact (reader_writer_lock (fun _ => false) handover (by decide)).2 2 .exclusive false (by decide +kernel)

end LockSystem
end Junction
