import Junction.SharedMutex
import Junction.Library.Run

/-!
# Owners and waiters of the reader-writer lock

Every thread stands in one of four ways to the lock: it does not wait, it is queued, it has been given the lock and
is still to be woken, or it has been woken after a signal had made it run. The count of the lock is the one of its
owners, the readers' queue is empty while readers may enter, and both queues are empty while the lock is free.
-/

namespace Junction
open List Function
variable {τ : Type}

namespace LockPlace

/-- The mode in which a thread in this place waits for the lock. -/
def waitsFor : LockPlace τ → Option LockMode
  | .parked mode _ | .interrupted mode => some mode
  | _ => none

/-- The mode in which a thread in this place, if it does not wait, holds the lock. -/
def holds : LockPlace τ → Option LockMode
  | .idle held => held
  | .ready mode => some mode
  | .wakingAll _ true => some .shared
  | _ => none

theorem tmp_of_waitsFor {p : LockPlace τ} {mode : LockMode} (h : p.waitsFor = some mode) : p.tmp = [] := by
  cases p with
  | parked | interrupted => rfl
  | _ => cases h

theorem tmp_woken_of_waitsFor {p : LockPlace τ} {mode : LockMode} (h : p.waitsFor = some mode) : p.woken.tmp = [] := by
  cases p with
  | parked | interrupted => rfl
  | _ => cases h

end LockPlace

namespace LockSystem

/-- How a thread stands to the lock: its place, its `link_armed`, in which modes it owns the lock and is queued, and
whether it is still to be woken. -/
inductive Standing (p : LockPlace τ) (armed : Bool) (own queued : LockMode → Prop) (handed : Prop) : Prop
  | settled (hplace : p.waitsFor = none) (harmed : armed = false) (hown : ∀ mode, own mode ↔ p.holds = some mode)
      (hqueued : ∀ mode, ¬ queued mode) (hhanded : ¬ handed)
  | queued (mode : LockMode) (hplace : p.waitsFor = some mode) (harmed : armed = true)
      (hown : ∀ mode', ¬ own mode') (hqueued : ∀ mode', queued mode' ↔ mode' = mode) (hhanded : ¬ handed)
  | handed (mode : LockMode) (hplace : p.waitsFor = some mode) (harmed : armed = true)
      (hown : ∀ mode', own mode' ↔ mode' = mode) (hqueued : ∀ mode', ¬ queued mode') (hhanded : handed)
  | woken (mode : LockMode) (hplace : p = .interrupted mode) (harmed : armed = false)
      (hown : ∀ mode', own mode' ↔ mode' = mode) (hqueued : ∀ mode', ¬ queued mode') (hhanded : ¬ handed)

def Stands (s : LockSystem τ) (th : τ) : Prop :=
  Standing (s.place th) (s.linkArmed th) (s.owners.Owns · th) (th ∈ s.mutex.queue ·) (s.Handed th)

/-- Each thread that is to be woken is in one temporary queue, once; a call that wakes one thread has no more than
one to wake. -/
structure Wakers (place : τ → LockPlace τ) : Prop where
  nodup : ∀ w, (place w).tmp.Nodup
  unique : ∀ {w w' th}, th ∈ (place w).tmp → th ∈ (place w').tmp → w = w'
  wakesOne : ∀ {w tmp}, place w = .wakingOne tmp → tmp.length ≤ 1

structure Sound (s : LockSystem τ) : Prop where
  count : s.mutex.cnt = s.owners.count
  sharedCount : s.mutex.sharedCnt = s.mutex.sharedQueue.length
  noReaders : 0 ≤ s.mutex.cnt → s.mutex.sharedQueue = []
  noWriters : s.mutex.cnt = 0 → s.mutex.exclusiveQueue = []
  nodup : ∀ mode, (s.mutex.queue mode).Nodup
  stands : ∀ th, s.Stands th
  wakers : Wakers s.place

/-! ### How single threads stand -/

section Standing
variable {p p' : LockPlace τ} {armed : Bool} {own own' queued queued' : LockMode → Prop} {handed handed' : Prop}

theorem Standing.congr (h : Standing p armed own queued handed) (hown : ∀ mode, own' mode ↔ own mode)
    (hqueued : ∀ mode, queued' mode ↔ queued mode) (hhanded : handed' ↔ handed) :
    Standing p armed own' queued' handed' := by
  have h₁ : own' = own := funext fun mode => propext (hown mode)
  have h₂ : queued' = queued := funext fun mode => propext (hqueued mode)
  have h₃ : handed' = handed := propext hhanded
  rw [h₁, h₂, h₃]
  exact h

theorem Standing.of_waitsFor_none (h : Standing p armed own queued handed) (hp : p.waitsFor = none) :
    armed = false ∧ (∀ mode, own mode ↔ p.holds = some mode) ∧ (∀ mode, ¬ queued mode) ∧ ¬ handed := by
  cases h with
  | settled _ harmed hown hqueued hhanded => exact ⟨harmed, hown, hqueued, hhanded⟩
  | queued mode hplace | handed mode hplace => rw [hp] at hplace; cases hplace
  | woken mode hplace => rw [hplace] at hp; cases hp

theorem Standing.of_queued (h : Standing p armed own queued handed) {m : LockMode} (hq : queued m) :
    p.waitsFor = some m ∧ armed ∧ (∀ mode', ¬ own mode') ∧ (∀ mode', queued mode' ↔ mode' = m) ∧ ¬ handed := by
  cases h with
  | queued mode' hplace harmed hown hqueued hhanded =>
    obtain rfl := (hqueued m).mp hq
    exact ⟨hplace, harmed, hown, hqueued, hhanded⟩
  | settled _ _ _ hqueued _ | handed _ _ _ _ hqueued _ | woken _ _ _ _ hqueued _ => exact absurd hq (hqueued m)

theorem Standing.of_handed (h : Standing p armed own queued handed) (hh : handed) :
    ∃ mode, p.waitsFor = some mode ∧ armed ∧ (∀ mode', own mode' ↔ mode' = mode) ∧ ∀ mode', ¬ queued mode' := by
  cases h with
  | settled _ _ _ _ hhanded | queued _ _ _ _ _ hhanded | woken _ _ _ _ _ hhanded => exact absurd hh hhanded
  | handed mode hplace harmed hown hqueued _ => exact ⟨mode, hplace, harmed, hown, hqueued⟩

/-- A thread that waits keeps its standing wherever it waits in the same mode, as long as it is armed. -/
theorem Standing.of_armed (h : Standing p armed own queued handed) (harmed : armed)
    (hp : p'.waitsFor = p.waitsFor) : Standing p' armed own queued handed := by
  cases h with
  | queued mode hplace _ hown hqueued hhanded =>
    exact .queued mode (hp.trans hplace) harmed hown hqueued hhanded
  | handed mode hplace _ hown hqueued hhanded =>
    exact .handed mode (hp.trans hplace) harmed hown hqueued hhanded
  | settled _ hfalse | woken _ _ hfalse => rw [harmed] at hfalse; cases hfalse

theorem Standing.armed_of_parked {mode : LockMode} {interruptible : Bool}
    (h : Standing (.parked mode interruptible : LockPlace τ) armed own queued handed) : armed := by
  cases h with
  | settled hplace => cases hplace
  | queued _ _ harmed | handed _ _ harmed => exact harmed
  | woken _ hplace => cases hplace

end Standing

/-! ### What the pieces of the steps keep -/

variable [DecidableEq τ] {s : LockSystem τ} {p : LockPlace τ} {place : τ → LockPlace τ} {th : τ}

theorem tmp_update (htmp : p.tmp = (place th).tmp) (w : τ) : (update place th p w).tmp = (place w).tmp := by
  by_cases hw : w = th
  · rw [hw, update_self, htmp]
  · rw [update_of_ne hw]

theorem handed_update (htmp : p.tmp = (place th).tmp) (u : τ) :
    (∃ w, u ∈ (update place th p w).tmp) ↔ ∃ w, u ∈ (place w).tmp :=
  exists_congr fun w => by rw [tmp_update htmp w]

theorem Wakers.of_sublist {place place' : τ → LockPlace τ} (h : Wakers place)
    (hsub : ∀ w, (place' w).tmp.Sublist (place w).tmp)
    (hone : ∀ w tmp, place' w = .wakingOne tmp → ∃ tmp', place w = .wakingOne tmp') : Wakers place' := by
  refine ⟨fun w => (h.nodup w).sublist (hsub w), fun hw hw' => h.unique ((hsub _).mem hw) ((hsub _).mem hw'), ?_⟩
  intro w tmp hw
  obtain ⟨tmp', hw'⟩ := hone w tmp hw
  have hle := (hsub w).length_le
  rw [hw, hw'] at hle
  exact hle.trans (h.wakesOne hw')

theorem Wakers.update (h : Wakers place) (htmp : p.tmp.Sublist (place th).tmp) (hone : ∀ tmp, p ≠ .wakingOne tmp) :
    Wakers (update place th p) := by
  refine h.of_sublist (fun w => ?_) fun w tmp hw => ?_
  · by_cases heq : w = th
    · rw [heq, update_self]
      exact htmp
    · rw [update_of_ne heq]
  by_cases heq : w = th
  · rw [heq, update_self] at hw
    exact absurd hw (hone tmp)
  · rw [update_of_ne heq] at hw
    exact ⟨tmp, hw⟩

theorem mem_tmp_update {th w u : τ} (htmp : (place th).tmp = []) :
    u ∈ (update place th p w).tmp ↔ u ∈ (place w).tmp ∨ (w = th ∧ u ∈ p.tmp) := by
  by_cases heq : w = th
  · rw [heq, update_self, htmp]
    simp
  · rw [update_of_ne heq]
    simp [heq]

theorem Wakers.release (h : Wakers place)
    (htmp : (place th).tmp = []) (hnodup : p.tmp.Nodup) (hnew : ∀ u ∈ p.tmp, ∀ w, u ∉ (place w).tmp)
    (hone : ∀ tmp, p = .wakingOne tmp → tmp.length ≤ 1) : Wakers (Function.update place th p) := by
  refine ⟨fun w => ?_, fun {w w' u} hw hw' => ?_, fun {w tmp} hw => ?_⟩
  · by_cases heq : w = th
    · rw [heq, update_self]
      exact hnodup
    · rw [update_of_ne heq]
      exact h.nodup w
  · rcases (mem_tmp_update htmp).mp hw with hold | ⟨rfl, hin⟩ <;>
      rcases (mem_tmp_update htmp).mp hw' with hold' | ⟨rfl, hin'⟩
    · exact h.unique hold hold'
    · exact absurd hold (hnew u hin' w)
    · exact absurd hold' (hnew u hin w')
    · rfl
  by_cases heq : w = th
  · rw [heq, update_self] at hw
    exact hone tmp hw
  · rw [update_of_ne heq] at hw
    exact h.wakesOne hw

theorem stands_of_update {s' : LockSystem τ} (hplace : s'.place = update place th p)
    (hself : Standing p (s'.linkArmed th) (s'.owners.Owns · th) (th ∈ s'.mutex.queue ·) (s'.Handed th))
    (hothers : ∀ u, u ≠ th →
      Standing (place u) (s'.linkArmed u) (s'.owners.Owns · u) (u ∈ s'.mutex.queue ·) (s'.Handed u)) (u : τ) :
    s'.Stands u := by
  unfold Stands
  rw [hplace]
  by_cases hu : u = th
  · subst hu
    rw [update_self]
    exact hself
  · rw [update_of_ne hu]
    exact hothers u hu

theorem Sound.ne_of_queued (hs : Sound s) {th u : τ} {m : LockMode} (hplace : (s.place th).waitsFor = none)
    (hu : u ∈ s.mutex.queue m) : u ≠ th := by
  rintro rfl
  exact ((hs.stands u).of_waitsFor_none hplace).2.2.1 m hu

theorem Sound.moves (hs : Sound s) (htmp : p.tmp = (s.place th).tmp) (hone : ∀ tmp, p ≠ .wakingOne tmp)
    (hstands : Standing p (s.linkArmed th) (s.owners.Owns · th) (th ∈ s.mutex.queue ·) (s.Handed th)) :
    Sound (s.moves th p) := by
  have hhanded := handed_update htmp
  refine { hs with stands := ?_, wakers := hs.wakers.update (htmp ▸ List.Sublist.refl p.tmp) hone }
  refine stands_of_update rfl ?_ fun u _ => ?_
  · exact hstands.congr (fun _ => Iff.rfl) (fun _ => Iff.rfl) (hhanded th)
  · exact (hs.stands u).congr (fun _ => Iff.rfl) (fun _ => Iff.rfl) (hhanded u)

theorem Sound.taken (hs : Sound s) {mode : LockMode} {interruptible : Bool} {m : SharedMutex τ}
    (hplace : (s.place th).waitsFor = none) (htmp : (s.place th).tmp = [])
    (hqueue : ∀ mode, m.queue mode = s.mutex.queue mode) (hshared : m.sharedCnt = s.mutex.sharedCnt)
    (hadmits : (s.owners.leave th).Admits mode) (hcount : m.cnt = ((s.owners.leave th).grant mode th).count)
    (hzero : m.cnt ≠ 0) (hreaders : 0 ≤ m.cnt → s.mutex.sharedQueue = []) :
    Sound ((s.left th).acquired th mode interruptible (.taken, m)) := by
  have hown : ∀ mode' u, ((s.owners.leave th).grant mode th).Owns mode' u ↔
      (s.owners.Owns mode' u ∧ u ≠ th) ∨ (mode' = mode ∧ u = th) := by
    intro mode' u
    rw [LockOwners.owns_grant hadmits, LockOwners.owns_leave]
  have htmp' : (LockPlace.idle (some mode) : LockPlace τ).tmp = (s.place th).tmp := htmp.symm
  have hhanded := handed_update htmp'
  have hlength : m.sharedCnt = (m.queue .shared).length := by
    rw [hshared, hqueue, hs.sharedCount]
    rfl
  refine ⟨hcount, hlength, fun h => (hqueue .shared).trans (hreaders h), fun h => absurd h hzero,
    fun mode' => (hqueue mode').symm ▸ hs.nodup mode', ?_, hs.wakers.update (htmp' ▸ List.Sublist.refl _) (fun _ => nofun)⟩
  obtain ⟨harmed, -, hqueued, hnot⟩ := (hs.stands th).of_waitsFor_none hplace
  refine stands_of_update rfl (.settled rfl harmed (fun mode' => ?_) (fun mode' hmem => ?_) ?_) fun u hu => ?_
  · refine (hown mode' th).trans ?_
    simp [LockPlace.holds, eq_comm]
  · exact hqueued mode' (hqueue mode' ▸ hmem)
  · exact fun h => hnot ((hhanded th).mp h)
  refine (hs.stands u).congr (fun mode' => ?_) (fun mode' => ?_) (hhanded u)
  · refine (hown mode' u).trans ?_
    simp [hu]
  · change u ∈ m.queue mode' ↔ _
    rw [hqueue]

theorem Sound.parks (hs : Sound s) {mode : LockMode} {interruptible : Bool} {m : SharedMutex τ}
    (hplace : (s.place th).waitsFor = none) (htmp : (s.place th).tmp = [])
    (hqueue : ∀ mode', m.queue mode' = s.mutex.queue mode' ++ if mode' = mode then [th] else [])
    (hshared : m.sharedCnt = m.sharedQueue.length) (hcount : m.cnt = (s.owners.leave th).count)
    (hzero : m.cnt ≠ 0) (hreaders : 0 ≤ m.cnt → m.sharedQueue = []) :
    Sound ((s.left th).acquired th mode interruptible (.parks, m)) := by
  have htmp' : (LockPlace.parked mode interruptible : LockPlace τ).tmp = (s.place th).tmp := htmp.symm
  have hhanded := handed_update htmp'
  obtain ⟨-, -, hqueued, hnot⟩ := (hs.stands th).of_waitsFor_none hplace
  have hmem : ∀ mode' u, u ∈ m.queue mode' ↔ u ∈ s.mutex.queue mode' ∨ (mode' = mode ∧ u = th) := by
    intro mode' u
    rw [hqueue, mem_append]
    by_cases hmode : mode' = mode <;> simp [hmode]
  refine ⟨hcount, hshared, hreaders, fun h => absurd h hzero, fun mode' => ?_, ?_,
    hs.wakers.update (htmp' ▸ List.Sublist.refl _) (fun _ => nofun)⟩
  · change (m.queue mode').Nodup
    rw [hqueue]
    by_cases hmode : mode' = mode
    · rw [if_pos hmode]
      refine nodup_append.mpr ⟨hs.nodup mode', nodup_singleton th, ?_⟩
      intro u hu v hv
      rw [mem_singleton.mp hv]
      exact hs.ne_of_queued hplace hu
    · rw [if_neg hmode, append_nil]
      exact hs.nodup mode'
  · refine stands_of_update rfl (.queued mode rfl (update_self ..) (fun mode' => ?_) (fun mode' => ?_) ?_)
      fun u hu => ?_
    · exact fun h => (LockOwners.owns_leave.mp h).2 rfl
    · refine (hmem mode' th).trans ?_
      simp [hqueued mode']
    · exact fun h => hnot ((hhanded th).mp h)
    rw [show ((s.left th).acquired th mode interruptible (.parks, m)).linkArmed u = s.linkArmed u from
      update_of_ne hu ..]
    refine (hs.stands u).congr (fun mode' => ?_) (fun mode' => ?_) (hhanded u)
    · exact LockOwners.owns_leave.trans (and_iff_left hu)
    · refine (hmem mode' u).trans ?_
      simp [hu]

theorem Sound.released (hs : Sound s) {m : SharedMutex τ} {k : LockMode}
    {tmp : List τ} {owners : LockOwners τ} (hplace : (s.place th).waitsFor = none) (htmp : (s.place th).tmp = [])
    (hp : p.waitsFor = none) (hptmp : p.tmp = tmp) (hone : (∃ rest, p = .wakingOne rest) → tmp.length ≤ 1)
    (hqueue : ∀ mode', s.mutex.queue mode' = (if mode' = k then tmp else []) ++ m.queue mode')
    (hself : ∀ mode', owners.Owns mode' th ↔ p.holds = some mode')
    (hown : ∀ mode' u, u ≠ th → (owners.Owns mode' u ↔ s.owners.Owns mode' u ∨ (mode' = k ∧ u ∈ tmp)))
    (hshared : m.sharedCnt = m.sharedQueue.length) (hcount : m.cnt = owners.count)
    (hreaders : 0 ≤ m.cnt → m.sharedQueue = []) (hwriters : m.cnt = 0 → m.exclusiveQueue = []) :
    Sound { s with mutex := m, place := Function.update s.place th p, owners := owners } := by
  obtain ⟨harmed, -, hqueued, hnot⟩ := (hs.stands th).of_waitsFor_none hplace
  have hmem : ∀ mode' u, u ∈ s.mutex.queue mode' ↔ (mode' = k ∧ u ∈ tmp) ∨ u ∈ m.queue mode' := by
    intro mode' u
    rw [hqueue, mem_append]
    by_cases hmode : mode' = k <;> simp [hmode]
  have hfront : ∀ u ∈ tmp, u ∈ s.mutex.queue k := fun u hu => (hmem k u).mpr (.inl ⟨rfl, hu⟩)
  have hnodup : ∀ mode', (m.queue mode').Nodup ∧ (mode' = k → tmp.Nodup ∧ ∀ u ∈ tmp, u ∉ m.queue mode') := by
    intro mode'
    have hall := hs.nodup mode'
    rw [hqueue] at hall
    obtain ⟨hleft, hright, hdisjoint⟩ := nodup_append.mp hall
    refine ⟨hright, fun hmode => ?_⟩
    rw [if_pos hmode] at hleft hdisjoint
    exact ⟨hleft, fun u hu hu' => hdisjoint u hu u hu' rfl⟩
  have hhanded : ∀ u, (∃ w, u ∈ (Function.update s.place th p w).tmp) ↔ s.Handed u ∨ u ∈ tmp := by
    intro u
    simp only [mem_tmp_update htmp, exists_or, exists_eq_left, hptmp]
    rfl
  refine ⟨hcount, hshared, hreaders, hwriters, fun mode' => (hnodup mode').1, ?_, ?_⟩
  · refine stands_of_update rfl (.settled hp harmed hself (fun mode' hu => ?_) (fun h => ?_)) fun u hu => ?_
    · exact hqueued mode' ((hmem mode' th).mpr (.inr hu))
    · rcases (hhanded th).mp h with h | h
      · exact hnot h
      · exact hqueued k (hfront th h)
    by_cases hin : u ∈ tmp
    · obtain ⟨hwaits, hlinked, hnone, honly, -⟩ := (hs.stands u).of_queued (hfront u hin)
      refine .handed k hwaits hlinked (fun mode' => ?_) (fun mode' hu' => ?_) ((hhanded u).mpr (.inr hin))
      · rw [hown mode' u hu]
        simp [hnone mode', hin]
      · have hmode := (honly mode').mp ((hmem mode' u).mpr (.inr hu'))
        exact ((hnodup mode').2 hmode).2 u hin hu'
    refine (hs.stands u).congr (fun mode' => ?_) (fun mode' => ?_) ?_
    · rw [hown mode' u hu]
      simp [hin]
    · rw [hmem mode' u]
      simp [hin]
    · exact (hhanded u).trans (or_iff_left hin)
  · have hnew : ∀ u ∈ p.tmp, ∀ w, u ∉ (s.place w).tmp := by
      intro u hu w hw
      exact ((hs.stands u).of_queued (hfront u (hptmp ▸ hu))).2.2.2.2 ⟨w, hw⟩
    refine hs.wakers.release htmp (hptmp ▸ ((hnodup k).2 rfl).1) hnew fun rest hrest => ?_
    have hlength := hone ⟨rest, hrest⟩
    rw [← hptmp, hrest] at hlength
    exact hlength

theorem Sound.wakes (hs : Sound s) {w th : τ} {rest : List τ}
    (hplace : (s.place w).waitsFor = none) (htmp : (s.place w).tmp = th :: rest) (hp : p.waitsFor = none)
    (hptmp : p.tmp = rest) (hone : ∀ tmp, p ≠ .wakingOne tmp) (hholds : p.holds = (s.place w).holds) :
    Sound (s.wakes w p th) := by
  have hin : s.Handed th := ⟨w, htmp ▸ mem_cons_self⟩
  have hne : th ≠ w := by
    rintro rfl
    exact ((hs.stands th).of_waitsFor_none hplace).2.2.2 hin
  have hnodup : th ∉ rest := by
    have hall := hs.wakers.nodup w
    rw [htmp] at hall
    exact (nodup_cons.mp hall).1
  obtain ⟨mode, hwaits, -, hown, hqueued⟩ := (hs.stands th).of_handed hin
  have hempty : (s.place th).tmp = [] := LockPlace.tmp_of_waitsFor hwaits
  have hwoken : (s.place th).woken.tmp = [] := LockPlace.tmp_woken_of_waitsFor hwaits
  have hwakers : Wakers (update s.place w p) := by
    refine hs.wakers.update ?_ hone
    rw [hptmp, htmp]
    exact sublist_cons_self th rest
  have hmem : ∀ v u, u ∈ ((s.wakes w p th).place v).tmp ↔ u ∈ (s.place v).tmp ∧ u ≠ th := by
    intro v u
    change u ∈ (update (update s.place w p) th (s.place th).woken v).tmp ↔ _
    by_cases hv : v = th
    · rw [hv, update_self, hwoken, hempty]
      simp
    rw [update_of_ne hv]
    by_cases hw : v = w
    · rw [hw, update_self, hptmp, htmp, mem_cons]
      constructor
      · exact fun hu => ⟨.inr hu, fun heq => hnodup (heq ▸ hu)⟩
      · exact fun hu => hu.1.resolve_left hu.2
    rw [update_of_ne hw]
    refine (and_iff_left_of_imp fun hu heq => hw ?_).symm
    refine hs.wakers.unique hu ?_
    rw [heq, htmp]
    exact mem_cons_self
  have hhanded : ∀ u, (s.wakes w p th).Handed u ↔ s.Handed u ∧ u ≠ th := by
    intro u
    simp [Handed, hmem, exists_and_right]
  refine { hs with stands := ?_, wakers := ?_ }
  · refine stands_of_update rfl ?_ fun u hu => ?_
    · have hnot : ¬ (s.wakes w p th).Handed th := fun h => ((hhanded th).mp h).2 rfl
      have harmed : (s.wakes w p th).linkArmed th = false := update_self ..
      cases hth : s.place th with
      | parked mode' interruptible =>
        rw [hth] at hwaits
        obtain rfl := Option.some.inj hwaits
        refine .settled rfl harmed (fun mode'' => (hown mode'').trans ?_) hqueued hnot
        simp [LockPlace.woken, LockPlace.holds, eq_comm]
      | interrupted mode' =>
        rw [hth] at hwaits
        obtain rfl := Option.some.inj hwaits
        exact .woken mode' rfl harmed hown hqueued hnot
      | _ => rw [hth] at hwaits; cases hwaits
    · have harmed : (s.wakes w p th).linkArmed u = s.linkArmed u := update_of_ne hu ..
      rw [harmed]
      by_cases hw : u = w
      · subst hw
        obtain ⟨hlinked, howns, hnone, hnot⟩ := (hs.stands u).of_waitsFor_none hplace
        rw [update_self]
        refine .settled hp hlinked (fun mode' => (howns mode').trans ?_) hnone fun h => hnot ((hhanded u).mp h).1
        rw [hholds]
      · rw [update_of_ne hw]
        exact (hs.stands u).congr (fun _ => Iff.rfl) (fun _ => Iff.rfl) ((hhanded u).trans (and_iff_left hu))
  · refine hwakers.update ?_ ?_
    · rw [hwoken]
      exact nil_sublist _
    intro tmp h
    rw [h] at hwoken
    cases hth : s.place th with
    | parked | interrupted => rw [hth] at h; cases h
    | _ => rw [hth] at hwaits; cases hwaits

end LockSystem
end Junction
