import Junction.ProcessTree

/-!
# The links between processes

Every child is listed once, by its parent, and a thread that goes on under a lock is recorded there. Most steps leave
the links alone: they move one thread, wake others and change a lock only if that thread holds it.
-/

namespace Junction
open Function

variable {n : Notice} {r : WaitRequest}

namespace Place

def notice : Place → Option Notice
  | notifying n => some n
  | signalling n => some n
  | _ => none

def plain : Place → Bool
  | notifying _ => false
  | signalling _ => false
  | arming _ => false
  | _ => true

inductive Woken : Place → Place → Prop
  | same (pl : Place) : Woken pl pl
  | exit (status : ℤ) (parked : Bool) : Woken (exitWait status parked) (exitWait status false)
  | stop (parked : Bool) : Woken (stopWait parked) (stopWait false)
  | wait (r : WaitRequest) : Woken (waiting r .parked) (waiting r .woken)

variable {pl pl' pl'' : Place}

variable (h : Woken pl pl')
include h

theorem Woken.trans (h' : Woken pl' pl'') : Woken pl pl'' := by
  cases h with
  | same => exact h'
  | exit | stop => cases h' <;> constructor
  | wait r => cases h' with | same => exact .wait r

theorem Woken.notice_eq : pl'.notice = pl.notice := by
  cases h <;> rfl

theorem Woken.eq_signalling : pl' = signalling n ↔ pl = signalling n := by
  cases h <;> simp

theorem Woken.eq_notifying : pl' = notifying n ↔ pl = notifying n := by
  cases h <;> simp

theorem Woken.eq_arming : pl' = arming r ↔ pl = arming r := by
  cases h <;> simp

theorem Woken.eq_absent : pl' = absent ↔ pl = absent := by
  cases h <;> simp

theorem Woken.eq_parked (hparked : pl' = waiting r .parked) : pl = waiting r .parked := by
  cases h with
  | same => exact hparked
  | exit | stop | wait => cases hparked

omit h

theorem woken_wakeExit (pl : Place) : Woken pl pl.wakeExit := by
  cases pl <;> constructor

theorem woken_wakeStop (pl : Place) : Woken pl pl.wakeStop := by
  cases pl <;> constructor

theorem woken_wakeWait (pl : Place) : Woken pl pl.wakeWait := by
  cases pl with
  | waiting r w => cases w <;> constructor
  | _ => constructor

theorem wakeWait_ne_parked (pl : Place) (r : WaitRequest) : pl.wakeWait ≠ waiting r .parked := by
  cases pl with
  | waiting r' w => cases w <;> simp [wakeWait]
  | _ => simp [wakeWait]

theorem notice_eq_none (h : pl.plain) : pl.notice = none := by
  cases pl <;> simp_all [plain, notice]

end Place

open Place

/-- A process without its locks and without the state of its stops. -/
def Process.core (p : Process) : Process :=
  { p with stoppedGen := 0, stoppedCount := 0, threadLock := none, queueLock := none, lastStatus := 0 }

namespace ProcessTree
variable {s s' s'' : ProcessTree} {th c p : ℕ} {pl : Place} {q : Process}

@[simp] theorem proc_setPlace : (s.setPlace th pl).proc = s.proc := rfl
@[simp] theorem home_setPlace : (s.setPlace th pl).home = s.home := rfl
@[simp] theorem place_setPlace : (s.setPlace th pl).place th = pl := update_self ..
@[simp] theorem place_setProc : (s.setProc c q).place = s.place := rfl
@[simp] theorem proc_setProc : (s.setProc c q).proc c = q := update_self ..
variable {f : Place → Place}

@[simp] theorem proc_wake : (s.wake c f).proc = s.proc := rfl

theorem place_reapChild : (s.reapChild p c).place = s.place := by
  unfold reapChild
  split_ifs <;> rfl

theorem place_reportChild : (s.reportChild p c r).place = s.place := by
  unfold reportChild
  split_ifs
  · rfl
  · exact place_reapChild

theorem home_reportChild : (s.reportChild p c r).home = s.home := by
  dsimp only [reportChild, reapChild]
  split_ifs <;> rfl

theorem place_setPlace_of_ne {u : ℕ} (h : u ≠ th) : (s.setPlace th pl).place u = s.place u := update_of_ne h ..

theorem proc_setProc_of_ne (h : p ≠ c) : (s.setProc c q).proc p = s.proc p := update_of_ne h ..

variable {α : Type*}

theorem field_setProc (f : Process → α) (h : f q = f (s.proc c)) (p : ℕ) :
    f ((s.setProc c q).proc p) = f (s.proc p) := by
  rcases eq_or_ne p c with rfl | hne
  · rw [proc_setProc, h]
  · rw [proc_setProc_of_ne hne]

theorem field_write (f : Process → α) (hlock : ∀ q, f { q with queueLock := some th } = f q)
    (hstate : ∀ q, f { q with waitState := n.state, waitStatus := n.status } = f q) (p : ℕ) :
    f ((s.writeWaitState th n).proc p) = f (s.proc p) :=
  (field_setProc f (hstate _) p).trans (field_setProc f (hlock _) p)

variable {new : ℕ}

theorem field_createProcess {child : ℕ} {pid : ℤ} (f : Process → α)
    (hf : ∀ q l, f { q with children := l } = f q) (hne : c ≠ child) :
    f ((s.createProcess p child new pid).proc c) = f (s.proc c) := by
  have hproc : (s.createProcess p child new pid).proc c = (s.setProc p _).proc c := proc_setProc_of_ne hne
  rw [hproc]
  exact field_setProc f (hf _ _) c

theorem field_reportChild (f : Process → α)
    (hf : ∀ q st o l, f { q with waitState := st, parent := o, children := l } = f q) (d : ℕ) :
    f ((s.reportChild p c r).proc d) = f (s.proc d) := by
  dsimp only [reportChild, reapChild]
  split_ifs
  · rfl
  · exact field_setProc f (hf ..) d
  · exact (field_setProc f (hf ..) d).trans (field_setProc f (hf ..) d)

/-- A step of a thread, or of nobody, that leaves all processes alone but for their locks and their stops. The other
threads keep their locks and have not moved, but may have been woken. -/
structure Local (s s' : ProcessTree) (actor : Option ℕ) : Prop where
  home : s'.home = s.home
  others : ∀ u, some u ≠ actor → Woken (s.place u) (s'.place u)
  core : ∀ p, (s'.proc p).core = (s.proc p).core
  threadLock : ∀ p u, some u ≠ actor → (s.proc p).threadLock = some u → (s'.proc p).threadLock = some u
  queueLock : ∀ p u, some u ≠ actor → (s.proc p).queueLock = some u → (s'.proc p).queueLock = some u
  reports : s'.reports = s.reports

namespace Local
variable {actor : Option ℕ}

theorem refl (s : ProcessTree) (actor : Option ℕ) : Local s s actor :=
  ⟨rfl, fun _ _ => .same _, fun _ => rfl, fun _ _ _ h => h, fun _ _ _ h => h, rfl⟩

theorem trans (h : Local s s' actor) (h' : Local s' s'' actor) : Local s s'' actor where
  home := h'.home.trans h.home
  others u hu := (h.others u hu).trans (h'.others u hu)
  core p := (h'.core p).trans (h.core p)
  threadLock p u hu hlock := h'.threadLock p u hu (h.threadLock p u hu hlock)
  queueLock p u hu hlock := h'.queueLock p u hu (h.queueLock p u hu hlock)
  reports := h'.reports.trans h.reports

theorem lift (h : Local s s' none) (actor : Option ℕ) : Local s s' actor :=
  ⟨h.home, fun u _ => h.others u nofun, h.core, fun p u _ => h.threadLock p u nofun,
    fun p u _ => h.queueLock p u nofun, h.reports⟩

theorem wake (c : ℕ) (hf : ∀ pl, Woken pl (f pl)) : Local s (s.wake c f) none where
  home := rfl
  others u _ := by
    change Woken (s.place u) (if s.home u = c then f (s.place u) else s.place u)
    split_ifs
    · exact hf _
    · exact .same _
  core _ := rfl
  threadLock _ _ _ h := h
  queueLock _ _ _ h := h
  reports := rfl

theorem setPlace (s : ProcessTree) (th : ℕ) (pl : Place) : Local s (s.setPlace th pl) (some th) where
  home := rfl
  others u hu := by
    rw [place_setPlace_of_ne fun h => hu (congrArg some h)]
    exact .same _
  core _ := rfl
  threadLock _ _ _ h := h
  queueLock _ _ _ h := h
  reports := rfl

theorem setProc (hcore : q.core = (s.proc c).core)
    (hthreads : ∀ u, some u ≠ actor → (s.proc c).threadLock = some u → q.threadLock = some u)
    (hqueue : ∀ u, some u ≠ actor → (s.proc c).queueLock = some u → q.queueLock = some u) :
    Local s (s.setProc c q) actor := by
  have hproc : ∀ p, p = c ∨ (s.setProc c q).proc p = s.proc p := fun p =>
    (eq_or_ne p c).imp_right proc_setProc_of_ne
  refine ⟨rfl, fun _ _ => .same _, fun p => ?_, fun p u hu h => ?_, fun p u hu h => ?_, rfl⟩
  · rcases hproc p with rfl | heq
    · rw [proc_setProc]; exact hcore
    · rw [heq]
  · rcases hproc p with rfl | heq
    · rw [proc_setProc]; exact hthreads u hu h
    · rw [heq]; exact h
  rcases hproc p with rfl | heq
  · rw [proc_setProc]; exact hqueue u hu h
  · rw [heq]; exact h

theorem move (hcore : q.core = (s.proc c).core)
    (hthreads : ∀ u, some u ≠ some th → (s.proc c).threadLock = some u → q.threadLock = some u)
    (hqueue : ∀ u, some u ≠ some th → (s.proc c).queueLock = some u → q.queueLock = some u) :
    Local s ((s.setProc c q).setPlace th pl) (some th) :=
  (Local.setProc hcore hthreads hqueue).trans (setPlace _ th pl)

end Local

/-- All threads but one are where they were; they may have been woken. -/
structure Others (s s' : ProcessTree) (th : ℕ) : Prop where
  home : ∀ u, u ≠ th → s'.home u = s.home u
  woken : ∀ u, u ≠ th → Woken (s.place u) (s'.place u)

theorem Local.rest (h : Local s s' (some th)) : Others s s' th :=
  ⟨fun u _ => congrFun h.home u, fun u hu => h.others u fun heq => hu (Option.some.inj heq)⟩

theorem Others.setPlace (hhome : s'.home = s.home) (hplace : s'.place = s.place) : Others s (s'.setPlace th pl) th where
  home u _ := congrFun hhome u
  woken u hu := by
    rw [place_setPlace_of_ne hu, hplace]
    exact .same _

theorem Others.add (hhome : s'.home = update s.home new c) (hplace : s'.place = update s.place new pl) :
    Others s s' new where
  home u hu := by rw [hhome, update_of_ne hu]
  woken u hu := by
    rw [hplace, update_of_ne hu]
    exact .same _

/-! ### The parts of a section -/

theorem lock_elim {lock lock' : Option ℕ} (h : lock = none ∨ lock = some th) (u : ℕ) (hu : some u ≠ some th)
    (hlock : lock = some u) : lock' = some u := by
  rcases h with h | h
  · rw [h] at hlock; cases hlock
  · exact absurd (hlock.symm.trans h) hu

theorem local_stopSleep : Local s (s.stopSleep th c) (some th) := by
  dsimp only [stopSleep]
  split_ifs
  · exact .move rfl (fun _ _ h => h) (fun _ _ h => h)
  · exact .setPlace _ _ _

variable {o : Origin} {status : ℤ}

theorem local_resume (hlock : o ≠ .exit → (s.proc c).threadLock = none ∨ (s.proc c).threadLock = some th) :
    Local s (s.resume th c status o) (some th) := by
  have hunlock : o ≠ .exit → Local s (s.setProc c { s.proc c with threadLock := none }) (some th) := fun ho =>
    .setProc rfl (lock_elim (hlock ho)) (fun _ _ h => h)
  cases o with
  | exit => exact .setPlace _ _ _
  | stop => exact ((hunlock nofun).trans ((Local.wake c woken_wakeStop).lift _)).trans local_stopSleep
  | finish | cont => exact (hunlock nofun).trans (.setPlace _ _ _)

theorem local_notifyParentWait {state : WaitState} (hlock : o ≠ .exit → (s.proc c).threadLock = none) :
    Local s (s.notifyParentWait th c state status o) (some th) := by
  unfold notifyParentWait
  split
  · exact local_resume fun ho => .inl (hlock ho)
  refine .move rfl (fun u hu h => ?_) (fun _ _ h => h)
  by_cases ho : o = .exit
  · rw [if_pos ho]; exact h
  · rw [hlock ho] at h; cases h

/-! ### The invariant -/

structure Linked (s : ProcessTree) : Prop where
  child_parent : ∀ p, ∀ c ∈ (s.proc p).children, (s.proc c).parent = some p
  parent_child : ∀ c p, (s.proc c).parent = some p → c ∈ (s.proc p).children
  nodup : ∀ p, (s.proc p).children.Nodup
  parent_born : ∀ c p, (s.proc c).parent = some p → (s.proc c).born = true ∧ (s.proc p).born = true
  init_born : (s.proc init).born = true
  init_parent : (s.proc init).parent = none
  place_born : ∀ th, s.place th ≠ .absent → (s.proc (s.home th)).born = true
  notice_born : ∀ th n, (s.place th).notice = some n →
    (s.proc n.child).born = true ∧ (s.proc n.parent).born = true
  notice_lock : ∀ th n, (s.place th).notice = some n → n.origin ≠ .exit → (s.proc n.child).threadLock = some th
  signal_lock : ∀ th n, s.place th = .signalling n → (s.proc n.parent).queueLock = some th
  arming_lock : ∀ th r, s.place th = .arming r → (s.proc (s.home th)).queueLock = some th

namespace Local
variable {actor : Option ℕ}

theorem field (h : Local s s' actor) (f : Process → α) (hf : ∀ q, f q.core = f q) (p : ℕ) :
    f (s'.proc p) = f (s.proc p) := by
  rw [← hf, h.core, hf]

theorem parent (h : Local s s' actor) : ∀ p, (s'.proc p).parent = (s.proc p).parent :=
  h.field Process.parent fun _ => rfl

theorem children (h : Local s s' actor) : ∀ p, (s'.proc p).children = (s.proc p).children :=
  h.field Process.children fun _ => rfl

theorem born (h : Local s s' actor) : ∀ p, (s'.proc p).born = (s.proc p).born := h.field Process.born fun _ => rfl

end Local

/-- What the links ask of the thread that has taken a step. -/
structure Settles (s s' : ProcessTree) (th : ℕ) : Prop where
  place : s'.place th ≠ .absent → (s.proc (s.home th)).born
  born : ∀ n, (s'.place th).notice = some n → (s.proc n.child).born ∧ (s.proc n.parent).born
  lock : ∀ n, (s'.place th).notice = some n → n.origin ≠ .exit → (s'.proc n.child).threadLock = some th
  signal : ∀ n, s'.place th = .signalling n → (s'.proc n.parent).queueLock = some th
  arming : ∀ r, s'.place th = .arming r → (s'.proc (s.home th)).queueLock = some th

theorem Linked.local {actor : Option ℕ} (h : Linked s) (hl : Local s s' actor)
    (hsettles : ∀ th, actor = some th → Settles s s' th) : Linked s' where
  child_parent p c hc := by
    rw [hl.children] at hc
    rw [hl.parent]
    exact h.child_parent p c hc
  parent_child c p hp := by
    rw [hl.parent] at hp
    rw [hl.children]
    exact h.parent_child c p hp
  nodup p := by
    rw [hl.children]
    exact h.nodup p
  parent_born c p hp := by
    rw [hl.parent] at hp
    rw [hl.born, hl.born]
    exact h.parent_born c p hp
  init_born := (hl.born init).trans h.init_born
  init_parent := (hl.parent init).trans h.init_parent
  place_born th hth := by
    rw [hl.home, hl.born]
    by_cases hactor : some th = actor
    · exact (hsettles th hactor.symm).place hth
    · exact h.place_born th fun habsent => hth ((hl.others th hactor).eq_absent.mpr habsent)
  notice_born th n hn := by
    rw [hl.born, hl.born]
    by_cases hactor : some th = actor
    · exact (hsettles th hactor.symm).born n hn
    · exact h.notice_born th n ((hl.others th hactor).notice_eq ▸ hn)
  notice_lock th n hn ho := by
    by_cases hactor : some th = actor
    · exact (hsettles th hactor.symm).lock n hn ho
    · exact hl.threadLock _ th hactor (h.notice_lock th n ((hl.others th hactor).notice_eq ▸ hn) ho)
  signal_lock th n hn := by
    by_cases hactor : some th = actor
    · exact (hsettles th hactor.symm).signal n hn
    · exact hl.queueLock _ th hactor (h.signal_lock th n ((hl.others th hactor).eq_signalling.mp hn))
  arming_lock th r hr := by
    rw [hl.home]
    by_cases hactor : some th = actor
    · exact (hsettles th hactor.symm).arming r hr
    · exact hl.queueLock _ th hactor (h.arming_lock th r ((hl.others th hactor).eq_arming.mp hr))

theorem Linked.relink (h : Linked s) (hhome : s'.home = s.home) (hplace : s'.place = s.place)
    (hsame : ∀ p, (s.proc p).born → (s'.proc p).born ∧ (s'.proc p).threadLock = (s.proc p).threadLock ∧
      (s'.proc p).queueLock = (s.proc p).queueLock)
    (hchild : ∀ p, ∀ c ∈ (s'.proc p).children, (s'.proc c).parent = some p)
    (hparent : ∀ c p, (s'.proc c).parent = some p → c ∈ (s'.proc p).children ∧ (s'.proc c).born ∧ (s'.proc p).born)
    (hnodup : ∀ p, (s'.proc p).children.Nodup) (hinit : (s'.proc init).parent = none) : Linked s' where
  child_parent := hchild
  parent_child c p hp := (hparent c p hp).1
  nodup := hnodup
  parent_born c p hp := (hparent c p hp).2
  init_born := (hsame init h.init_born).1
  init_parent := hinit
  place_born th hth := by
    rw [hplace] at hth
    rw [hhome]
    exact (hsame _ (h.place_born th hth)).1
  notice_born th n hn := by
    rw [hplace] at hn
    have hborn := h.notice_born th n hn
    exact ⟨(hsame _ hborn.1).1, (hsame _ hborn.2).1⟩
  notice_lock th n hn ho := by
    rw [hplace] at hn
    rw [(hsame _ (h.notice_born th n hn).1).2.1]
    exact h.notice_lock th n hn ho
  signal_lock th n hn := by
    rw [hplace] at hn
    rw [(hsame _ (h.notice_born th n (by rw [hn]; rfl)).2).2.2]
    exact h.signal_lock th n hn
  arming_lock th r hr := by
    rw [hplace] at hr
    rw [hhome, (hsame _ (h.place_born th (by rw [hr]; nofun))).2.2]
    exact h.arming_lock th r hr

theorem Linked.setProc (h : Linked s) (hparent : q.parent = (s.proc c).parent)
    (hchildren : q.children = (s.proc c).children) (hborn : q.born = (s.proc c).born)
    (hthreads : q.threadLock = (s.proc c).threadLock) (hqueue : q.queueLock = (s.proc c).queueLock) :
    Linked (s.setProc c q) := by
  have hparents := field_setProc Process.parent hparent
  have hlists := field_setProc Process.children hchildren
  have hborns := field_setProc Process.born hborn
  refine h.relink rfl rfl (fun p hp => ⟨(hborns p).trans hp, field_setProc Process.threadLock hthreads p,
    field_setProc Process.queueLock hqueue p⟩) ?_ ?_ ?_ ((hparents init).trans h.init_parent)
  · intro p d hd
    rw [hlists] at hd
    rw [hparents]
    exact h.child_parent p d hd
  · intro d p hp
    rw [hparents] at hp
    rw [hlists, hborns, hborns]
    exact ⟨h.parent_child d p hp, h.parent_born d p hp⟩
  intro p
  rw [hlists]
  exact h.nodup p

end ProcessTree
end Junction
