import Junction.ProcessTreeLinks

/-!
# What a step can do

Every step is one of a few effects. In most of them one thread moves, and the moves are listed. The others change the
threads, the wait state or the parent of a process, and each of them is a definition of the model.
-/

namespace Junction

variable {n : Notice} {pl : Place}

namespace Place

/-- The thread runs, is stopped or waits for children, without a lock. -/
def calm : Place → Bool
  | running => true
  | stopWait _ => true
  | waiting _ _ => true
  | _ => false

def After (n : Notice) (pl : Place) : Prop :=
  match n.origin with
  | .exit => pl = .finishing n.status
  | .stop => pl = .running ∨ pl = .stopWait true
  | .finish => pl = .processFinish ∨ pl = .absent
  | .cont => pl = .running

theorem After.not_parked (h : After n pl) (r : WaitRequest) : pl ≠ .waiting r .parked := by
  unfold After at h
  rintro rfl
  cases hn : n.origin <;> simp [hn] at h

end Place

open Place Option

namespace ProcessTree
variable {s s' : ProcessTree} {th c p : ℕ} {e : Event}

/-- The moves of a thread in a step that leaves all processes alone. -/
inductive Move (s s' : ProcessTree) (e : Event) (th : ℕ) : Place → Place → Prop
  | calm {pl pl' : Place} (h : pl.calm = true) (h' : pl'.calm = true) (hparked : ∀ r, pl' ≠ .waiting r .parked) :
      Move s s' e th pl pl'
  | leave (status : ℤ) : Move s s' e th .running (.finishing status)
  | exitPark (status : ℤ) : Move s s' e th (.exitWait status false) (.exitWait status true)
  | exitAlone (status : ℤ) (hlen : (s.proc (s.home th)).threadMap.length = 1) (hfree : s.threadsFree (s.home th)) :
      Move s s' e th (.exitWait status false) (.exitNotify status)
  | exitOrphan (status : ℤ) (hparent : (s.proc (s.home th)).parent = none) :
      Move s s' e th (.exitNotify status) (.finishing status)
  | exitRead (status : ℤ) (p : ℕ) (hparent : (s.proc (s.home th)).parent = some p) :
      Move s s' e th (.exitNotify status) (.notifying ⟨s.home th, .exited, status, .exit, p⟩)
  | stopRead (p : ℕ) (hparent : (s.proc (s.home th)).parent = some p)
      (hlock : (s'.proc (s.home th)).threadLock = some th) :
      Move s s' e th .running (.notifying ⟨s.home th, .stopped, 0, .stop, p⟩)
  | contRead (c p : ℕ) (he : e = .cont th c) (hstopped : (s.proc c).isStopped = true)
      (hparent : (s.proc c).parent = some p) (hlock : (s'.proc c).threadLock = some th) :
      Move s s' e th .running (.notifying ⟨c, .continued, 0, .cont, p⟩)
  | signalled (n : Notice) (q : ℕ) {pl : Place} (hparent : (s.proc n.child).parent = some q)
      (hwoken : ∀ u r, s.home u = q → s'.place u ≠ .waiting r .parked) (hafter : After n pl) :
      Move s s' e th (.signalling n) pl
  | gone : Move s s' e th .processFinish .absent
  | arm {pl : Place} (r : WaitRequest) (h : pl.calm = true) (hfind : s.findWaitableProcess (s.home th) r = .ok none)
      (hfree : s.queueFree (s.home th)) (hlock : (s'.proc (s.home th)).queueLock = some th) :
      Move s s' e th pl (.arming r)
  | park (r : WaitRequest) : Move s s' e th (.arming r) (.waiting r .parked)

/-- The state of a process after `DoExit` has claimed the exit. -/
def claimExit (s : ProcessTree) (c : ℕ) (status : ℤ) : ProcessTree :=
  s.setProc c { s.proc c with xstate := status, exited := true }

/-- The state of a process after `ThreadFinish` has taken the thread out. -/
def dropThread (s : ProcessTree) (c th : ℕ) (status : ℤ) : ProcessTree :=
  s.setProc c { s.proc c with threadMap := (s.proc c).threadMap.erase th, lastStatus := status }

inductive Effect (s s' : ProcessTree) (e : Event) : Prop
  | quiet (actor : Option ℕ) (hlocal : Local s s' actor)
      (hmove : ∀ th, actor = some th → Move s s' e th (s.place th) (s'.place th))
  | exitGroup (th : ℕ) (status : ℤ) (hplace : s.place th = .running) (hfirst : (s.proc (s.home th)).exited = false)
      (hfree : s.threadsFree (s.home th)) (hlocal : Local (s.claimExit (s.home th) status) s' (some th))
      (hafter : s'.place th = .exitWait status true ∨
        (s.proc (s.home th)).threadMap.length = 1 ∧ s'.place th = .exitNotify status)
  | finish (th : ℕ) (status : ℤ) (he : e = .finish th) (hplace : s.place th = .finishing status)
      (hfree : s.threadsFree (s.home th)) (hlocal : Local (s.dropThread (s.home th) th status) s' (some th))
      (hafter : s'.place th = .processFinish ∨ s'.place th = .absent ∨
        ∃ p, (s.proc (s.home th)).isStopped = true ∧ (s.proc (s.home th)).parent = some p ∧
          s'.place th = .notifying ⟨s.home th, .stopped, 0, .finish, p⟩ ∧
          (s'.proc (s.home th)).threadLock = some th)
  | createThread (th new : ℕ) (hplace : s.place th = .running) (hnew : s.place new = .absent)
      (hexited : (s.proc (s.home th)).exited = false) (heq : s' = s.createThread (s.home th) new)
  | createProcess (th child new : ℕ) (pid : ℤ) (hplace : s.place th = .running) (hnew : s.place new = .absent)
      (hchild : (s.proc child).born = false) (hfree : s.queueFree (s.home th))
      (heq : s' = s.createProcess (s.home th) child new pid)
  | write (th : ℕ) (n : Notice) (he : e = .write th) (hplace : s.place th = .notifying n) (hfree : s.queueFree n.parent)
      (heq : s' = s.writeWaitState th n)
  | report (th c : ℕ) (r : WaitRequest) (hplace : (s.place th).calm = true) (hfree : s.queueFree (s.home th))
      (hchild : c ∈ (s.proc (s.home th)).children) (heq : s' = (s.reportChild (s.home th) c r).setPlace th .running)
  | reparent (th : ℕ) (he : e = .processFinish th) (hplace : s.place th = .processFinish) (hinit : s.home th ≠ init)
      (hfree : s.queueFree init) (heq : s' = (s.reparent (s.home th)).setPlace th .absent)
  | halt (heq : s' = { s with halted := true })

theorem Effect.idle (s : ProcessTree) (e : Event) : Effect s s e := .quiet none (.refl s none) (fun _ h => nomatch h)

theorem Effect.moves (hlocal : Local s s' (some th)) (hmove : Move s s' e th (s.place th) (s'.place th)) :
    Effect s s' e := by
  refine .quiet (some th) hlocal fun u hu => ?_
  obtain rfl := some.inj hu
  exact hmove

theorem Effect.sets (hmove : Move s (s.setPlace th pl) e th (s.place th) pl) : Effect s (s.setPlace th pl) e := by
  refine .moves (.setPlace s th _) ?_
  rw [place_setPlace]
  exact hmove

theorem Effect.of_ite {P : Prop} [Decidable P] (h : P → Effect s s' e) : Effect s (if P then s' else s) e := by
  by_cases hP : P
  · rw [if_pos hP]; exact h hP
  · rw [if_neg hP]; exact .idle s e

/-! ### Looking for a child -/

variable {r : WaitRequest}

theorem find_some (h : s.findWaitableProcess p r = .ok (some c)) : c ∈ (s.proc p).children := by
  unfold findWaitableProcess at h
  by_cases hfd : r.idtype = .pidfd
  · rw [if_pos hfd] at h; cases h
  rw [if_neg hfd] at h
  dsimp only at h
  split at h
  · next d hd =>
      cases h
      exact (List.mem_filter.mp (List.mem_of_find?_eq_some hd)).1
  · split_ifs at h
    cases h

theorem find_none (h : s.findWaitableProcess p r = .ok none) (hc : c ∈ (s.proc p).children)
    (hcandidate : s.candidate p r c) : r.wants (s.proc c).waitState = false := by
  unfold findWaitableProcess at h
  by_cases hfd : r.idtype = .pidfd
  · rw [if_pos hfd] at h; cases h
  rw [if_neg hfd] at h
  dsimp only at h
  split at h
  · cases h
  next hnone =>
    have hno := List.find?_eq_none.mp hnone c (List.mem_filter.mpr ⟨hc, hcandidate⟩)
    exact Bool.eq_false_iff.mpr hno

theorem effect_doWait {through : Bool} (hplace : (s.place th).calm)
    (hfree : s.queueFree (s.home th)) : Effect s (s.doWait th r through) e := by
  have hrun : Effect s (s.setPlace th .running) e := .sets (.calm hplace rfl nofun)
  dsimp only [doWait]
  split
  · exact hrun
  · next c hc => exact .report th c r hplace hfree (find_some hc) rfl
  next hnone =>
    split_ifs
    · exact hrun
    have hqueue : (s.proc (s.home th)).queueLock = none := hfree
    refine .moves (.move rfl (fun _ _ h => h) fun u _ h => ?_) ?_
    · rw [hqueue] at h; cases h
    · rw [place_setPlace]
      exact .arm r hplace hnone hfree (by simp)

/-! ### The sections under `child_thread_lock_` -/

theorem place_stopSleep : (s.stopSleep th c).place th = .running ∨ (s.stopSleep th c).place th = .stopWait true := by
  dsimp only [stopSleep]
  split_ifs
  · exact .inl place_setPlace
  · exact .inr place_setPlace

theorem after_resume (n : Notice) : After n ((s.resume th n.child n.status n.origin).place th) := by
  unfold After
  cases n.origin with
  | exit | cont => exact place_setPlace
  | stop => exact place_stopSleep
  | finish =>
    simp only [resume, place_setPlace]
    split_ifs
    · exact .inl rfl
    · exact .inr rfl

theorem Move.of_stopSleep (hplace : (s.place th).calm)
    (h : pl = .running ∨ pl = .stopWait true) : Move s s' e th (s.place th) pl := by
  rcases h with rfl | rfl <;> exact .calm hplace rfl nofun

theorem effect_stopSleep (hplace : (s.place th).calm) : Effect s (s.stopSleep th c) e := by
  refine .moves local_stopSleep ?_
  exact .of_stopSleep hplace place_stopSleep

theorem effect_signalParent (hs : Linked s) (hplace : s.place th = .signalling n) :
    Effect s (s.signalParent th n) e := by
  unfold signalParent
  split
  · exact .halt rfl
  next q hparent =>
  have hwake : Local s (s.wake q wakeWait) none := .wake q woken_wakeWait
  have hunlock : Local (s.wake q wakeWait) ((s.wake q wakeWait).setProc n.parent
      { (s.wake q wakeWait).proc n.parent with queueLock := none }) (some th) :=
    .setProc rfl (fun _ _ h => h) (lock_elim (.inr (hs.signal_lock th n hplace)))
  have hlock : n.origin ≠ .exit → (((s.wake q wakeWait).setProc n.parent
      { (s.wake q wakeWait).proc n.parent with queueLock := none }).proc n.child).threadLock = some th := by
    intro ho
    have hheld := hs.notice_lock th n (by rw [hplace]; rfl) ho
    rcases eq_or_ne n.child n.parent with heq | hne
    · rw [heq, proc_setProc, ← heq]; exact hheld
    · rw [proc_setProc_of_ne hne]; exact hheld
  have hresume : Local _ (resume _ th n.child n.status n.origin) (some th) := local_resume fun ho => .inr (hlock ho)
  refine .moves (((hwake.lift _).trans hunlock).trans hresume) ?_
  rw [hplace]
  refine .signalled n q hparent (fun v r hv hparked => ?_) (after_resume n)
  rcases eq_or_ne v th with rfl | hne
  · exact After.not_parked (after_resume n) r hparked
  have hbefore := (hresume.others v fun h => hne (some.inj h)).eq_parked hparked
  rw [place_setProc] at hbefore
  change (if s.home v = q then wakeWait (s.place v) else s.place v) = _ at hbefore
  rw [if_pos hv] at hbefore
  exact wakeWait_ne_parked _ r hbefore

variable {status : ℤ}

theorem effect_doExit (hplace : s.place th = .running) (hfree : s.threadsFree (s.home th)) :
    Effect s (s.doExit th status) e := by
  dsimp only [doExit]
  split_ifs with hexited
  · refine .sets ?_
    rw [hplace]
    exact .leave status
  refine .exitGroup th status hplace (Bool.eq_false_iff.mpr hexited) hfree
    (((Local.wake (s.home th) woken_wakeStop).lift _).trans (.setPlace _ th _)) ?_
  simp only [exitSleep, place_setPlace, proc_wake, proc_setProc]
  split_ifs with hlen
  · exact .inr ⟨hlen, rfl⟩
  · exact .inl rfl

theorem effect_threadFinish (hplace : s.place th = .finishing status) (hfree : s.threadsFree (s.home th)) :
    Effect s (s.threadFinish th status) (.finish th) := by
  set s₁ := s.dropThread (s.home th) th status with hs₁
  change Effect s (if _ then notifyParentWait (if _ then s₁.wake _ _ else s₁) _ _ _ _ _ else
    resume (if _ then s₁.wake _ _ else s₁) _ _ _ _) _
  set s₂ := if ((s.proc (s.home th)).threadMap.erase th).length = 1 then s₁.wake (s.home th) wakeExit else s₁ with hs₂
  have hlocal : Local s₁ s₂ (some th) := by
    rw [hs₂]
    split_ifs
    · exact (Local.wake _ woken_wakeExit).lift _
    · exact .refl _ _
  have hproc : s₂.proc = s₁.proc := by
    rw [hs₂]
    split_ifs <;> rfl
  have hlock : (s₂.proc (s.home th)).threadLock = none := by
    rw [hproc, hs₁, dropThread, proc_setProc]
    exact hfree
  have hgone : ∀ st, (s₂.resume th (s.home th) st .finish).place th = .processFinish ∨
      (s₂.resume th (s.home th) st .finish).place th = .absent := fun st =>
    after_resume ⟨s.home th, .stopped, st, .finish, 0⟩
  split_ifs with hstopped
  · refine .finish th status rfl hplace hfree (hlocal.trans (local_notifyParentWait fun _ => hlock)) ?_
    unfold notifyParentWait
    split
    · exact (hgone 0).imp_right .inl
    next q hparent =>
      rw [hproc, hs₁, dropThread, proc_setProc] at hparent
      refine .inr (.inr ⟨q, ?_, hparent, place_setPlace, ?_⟩)
      · exact (Bool.and_eq_true_iff.mp hstopped).1
      · rw [proc_setPlace, proc_setProc]
        rfl
  · exact .finish th status rfl hplace hfree (hlocal.trans (local_resume fun _ => .inl hlock))
      ((hgone status).imp_right .inl)

theorem effect_threadStopWait (hplace : s.place th = .running) (hfree : s.threadsFree (s.home th)) :
    Effect s (s.threadStopWait th) e := by
  have hcalm : (s.place th).calm := by rw [hplace]; rfl
  dsimp only [threadStopWait]
  split_ifs with hstopped hall
  · set s₁ := s.setProc (s.home th)
      { s.proc (s.home th) with stoppedCount := (s.proc (s.home th)).stoppedCount + 1 } with hs₁
    have hcount : Local s s₁ none := .setProc rfl (fun _ _ h => h) (fun _ _ h => h)
    have hlock : (s₁.proc (s.home th)).threadLock = none := by
      rw [hs₁, proc_setProc]
      exact hfree
    refine .moves ((hcount.lift _).trans (local_notifyParentWait fun _ => hlock)) ?_
    unfold notifyParentWait
    split
    · exact .of_stopSleep hcalm place_stopSleep
    next q hparent =>
      rw [hs₁, proc_setProc] at hparent
      rw [hplace, place_setPlace]
      exact .stopRead q hparent (by simp)
  · have hcount : Local s (s.setProc (s.home th)
        { s.proc (s.home th) with stoppedCount := (s.proc (s.home th)).stoppedCount + 1 }) none :=
      .setProc rfl (fun _ _ h => h) (fun _ _ h => h)
    refine .moves ((hcount.lift _).trans local_stopSleep) ?_
    exact .of_stopSleep hcalm place_stopSleep
  · exact .idle s e

theorem effect_jobControlContinue (hplace : s.place th = .running) (hfree : s.threadsFree c) :
    Effect s (s.jobControlContinue th c) (.cont th c) := by
  dsimp only [jobControlContinue]
  split_ifs with hstopped
  · set s₁ := (s.setProc c { s.proc c with stoppedGen := (s.proc c).stoppedGen + 1 }).wake c wakeStop with hs₁
    have hgen : Local s (s.setProc c { s.proc c with stoppedGen := (s.proc c).stoppedGen + 1 }) none :=
      .setProc rfl (fun _ _ h => h) (fun _ _ h => h)
    have hstart : Local s s₁ none := hgen.trans (.wake c woken_wakeStop)
    have hlock : (s₁.proc c).threadLock = none := by
      rw [hs₁, proc_wake, proc_setProc]
      exact hfree
    refine .moves ((hstart.lift _).trans (local_notifyParentWait fun _ => hlock)) ?_
    rw [hplace]
    unfold notifyParentWait
    split
    · rw [resume, place_setPlace]
      exact .calm rfl rfl nofun
    next q hparent =>
      rw [hs₁, proc_wake, proc_setProc] at hparent
      rw [place_setPlace]
      exact .contRead c q rfl hstopped hparent (by simp)
  · exact .idle s _

theorem effect_act (hs : Linked s) (e : Event) : Effect s (s.act e) e := by
  cases e with
  | clone th new =>
    refine .of_ite fun ⟨hplace, hnew, _⟩ => ?_
    by_cases hexited : (s.proc (s.home th)).exited
    · rw [createThread, if_pos hexited]
      exact .idle s _
    · exact .createThread th new hplace hnew (Bool.eq_false_iff.mpr hexited) rfl
  | vfork th child new pid =>
    exact .of_ite fun ⟨hplace, hnew, hchild, hfree⟩ => .createProcess th child new pid hplace hnew hchild hfree rfl
  | exit th status =>
    refine .of_ite fun hplace => .sets ?_
    rw [hplace]
    exact .leave status
  | exitGroup th status => exact .of_ite fun ⟨hplace, hfree⟩ => effect_doExit hplace hfree
  | exitResume th =>
    dsimp only [act]
    split
    · next status hplace =>
        refine .of_ite fun hfree => .moves (.setPlace s th _) ?_
        rw [hplace, exitSleep, place_setPlace]
        split_ifs with hlen
        · exact .exitAlone status hlen hfree
        · exact .exitPark status
    · exact .idle s _
  | exitNotify th =>
    dsimp only [act]
    split
    · next status hplace =>
        refine .moves (local_notifyParentWait nofun) ?_
        rw [hplace]
        unfold notifyParentWait
        split
        · next hparent =>
            rw [resume, place_setPlace]
            exact .exitOrphan status hparent
        next q hparent =>
          rw [place_setPlace]
          exact .exitRead status q hparent
    · exact .idle s _
  | write th =>
    dsimp only [act]
    split
    · next n hplace => exact .of_ite fun hfree => .write th n rfl hplace hfree rfl
    · exact .idle s _
  | signal th =>
    dsimp only [act]
    split
    · next n hplace => exact effect_signalParent hs hplace
    · exact .idle s _
  | finish th =>
    dsimp only [act]
    split
    · next status hplace => exact .of_ite fun hfree => effect_threadFinish hplace hfree
    · exact .idle s _
  | processFinish th =>
    refine .of_ite fun hplace => ?_
    split_ifs with hinit hchildren hfree
    · exact .halt rfl
    · refine .sets ?_
      rw [hplace]
      exact .gone
    · exact .reparent th rfl hplace hinit hfree rfl
    · exact .idle s _
  | stop c =>
    refine .of_ite fun _ => ?_
    dsimp only [jobControlStop]
    split_ifs
    · exact .idle s _
    · exact .quiet none (.setProc rfl (fun _ _ h => h) (fun _ _ h => h)) fun _ h => nomatch h
  | cont th c => exact .of_ite fun ⟨hplace, hfree⟩ => effect_jobControlContinue hplace hfree
  | kill c =>
    refine .of_ite fun _ => .quiet none ?_ fun _ h => nomatch h
    have hreset : Local s (s.setProc c { s.proc c with stoppedGen := 0 }) none :=
      .setProc rfl (fun _ _ h => h) (fun _ _ h => h)
    exact hreset.trans (.wake c woken_wakeStop)
  | stopWait th => exact .of_ite fun ⟨hplace, hfree⟩ => effect_threadStopWait hplace hfree
  | stopResume th =>
    refine .of_ite fun ⟨hplace, _⟩ => effect_stopSleep ?_
    rw [hplace]
    rfl
  | wait th r pending =>
    refine .of_ite fun ⟨hplace, hfree⟩ => effect_doWait ?_ hfree
    rw [hplace]
    rfl
  | park th =>
    dsimp only [act]
    split
    · next r hplace =>
        have hlock := hs.arming_lock th r hplace
        refine .moves (.move rfl (fun _ _ h => h) (lock_elim (.inr hlock))) ?_
        rw [hplace, place_setPlace]
        exact .park r
    · exact .idle s _
  | interrupt th =>
    dsimp only [act]
    split
    · next r hplace =>
        refine .sets ?_
        rw [hplace]
        exact .calm rfl rfl nofun
    · exact .idle s _
  | waitResume th pending =>
    dsimp only [act]
    split
    · next r hplace => exact .of_ite fun hfree => effect_doWait (by rw [hplace]; rfl) hfree
    · next r hplace => exact .of_ite fun hfree => effect_doWait (by rw [hplace]; rfl) hfree
    · exact .idle s _

end ProcessTree
end Junction
