import Junction.ProcessTreeThreads

/-!
# Parents that wait

A thread that is parked in `DoWait` is woken when the state of a child changes, by the thread that changes it. Nobody
wakes the first process when it gets the children of another one, so a child that can be waited for already may be
missed. And a thread that notifies the parent takes the lock of the parent it read; if the child has moved since, a
thread of the first process may look at the child before the change and park after the wake-up.
-/

namespace Junction
open Function Option List Process

variable {r : WaitRequest}

namespace Place

def pending : Place → Option Notice
  | notifying n => some n
  | _ => none

def parkedFor : Place → Option WaitRequest
  | waiting r .parked => some r
  | _ => none

/-- The request of a thread that is parked or about to park. -/
def asks : Place → Option WaitRequest
  | arming r => some r
  | waiting r .parked => some r
  | _ => none

def atRest : Place → Bool
  | absent => true
  | running => true
  | stopWait parked => parked
  | exitWait _ parked => parked
  | waiting _ w => w = .parked
  | _ => false

variable {pl : Place}

theorem asks_cases (h : pl.asks = some r) : pl = arming r ∨ pl = waiting r .parked := by
  unfold asks at h
  split at h
  · exact .inl (congrArg arming (some.inj h))
  · exact .inr (congrArg (waiting · .parked) (some.inj h))
  · cases h

theorem Woken.eq_of_asks {pl' : Place} (h : Woken pl pl') (hr : pl'.asks = some r) : pl' = pl := by
  cases h with
  | same => rfl
  | exit | stop | wait => cases hr

end Place

open Place

namespace ProcessTree
variable {s s' : ProcessTree} {th c p : ℕ} {e : Event}

/-- A child can be moved to the first process: no notice about it is under way, and no thread there that is parked
waits for the state that it has. -/
def Movable (s : ProcessTree) (c : ℕ) : Prop :=
  (∀ u ∈ (s.proc c).threadMap ++ (s.proc c).threadLock.toList, ∀ n ∈ (s.place u).pending, n.child ≠ c) ∧
  ∀ u ∈ (s.proc init).threadMap, ∀ r ∈ (s.place u).parkedFor, s.candidate init r c = true →
    r.wants (s.proc c).waitState = false

def MovesSafely (s : ProcessTree) : Event → Prop
  | .processFinish th => s.place th = .processFinish → ∀ c ∈ (s.proc (s.home th)).children, s.Movable c
  | _ => True

/-- No thread that is parked, or about to park, has missed a child. -/
structure Attended (s : ProcessTree) : Prop where
  current : ∀ th n, s.place th = .notifying n →
    (s.proc n.child).parent = some n.parent ∨ (s.proc n.child).parent = none
  seen : ∀ th r, (s.place th).asks = some r → ∀ c ∈ (s.proc (s.home th)).children,
    s.candidate (s.home th) r c = true → r.wants (s.proc c).waitState = true →
    s.place th = .waiting r .parked ∧ ∃ u n, s.place u = .signalling n ∧ n.child = c

/-- No process has more children, or more to be waited for, than before. -/
structure Shrinks (s s' : ProcessTree) : Prop where
  children : ∀ p, (s'.proc p).children ⊆ (s.proc p).children
  waitState : ∀ p, (s'.proc p).waitState = (s.proc p).waitState ∨ (s'.proc p).waitState = .notWaitable
  parent : ∀ p, (s'.proc p).parent = (s.proc p).parent ∨ (s'.proc p).parent = none
  ids : ∀ p, (s'.proc p).pid = (s.proc p).pid ∧ (s'.proc p).pgid = (s.proc p).pgid

theorem Shrinks.candidate (h : Shrinks s s') (p : ℕ) (r : WaitRequest) (c : ℕ) :
    s'.candidate p r c = s.candidate p r c := by
  unfold ProcessTree.candidate
  rw [(h.ids c).1, (h.ids c).2, (h.ids p).2]

theorem Shrinks.wants (h : Shrinks s s') (hw : r.wants (s'.proc c).waitState) : r.wants (s.proc c).waitState := by
  rcases h.waitState c with heq | heq
  · rw [← heq]
    exact hw
  · rw [heq] at hw
    cases hw

variable {s'' : ProcessTree}

theorem Shrinks.trans (h : Shrinks s s') (h' : Shrinks s' s'') : Shrinks s s'' where
  children p _ hd := h.children p (h'.children p hd)
  waitState p := by
    rcases h'.waitState p with heq | heq
    · rw [heq]
      exact h.waitState p
    · exact .inr heq
  parent p := by
    rcases h'.parent p with heq | heq
    · rw [heq]
      exact h.parent p
    · exact .inr heq
  ids p := ⟨(h'.ids p).1.trans (h.ids p).1, (h'.ids p).2.trans (h.ids p).2⟩

theorem shrinks_setProc {q : Process} (hchildren : q.children ⊆ (s.proc c).children)
    (hstate : q.waitState = (s.proc c).waitState ∨ q.waitState = .notWaitable)
    (hparent : q.parent = (s.proc c).parent ∨ q.parent = none) (hpid : q.pid = (s.proc c).pid)
    (hpgid : q.pgid = (s.proc c).pgid) : Shrinks s (s.setProc c q) := by
  have hproc : ∀ p, p = c ∨ (s.setProc c q).proc p = s.proc p := fun p =>
    (eq_or_ne p c).imp_right proc_setProc_of_ne
  constructor
  all_goals
    intro p
    rcases hproc p with rfl | heq
  · rw [proc_setProc]
    exact hchildren
  · rw [heq]
    exact fun _ hd => hd
  · rw [proc_setProc]
    exact hstate
  · exact .inl (by rw [heq])
  · rw [proc_setProc]
    exact hparent
  · exact .inl (by rw [heq])
  · rw [proc_setProc]
    exact ⟨hpid, hpgid⟩
  · rw [heq]
    exact ⟨rfl, rfl⟩

theorem Shrinks.congr (h : Shrinks s s') (hproc : s''.proc = s'.proc) : Shrinks s s'' := by
  constructor <;> rw [hproc]
  · exact h.children
  · exact h.waitState
  · exact h.parent
  · exact h.ids

theorem Shrinks.refl (s : ProcessTree) : Shrinks s s :=
  ⟨fun _ _ hd => hd, fun _ => .inl rfl, fun _ => .inl rfl, fun _ => ⟨rfl, rfl⟩⟩

variable {status : ℤ}

theorem shrinks_claimExit : Shrinks s (s.claimExit c status) :=
  shrinks_setProc (fun _ hd => hd) (.inl rfl) (.inl rfl) rfl rfl

theorem shrinks_dropThread : Shrinks s (s.dropThread c th status) :=
  shrinks_setProc (fun _ hd => hd) (.inl rfl) (.inl rfl) rfl rfl

theorem shrinks_reapChild : Shrinks s (s.reapChild p c) := by
  unfold reapChild
  split_ifs
  · exact shrinks_setProc (fun _ hd => hd) (.inr rfl) (.inl rfl) rfl rfl
  set s₁ := s.setProc c { s.proc c with parent := none }
  have horphan : Shrinks s s₁ := shrinks_setProc (fun _ hd => hd) (.inl rfl) (.inr rfl) rfl rfl
  have hlist : Shrinks s₁ (s₁.setProc p { s₁.proc p with children := (s₁.proc p).children.filter (· ≠ c) }) :=
    shrinks_setProc (fun _ hd => (mem_filter.mp hd).1) (.inl rfl) (.inl rfl) rfl rfl
  exact horphan.trans hlist

theorem shrinks_log (reports : List Report) : Shrinks s { s with reports := reports } := (Shrinks.refl s).congr rfl

theorem shrinks_reportChild : Shrinks s (s.reportChild p c r) := by
  unfold reportChild
  split_ifs
  · exact shrinks_log _
  · exact (shrinks_log _).trans shrinks_reapChild

variable {actor : Option ℕ}

theorem Local.shrinks (h : Local s s' actor) : Shrinks s s' where
  children p := by rw [h.children]; exact fun _ hc => hc
  waitState p := .inl (h.field waitState (fun _ => rfl) p)
  parent p := .inl (h.parent p)
  ids p := ⟨h.field pid (fun _ => rfl) p, h.field pgid (fun _ => rfl) p⟩

variable (h : Attended s)
include h

variable (hl : Linked s)
include hl

/-- One thread moves, or none. It may not miss a child, and if it was signalling it has woken the threads of the
parent. -/
theorem Attended.move {a : Option ℕ} (hhome : ∀ u, some u ≠ a → s'.home u = s.home u)
    (hothers : ∀ u, some u ≠ a → Woken (s.place u) (s'.place u)) (hshrinks : Shrinks s s')
    (hcurrent : ∀ th, a = some th → ∀ n, s'.place th = .notifying n → (s.proc n.child).parent = some n.parent)
    (hasks : ∀ th, a = some th → ∀ r, (s'.place th).asks = some r → ∀ c ∈ (s.proc (s'.home th)).children,
      s.candidate (s'.home th) r c → r.wants (s.proc c).waitState = false)
    (hsignal : ∀ th, a = some th → ∀ n, s.place th = .signalling n → ∀ u r, s'.place u = .waiting r .parked →
      (s.proc n.child).parent ≠ some (s'.home u)) : Attended s' := by
  constructor
  · intro u n hu
    have hbefore : (s.proc n.child).parent = some n.parent ∨ (s.proc n.child).parent = none := by
      by_cases hact : some u = a
      · exact .inl (hcurrent u hact.symm n hu)
      · exact h.current u n ((hothers u hact).eq_notifying.mp hu)
    rcases hshrinks.parent n.child with heq | heq
    · rw [heq]
      exact hbefore
    · exact .inr heq
  · intro u r hu c hc hcand hw
    rw [hshrinks.candidate] at hcand
    have hc' := hshrinks.children _ hc
    have hw' := hshrinks.wants hw
    by_cases hact : some u = a
    · rw [hasks u hact.symm r hu c hc' hcand] at hw'
      cases hw'
    have hparent := hl.child_parent _ c hc'
    have hsame := (hothers u hact).eq_of_asks hu
    rw [hsame] at hu ⊢
    rw [hhome u hact] at hc' hcand
    obtain ⟨hparked, v, n, hv, rfl⟩ := h.seen u r hu c hc' hcand hw'
    refine ⟨hparked, ?_⟩
    by_cases hact' : some v = a
    · exact absurd hparent (hsignal v hact'.symm n hv u r (hsame.trans hparked))
    · exact ⟨v, n, (hothers v hact').eq_signalling.mpr hv, rfl⟩

theorem Attended.plain (hothers : Others s s' th) (hshrinks : Shrinks s s')
    (hplain : (s'.place th).plain) (hasks : (s'.place th).asks = none) (hsignal : ∀ n, s.place th ≠ .signalling n) :
    Attended s' := by
  refine h.move hl (fun u hu => hothers.home u fun heq => hu (congrArg some heq))
    (fun u hu => hothers.woken u fun heq => hu (congrArg some heq)) hshrinks ?_ ?_ ?_
  · intro u hu n hn
    obtain rfl := some.inj hu
    rw [hn] at hplain
    cases hplain
  · intro u hu r hr
    obtain rfl := some.inj hu
    rw [hasks] at hr
    cases hr
  intro u hu n hn
  obtain rfl := some.inj hu
  exact absurd hn (hsignal n)

theorem Attended.quiet (hlocal : Local s s' actor)
    (hmove : ∀ th, actor = some th → Move s s' e th (s.place th) (s'.place th)) : Attended s' := by
  refine h.move hl (fun u _ => congrFun hlocal.home u) hlocal.others hlocal.shrinks ?_ ?_ ?_
  · intro th hth n hn
    exact ((hmove th hth).notice_spec (by rw [hn]; rfl)).2.1
  · intro th hth r hr c hc hcand
    rw [hlocal.home] at hc hcand
    have hm := hmove th hth
    rcases asks_cases hr with hr | hr
    · rw [hr] at hm
      exact find_none hm.arming_spec.1 hc hcand
    rw [hr] at hm
    refine Bool.eq_false_iff.mpr fun hw => ?_
    have hparked := (h.seen th r (by rw [hm.parked_source]; rfl) c hc hcand hw).1
    rw [hm.parked_source] at hparked
    cases hparked
  · intro th hth n hn u r hu hparent
    have hm := hmove th hth
    rw [hn] at hm
    rw [hlocal.home] at hparent
    exact hm.signalled_woken hparent hu

theorem Attended.dropThread (hplace : s.place th = .finishing status)
    (hlocal : Local (s.dropThread (s.home th) th status) s' (some th))
    (hafter : s'.place th = .processFinish ∨ s'.place th = .absent ∨ ∃ p, (s.proc (s.home th)).parent = some p ∧
        s'.place th = .notifying ⟨s.home th, .stopped, 0, .finish, p⟩) : Attended s' := by
  have hshrinks : Shrinks s s' := shrinks_dropThread.trans hlocal.shrinks
  apply h.move hl (fun u _ => congrFun hlocal.home u) hlocal.others hshrinks
  · intro u hu n hn
    obtain rfl := some.inj hu
    rcases hafter with heq | heq | ⟨p, hparent, heq⟩ <;> rw [heq] at hn
    · cases hn
    · cases hn
    · cases hn
      exact hparent
  · intro u hu r hr
    obtain rfl := some.inj hu
    rcases hafter with heq | heq | ⟨p, _, heq⟩ <;> rw [heq] at hr <;> cases hr
  · intro u hu n hn
    obtain rfl := some.inj hu
    rw [hplace] at hn
    cases hn

theorem Attended.createProcess {child new : ℕ} {pid : ℤ}
    (hchild : (s.proc child).born = false) (hnew : s.place new = .absent) :
    Attended (s.createProcess p child new pid) := by
  have hunborn : ∀ q, (s.proc q).born → q ≠ child := by
    rintro q hq rfl
    rw [hchild] at hq
    cases hq
  set s' := s.createProcess p child new pid with hs'
  have hself : (s'.proc child).waitState = .notWaitable := by
    change (((s.setProc p _).setProc child _).proc child).waitState = _
    rw [proc_setProc]
  have hstate : ∀ q, q ≠ child → (s'.proc q).waitState = (s.proc q).waitState := fun q =>
    field_createProcess waitState fun _ _ => rfl
  have hchildren : ∀ q, q ≠ child → ∀ d ∈ (s'.proc q).children, d = child ∨ d ∈ (s.proc q).children := by
    intro q hq d hd
    change d ∈ (((s.setProc p _).setProc child _).proc q).children at hd
    rw [proc_setProc_of_ne hq] at hd
    rcases eq_or_ne q p with rfl | hne
    · rw [proc_setProc] at hd
      exact (mem_append.mp hd).symm.imp_left mem_singleton.mp
    · rw [proc_setProc_of_ne hne] at hd
      exact .inr hd
  have hcandidate : ∀ q r d, q ≠ child → d ≠ child → s'.candidate q r d = s.candidate q r d := by
    intro q r d hq hd
    unfold candidate
    rw [field_createProcess Process.pid (fun _ _ => rfl) hd, field_createProcess Process.pgid (fun _ _ => rfl) hd,
      field_createProcess pgid (fun _ _ => rfl) hq]
  have hthread : ∀ u, u = new ∧ s'.place u = .running ∨ u ≠ new ∧ s'.home u = s.home u ∧ s'.place u = s.place u := by
    intro u
    rcases eq_or_ne u new with rfl | hne
    · exact .inl ⟨rfl, update_self ..⟩
    · exact .inr ⟨hne, update_of_ne hne .., update_of_ne hne ..⟩
  constructor
  · intro u n hu
    rcases hthread u with ⟨_, hrun⟩ | ⟨_, _, heq⟩
    · rw [hrun] at hu
      cases hu
    rw [heq] at hu
    rw [field_createProcess parent (fun _ _ => rfl) (hunborn _ (hl.notice_born u n (by rw [hu]; rfl)).1)]
    exact h.current u n hu
  intro u r hu d hd hcand hw
  rcases hthread u with ⟨_, hrun⟩ | ⟨_, hhome, heq⟩
  · rw [hrun] at hu
    cases hu
  rw [heq] at hu ⊢
  rw [hhome] at hd hcand
  have hhere := hunborn _ (hl.place_born u fun habsent => by rw [habsent] at hu; cases hu)
  rcases hchildren _ hhere d hd with rfl | hmem
  · rw [hself] at hw
    cases hw
  have hd' := hunborn d (hl.parent_born d _ (hl.child_parent _ d hmem)).1
  rw [hcandidate _ r d hhere hd'] at hcand
  rw [hstate d hd'] at hw
  obtain ⟨hparked, v, n, hv, hn⟩ := h.seen u r hu d hmem hcand hw
  refine ⟨hparked, v, n, ?_, hn⟩
  rcases hthread v with ⟨rfl, _⟩ | ⟨_, _, heq'⟩
  · rw [hnew] at hv
    cases hv
  · exact heq'.trans hv

/-- The thread that writes a new state is going to wake the parent, and no thread of the parent is about to park. -/
theorem Attended.write {n : Notice} (hplace : s.place th = .notifying n)
    (hfree : s.queueFree n.parent) : Attended (s.writeWaitState th n) := by
  set s' := s.writeWaitState th n with hs'
  have hproc : ∀ q, (s'.proc q).parent = (s.proc q).parent ∧ (s'.proc q).children = (s.proc q).children ∧
      (s'.proc q).pid = (s.proc q).pid ∧ (s'.proc q).pgid = (s.proc q).pgid := by
    intro q
    exact ⟨field_write parent (fun _ => rfl) (fun _ => rfl) q,
      field_write children (fun _ => rfl) (fun _ => rfl) q,
      field_write pid (fun _ => rfl) (fun _ => rfl) q, field_write pgid (fun _ => rfl) (fun _ => rfl) q⟩
  have hstate : ∀ q, q ≠ n.child → (s'.proc q).waitState = (s.proc q).waitState := by
    intro q hne
    rw [hs', writeWaitState, proc_setPlace, proc_setProc_of_ne hne]
    exact field_setProc waitState (by rfl) q
  have hcandidate : ∀ q r d, s'.candidate q r d = s.candidate q r d := by
    intro q r d
    unfold candidate
    rw [(hproc d).2.2.1, (hproc d).2.2.2, (hproc q).2.2.2]
  have hself : s'.place th = .signalling n := place_setPlace
  have hold : ∀ u, u ≠ th → s'.place u = s.place u := fun u hne => place_setPlace_of_ne hne
  constructor
  · intro u m hu
    rw [(hproc _).1]
    rcases eq_or_ne u th with rfl | hne
    · rw [hself] at hu
      cases hu
    · rw [hold u hne] at hu
      exact h.current u m hu
  intro u r hu d hd hcand hw
  rcases eq_or_ne u th with rfl | hne
  · rw [hself] at hu
    cases hu
  rw [hold u hne] at hu ⊢
  rw [(hproc _).2.1] at hd
  rw [hcandidate] at hcand
  rcases eq_or_ne d n.child with rfl | hne'
  · refine ⟨(asks_cases hu).resolve_left fun harming => ?_, th, n, hself, rfl⟩
    have hparent : (s.proc n.child).parent = some (s.home u) := hl.child_parent _ _ hd
    rcases h.current th n hplace with hcur | hcur
    · have hlock := hl.arming_lock u r harming
      rw [← some.inj (hcur.symm.trans hparent), hfree] at hlock
      cases hlock
    · rw [hcur] at hparent
      cases hparent
  rw [hstate d hne'] at hw
  obtain ⟨hparked, v, m, hv, hm⟩ := h.seen u r hu d hd hcand hw
  refine ⟨hparked, v, m, ?_, hm⟩
  rw [hold v, hv]
  rintro rfl
  rw [hplace] at hv
  cases hv

theorem Attended.reparent (ht : Threaded s) (hfree : s.queueFree init)
    (hmovable : ∀ d ∈ (s.proc c).children, s.Movable d) : Attended (s.reparent c) := by
  have hchildren : ∀ q, ∀ d ∈ ((s.reparent c).proc q).children,
      d ∈ (s.proc q).children ∨ q = init ∧ d ∈ (s.proc c).children := by
    intro q d hd
    simp only [ProcessTree.reparent] at hd
    split_ifs at hd with hq hinit
    · cases hd
    · exact (mem_append.mp hd).imp_right fun hd => ⟨hinit, hd⟩
    · exact .inl hd
  constructor
  · intro u n hu
    have hu' : s.place u = .notifying n := hu
    -- A notice about a child that moves would be under way.
    have hstays : n.child ∉ (s.proc c).children := by
      intro hmem
      refine (hmovable _ hmem).1 u ?_ n (by rw [hu']; rfl) rfl
      by_cases ho : n.origin = .exit
      · have horigin := (ht.enrolled u).origin n (by rw [hu']; rfl)
        rw [horigin.1 (by simp [ho])]
        exact mem_append_left _ ((ht.enrolled u).mapped (by rw [hu']; simp [live, ho]))
      · rw [hl.notice_lock u n (by rw [hu']; rfl) ho]
        exact mem_append_right _ (mem_singleton_self u)
    change (if _ then _ else _) = _ ∨ (if _ then _ else _) = _
    rw [if_neg hstays]
    exact h.current u n hu
  · intro u r hu d hd hcand hw
    rcases hchildren _ d hd with hmem | ⟨hinit, hmem⟩
    · exact h.seen u r hu d hmem hcand hw
    change s.home u = init at hinit
    rcases asks_cases hu with harming | hparked
    · have hlock := hl.arming_lock u r harming
      rw [hinit, hfree] at hlock
      cases hlock
    change s.place u = .waiting r .parked at hparked
    have hin := (ht.enrolled u).mapped (by rw [hparked]; rfl)
    rw [hinit] at hin
    change s.candidate (s.home u) r d = true at hcand
    rw [hinit] at hcand
    have hno := (hmovable d hmem).2 u hin r (by rw [hparked]; rfl) hcand
    change r.wants (s.proc d).waitState = true at hw
    rw [hno] at hw
    cases hw

omit h

theorem attended_effect (ht : Threaded s) (h : Attended s) (hguard : s.MovesSafely e)
    (heff : Effect s s' e) : Attended s' := by
  cases heff with
  | quiet actor hlocal hmove => exact h.quiet hl hlocal hmove
  | exitGroup th status hplace _ _ hlocal hafter =>
    have hshrinks : Shrinks s s' := shrinks_claimExit.trans hlocal.shrinks
    refine h.plain hl ⟨hlocal.rest.home, hlocal.rest.woken⟩ hshrinks ?_ ?_ ?_
    · rcases hafter with heq | ⟨_, heq⟩ <;> rw [heq] <;> rfl
    · rcases hafter with heq | ⟨_, heq⟩ <;> rw [heq] <;> rfl
    · rw [hplace]
      simp
  | finish th status _ hplace _ hlocal hafter =>
    exact h.dropThread hl hplace hlocal
      (hafter.imp_right (Or.imp_right (by rintro ⟨p, _, hparent, heq, _⟩; exact ⟨p, hparent, heq⟩)))
  | createThread th new hplace hnew hexited heq =>
    rw [createThread, if_neg (by simp [hexited])] at heq
    have hadd : Shrinks s (s.setProc (s.home th)
        { s.proc (s.home th) with threadMap := (s.proc (s.home th)).threadMap ++ [new] }) :=
      shrinks_setProc (fun _ hd => hd) (.inl rfl) (.inl rfl) rfl rfl
    rw [heq]
    refine h.plain hl (.add rfl rfl) (hadd.congr rfl) ?_ ?_ ?_
    · change (update s.place new Place.running new).plain
      rw [update_self]
      rfl
    · change (update s.place new Place.running new).asks = none
      rw [update_self]
      rfl
    · rw [hnew]
      simp
  | createProcess th child new pid _ hnew hchild _ heq =>
    rw [heq]
    exact h.createProcess hl hchild hnew
  | write th n _ hplace hfree heq =>
    rw [heq]
    exact h.write hl hplace hfree
  | report th c r hplace _ _ heq =>
    rw [heq]
    refine h.plain hl (.setPlace home_reportChild place_reportChild) (shrinks_reportChild.congr rfl) ?_ ?_ ?_
    · rw [place_setPlace]
      rfl
    · rw [place_setPlace]
      rfl
    intro n hn
    rw [hn] at hplace
    cases hplace
  | reparent th he hplace hinit hfree heq =>
    rw [he] at hguard
    have hmoved := h.reparent hl ht hfree (hguard hplace)
    rw [heq]
    refine hmoved.plain (hl.reparent hinit) (.setPlace rfl rfl) ((Shrinks.refl _).congr rfl) ?_ ?_ ?_
    · rw [place_setPlace]
      rfl
    · rw [place_setPlace]
      rfl
    change ∀ n, s.place th ≠ _
    rw [hplace]
    simp
  | halt heq =>
    rw [heq]
    exact { h with }

omit hl

theorem attended_start : Attended start := by
  refine ⟨fun th n hn => ?_, fun th r hr => ?_⟩
  · rcases place_start th with h | ⟨-, h⟩ <;> rw [h] at hn <;> cases hn
  · rcases place_start th with h | ⟨-, h⟩ <;> rw [h] at hr <;> cases hr

structure Waited (s : ProcessTree) : Prop where
  linked : Linked s
  threaded : Threaded s
  attended : Attended s

theorem waited_step (s : ProcessTree) (e : Event) (h : Waited s) (hguard : s.MovesSafely e) : Waited (s.step e) := by
  have heff := effect_step h.linked e
  exact ⟨linked_effect h.linked heff, threaded_effect h.linked h.threaded heff,
    attended_effect h.linked h.threaded h.attended hguard heff⟩

instance (s : ProcessTree) (c : ℕ) : Decidable (s.Movable c) := inferInstanceAs (Decidable (_ ∧ _))

instance (s : ProcessTree) (e : Event) : Decidable (s.MovesSafely e) := by
  unfold MovesSafely
  split <;> infer_instance

def Quiescent (s : ProcessTree) : Prop := ∀ th, (s.place th).atRest = true

/-- No waiting parent is forgotten, in every run in which children are moved safely. -/
theorem no_waiting_parent_forgotten {es : List Event} (hes : Run.Admitted step MovesSafely start es)
    (hquiet : Quiescent (Run.exec step start es)) :
    let s := Run.exec step start es
    ∀ th r, s.place th = .waiting r .parked → ∀ c ∈ (s.proc (s.home th)).children,
      s.candidate (s.home th) r c = true → r.wants (s.proc c).waitState = false := by
  intro s th r hth c hc hcand
  have hwaited : Waited s := Run.invariant_exec waited_step ⟨linked_start, threaded_start, attended_start⟩ hes
  refine Bool.eq_false_iff.mpr fun hw => ?_
  obtain ⟨-, u, n, hu, _⟩ := hwaited.attended.seen th r (by rw [hth]; rfl) c hc hcand hw
  have hrest := hquiet u
  rw [hu] at hrest
  cases hrest

def anyChild : WaitRequest := { idtype := .all, id := 0 }

/-- A process exits while its child runs; the first process reaps it, gets the child and waits again. -/
def adoptionRun : List Event :=
  [.vfork 0 1 1 2, .vfork 1 2 2 3, .wait 0 anyChild false, .park 0, .exitGroup 1 0, .exitNotify 1, .write 1, .signal 1,
    .finish 1, .processFinish 1, .waitResume 0 false, .wait 0 anyChild false, .park 0]

theorem quiescent_adoptionRun : Quiescent (Run.exec step start adoptionRun)
  | 0 => by decide +kernel
  | 1 => by decide +kernel
  | 2 => by decide +kernel
  | n + 3 => rfl

theorem no_waiting_parent_forgotten_adoption :
    let s := Run.exec step start adoptionRun
    Run.Admitted step MovesSafely start adoptionRun ∧ Quiescent s ∧ s.place 0 = .waiting anyChild .parked ∧
      ∀ c ∈ (s.proc (s.home 0)).children, s.candidate (s.home 0) anyChild c = true →
        anyChild.wants (s.proc c).waitState = false :=
  have hadmitted : Run.Admitted step MovesSafely start adoptionRun := by decide +kernel
  have hparked : (Run.exec step start adoptionRun).place 0 = .waiting anyChild .parked := by decide +kernel
  ⟨hadmitted, quiescent_adoptionRun, hparked,
    no_waiting_parent_forgotten hadmitted quiescent_adoptionRun 0 anyChild hparked⟩

/-- A process whose child has exited goes away after the first process has looked for children. -/
def orphanRun : List Event :=
  [.vfork 0 1 1 2, .vfork 0 3 3 4, .vfork 1 2 2 3, .exitGroup 2 0, .exitNotify 2, .write 2, .signal 2, .finish 2,
    .processFinish 2, .exitGroup 1 0, .exitNotify 1, .write 1, .signal 1, .wait 0 anyChild false, .finish 1,
    .wait 0 anyChild false, .park 0, .processFinish 1]

theorem quiescent_orphanRun : Quiescent (Run.exec step start orphanRun)
  | 0 => by decide +kernel
  | 1 => by decide +kernel
  | 2 => by decide +kernel
  | 3 => by decide +kernel
  | n + 4 => rfl

/-- A process that exits has read its parent; the parent goes away; a thread of the first process looks for children
before the exit is written, and parks after it has been signalled. -/
def lateRun : List Event :=
  [.vfork 0 1 1 2, .vfork 1 2 2 3, .exitGroup 2 0, .exitNotify 2, .exitGroup 1 0, .exitNotify 1, .write 1, .signal 1,
    .finish 1, .processFinish 1, .wait 0 anyChild false, .wait 0 anyChild false, .write 2, .signal 2, .park 0,
    .finish 2, .processFinish 2]

theorem quiescent_lateRun : Quiescent (Run.exec step start lateRun)
  | 0 => by decide +kernel
  | 1 => by decide +kernel
  | 2 => by decide +kernel
  | n + 3 => rfl

/-- In both runs a thread of the first process is left parked, and a child of it has exited. -/
theorem waiting_parent_forgotten :
    let orphan := Run.exec step start orphanRun
    let late := Run.exec step start lateRun
    (Quiescent orphan ∧ orphan.place 0 = .waiting anyChild .parked ∧ 2 ∈ (orphan.proc (orphan.home 0)).children ∧
      orphan.candidate (orphan.home 0) anyChild 2 = true ∧ anyChild.wants (orphan.proc 2).waitState = true) ∧
    (Quiescent late ∧ late.place 0 = .waiting anyChild .parked ∧ 2 ∈ (late.proc (late.home 0)).children ∧
      late.candidate (late.home 0) anyChild 2 = true ∧ anyChild.wants (late.proc 2).waitState = true) := by
  refine ⟨⟨quiescent_orphanRun, ?_⟩, quiescent_lateRun, ?_⟩
  · decide +kernel
  · decide +kernel

end ProcessTree
end Junction
