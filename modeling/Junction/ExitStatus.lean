import Junction.ProcessTreeThreads

/-!
# The exit status of a process

The wait state of a process is written by its exit, by its stops and by its continuations. Before the exit the word is
something else than `exited`, and a thread that has claimed the exit is going to write it. After it the process has
one thread at most, which is about to leave, and nobody has anything more to write, unless the process is stopped.
-/

namespace Junction
open Function Process

namespace Place
variable {pl pl' : Place}

def settled : Place → Bool
  | absent => true
  | finishing _ => true
  | processFinish => true
  | signalling n => n.origin = .exit
  | _ => false

theorem Woken.settled_eq (h : Woken pl pl') : pl'.settled = pl.settled := by
  cases h <;> rfl

theorem not_settled_of_calm (h : pl.calm) : pl.settled = false := by
  cases pl <;> simp_all [calm, settled]

end Place

open Place

/-- What is left of a process when it has exited. -/
def Process.remains (q : Process) : Process :=
  { exited := q.exited, xstate := q.xstate, waitState := q.waitState, waitStatus := q.waitStatus,
    threadMap := q.threadMap }

namespace ProcessTree
variable {s s' : ProcessTree} {th c p : ℕ} {e : Event}

/-- The last thread of a process leaves it with `exit_group` called and not stopped. The exit is written while no other
notice about the process is under way. A stopped process is not continued between its exit and the wait for it. -/
def ExitsCleanly (s : ProcessTree) : Event → Prop
  | .finish th =>
    s.home th ≠ init → (s.proc (s.home th)).threadMap = [th] →
      (s.proc (s.home th)).exited = true ∧ (s.proc (s.home th)).isStopped = false
  | .write th => ∀ n ∈ (s.place th).notice, n.origin = .exit → s.threadsFree n.child
  | .cont _ c => (s.proc c).isStopped = true → (s.proc c).waitState ≠ .exited ∨ (s.proc c).parent = none
  | _ => True

structure Before (s : ProcessTree) (c : ℕ) : Prop where
  state : (s.proc c).waitState ≠ .exited
  parent : (s.proc c).parent ≠ none
  threads : (s.proc c).threadMap ≠ []
  exiter : (s.proc c).exited = true → ∃ th, s.home th = c ∧ (s.place th).exiting.isSome = true

structure Done (s : ProcessTree) (c : ℕ) : Prop where
  exited : (s.proc c).exited = true
  state : (s.proc c).waitState = .exited
  status : (s.proc c).waitStatus = (s.proc c).xstate
  few : (s.proc c).threadMap.length ≤ 1
  unread : ∀ th n, s.place th = .notifying n → n.child ≠ c
  settled : ∀ th, s.home th = c → (s.place th).settled = true

theorem Done.keep (h : Done s c) (hsame : (s'.proc c).remains = (s.proc c).remains)
    (hunread : ∀ u n, s'.place u = .notifying n → n.child ≠ c)
    (hsettled : ∀ u, s'.home u = c → (s'.place u).settled) : Done s' c where
  exited := (congrArg Process.exited hsame).trans h.exited
  state := (congrArg waitState hsame).trans h.state
  status := (congrArg waitStatus hsame).trans (h.status.trans (congrArg xstate hsame).symm)
  few := (congrArg (fun q => q.threadMap.length) hsame).trans_le h.few
  unread := hunread
  settled := hsettled

theorem Done.home_ne (h : Done s c) (th : ℕ) (hplace : (s.place th).settled = false) : s.home th ≠ c := by
  rintro rfl
  have hsettled := h.settled th rfl
  rw [hplace] at hsettled
  cases hsettled

theorem Move.settled {pl pl' : Place} (hmove : Move s s' e th pl pl') (h : pl.settled) : pl'.settled := by
  cases hmove with
  | signalled n q _ _ hafter =>
    have ho : n.origin = .exit := by simpa [Place.settled] using h
    unfold After at hafter
    simp only [ho] at hafter
    rw [hafter]
    rfl
  | gone => rfl
  | calm h' | arm r h' => rw [not_settled_of_calm h'] at h; cases h
  | _ => cases h

/-- A thread that gets a notice about a process is one of it that is not done, or continues it. -/
theorem Move.notifying_source {n : Notice} {pl : Place} (hmove : Move s s' e th pl (.notifying n)) :
    n.child = s.home th ∧ pl.settled = false ∨ e = .cont th n.child ∧ (s.proc n.child).isStopped := by
  cases hmove with
  | calm _ h' => cases h'
  | exitRead | stopRead => exact .inl ⟨rfl, rfl⟩
  | contRead c q he hstopped => exact .inr ⟨he, hstopped⟩
  | signalled m q _ _ hafter =>
    unfold After at hafter
    cases ho : m.origin <;> simp [ho] at hafter

theorem Done.quiet {actor : Option ℕ} (h : Done s c) (hguard : s.ExitsCleanly e) (hlocal : Local s s' actor)
    (hmove : ∀ th, actor = some th → Move s s' e th (s.place th) (s'.place th)) : Done s' c := by
  apply h.keep (hlocal.field _ (fun _ => rfl) c)
  · rintro u n hu rfl
    by_cases hact : some u = actor
    · have hm := hmove u hact.symm
      rw [hu] at hm
      rcases hm.notifying_source with ⟨hown, hplace⟩ | ⟨he, hstopped⟩
      · exact h.home_ne u hplace hown.symm
      rw [he] at hguard
      rcases hguard hstopped with hno | hno
      · exact hno h.state
      · rw [(hm.notice_spec rfl).2.1] at hno
        cases hno
    · exact h.unread u n ((hlocal.others u hact).eq_notifying.mp hu) rfl
  · intro u hu
    rw [hlocal.home] at hu
    by_cases hact : some u = actor
    · exact (hmove u hact.symm).settled (h.settled u hu)
    · rw [(hlocal.others u hact).settled_eq]
      exact h.settled u hu

theorem Done.finish {status : ℤ} (h : Done s c) (ht : Threaded s) (hinit : c ≠ init)
    (hguard : s.ExitsCleanly (.finish th)) (hplace : s.place th = .finishing status)
    (hlocal : Local (s.dropThread (s.home th) th status) s' (some th))
    (hafter : s'.place th = .processFinish ∨ s'.place th = .absent ∨ ∃ p, (s.proc (s.home th)).isStopped ∧
        s'.place th = .notifying ⟨s.home th, .stopped, 0, .finish, p⟩) : Done s' c := by
  have hothers : ∀ u, u ≠ th → Woken (s.place u) (s'.place u) := hlocal.rest.woken
  -- The last thread of a process that is done is not stopped, so it has nothing to write.
  have hquiet : s.home th = c → s'.place th = .processFinish ∨ s'.place th = .absent := by
    rintro rfl
    have hmem := (ht.enrolled th).mapped (by rw [hplace]; rfl)
    have honly : (s.proc (s.home th)).threadMap = [th] := by
      obtain ⟨u, hu⟩ := List.length_eq_one_iff.mp (le_antisymm h.few (List.length_pos_of_mem hmem))
      rw [hu] at hmem ⊢
      rw [List.mem_singleton.mp hmem]
    rcases hafter with heq | heq | ⟨p, hstopped, _⟩
    · exact .inl heq
    · exact .inr heq
    · rw [(hguard hinit honly).2] at hstopped
      cases hstopped
  have hfields : (s'.proc c).exited = (s.proc c).exited ∧ (s'.proc c).xstate = (s.proc c).xstate ∧
      (s'.proc c).waitState = (s.proc c).waitState ∧ (s'.proc c).waitStatus = (s.proc c).waitStatus ∧
      (s'.proc c).threadMap.length ≤ (s.proc c).threadMap.length := by
    rw [hlocal.field Process.exited fun _ => rfl, hlocal.field Process.xstate fun _ => rfl,
      hlocal.field waitState fun _ => rfl, hlocal.field waitStatus fun _ => rfl,
      hlocal.field threadMap fun _ => rfl, dropThread]
    rcases eq_or_ne c (s.home th) with rfl | hne
    · rw [proc_setProc]
      exact ⟨rfl, rfl, rfl, rfl, List.length_erase_le⟩
    · rw [proc_setProc_of_ne hne]
      exact ⟨rfl, rfl, rfl, rfl, le_rfl⟩
  constructor
  · exact hfields.1.trans h.exited
  · exact hfields.2.2.1.trans h.state
  · rw [hfields.2.2.2.1, hfields.2.1]
    exact h.status
  · exact hfields.2.2.2.2.trans h.few
  · rintro u n hu rfl
    rcases eq_or_ne u th with rfl | hne
    · rcases hafter with heq | heq | ⟨p, _, heq⟩
      · rw [heq] at hu
        cases hu
      · rw [heq] at hu
        cases hu
      rw [heq] at hu
      obtain rfl := Place.notifying.inj hu
      rcases hquiet rfl with heq' | heq' <;> rw [heq'] at heq <;> cases heq
    · exact h.unread u n ((hothers u hne).eq_notifying.mp hu) rfl
  · intro u hu
    rw [hlocal.home] at hu
    rcases eq_or_ne u th with rfl | hne
    · rcases hquiet hu with heq | heq <;> rw [heq] <;> rfl
    · rw [(hothers u hne).settled_eq]
      exact h.settled u hu

theorem Done.elsewhere {pl : Place} (h : Done s c) (hothers : Others s s' th)
    (hsame : (s'.proc c).remains = (s.proc c).remains) (hpl : s'.place th = pl) (hth : s'.home th ≠ c ∨ pl.settled)
    (hunread : ∀ n, pl ≠ .notifying n) : Done s' c := by
  subst hpl
  apply h.keep hsame
  · intro u n hu
    rcases eq_or_ne u th with rfl | hne
    · exact absurd hu (hunread n)
    · exact h.unread u n ((hothers.woken u hne).eq_notifying.mp hu)
  intro u hu
  rcases eq_or_ne u th with rfl | hne
  · exact hth.resolve_left fun hno => hno hu
  · rw [(hothers.woken u hne).settled_eq]
    exact h.settled u ((hothers.home u hne).symm.trans hu)

theorem remains_write {n : Notice} (hne : n.child ≠ c) :
    ((s.writeWaitState th n).proc c).remains = (s.proc c).remains := by
  rw [writeWaitState, proc_setPlace, proc_setProc_of_ne hne.symm]
  exact field_setProc remains (by rfl) c

theorem proc_reportChild {r : WaitRequest} (d : ℕ) :
    let q := (s.reportChild p d r).proc c
    (q.exited = (s.proc c).exited ∧ q.xstate = (s.proc c).xstate ∧ q.waitStatus = (s.proc c).waitStatus ∧
      q.threadMap = (s.proc c).threadMap ∧ q.born = (s.proc c).born) ∧
    (q.waitState = if d = c ∧ r.wnowait = false ∧ (s.proc c).waitState ≠ .exited then .notWaitable
      else (s.proc c).waitState) ∧
    q.parent = if d = c ∧ r.wnowait = false ∧ (s.proc c).waitState = .exited then none else (s.proc c).parent := by
  unfold reportChild reapChild
  by_cases hnowait : r.wnowait
  · simp [hnowait]
  rw [if_neg hnowait]
  by_cases hstate : (s.proc d).waitState = .exited
  · rw [if_neg (not_not.mpr hstate)]
    rcases eq_or_ne c p with rfl | hcp <;> rcases eq_or_ne d c with rfl | hdc <;>
      simp_all [setProc, update_of_ne, Ne.symm]
  rw [if_pos hstate]
  rcases eq_or_ne d c with rfl | hdc
  · simp_all [setProc]
  · rw [proc_setProc_of_ne hdc.symm]
    simp [hdc]

theorem remains_reportChild {r : WaitRequest} (h : (s.proc c).waitState = .exited) (d : ℕ) :
    ((s.reportChild p d r).proc c).remains = (s.proc c).remains := by
  obtain ⟨⟨hexited, hxstate, hstatus, hthreads, _⟩, hstate, _⟩ := proc_reportChild d
  rw [if_neg fun hno => hno.2.2 h] at hstate
  rw [remains, hexited, hxstate, hstate, hstatus, hthreads]
  rfl

theorem done_effect (ht : Threaded s) (hinit : c ≠ init) (hborn : (s.proc c).born)
    (h : Done s c) (hguard : s.ExitsCleanly e) (heff : Effect s s' e) : Done s' c := by
  cases heff with
  | quiet actor hlocal hmove => exact h.quiet hguard hlocal hmove
  | exitGroup th status hplace _ _ hlocal hafter =>
    have hne := h.home_ne th (by rw [hplace]; rfl)
    have hsame : (s'.proc c).remains = (s.proc c).remains := by
      rw [hlocal.field remains fun _ => rfl, claimExit, proc_setProc_of_ne hne.symm]
    have hhome : s'.home th ≠ c := by
      rw [hlocal.home]
      exact hne
    rcases hafter with heq | ⟨_, heq⟩ <;>
      exact h.elsewhere ⟨hlocal.rest.home, hlocal.rest.woken⟩ hsame heq (.inl hhome) (by simp)
  | finish th status he hplace _ hlocal hafter =>
    rw [he] at hguard
    exact h.finish ht hinit hguard hplace hlocal
      (hafter.imp_right (Or.imp_right (by rintro ⟨p, hstopped, _, heq, _⟩; exact ⟨p, hstopped, heq⟩)))
  | createThread th new hplace hnew hexited heq =>
    have hne := h.home_ne th (by rw [hplace]; rfl)
    rw [createThread, if_neg (by simp [hexited])] at heq
    rw [heq]
    refine h.elsewhere (.add rfl rfl) (congrArg _ (proc_setProc_of_ne hne.symm)) (update_self ..) (.inl ?_) (by simp)
    change update s.home new _ new ≠ c
    rw [update_self]
    exact hne
  | createProcess th child new pid hplace hnew hchild _ heq =>
    have hne := h.home_ne th (by rw [hplace]; rfl)
    have hne' : c ≠ child := by
      rintro rfl
      rw [hborn] at hchild
      cases hchild
    rw [heq]
    refine h.elsewhere (.add rfl rfl) (congrArg _ ?_) (update_self ..) (.inl ?_) (by simp)
    · exact (proc_setProc_of_ne hne').trans (proc_setProc_of_ne hne.symm)
    change update s.home new child new ≠ c
    rw [update_self]
    exact hne'.symm
  | write th n _ hplace _ heq =>
    have hne := h.home_ne th (by rw [hplace]; rfl)
    rw [heq]
    exact h.elsewhere (.setPlace rfl rfl) (remains_write (h.unread th n hplace)) place_setPlace (.inl hne) (by simp)
  | report th d r hplace _ _ heq =>
    have hne := h.home_ne th (not_settled_of_calm hplace)
    rw [heq]
    refine h.elsewhere (.setPlace home_reportChild place_reportChild) (remains_reportChild h.state d) place_setPlace
      (.inl ?_) (by simp)
    rw [home_setPlace, home_reportChild]
    exact hne
  | reparent th _ hplace _ _ heq =>
    rw [heq]
    exact h.elsewhere (.setPlace rfl rfl) rfl place_setPlace (.inr rfl) (by simp)
  | halt heq =>
    rw [heq]
    exact { h with }

end ProcessTree
end Junction
