import Junction.ExitStatus

/-!
# From the exit of a process to the wait for it

A process that is not the first one has its exit before it or behind it. Every wait that takes a child off the list has
seen its exit and the status of it, and there is one such wait for each process that has lost its parent.
-/

namespace Junction
open Function List Process Run

open Place

/-- What the waits know of a process. -/
def Process.record (q : Process) : Process :=
  { born := q.born, parent := q.parent, exited := q.exited, xstate := q.xstate }

namespace ProcessTree
variable {s s' : ProcessTree} {th c p : ℕ} {e : Event}

variable (h : Before s c)
include h

theorem Before.keep (hstate : (s'.proc c).waitState ≠ .exited) (hparent : (s'.proc c).parent ≠ none)
    (hthreads : (s'.proc c).threadMap ≠ []) (hexited : (s'.proc c).exited = (s.proc c).exited)
    (hexiter : ∀ u, s.home u = c → (s.place u).exiting.isSome →
      s'.home u = c ∧ (s'.place u).exiting.isSome) : Before s' c where
  state := hstate
  parent := hparent
  threads := hthreads
  exiter hex := by
    obtain ⟨u, hu, hplace⟩ := h.exiter (hexited.symm.trans hex)
    exact ⟨u, hexiter u hu hplace⟩

omit h in
theorem Move.exiting_isSome {pl pl' : Place} (hmove : Move s s' e th pl pl') (h : pl.exiting.isSome) :
    pl'.exiting.isSome ∨ (s.proc (s.home th)).parent = none := by
  cases hmove with
  | calm | arm => cases pl <;> simp_all [Place.calm, exiting]
  | exitPark | exitAlone | exitRead => exact .inl rfl
  | exitOrphan _ hparent => exact .inr hparent
  | _ => cases h

theorem Before.moved (hothers : Others s s' th) (hth : s.home th = c → (s.place th).exiting = none)
    (hstate : (s'.proc c).waitState ≠ .exited) (hparent : (s'.proc c).parent ≠ none)
    (hthreads : (s'.proc c).threadMap ≠ []) (hexited : (s'.proc c).exited = (s.proc c).exited) : Before s' c := by
  refine h.keep hstate hparent hthreads hexited fun u hu hexiting => ?_
  have hne : u ≠ th := by
    rintro rfl
    rw [hth hu] at hexiting
    cases hexiting
  rw [hothers.home u hne, (hothers.woken u hne).exiting_eq]
  exact ⟨hu, hexiting⟩

theorem Before.quiet {actor : Option ℕ} (hlocal : Local s s' actor)
    (hmove : ∀ th, actor = some th → Move s s' e th (s.place th) (s'.place th)) : Before s' c := by
  refine h.keep ?_ ?_ ?_ (hlocal.field _ (fun _ => rfl) c) fun u hu hplace => ⟨(congrFun hlocal.home u).trans hu, ?_⟩
  · rw [hlocal.field waitState fun _ => rfl]
    exact h.state
  · rw [hlocal.parent]
    exact h.parent
  · rw [hlocal.field threadMap fun _ => rfl]
    exact h.threads
  by_cases hact : some u = actor
  · refine ((hmove u hact.symm).exiting_isSome hplace).resolve_right fun hno => ?_
    rw [hu] at hno
    exact h.parent hno
  · rw [(hlocal.others u hact).exiting_eq]
    exact hplace

variable {status : ℤ}

theorem Before.exitGroup
    (hlocal : Local (s.claimExit (s.home th) status) s' (some th)) (hafter : (s'.place th).exiting.isSome) :
    Before s' c := by
  have hstate : (s'.proc c).waitState ≠ .exited := by
    rw [hlocal.field waitState fun _ => rfl, claimExit, field_setProc waitState (by rfl)]
    exact h.state
  have hparent : (s'.proc c).parent ≠ none := by
    rw [hlocal.parent, claimExit, field_setProc Process.parent (by rfl)]
    exact h.parent
  have hthreads : (s'.proc c).threadMap ≠ [] := by
    rw [hlocal.field threadMap fun _ => rfl, claimExit, field_setProc threadMap (by rfl)]
    exact h.threads
  rcases eq_or_ne (s.home th) c with heq | hne
  · exact ⟨hstate, hparent, hthreads, fun _ => ⟨th, (congrFun hlocal.home th).trans heq, hafter⟩⟩
  · refine h.moved ⟨hlocal.rest.home, hlocal.rest.woken⟩ (fun heq => absurd heq hne) hstate hparent hthreads ?_
    rw [hlocal.field exited fun _ => rfl, claimExit, proc_setProc_of_ne hne.symm]

theorem Before.finish (ht : Threaded s) (hinit : c ≠ init)
    (hguard : s.ExitsCleanly (.finish th)) (hplace : s.place th = .finishing status)
    (hlocal : Local (s.dropThread (s.home th) th status) s' (some th)) : Before s' c := by
  -- The thread that has claimed the exit stays, so this one is not the last.
  have hrest : s.home th = c → (s.proc c).threadMap.erase th ≠ [] := by
    rintro rfl hno
    have hmem := (ht.enrolled th).mapped (by rw [hplace]; rfl)
    have hlen := length_erase_of_mem hmem
    rw [hno] at hlen
    obtain ⟨v, hv⟩ := length_eq_one_iff.mp (le_antisymm (Nat.sub_eq_zero_iff_le.mp hlen.symm) (length_pos_of_mem hmem))
    rw [hv] at hmem
    rw [← mem_singleton.mp hmem] at hv
    obtain ⟨u, hu, hexiting⟩ := h.exiter (hguard hinit hv).1
    obtain ⟨st, hst⟩ := Option.isSome_iff_exists.mp hexiting
    have humem := (ht.enrolled u).mapped (live_of_exiting hst)
    rw [hu, hv] at humem
    rw [mem_singleton.mp humem, hplace] at hst
    cases hst
  refine h.moved ⟨hlocal.rest.home, hlocal.rest.woken⟩ (fun _ => by rw [hplace]; rfl) ?_ ?_ ?_ ?_
  · rw [hlocal.field waitState fun _ => rfl, dropThread, field_setProc waitState (by rfl)]
    exact h.state
  · rw [hlocal.parent, dropThread, field_setProc Process.parent (by rfl)]
    exact h.parent
  · rw [hlocal.field threadMap fun _ => rfl, dropThread]
    rcases eq_or_ne c (s.home th) with rfl | hne
    · rw [proc_setProc]
      exact hrest rfl
    · rw [proc_setProc_of_ne hne]
      exact h.threads
  · exact (hlocal.field exited (fun _ => rfl) c).trans (field_setProc exited (by rfl) c)

variable {n : Notice}

omit h in
theorem done_write (hl : Linked s) (ht : Threaded s) (hplace : s.place th = .notifying n)
    (ho : n.origin = .exit) (hfree : s.threadsFree n.child) : Done (s.writeWaitState th n) n.child := by
  obtain ⟨hchild, hstate⟩ := (ht.enrolled th).origin n (by rw [hplace]; rfl)
  have hhome : n.child = s.home th := hchild (by simp [ho])
  obtain ⟨hmap, hexited⟩ := (ht.enrolled th).alone (by rw [hplace]; simp [Place.alone, ho])
  obtain ⟨-, hxstate⟩ := (ht.enrolled th).exiting n.status (by rw [hplace]; simp [exiting, ho])
  have hsame : ((s.writeWaitState th n).proc n.child).roster = (s.proc n.child).roster :=
    field_write _ (fun _ => rfl) (fun _ => rfl) _
  obtain ⟨hmap', hexited', hxstate'⟩ := by simpa [roster] using hsame
  rw [← hhome] at hmap hexited hxstate
  have hlock : ∀ u m, (s.place u).notice = some m → m.child = n.child → m.origin = .exit := by
    intro u m hm hsame
    by_contra hno
    have hheld := hl.notice_lock u m hm hno
    rw [hsame, hfree] at hheld
    cases hheld
  have hproc : ((s.writeWaitState th n).proc n.child).waitState = n.state ∧
      ((s.writeWaitState th n).proc n.child).waitStatus = n.status := by
    rw [writeWaitState, proc_setPlace, proc_setProc]
    exact ⟨rfl, rfl⟩
  constructor
  · exact hexited'.trans hexited
  · exact hproc.1.trans (hstate.mpr ho)
  · rw [hproc.2, hxstate', hxstate]
  · rw [hmap', hmap]
    exact le_rfl
  · intro u m hu hm
    rcases eq_or_ne u th with rfl | hne
    · rw [writeWaitState, place_setPlace] at hu
      cases hu
    rw [writeWaitState, place_setPlace_of_ne hne] at hu
    have hnotice : (s.place u).notice = some m := by
      change s.place u = .notifying m at hu
      rw [hu]
      rfl
    have hmo := hlock u m hnotice hm
    have hmhome := ((ht.enrolled u).origin m hnotice).1 (by simp [hmo])
    refine hne (ht.unique u th ?_ ?_ ?_)
    · change s.place u = .notifying m at hu
      rw [hu]
      simp [exiting, hmo]
    · rw [hplace]
      simp [exiting, ho]
    · rw [← hmhome, hm, hhome]
  · intro u hu
    change s.home u = n.child at hu
    rcases eq_or_ne u th with rfl | hne
    · rw [writeWaitState, place_setPlace]
      simp [Place.settled, ho]
    rw [writeWaitState, place_setPlace_of_ne hne]
    change (s.place u).settled
    have hdead : (s.place u).live = false := by
      refine Bool.eq_false_iff.mpr fun hlive => hne ?_
      have hmem := (ht.enrolled u).mapped hlive
      rw [hu, hmap] at hmem
      exact mem_singleton.mp hmem
    have hfinish : ∀ m, (s.place u).notice = some m → m.origin ≠ .finish := by
      intro m hm hmo
      have hmhome := ((ht.enrolled u).origin m hm).1 (by simp [hmo])
      have hno := hlock u m hm (hmhome.trans hu)
      rw [hmo] at hno
      cases hno
    cases hpl : s.place u with
    | notifying m | signalling m =>
      rw [hpl] at hdead hfinish
      exact absurd (by simpa [Place.live] using hdead) (hfinish m rfl)
    | _ =>
      rw [hpl] at hdead
      first
      | rfl
      | cases hdead

theorem Before.write (ht : Threaded s) (hplace : s.place th = .notifying n)
    (ho : n.child = c → n.origin ≠ .exit) : Before (s.writeWaitState th n) c := by
  obtain ⟨hchild, hstate⟩ := (ht.enrolled th).origin n (by rw [hplace]; rfl)
  refine h.moved (.setPlace rfl rfl) (fun hu => ?_) ?_ ?_ ?_ (field_write _ (fun _ => rfl) (fun _ => rfl) c)
  · rw [hplace]
    exact if_neg fun hexit => ho ((hchild (by rw [hexit]; nofun)).trans hu) hexit
  · rcases eq_or_ne n.child c with rfl | hne
    · rw [writeWaitState, proc_setPlace, proc_setProc]
      exact fun hno => ho rfl (hstate.mp hno)
    · rw [writeWaitState, proc_setPlace, proc_setProc_of_ne hne.symm, field_setProc waitState (by rfl)]
      exact h.state
  · rw [field_write Process.parent (fun _ => rfl) fun _ => rfl]
    exact h.parent
  · rw [field_write threadMap (fun _ => rfl) fun _ => rfl]
    exact h.threads

variable {new : ℕ}

theorem Before.createThread (hnew : s.place new = .absent)
    (hexited : (s.proc p).exited = false) : Before (s.createThread p new) c := by
  rw [ProcessTree.createThread, if_neg (by simp [hexited])]
  refine h.moved (.add rfl rfl) (fun _ => by rw [hnew]; rfl) ?_ ?_ ?_ ?_
  all_goals
    rcases eq_or_ne c p with rfl | hne
    · simp [setProc, h.state, h.parent, h.threads]
    · simp [setProc, update_of_ne hne, h.state, h.parent, h.threads]

variable {child : ℕ} {pid : ℤ}

theorem Before.createProcess (hnew : s.place new = .absent)
    (hne : c ≠ child) : Before (s.createProcess p child new pid) c := by
  refine h.moved (.add rfl rfl) (fun _ => by rw [hnew]; rfl) ?_ ?_ ?_ (field_createProcess exited (fun _ _ => rfl) hne)
  · rw [field_createProcess waitState (fun _ _ => rfl) hne]
    exact h.state
  · rw [field_createProcess Process.parent (fun _ _ => rfl) hne]
    exact h.parent
  · rw [field_createProcess threadMap (fun _ _ => rfl) hne]
    exact h.threads

omit h in
theorem before_newborn : Before (s.createProcess p child new pid) child := by
  have hproc : (s.createProcess p child new pid).proc child =
      { pid, pgid := (s.proc p).pgid, born := true, parent := some p, threadMap := [new] } := update_self ..
  constructor <;> rw [hproc] <;> nofun

variable {d : ℕ} {r : WaitRequest}

theorem Before.report (hplace : (s.place th).calm) : Before ((s.reportChild p d r).setPlace th .running) c := by
  obtain ⟨⟨hexited, -, -, hthreads, -⟩, hstate, hparent⟩ := proc_reportChild d
  refine h.moved (.setPlace home_reportChild place_reportChild) (fun _ => exiting_of_calm hplace) ?_ ?_ ?_ hexited
  · rw [proc_setPlace, hstate]
    split_ifs
    · nofun
    · exact h.state
  · rw [proc_setPlace, hparent, if_neg fun hno => h.state hno.2.2]
    exact h.parent
  · rw [proc_setPlace, hthreads]
    exact h.threads

theorem Before.reparent (hplace : s.place th = .processFinish) : Before ((s.reparent d).setPlace th .absent) c := by
  refine h.moved (.setPlace rfl rfl) (fun _ => by rw [hplace]; rfl) h.state ?_ h.threads rfl
  · change (if c ∈ (s.proc d).children then some init else (s.proc c).parent) ≠ none
    split_ifs
    · nofun
    · exact h.parent

omit h

theorem before_effect (hl : Linked s) (ht : Threaded s) (hinit : c ≠ init) (hborn : (s.proc c).born)
    (h : Before s c) (hguard : s.ExitsCleanly e) (heff : Effect s s' e) : Before s' c ∨ Done s' c := by
  cases heff with
  | quiet actor hlocal hmove => exact .inl (h.quiet hlocal hmove)
  | exitGroup th status _ _ _ hlocal hafter =>
    refine .inl (h.exitGroup hlocal ?_)
    rcases hafter with heq | ⟨_, heq⟩ <;> rw [heq] <;> rfl
  | finish th status he hplace _ hlocal _ =>
    rw [he] at hguard
    exact .inl (h.finish ht hinit hguard hplace hlocal)
  | createThread th new _ hnew hexited heq =>
    rw [heq]
    exact .inl (h.createThread hnew hexited)
  | createProcess th child new pid _ hnew hchild _ heq =>
    have hne : c ≠ child := by
      rintro rfl
      rw [hborn] at hchild
      cases hchild
    rw [heq]
    exact .inl (h.createProcess hnew hne)
  | write th n he hplace _ heq =>
    rw [heq]
    by_cases ho : n.child = c ∧ n.origin = .exit
    · obtain ⟨rfl, hexit⟩ := ho
      rw [he] at hguard
      exact .inr (done_write hl ht hplace hexit (hguard n (by rw [hplace]; rfl) hexit))
    · exact .inl (h.write ht hplace fun hc hexit => ho ⟨hc, hexit⟩)
  | report th d r hplace _ _ heq =>
    rw [heq]
    exact .inl (h.report hplace)
  | reparent th _ hplace _ _ heq =>
    rw [heq]
    exact .inl (h.reparent hplace)
  | halt heq =>
    rw [heq]
    exact .inl { h with }

/-! ### The waits -/

def reaps (s : ProcessTree) (c : ℕ) : ℕ := s.reports.countP fun rep => rep.child = c && rep.reaped

structure Logged (s : ProcessTree) : Prop where
  child : ∀ rep ∈ s.reports, (s.proc rep.child).born = true ∧ rep.child ≠ init
  reaped : ∀ rep ∈ s.reports, rep.reaped = true →
    rep.state = .exited ∧ rep.status = (s.proc rep.child).xstate ∧ (s.proc rep.child).exited = true
  count : ∀ c, (s.proc c).born = true → c ≠ init → s.reaps c = if (s.proc c).parent = none then 1 else 0
  order : s.reports.Pairwise fun newer older => older.reaped = true → newer.child ≠ older.child

/-- Processes and their parents stay in a step without a wait, and a status that has been given stays. -/
structure Frame (s s' : ProcessTree) (c : ℕ) : Prop where
  born : (s'.proc c).born = (s.proc c).born
  parent : s'.reports = s.reports → ((s'.proc c).parent = none ↔ (s.proc c).parent = none)
  exited : (s.proc c).exited = true → (s'.proc c).exited = true ∧ (s'.proc c).xstate = (s.proc c).xstate

theorem Frame.of_record (h : (s'.proc c).record = (s.proc c).record) : Frame s s' c where
  born := (congrArg Process.born h :)
  parent _ := iff_of_eq (congrArg (fun q => q.parent = none) h)
  exited hex := ⟨(congrArg Process.exited h).trans hex, (congrArg Process.xstate h :)⟩

theorem reports_reportChild (d : ℕ) : (s.reportChild p d r).reports =
    ⟨d, (s.proc d).waitState, (s.proc d).waitStatus, !r.wnowait && (s.proc d).waitState = .exited⟩ :: s.reports := by
  dsimp only [reportChild, reapChild]
  split_ifs <;> rfl

theorem frame_effect (hl : Linked s) (heff : Effect s s' e) (c : ℕ) :
    Frame s s' c ∨ (s.proc c).born = false ∧ ∃ p new pid, s' = s.createProcess p c new pid := by
  cases heff with
  | quiet actor hlocal _ => exact .inl (.of_record (hlocal.field _ (fun _ => rfl) c))
  | exitGroup th status _ hfirst _ hlocal _ =>
    have hsame := hlocal.field record (fun _ => rfl) c
    rcases eq_or_ne c (s.home th) with rfl | hne
    · rw [claimExit, proc_setProc] at hsame
      refine .inl ⟨(congrArg born hsame :), fun _ => iff_of_eq (congrArg (fun q => q.parent = none) hsame), ?_⟩
      rw [hfirst]
      simp
    · rw [claimExit, proc_setProc_of_ne hne] at hsame
      exact .inl (.of_record hsame)
  | finish th status _ _ _ hlocal _ =>
    exact .inl (.of_record ((hlocal.field _ (fun _ => rfl) c).trans (field_setProc record (by rfl) c)))
  | createThread th new _ _ hexited heq =>
    rw [heq, createThread, if_neg (by simp [hexited])]
    exact .inl (.of_record (field_setProc record (by rfl) c))
  | createProcess th child new pid _ _ hchild _ heq =>
    rcases eq_or_ne c child with rfl | hne
    · exact .inr ⟨hchild, s.home th, new, pid, heq⟩
    · rw [heq]
      exact .inl (.of_record (field_createProcess record (fun _ _ => rfl) hne))
  | write th n _ _ _ heq =>
    rw [heq]
    exact .inl (.of_record (field_write record (fun _ => rfl) (fun _ => rfl) c))
  | report th d r _ _ _ heq =>
    obtain ⟨⟨hexited, hxstate, -, -, hborn⟩, -⟩ := proc_reportChild d
    rw [heq]
    refine .inl ⟨hborn, fun hreports => ?_, fun hex => ⟨hexited.trans hex, hxstate⟩⟩
    rw [setPlace, reports_reportChild] at hreports
    exact absurd hreports (cons_ne_self _ _)
  | reparent th _ _ _ _ heq =>
    rw [heq]
    refine .inl ⟨rfl, fun _ => ?_, fun hex => ⟨hex, rfl⟩⟩
    change (if c ∈ (s.proc (s.home th)).children then some init else (s.proc c).parent) = none ↔ _
    split_ifs with hmoved
    · rw [hl.child_parent _ c hmoved]
      exact ⟨by simp, by simp⟩
    · rfl
  | halt heq =>
    rw [heq]
    exact .inl (.of_record rfl)

theorem frame_of_born (hl : Linked s) (heff : Effect s s' e) (hborn : (s.proc c).born) : Frame s s' c := by
  refine (frame_effect hl heff c).resolve_right fun hnew => ?_
  rw [hborn] at hnew
  cases hnew.1

theorem reports_effect (heff : Effect s s' e) : s'.reports = s.reports ∨
    ∃ th d r, d ∈ (s.proc (s.home th)).children ∧ s' = (s.reportChild (s.home th) d r).setPlace th .running := by
  cases heff with
  | report th d r _ _ hchild heq => exact .inr ⟨th, d, r, hchild, heq⟩
  | quiet _ hlocal _ | exitGroup _ _ _ _ _ hlocal _ | finish _ _ _ _ _ hlocal _ => exact .inl hlocal.reports
  | createThread th new _ _ hexited heq =>
    rw [createThread, if_neg (by simp [hexited])] at heq
    exact .inl (by rw [heq]; rfl)
  | createProcess _ _ _ _ _ _ _ _ heq | write _ _ _ _ _ heq | reparent _ _ _ _ _ heq => exact .inl (by rw [heq]; rfl)
  | halt heq => exact .inl (by rw [heq])

theorem Logged.keep (h : Logged s) (hl : Linked s) (heff : Effect s s' e) (hreports : s'.reports = s.reports) :
    Logged s' where
  child rep hrep := by
    rw [hreports] at hrep
    obtain ⟨hborn, hinit⟩ := h.child rep hrep
    exact ⟨(frame_of_born hl heff hborn).born.trans hborn, hinit⟩
  reaped rep hrep hreaped := by
    rw [hreports] at hrep
    obtain ⟨hstate, hst, hexited⟩ := h.reaped rep hrep hreaped
    obtain ⟨hexited', hxstate⟩ := (frame_of_born hl heff (h.child rep hrep).1).exited hexited
    exact ⟨hstate, hst.trans hxstate.symm, hexited'⟩
  count c hc hinit := by
    unfold reaps
    rw [hreports]
    rcases frame_effect hl heff c with hframe | ⟨hnew, p, new, pid, rfl⟩
    · rw [if_congr (hframe.parent hreports) rfl rfl]
      exact h.count c (hframe.born.symm.trans hc) hinit
    rw [if_neg before_newborn.parent]
    refine countP_eq_zero.mpr fun rep hrep hno => ?_
    have heq : rep.child = c := of_decide_eq_true (Bool.and_eq_true_iff.mp hno).1
    rw [← heq, (h.child rep hrep).1] at hnew
    cases hnew
  order := by
    rw [hreports]
    exact h.order

theorem Logged.report (h : Logged s) (hborn : (s.proc d).born) (hinit : d ≠ init) (hparent : (s.proc d).parent ≠ none)
    (hdone : (s.proc d).waitState = .exited → (s.proc d).exited ∧ (s.proc d).waitStatus = (s.proc d).xstate) :
    Logged ((s.reportChild p d r).setPlace th .running) := by
  have hproc := fun c => proc_reportChild (s := s) (p := p) (c := c) (r := r) d
  have hreports : ((s.reportChild p d r).setPlace th .running).reports = _ := reports_reportChild d
  have hnone : s.reaps d = 0 := by rw [h.count d hborn hinit, if_neg hparent]
  have hfresh : ∀ rep ∈ s.reports, rep.reaped → d ≠ rep.child := by
    rintro rep hrep hreaped rfl
    exact countP_eq_zero.mp hnone rep hrep (by simp [hreaped])
  constructor
  · intro rep hrep
    rw [hreports] at hrep
    rw [proc_setPlace, (hproc rep.child).1.2.2.2.2]
    rcases mem_cons.mp hrep with rfl | hold
    · exact ⟨hborn, hinit⟩
    · exact h.child rep hold
  · intro rep hrep hreaped
    rw [hreports] at hrep
    rw [proc_setPlace, (hproc rep.child).1.1, (hproc rep.child).1.2.1]
    rcases mem_cons.mp hrep with rfl | hold
    · have hstate : (s.proc d).waitState = .exited := of_decide_eq_true (Bool.and_eq_true_iff.mp hreaped).2
      exact ⟨hstate, (hdone hstate).2, (hdone hstate).1⟩
    · exact h.reaped rep hold hreaped
  · intro c hc hc'
    rw [proc_setPlace, (hproc c).1.2.2.2.2] at hc
    unfold reaps
    rw [hreports, proc_setPlace, (hproc c).2.2, countP_cons]
    have hcount : s.reports.countP (fun rep => rep.child = c && rep.reaped) =
        if (s.proc c).parent = none then 1 else 0 := h.count c hc hc'
    rw [hcount]
    rcases eq_or_ne d c with rfl | hne
    · cases hnowait : r.wnowait <;> by_cases hstate : (s.proc d).waitState = .exited <;> simp [hstate, hparent]
    · simp [hne]
  · rw [hreports]
    exact pairwise_cons.mpr ⟨fun rep hrep hreaped => hfresh rep hrep hreaped, h.order⟩

/-- A process that is not the first one is before its exit or after it. -/
def Phased (s : ProcessTree) : Prop := ∀ c, (s.proc c).born = true → c ≠ init → Before s c ∨ Done s c

theorem logged_effect (hl : Linked s) (hphased : Phased s) (h : Logged s) (heff : Effect s s' e) : Logged s' := by
  rcases reports_effect heff with hreports | ⟨th, d, r, hchild, rfl⟩
  · exact h.keep hl heff hreports
  have hparent := hl.child_parent _ d hchild
  have hborn := (hl.parent_born d _ hparent).1
  have hinit : d ≠ init := by
    rintro rfl
    rw [hl.init_parent] at hparent
    cases hparent
  refine h.report hborn hinit (by rw [hparent]; nofun) fun hstate => ?_
  have hdone := (hphased d hborn hinit).resolve_left fun hbefore => hbefore.state hstate
  exact ⟨hdone.exited, hdone.status⟩

theorem phased_effect (hl : Linked s) (ht : Threaded s) (h : Phased s) (hguard : s.ExitsCleanly e)
    (heff : Effect s s' e) : Phased s' := by
  intro c hborn hinit
  rcases frame_effect hl heff c with hframe | ⟨_, p, new, pid, rfl⟩
  · have hold := hframe.born.symm.trans hborn
    rcases h c hold hinit with hbefore | hdone
    · exact before_effect hl ht hinit hold hbefore hguard heff
    · exact .inr (done_effect ht hinit hold hdone hguard heff)
  · exact .inl before_newborn

/-! ### Runs -/

structure Recorded (s : ProcessTree) : Prop where
  linked : Linked s
  threaded : Threaded s
  phased : Phased s
  logged : Logged s

theorem recorded_step (h : Recorded s) (hguard : s.ExitsCleanly e) : Recorded (s.step e) := by
  have heff := effect_step h.linked e
  exact ⟨linked_effect h.linked heff, threaded_effect h.linked h.threaded heff,
    phased_effect h.linked h.threaded h.phased hguard heff, logged_effect h.linked h.phased h.logged heff⟩

theorem recorded_start : Recorded start := by
  have hunborn : ∀ c, c ≠ init → (start.proc c).born = false := by
    intro c hc
    simp [start, update_of_ne hc]
  refine ⟨linked_start, threaded_start, fun c hborn hinit => ?_, ⟨by simp [start], by simp [start], fun c hborn hinit => ?_, .nil⟩⟩
  all_goals
    rw [hunborn c hinit] at hborn
    cases hborn

theorem Recorded.done (h : Recorded s) (hborn : (s.proc c).born) (hinit : c ≠ init)
    (hempty : (s.proc c).threadMap = []) : Done s c :=
  (h.phased c hborn hinit).resolve_left fun hbefore => hbefore.threads hempty

theorem done_step (h : Recorded s) (hdone : Done s c) (hborn : (s.proc c).born) (hinit : c ≠ init)
    (hguard : s.ExitsCleanly e) :
    Done (s.step e) c ∧ ((s.step e).proc c).born ∧ ((s.step e).proc c).xstate = (s.proc c).xstate := by
  have heff := effect_step h.linked e
  have hframe := frame_of_born h.linked heff hborn
  exact ⟨done_effect h.threaded hinit hborn hdone hguard heff, hframe.born.trans hborn, (hframe.exited hdone.exited).2⟩

/-- In every run in which processes exit cleanly, a status stays in the wait state until one wait takes it, and no wait
reports the process after that. -/
theorem exit_status_kept {es later : List Event} (hes : Run.Admitted step ExitsCleanly start es)
    (hlater : Run.Admitted step ExitsCleanly (exec step start es) later) {c : ℕ} (hinit : c ≠ init)
    (hborn : ((exec step start es).proc c).born = true)
    (hempty : ((exec step start es).proc c).threadMap = []) :
    let status := ((exec step start es).proc c).exitStatus
    let s := exec step (exec step start es) later
    (s.proc c).waitState = .exited ∧ (s.proc c).waitStatus = status ∧
    (s.reaps c = 0 ∧ (∃! p, c ∈ (s.proc p).children) ∧ (∀ p, (s.proc p).children.count c ≤ 1) ∨
      s.reaps c = 1 ∧ ∀ p, c ∉ (s.proc p).children) ∧
    (∀ rep ∈ s.reports, rep.child = c → rep.reaped = true → rep.state = .exited ∧ rep.status = status) ∧
    s.reports.Pairwise fun newer older => older.reaped = true → newer.child ≠ older.child := by
  intro status s
  have hrecorded : Recorded (exec step start es) :=
    invariant_exec (fun _ _ h hguard => recorded_step h hguard) recorded_start hes
  have hdone := hrecorded.done hborn hinit hempty
  have hstatus : status = ((exec step start es).proc c).xstate := if_pos hdone.exited
  have hstep : ∀ u e, (Recorded u ∧ Done u c ∧ (u.proc c).born = true ∧ (u.proc c).xstate = status) →
      ExitsCleanly u e → Recorded (u.step e) ∧ Done (u.step e) c ∧ ((u.step e).proc c).born = true ∧
        ((u.step e).proc c).xstate = status := by
    rintro u e ⟨h, hd, hb, hx⟩ hguard
    obtain ⟨hd', hb', hx'⟩ := done_step h hd hb hinit hguard
    exact ⟨recorded_step h hguard, hd', hb', hx'.trans hx⟩
  obtain ⟨hs, hsdone, hsborn, hsxstate⟩ := invariant_exec hstep ⟨hrecorded, hdone, hborn, hstatus.symm⟩ hlater
  refine ⟨hsdone.state, hsdone.status.trans hsxstate, ?_, ?_, hs.logged.order⟩
  · have hcount := hs.logged.count c hsborn hinit
    cases hparent : (s.proc c).parent with
    | none =>
      rw [hparent, if_pos rfl] at hcount
      refine .inr ⟨hcount, fun p hc => ?_⟩
      rw [hs.linked.child_parent p c hc] at hparent
      cases hparent
    | some q =>
      rw [hparent, if_neg nofun] at hcount
      refine .inl ⟨hcount, ⟨q, hs.linked.parent_child c q hparent, fun p hc => ?_⟩, fun p => ?_⟩
      · exact Option.some.inj ((hs.linked.child_parent p c hc).symm.trans hparent)
      · exact nodup_iff_count_le_one.mp (hs.linked.nodup p) c
  · rintro rep hrep rfl hreaped
    obtain ⟨hstate, hst, -⟩ := hs.logged.reaped rep hrep hreaped
    exact ⟨hstate, hst.trans hsxstate⟩

instance (s : ProcessTree) (e : Event) : Decidable (s.ExitsCleanly e) := by
  unfold ExitsCleanly
  split <;> infer_instance

/-- A process with two threads is stopped and continued, and exits with status 7. -/
def cleanExitRun : List Event :=
  [.vfork 0 1 1 2, .clone 1 2, .stop 1, .stopWait 1, .stopWait 2, .write 2, .signal 2, .cont 0 1, .write 0, .signal 0,
    .stopResume 1, .stopResume 2, .exitGroup 1 7, .exit 2 0, .finish 2, .exitResume 1, .exitNotify 1, .write 1,
    .signal 1, .finish 1, .processFinish 1]

/-- The zombie gets signals, and its parent looks at it and then reaps it. -/
def reapRun : List Event :=
  [.kill 1, .cont 0 1, .wait 0 { idtype := .pid, id := 2, wnowait := true } false,
    .wait 0 { idtype := .pid, id := 2 } false, .wait 0 { idtype := .pid, id := 2 } false]

theorem exit_status_kept_until_reaped :
    let s := exec step (exec step start cleanExitRun) reapRun
    (s.proc 1).waitState = .exited ∧ (s.proc 1).waitStatus = 7 ∧ s.reaps 1 = 1 ∧
      s.reports = [⟨1, .exited, 7, true⟩, ⟨1, .exited, 7, false⟩] := by
  have hes : Run.Admitted step ExitsCleanly start cleanExitRun := by decide +kernel
  have hlater : Run.Admitted step ExitsCleanly (exec step start cleanExitRun) reapRun := by decide +kernel
  have hkept := exit_status_kept hes hlater (c := 1) nofun (by decide +kernel) (by decide +kernel)
  exact ⟨hkept.1, hkept.2.1.trans (by decide +kernel), by decide +kernel, by decide +kernel⟩

/-- The only thread of a process calls `exit`. -/
def plainExitRun : List Event := [.vfork 0 1 1 2, .exit 1 7, .finish 1, .processFinish 1]

/-- A process is stopped while one of its threads runs on and calls `exit_group`. -/
def stoppedExitRun : List Event :=
  [.vfork 0 1 1 2, .clone 1 4, .stop 1, .stopWait 4, .exitGroup 1 5, .stopResume 4, .exit 4 0, .finish 4,
    .exitResume 1, .exitNotify 1, .write 1, .signal 1]

/-- After `exit` the process is not waitable. In the second run its last thread, when it leaves, overwrites the exit
with a stop, and in the third a continuation of the zombie does. -/
theorem exit_status_lost :
    let plain := exec step start plainExitRun
    let stopped := exec step start (stoppedExitRun ++ [.finish 1, .write 1, .signal 1, .processFinish 1])
    let continued := exec step start
      (stoppedExitRun ++ [.cont 0 1, .write 0, .signal 0, .finish 1, .processFinish 1])
    ((plain.proc 1).threadMap = [] ∧ (plain.proc 1).exitStatus = 7 ∧ (plain.proc 1).waitState = .notWaitable) ∧
    ((stopped.proc 1).threadMap = [] ∧ (stopped.proc 1).exitStatus = 5 ∧ (stopped.proc 1).waitState = .stopped ∧
      (stopped.proc 1).waitStatus = 0) ∧ (continued.proc 1).threadMap = [] ∧ (continued.proc 1).exitStatus = 5 ∧
      (continued.proc 1).waitState = .continued ∧ (continued.proc 1).waitStatus = 0 := by
  decide +kernel

end ProcessTree
end Junction
