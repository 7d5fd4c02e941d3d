import Junction.ProcessTreeSteps

/-!
# The links are kept, and the threads of a process

Every step keeps the links between processes, in every run and without a condition.
-/

namespace Junction.ProcessTree
open Function Place List Option
variable {s s' : ProcessTree} {th c p : ℕ} {e : Event} {n : Notice}

namespace Move
variable {pl pl' : Place}

theorem source_ne_absent (h : Move s s' e th pl pl') : pl ≠ .absent := by
  rintro rfl
  cases h with
  | calm h => cases h
  | arm _ h => cases h

theorem notice_spec (h : Move s s' e th pl pl') (hn : pl'.notice = some n) :
    pl' = .notifying n ∧ (s.proc n.child).parent = some n.parent ∧
      (n.origin ≠ .exit → (s'.proc n.child).threadLock = some th) := by
  cases h with
  | calm _ h' => cases pl' <;> simp_all [Place.calm, notice]
  | exitRead status q hparent =>
    obtain rfl := some.inj hn
    exact ⟨rfl, hparent, fun ho => absurd rfl ho⟩
  | stopRead q hparent hlock | contRead c q _ _ hparent hlock =>
    obtain rfl := some.inj hn
    exact ⟨rfl, hparent, fun _ => hlock⟩
  | signalled m q _ _ hafter =>
    unfold After at hafter
    cases ho : m.origin <;> simp only [ho] at hafter <;> (try rcases hafter with rfl | rfl) <;> simp_all [notice]
  | _ => simp [notice] at hn

variable {r : WaitRequest}

theorem arming_spec (h : Move s s' e th pl (.arming r)) :
    s.findWaitableProcess (s.home th) r = .ok none ∧ (s'.proc (s.home th)).queueLock = some th := by
  cases h with
  | calm _ h' => simp [Place.calm] at h'
  | signalled m q _ _ hafter =>
    unfold After at hafter
    cases ho : m.origin <;> simp [ho] at hafter
  | arm _ _ hfind _ hlock => exact ⟨hfind, hlock⟩

theorem parked_source (h : Move s s' e th pl (.waiting r .parked)) : pl = .arming r := by
  cases h with
  | calm _ _ hparked => exact absurd rfl (hparked r)
  | signalled m q _ _ hafter => exact absurd rfl (After.not_parked hafter r)
  | park => rfl

theorem signalled_woken {u : ℕ} (h : Move s s' e th (.signalling n) pl')
    (hparent : (s.proc n.child).parent = some (s.home u)) : s'.place u ≠ .waiting r .parked := by
  cases h with
  | calm h => cases h
  | signalled m q hq hwoken =>
    exact hwoken u r (some.inj (hparent.symm.trans hq))
  | arm _ h => cases h

end Move

variable (h : Linked s)
include h

theorem Linked.quiet {actor : Option ℕ} (hlocal : Local s s' actor)
    (hmove : ∀ th, actor = some th → Move s s' e th (s.place th) (s'.place th)) : Linked s' := by
  refine h.local hlocal fun th hth => ?_
  have hm := hmove th hth
  constructor
  · exact fun _ => h.place_born th hm.source_ne_absent
  · exact fun n hn => h.parent_born _ _ (hm.notice_spec hn).2.1
  · exact fun n hn ho => (hm.notice_spec hn).2.2 ho
  · intro n hn
    have hnot := (hm.notice_spec (by rw [hn]; rfl)).1
    rw [hn] at hnot
    cases hnot
  intro r hr
  rw [hr] at hm
  exact hm.arming_spec.2

theorem Linked.plain (hlocal : Local s s' (some th)) (hborn : (s.proc (s.home th)).born)
    (hplain : (s'.place th).plain) : Linked s' := by
  have hnone := notice_eq_none hplain
  refine h.local hlocal fun u hu => ?_
  obtain rfl := some.inj hu
  refine ⟨fun _ => hborn, fun n hn => ?_, fun n hn => ?_, fun n hn => ?_, fun r hr => ?_⟩
  · rw [hnone] at hn
    cases hn
  · rw [hnone] at hn
    cases hn
  · rw [hn] at hplain
    cases hplain
  · rw [hr] at hplain
    cases hplain

theorem Linked.notifying (hlocal : Local s s' (some th))
    (hborn : (s.proc (s.home th)).born) (hplace : s'.place th = .notifying n)
    (hparent : (s.proc n.child).parent = some n.parent)
    (hlock : n.origin ≠ .exit → (s'.proc n.child).threadLock = some th) : Linked s' := by
  refine h.local hlocal fun u hu => ?_
  obtain rfl := some.inj hu
  constructor <;> rw [hplace]
  · exact fun _ => hborn
  · intro m hm
    obtain rfl := some.inj hm
    exact h.parent_born _ _ hparent
  · intro m hm
    obtain rfl := some.inj hm
    exact hlock
  · nofun
  · nofun

variable {new : ℕ}

theorem Linked.addThread (hnew : s.place new = .absent) (hborn : (s.proc c).born) :
    Linked { s with home := update s.home new c, place := update s.place new .running } := by
  have hold : ∀ u, u ≠ new → update s.home new c u = s.home u ∧
      update s.place new Place.running u = s.place u := fun u hu =>
    ⟨update_of_ne hu .., update_of_ne hu ..⟩
  refine { h with place_born := ?_, notice_born := ?_, notice_lock := ?_, signal_lock := ?_, arming_lock := ?_ }
  all_goals
    intro u
    rcases eq_or_ne u new with rfl | hne
  · intro _
    simp only [update_self]
    exact hborn
  · simp only [(hold u hne).1, (hold u hne).2]
    exact h.place_born u
  · simp [notice]
  · simp only [(hold u hne).2]
    exact h.notice_born u
  · simp [notice]
  · simp only [(hold u hne).2]
    exact h.notice_lock u
  · simp
  · simp only [(hold u hne).2]
    exact h.signal_lock u
  · simp
  · simp only [(hold u hne).1, (hold u hne).2]
    exact h.arming_lock u

theorem Linked.createProcess {child : ℕ} {pid : ℤ} (hp : (s.proc p).born)
    (hchild : (s.proc child).born = false) (hnew : s.place new = .absent) :
    Linked (s.createProcess p child new pid) := by
  have hunborn : ∀ q, (s.proc q).born → q ≠ child := by
    rintro q hq rfl
    rw [hchild] at hq
    cases hq
  set s₁ := s.setProc p { s.proc p with children := (s.proc p).children ++ [child] } with hs₁
  set s₂ := s₁.setProc child
    { pid, pgid := (s.proc p).pgid, born := true, parent := some p, threadMap := [new] } with hs₂
  have hself : s₂.proc child = { pid, pgid := (s.proc p).pgid, born := true, parent := some p, threadMap := [new] } :=
    proc_setProc
  have hother : ∀ q, q ≠ child → s₂.proc q = s₁.proc q := fun q hq => proc_setProc_of_ne hq
  have hborn : ∀ q, q ≠ child → (s₂.proc q).born = (s.proc q).born := fun q hq => by
    rw [hother q hq]
    exact field_setProc Process.born (by rfl) q
  have hparent : ∀ q, q ≠ child → (s₂.proc q).parent = (s.proc q).parent := fun q hq => by
    rw [hother q hq]
    exact field_setProc Process.parent (by rfl) q
  have hchildren : ∀ q, (s₂.proc q).children =
      if q = p then (s.proc q).children ++ [child] else if q = child then [] else (s.proc q).children := by
    intro q
    split_ifs with heq hq
    · rw [heq, hother p (hunborn p hp), hs₁, proc_setProc]
    · rw [hq, hself]
    · rw [hother q hq, hs₁, proc_setProc_of_ne heq]
  have hold : ∀ q, ∀ d ∈ (s.proc q).children, d ≠ child := fun q d hd =>
    hunborn d (h.parent_born d q (h.child_parent q d hd)).1
  have hlinked : Linked s₂ := by
    refine h.relink rfl rfl ?_ ?_ ?_ ?_ ?_
    · intro q hq
      refine ⟨(hborn q (hunborn q hq)).trans hq, ?_⟩
      rw [hother q (hunborn q hq)]
      exact ⟨field_setProc Process.threadLock (by rfl) q, field_setProc Process.queueLock (by rfl) q⟩
    · intro q d hd
      have hmem : d = child ∧ q = p ∨ d ∈ (s.proc q).children := by
        rw [hchildren] at hd
        split_ifs at hd with heq
        · exact (mem_append.mp hd).symm.imp_left fun hd => ⟨mem_singleton.mp hd, heq⟩
        · cases hd
        · exact .inr hd
      rcases hmem with ⟨rfl, rfl⟩ | hmem
      · rw [hself]
      · rw [hparent d (hold q d hmem)]
        exact h.child_parent q d hmem
    · intro d q hd
      rcases eq_or_ne d child with rfl | hne
      · rw [hself] at hd
        obtain rfl := some.inj hd
        rw [hchildren, if_pos rfl, hself, hborn _ (hunborn _ hp)]
        exact ⟨mem_append_right _ (mem_singleton_self d), rfl, hp⟩
      rw [hparent d hne] at hd
      have hmem := h.parent_child d q hd
      have hb := h.parent_born d q hd
      rw [hborn d hne, hborn q (hunborn q hb.2), hchildren, if_neg (hunborn q hb.2)]
      refine ⟨?_, hb⟩
      split_ifs
      · exact mem_append_left _ hmem
      · exact hmem
    · intro q
      rw [hchildren]
      split_ifs
      · refine nodup_append'.mpr ⟨h.nodup q, nodup_singleton _, fun d hd hd' => ?_⟩
        exact hold q d hd (mem_singleton.mp hd')
      · exact nodup_nil
      · exact h.nodup q
    · rw [hparent init (hunborn init h.init_born)]
      exact h.init_parent
  exact hlinked.addThread hnew (by rw [hself])

theorem Linked.write (hplace : s.place th = .notifying n) (hfree : s.queueFree n.parent) :
    Linked (s.writeWaitState th n) := by
  have hqueue : (s.proc n.parent).queueLock = none := hfree
  unfold writeWaitState
  set s₁ := s.setProc n.parent { s.proc n.parent with queueLock := some th } with hs₁
  set s₂ := s₁.setProc n.child { s₁.proc n.child with waitState := n.state, waitStatus := n.status } with hs₂
  have hlock : Local s s₁ none := .setProc rfl (fun _ _ h => h) fun u _ hu => by rw [hqueue] at hu; cases hu
  have hlinked : Linked s₂ := Linked.setProc (h.quiet hlock (e := .write th) nofun) rfl rfl rfl rfl rfl
  have hat : s₂.place th = .notifying n := hplace
  have hheld : (s₂.proc n.parent).queueLock = some th :=
    (field_setProc Process.queueLock (by rfl) _).trans (by rw [hs₁, proc_setProc])
  refine hlinked.local (.setPlace s₂ th _) fun u hu => ?_
  obtain rfl := some.inj hu
  constructor <;> rw [place_setPlace]
  · exact fun _ => hlinked.place_born th (by rw [hat]; nofun)
  · exact fun m hm => hlinked.notice_born th m (by rw [hat]; exact hm)
  · exact fun m hm => hlinked.notice_lock th m (by rw [hat]; exact hm)
  · intro m hm
    obtain rfl := Place.signalling.inj hm
    exact hheld
  · nofun

theorem Linked.reapChild (hc : c ∈ (s.proc p).children) : Linked (s.reapChild p c) := by
  unfold ProcessTree.reapChild
  split_ifs with hstate
  · exact h.setProc rfl rfl rfl rfl rfl
  set s₁ := s.setProc c { s.proc c with parent := none } with hs₁
  set s₂ := s₁.setProc p { s₁.proc p with children := (s₁.proc p).children.filter (· ≠ c) } with hs₂
  have hchildren₁ : ∀ q, (s₁.proc q).children = (s.proc q).children := field_setProc Process.children (by rfl)
  have hparent : ∀ q, (s₂.proc q).parent = if q = c then none else (s.proc q).parent := by
    intro q
    have hq : (s₂.proc q).parent = (s₁.proc q).parent := field_setProc Process.parent (by rfl) q
    rw [hq]
    split_ifs with heq
    · rw [heq, hs₁, proc_setProc]
    · rw [proc_setProc_of_ne heq]
  have hchildren : ∀ q, (s₂.proc q).children =
      if q = p then (s.proc q).children.filter (· ≠ c) else (s.proc q).children := by
    intro q
    split_ifs with heq
    · rw [heq, hs₂, proc_setProc, hchildren₁]
    · rw [hs₂, proc_setProc_of_ne heq, hchildren₁]
  have hkept : ∀ {α : Type} (f : Process → α), f (s₁.proc p) = f { s₁.proc p with children := _ } →
      f { s.proc c with parent := none } = f (s.proc c) → ∀ q, f (s₂.proc q) = f (s.proc q) := fun f h₂ h₁ q =>
    (field_setProc f h₂.symm q).trans (field_setProc f h₁ q)
  have hborn := hkept Process.born rfl rfl
  refine h.relink rfl rfl (fun q hq => ⟨(hborn q).trans hq, hkept Process.threadLock rfl rfl q,
    hkept Process.queueLock rfl rfl q⟩) ?_ ?_ ?_ ?_
  · intro q d hd
    have hmem : d ∈ (s.proc q).children ∧ d ≠ c := by
      rw [hchildren] at hd
      split_ifs at hd with heq
      · exact ⟨(mem_filter.mp hd).1, by simpa using (mem_filter.mp hd).2⟩
      refine ⟨hd, ?_⟩
      rintro rfl
      exact heq (some.inj ((h.child_parent q d hd).symm.trans (h.child_parent p d hc)))
    rw [hparent, if_neg hmem.2]
    exact h.child_parent q d hmem.1
  · intro d q hd
    rw [hparent] at hd
    split_ifs at hd with heq
    have hmem := h.parent_child d q hd
    rw [hborn, hborn, hchildren]
    refine ⟨?_, h.parent_born d q hd⟩
    split_ifs
    · exact mem_filter.mpr ⟨hmem, by simpa using heq⟩
    · exact hmem
  · intro q
    rw [hchildren]
    split_ifs
    · exact (h.nodup q).filter _
    · exact h.nodup q
  · rw [hparent]
    split_ifs
    · rfl
    · exact h.init_parent

theorem Linked.reparent (hc : c ≠ init) : Linked (s.reparent c) := by
  have hmoved : ∀ d, d ∈ (s.proc c).children ↔ (s.proc d).parent = some c := fun d =>
    ⟨h.child_parent c d, h.parent_child d c⟩
  refine h.relink rfl rfl (fun q hq => ⟨hq, rfl, rfl⟩) ?_ ?_ ?_ ?_
  · intro q d hd
    simp only [ProcessTree.reparent] at hd ⊢
    split_ifs at hd with hq hinit
    · cases hd
    · subst hinit
      split_ifs with hmem
      · rfl
      · exact h.child_parent init d ((mem_append.mp hd).resolve_right hmem)
    have hd' := h.child_parent q d hd
    rw [if_neg fun hmem => hq (some.inj (hd'.symm.trans ((hmoved d).mp hmem)))]
    exact hd'
  · intro d q hd
    simp only [ProcessTree.reparent] at hd ⊢
    by_cases hmem : d ∈ (s.proc c).children
    · rw [if_pos hmem] at hd
      obtain rfl := some.inj hd
      refine ⟨?_, (h.parent_born d c ((hmoved d).mp hmem)).1, h.init_born⟩
      rw [if_neg hc.symm, if_pos rfl]
      exact mem_append_right _ hmem
    rw [if_neg hmem] at hd
    refine ⟨?_, h.parent_born d q hd⟩
    have hq : q ≠ c := by
      rintro rfl
      exact hmem ((hmoved d).mpr hd)
    rw [if_neg hq]
    split_ifs with hinit
    · exact mem_append_left _ (h.parent_child d q hd)
    · exact h.parent_child d q hd
  · intro q
    simp only [ProcessTree.reparent]
    split_ifs with hq hinit
    · exact nodup_nil
    · refine nodup_append'.mpr ⟨h.nodup q, h.nodup c, fun d hd hd' => hq ?_⟩
      exact some.inj ((h.child_parent q d hd).symm.trans ((hmoved d).mp hd'))
    · exact h.nodup q
  · simp only [ProcessTree.reparent]
    rw [if_neg fun hmem => by
      have := (hmoved init).mp hmem
      rw [h.init_parent] at this
      cases this]
    exact h.init_parent

theorem Linked.reportChild {r : WaitRequest} (hc : c ∈ (s.proc p).children) : Linked (s.reportChild p c r) := by
  have hsame : ∀ reports, Linked { s with reports := reports } := fun _ =>
    { h with }
  unfold ProcessTree.reportChild
  split_ifs
  · exact hsame _
  · exact (hsame _).reapChild hc

theorem linked_effect (heff : Effect s s' e) : Linked s' := by
  cases heff with
  | quiet actor hlocal hmove => exact h.quiet hlocal hmove
  | exitGroup th status hplace _ _ hlocal hafter =>
    have hclaim : Linked (s.claimExit (s.home th) status) := h.setProc rfl rfl rfl rfl rfl
    refine hclaim.plain hlocal (hclaim.place_born th fun habsent => ?_) ?_
    · change s.place th = .absent at habsent
      rw [hplace] at habsent
      cases habsent
    · rcases hafter with heq | ⟨_, heq⟩ <;> rw [heq] <;> rfl
  | finish th status _ hplace _ hlocal hafter =>
    have hdrop : Linked (s.dropThread (s.home th) th status) := h.setProc rfl rfl rfl rfl rfl
    have hborn := hdrop.place_born th (by
      change s.place th ≠ _
      simp [hplace])
    rcases hafter with heq | heq | ⟨q, _, hparent, heq, hlock⟩
    · exact hdrop.plain hlocal hborn (by rw [heq]; rfl)
    · exact hdrop.plain hlocal hborn (by rw [heq]; rfl)
    refine hdrop.notifying hlocal hborn heq ?_ fun _ => hlock
    rw [dropThread, proc_setProc]
    exact hparent
  | createThread th new hplace hnew hexited heq =>
    have hborn := h.place_born th (by simp [hplace])
    rw [heq, ProcessTree.createThread, if_neg (by simp [hexited])]
    have hadd : Linked (s.setProc (s.home th)
        { s.proc (s.home th) with threadMap := (s.proc (s.home th)).threadMap ++ [new] }) :=
      h.setProc rfl rfl rfl rfl rfl
    exact hadd.addThread hnew (by rw [proc_setProc]; exact hborn)
  | createProcess th child new pid hplace hnew hchild _ heq =>
    rw [heq]
    exact h.createProcess (h.place_born th (by simp [hplace])) hchild hnew
  | write th n _ hplace hfree heq =>
    rw [heq]
    exact h.write hplace hfree
  | report th c r hplace hfree hchild heq =>
    rw [heq]
    have hreport := h.reportChild (r := r) hchild
    refine hreport.plain (.setPlace _ th _) (hreport.place_born th ?_) (by rw [place_setPlace]; rfl)
    rw [place_reportChild]
    rintro habsent
    rw [habsent] at hplace
    cases hplace
  | reparent th _ hplace hinit _ heq =>
    rw [heq]
    have hmoved := h.reparent hinit
    exact hmoved.plain (.setPlace _ th _) (hmoved.place_born th (by
      change s.place th ≠ _
      simp [hplace])) (by rw [place_setPlace]; rfl)
  | halt heq =>
    rw [heq]
    exact { h with }

omit h in
theorem place_start (th : ℕ) : start.place th = .absent ∨ th = 0 ∧ start.place th = .running := by
  rcases eq_or_ne th 0 with rfl | hne
  · exact .inr ⟨rfl, rfl⟩
  · left
    simp [start, update_of_ne hne]

omit h in
theorem linked_start : Linked start := by
  have hproc : ∀ p, (start.proc p).children = [] ∧ (start.proc p).parent = none := by
    intro p
    rcases eq_or_ne p init with rfl | hne
    · exact ⟨rfl, rfl⟩
    · simp [start, update_of_ne hne]
  have hnotice : ∀ th, (start.place th).notice = none := fun th => by
    rcases place_start th with h | ⟨-, h⟩ <;> rw [h] <;> rfl
  refine ⟨fun p c hc => ?_, fun c p hp => ?_, fun p => ?_, fun c p hp => ?_, rfl, rfl, fun _ _ => rfl,
    fun th n hn => ?_, fun th n hn => ?_, fun th n hn => ?_, fun th r hr => ?_⟩
  · rw [(hproc p).1] at hc
    cases hc
  · rw [(hproc c).2] at hp
    cases hp
  · rw [(hproc p).1]
    exact nodup_nil
  · rw [(hproc c).2] at hp
    cases hp
  · rw [hnotice] at hn
    cases hn
  · rw [hnotice] at hn
    cases hn
  · rcases place_start th with h | ⟨-, h⟩ <;> rw [h] at hn <;> cases hn
  · rcases place_start th with h | ⟨-, h⟩ <;> rw [h] at hr <;> cases hr

theorem effect_step (e : Event) : Effect s (s.step e) e := by
  unfold step
  split_ifs
  · exact .idle s e
  · exact effect_act h e

end Junction.ProcessTree

/-! ### The first thread that calls `exit_group` claims the exit, and it tells the parent when it is alone -/

namespace Junction
open Function Option List Process

namespace Place
variable {pl pl' : Place}

def live : Place → Bool
  | absent => false
  | processFinish => false
  | notifying n => n.origin ≠ .finish
  | signalling n => n.origin ≠ .finish
  | _ => true

/-- The status that the thread is going to tell the parent of its process. -/
def exiting : Place → Option ℤ
  | exitWait status _ => some status
  | exitNotify status => some status
  | notifying n => if n.origin = .exit then some n.status else none
  | _ => none

def alone : Place → Bool
  | exitNotify _ => true
  | notifying n => n.origin = .exit
  | signalling n => n.origin = .exit
  | _ => false

theorem Woken.live_eq (h : Woken pl pl') : pl'.live = pl.live := by
  cases h <;> rfl

theorem Woken.exiting_eq (h : Woken pl pl') : pl'.exiting = pl.exiting := by
  cases h <;> rfl

theorem Woken.alone_eq (h : Woken pl pl') : pl'.alone = pl.alone := by
  cases h <;> rfl

theorem live_of_exiting {status : ℤ} (h : pl.exiting = some status) : pl.live := by
  cases pl with
  | notifying n =>
    simp only [exiting] at h
    split_ifs at h with ho
    simp [live, ho]
  | _ => simp_all [exiting, live]

theorem live_of_calm (h : pl.calm) : pl.live := by
  cases pl <;> simp_all [calm, live]

theorem exiting_of_calm (h : pl.calm) : pl.exiting = none := by
  cases pl <;> simp_all [calm, exiting]

end Place

open Place

/-- What the threads of a process know of it. -/
def Process.roster (q : Process) : List ℕ × Bool × ℤ := (q.threadMap, q.exited, q.xstate)

namespace ProcessTree
variable {s s' : ProcessTree} {th c p : ℕ} {e : Event}

/-- How a thread at a place stands to its process. -/
structure Enrolled (q : Process) (c th : ℕ) (pl : Place) : Prop where
  mapped : pl.live = true → th ∈ q.threadMap
  exiting : ∀ status, pl.exiting = some status → q.exited = true ∧ q.xstate = status
  alone : pl.alone = true → q.threadMap = [th] ∧ q.exited = true
  origin : ∀ n, pl.notice = some n → (n.origin ≠ .cont → n.child = c) ∧ (n.state = .exited ↔ n.origin = .exit)

structure Threaded (s : ProcessTree) : Prop where
  enrolled : ∀ th, Enrolled (s.proc (s.home th)) (s.home th) th (s.place th)
  unique : ∀ th u, (s.place th).exiting.isSome = true → (s.place u).exiting.isSome = true → s.home th = s.home u →
    th = u

namespace Enrolled
variable {q q' : Process} {pl pl' : Place}

theorem woken (h : Enrolled q c th pl) (hw : Woken pl pl') : Enrolled q c th pl' := by
  constructor
  · rw [hw.live_eq]
    exact h.mapped
  · rw [hw.exiting_eq]
    exact h.exiting
  · rw [hw.alone_eq]
    exact h.alone
  · rw [hw.notice_eq]
    exact h.origin

theorem congr (h : Enrolled q c th pl) (heq : q'.roster = q.roster) : Enrolled q' c th pl := by
  obtain ⟨hmap, hexited, hxstate⟩ : q'.threadMap = q.threadMap ∧ q'.exited = q.exited ∧ q'.xstate = q.xstate := by
    simpa [roster] using heq
  constructor
  · rw [hmap]
    exact h.mapped
  · rw [hexited, hxstate]
    exact h.exiting
  · rw [hmap, hexited]
    exact h.alone
  · exact h.origin

theorem of_plain (hmem : pl.live → th ∈ q.threadMap) (hexiting : pl.exiting = none) (halone : pl.alone = false)
    (hnotice : pl.notice = none) : Enrolled q c th pl where
  mapped := hmem
  exiting status h := by rw [hexiting] at h; cases h
  alone h := by rw [halone] at h; cases h
  origin n h := by rw [hnotice] at h; cases h

theorem of_calm (hmem : th ∈ q.threadMap) (h : pl.calm) : Enrolled q c th pl := by
  refine .of_plain (fun _ => hmem) (exiting_of_calm h) ?_ ?_
  all_goals cases pl <;> simp_all [calm, Place.alone, notice]

/-- As long as nobody has claimed the exit, only the map matters. -/
theorem unclaimed (h : Enrolled q c th pl) (hq : q.exited = false) (hmem : pl.live → th ∈ q'.threadMap) :
    Enrolled q' c th pl where
  mapped := hmem
  exiting status hst := by
    have hex := (h.exiting status hst).1
    rw [hq] at hex
    cases hex
  alone ha := by
    have hex := (h.alone ha).2
    rw [hq] at hex
    cases hex
  origin := h.origin

end Enrolled

variable (h : Threaded s)
include h

theorem Threaded.move {a : Option ℕ} (hhome : s'.home = s.home)
    (hothers : ∀ u, some u ≠ a → Woken (s.place u) (s'.place u)) (hsame : ∀ p, (s'.proc p).roster = (s.proc p).roster)
    (hactor : ∀ th, a = some th → Enrolled (s.proc (s.home th)) (s.home th) th (s'.place th) ∧
      ((s'.place th).exiting.isSome → (s.place th).exiting.isSome)) : Threaded s' := by
  have hexiting : ∀ th, (s'.place th).exiting.isSome → (s.place th).exiting.isSome := by
    intro th
    by_cases hact : some th = a
    · exact (hactor th hact.symm).2
    · rw [(hothers th hact).exiting_eq]
      exact id
  refine ⟨fun th => ?_, fun th u hth hu heq => ?_⟩
  · rw [hhome]
    refine Enrolled.congr ?_ (hsame _)
    by_cases hact : some th = a
    · exact (hactor th hact.symm).1
    · exact (h.enrolled th).woken (hothers th hact)
  · rw [hhome] at heq
    exact h.unique th u (hexiting th hth) (hexiting u hu) heq

omit h in
theorem Move.enrolled {q : Process} {pl pl' : Place} (hmove : Move s s' e th pl pl') (hq : s.proc (s.home th) = q)
    (h : Enrolled q (s.home th) th pl) :
    Enrolled q (s.home th) th pl' ∧ (pl'.exiting.isSome → pl.exiting.isSome) := by
  cases hmove with
  | calm hcalm hcalm' =>
    refine ⟨.of_calm (h.mapped (live_of_calm hcalm)) hcalm', ?_⟩
    rw [exiting_of_calm hcalm']
    nofun
  | leave | exitOrphan | park => exact ⟨.of_plain (fun _ => h.mapped rfl) rfl rfl rfl, nofun⟩
  | exitPark status => exact ⟨⟨fun _ => h.mapped rfl, h.exiting, nofun, nofun⟩, id⟩
  | exitAlone status hlen _ =>
    rw [hq] at hlen
    refine ⟨⟨fun _ => h.mapped rfl, h.exiting, fun _ => ⟨?_, (h.exiting status rfl).1⟩, nofun⟩, id⟩
    obtain ⟨u, hu⟩ := length_eq_one_iff.mp hlen
    have hmem := h.mapped rfl
    rw [hu] at hmem ⊢
    rw [mem_singleton.mp hmem]
  | exitRead status p =>
    refine ⟨⟨fun _ => h.mapped rfl, h.exiting, h.alone, fun n hn => ?_⟩, id⟩
    obtain rfl := some.inj hn
    exact ⟨fun _ => rfl, by simp⟩
  | stopRead p =>
    refine ⟨⟨fun _ => h.mapped rfl, nofun, nofun, fun n hn => ?_⟩, nofun⟩
    obtain rfl := some.inj hn
    exact ⟨fun _ => rfl, by simp⟩
  | contRead c p =>
    refine ⟨⟨fun _ => h.mapped rfl, nofun, nofun, fun n hn => ?_⟩, nofun⟩
    obtain rfl := some.inj hn
    exact ⟨fun ho => absurd rfl ho, by simp⟩
  | signalled n p _ _ hafter =>
    have hmem : n.origin ≠ .finish → th ∈ q.threadMap := fun ho => h.mapped (by simp [live, ho])
    unfold After at hafter
    cases ho : n.origin with
    | exit | cont =>
      simp only [ho] at hafter
      subst hafter
      exact ⟨.of_plain (fun _ => hmem (by simp [ho])) rfl rfl rfl, nofun⟩
    | stop =>
      simp only [ho] at hafter
      rcases hafter with rfl | rfl <;> exact ⟨.of_plain (fun _ => hmem (by simp [ho])) rfl rfl rfl, nofun⟩
    | finish =>
      simp only [ho] at hafter
      rcases hafter with rfl | rfl <;> exact ⟨.of_plain nofun rfl rfl rfl, nofun⟩
  | gone => exact ⟨.of_plain nofun rfl rfl rfl, nofun⟩
  | arm r hcalm => exact ⟨.of_plain (fun _ => h.mapped (live_of_calm hcalm)) rfl rfl rfl, nofun⟩

theorem Threaded.claimExit {status : ℤ} (hplace : s.place th = .running)
    (hfirst : (s.proc (s.home th)).exited = false) (hlocal : Local (s.claimExit (s.home th) status) s' (some th))
    (hafter : s'.place th = .exitWait status true ∨
      (s.proc (s.home th)).threadMap.length = 1 ∧ s'.place th = .exitNotify status) : Threaded s' := by
  have hhome : s'.home = s.home := hlocal.home
  have hwoken : ∀ u, u ≠ th → Woken (s.place u) (s'.place u) := hlocal.rest.woken
  have hmap : ∀ p, (s'.proc p).threadMap = (s.proc p).threadMap := fun p =>
    (hlocal.field threadMap (fun _ => rfl) p).trans (field_setProc threadMap (by rfl) p)
  have hmem := (h.enrolled th).mapped (by rw [hplace]; rfl)
  -- Nobody else in the process is about to tell a status.
  have hnone : ∀ u, u ≠ th → (s'.place u).exiting.isSome → s.home u ≠ s.home th := by
    intro u hu hsome heq
    obtain ⟨st, hst⟩ := isSome_iff_exists.mp hsome
    rw [(hwoken u hu).exiting_eq] at hst
    have hex := ((h.enrolled u).exiting st hst).1
    rw [heq, hfirst] at hex
    cases hex
  refine ⟨fun u => ?_, fun u v hu hv heq => ?_⟩
  · rw [hhome]
    rcases eq_or_ne u th with rfl | hne
    · have hclaimed : (s'.proc (s.home u)).exited ∧ (s'.proc (s.home u)).xstate = status := by
        rw [hlocal.field exited fun _ => rfl, hlocal.field xstate fun _ => rfl,
          ProcessTree.claimExit, proc_setProc]
        exact ⟨rfl, rfl⟩
      have hexiting : ∀ st, some status = some st → _ := fun st hst => some.inj hst ▸ hclaimed
      rcases hafter with heq | ⟨hlen, heq⟩ <;> rw [heq]
      · exact ⟨fun _ => (hmap _).symm ▸ hmem, hexiting, nofun, nofun⟩
      refine ⟨fun _ => (hmap _).symm ▸ hmem, hexiting, fun _ => ⟨?_, hclaimed.1⟩, nofun⟩
      obtain ⟨v, hv⟩ := length_eq_one_iff.mp hlen
      rw [hmap]
      rw [hv] at hmem ⊢
      rw [mem_singleton.mp hmem]
    · refine Enrolled.woken ?_ (hwoken u hne)
      rcases eq_or_ne (s.home u) (s.home th) with heq | hother
      · refine (h.enrolled u).unclaimed (by rw [heq]; exact hfirst) fun hlive => ?_
        rw [hmap]
        exact (h.enrolled u).mapped hlive
      · refine (h.enrolled u).congr ((hlocal.field roster (fun _ => rfl) _).trans ?_)
        rw [ProcessTree.claimExit, proc_setProc_of_ne hother]
  · rw [hhome] at heq
    rcases eq_or_ne u th with rfl | hne
    · rcases eq_or_ne v u with rfl | hne'
      · rfl
      · exact absurd heq.symm (hnone v hne' hv)
    rcases eq_or_ne v th with rfl | hne'
    · exact absurd heq (hnone u hne hu)
    rw [(hwoken u hne).exiting_eq] at hu
    rw [(hwoken v hne').exiting_eq] at hv
    exact h.unique u v hu hv heq

theorem Threaded.dropThread {status : ℤ} (hplace : s.place th = .finishing status)
    (hlocal : Local (s.dropThread (s.home th) th status) s' (some th))
    (hafter : s'.place th = .processFinish ∨ s'.place th = .absent ∨
      ∃ p, s'.place th = .notifying ⟨s.home th, .stopped, 0, .finish, p⟩) : Threaded s' := by
  have hhome : s'.home = s.home := hlocal.home
  have hwoken : ∀ u, u ≠ th → Woken (s.place u) (s'.place u) := hlocal.rest.woken
  have hroster : ∀ p, (s'.proc p).roster = ((s.dropThread (s.home th) th status).proc p).roster :=
    hlocal.field roster fun _ => rfl
  have hmem := (h.enrolled th).mapped (by rw [hplace]; rfl)
  have hexiting : ∀ u, (s'.place u).exiting.isSome → (s.place u).exiting.isSome := by
    intro u hu
    rcases eq_or_ne u th with rfl | hne
    · rcases hafter with heq | heq | ⟨p, heq⟩ <;> rw [heq] at hu <;> cases hu
    · exact (hwoken u hne).exiting_eq ▸ hu
  refine ⟨fun u => ?_, fun u v hu hv heq => ?_⟩
  · rw [hhome]
    rcases eq_or_ne u th with rfl | hne
    · rcases hafter with heq | heq | ⟨p, heq⟩ <;> rw [heq]
      · exact .of_plain nofun rfl rfl rfl
      · exact .of_plain nofun rfl rfl rfl
      refine ⟨nofun, nofun, nofun, fun n hn => ?_⟩
      obtain rfl := some.inj hn
      exact ⟨fun _ => rfl, by simp⟩
    refine Enrolled.woken ?_ (hwoken u hne)
    have hold := h.enrolled u
    rcases eq_or_ne (s.home u) (s.home th) with heq | hother
    · rw [heq] at hold ⊢
      refine Enrolled.congr ?_ (hroster _)
      rw [ProcessTree.dropThread, proc_setProc]
      refine ⟨fun hlive => (mem_erase_of_ne hne).mpr (hold.mapped hlive), hold.exiting, fun ha => ?_, hold.origin⟩
      rw [(hold.alone ha).1] at hmem
      exact absurd (mem_singleton.mp hmem).symm hne
    · refine hold.congr ((hroster _).trans ?_)
      rw [ProcessTree.dropThread, proc_setProc_of_ne hother]
  · rw [hhome] at heq
    exact h.unique u v (hexiting u hu) (hexiting v hv) heq

theorem Threaded.addThread {new : ℕ} (hhome : s'.home = update s.home new c)
    (hplace : s'.place = update s.place new .running) (hmem : new ∈ (s'.proc c).threadMap)
    (hold : ∀ u, u ≠ new → Enrolled (s'.proc (s.home u)) (s.home u) u (s.place u)) : Threaded s' := by
  have hne : ∀ u, (s'.place u).exiting.isSome → u ≠ new := by
    rintro u hu rfl
    rw [hplace, update_self] at hu
    cases hu
  refine ⟨fun u => ?_, fun u v hu hv heq => ?_⟩
  · rw [hhome, hplace]
    rcases eq_or_ne u new with rfl | hne
    · rw [update_self, update_self]
      exact .of_plain (fun _ => hmem) rfl rfl rfl
    · rw [update_of_ne hne, update_of_ne hne]
      exact hold u hne
  have hu' := hne u hu
  have hv' := hne v hv
  rw [hhome, update_of_ne hu', update_of_ne hv'] at heq
  rw [hplace, update_of_ne hu'] at hu
  rw [hplace, update_of_ne hv'] at hv
  exact h.unique u v hu hv heq

theorem Threaded.createThread {new : ℕ} (hexited : (s.proc c).exited = false) : Threaded (s.createThread c new) := by
  rw [ProcessTree.createThread, if_neg (by simp [hexited])]
  set s₁ := s.setProc c { s.proc c with threadMap := (s.proc c).threadMap ++ [new] } with hs₁
  have hself : (s₁.proc c).threadMap = (s.proc c).threadMap ++ [new] := by
    rw [hs₁, proc_setProc]
  refine h.addThread rfl rfl ?_ fun u _ => ?_
  · rw [hself]
    exact mem_append_right _ (mem_singleton_self new)
  have hu := h.enrolled u
  rcases eq_or_ne (s.home u) c with heq | hne
  · rw [heq] at hu ⊢
    refine hu.unclaimed hexited fun hlive => ?_
    rw [hself]
    exact mem_append_left _ (hu.mapped hlive)
  · rw [hs₁, proc_setProc_of_ne hne]
    exact hu

omit h

theorem Threaded.createProcess {child new : ℕ} {pid : ℤ} (hl : Linked s) (h : Threaded s)
    (hchild : (s.proc child).born = false) : Threaded (s.createProcess p child new pid) := by
  have hself : (s.createProcess p child new pid).proc child = _ := update_self ..
  have hhome : (s.createProcess p child new pid).home = update s.home new child := rfl
  refine h.addThread hhome rfl ?_ fun u _ => ?_
  · rw [hself]
    exact mem_singleton_self new
  by_cases habsent : s.place u = .absent
  · rw [habsent]
    exact .of_plain nofun rfl rfl rfl
  have hne : s.home u ≠ child := by
    rintro rfl
    rw [hl.place_born u habsent] at hchild
    cases hchild
  exact (h.enrolled u).congr (field_createProcess roster (fun _ _ => rfl) hne)

theorem threaded_effect (hl : Linked s) (h : Threaded s) (heff : Effect s s' e) : Threaded s' := by
  cases heff with
  | quiet actor hlocal hmove =>
    exact h.move hlocal.home hlocal.others (hlocal.field _ fun _ => rfl) fun th hth =>
      (hmove th hth).enrolled rfl (h.enrolled th)
  | exitGroup th status hplace hfirst _ hlocal hafter => exact h.claimExit hplace hfirst hlocal hafter
  | finish th status _ hplace _ hlocal hafter =>
    exact h.dropThread hplace hlocal (hafter.imp_right (Or.imp_right fun ⟨p, _, _, heq, _⟩ => ⟨p, heq⟩))
  | createThread th new _ _ hexited heq =>
    rw [heq]
    exact h.createThread hexited
  | createProcess th child new pid _ _ hchild _ heq =>
    rw [heq]
    exact h.createProcess hl hchild
  | write th n _ hplace _ heq =>
    rw [heq]
    refine h.move (a := some th) rfl (fun u hu => ?_) (field_write _ (fun _ => rfl) fun _ => rfl) fun u hu => ?_
    · exact (Local.setPlace s th (.signalling n)).others u hu
    obtain rfl := some.inj hu
    have hold := h.enrolled th
    rw [hplace] at hold
    rw [writeWaitState, place_setPlace]
    exact ⟨{ hold with exiting := nofun }, nofun⟩
  | report th c r hplace _ _ heq =>
    rw [heq]
    refine h.move (a := some th) home_reportChild (fun u hu => ?_) (field_reportChild _ fun _ _ _ _ => rfl)
      fun u hu => ?_
    · rw [← place_reportChild]
      exact (Local.setPlace _ th .running).others u hu
    obtain rfl := some.inj hu
    rw [place_setPlace]
    exact ⟨.of_calm ((h.enrolled th).mapped (live_of_calm hplace)) rfl, nofun⟩
  | reparent th _ hplace _ _ heq =>
    rw [heq]
    refine h.move (a := some th) rfl (fun u hu => ?_) (fun _ => rfl) fun u hu => ?_
    · exact (Local.setPlace s th .absent).others u hu
    obtain rfl := some.inj hu
    rw [place_setPlace]
    exact ⟨.of_plain nofun rfl rfl rfl, nofun⟩
  | halt heq =>
    rw [heq]
    exact { h with }

theorem threaded_start : Threaded start := by
  refine ⟨fun th => ?_, fun th u hth => ?_⟩
  · rcases place_start th with h | ⟨rfl, h⟩ <;> rw [h]
    · exact .of_plain nofun rfl rfl rfl
    · exact .of_plain (fun _ => mem_singleton_self 0) rfl rfl rfl
  · rcases place_start th with h | ⟨-, h⟩ <;> rw [h] at hth <;> cases hth

/-- In every interleaving parents and children agree, each thread that lives is a thread of its process, and at most
one thread of a process carries out its exit. -/
theorem processes_linked (es : List Event) :
    let s := Run.exec step start es
    (∀ p c, c ∈ (s.proc p).children ↔ (s.proc c).parent = some p) ∧ (∀ p, (s.proc p).children.Nodup) ∧
      (∀ th, (s.place th).live → th ∈ (s.proc (s.home th)).threadMap) ∧
      ∀ th u, (s.place th).exiting.isSome → (s.place u).exiting.isSome → s.home th = s.home u → th = u := by
  have hstep : ∀ s e, Linked s ∧ Threaded s → Linked (step s e) ∧ Threaded (step s e) := fun s e ⟨hl, ht⟩ =>
    ⟨linked_effect hl (effect_step hl e), threaded_effect hl ht (effect_step hl e)⟩
  obtain ⟨hl, ht⟩ := Run.invariant_run hstep ⟨linked_start, threaded_start⟩ es
  exact ⟨fun p c => ⟨hl.child_parent p c, hl.parent_child c p⟩, hl.nodup, fun th => (ht.enrolled th).mapped, ht.unique⟩

end ProcessTree
end Junction
