import Junction.SignalHandler

/-!
# Frames of handlers and saved masks

A thread enters system calls that may put a temporary mask in force, leaves them through a loop that delivers
signals while its interrupt flag is set, runs handlers on a stack of frames, and returns from them. Signals, stops
and continuations come from outside at any time. Beside the state stands, for the running code and for each code
that it has interrupted, the mask that this code runs with.

The loop that delivers signals looks twice at whether the process is stopped. If the process is continued between
the two, a system call is restarted while the saved mask has not been put back.
-/

namespace Junction
open ThreadSignals

/-- A system call that may wait: its mask, if it has one, and whether a `SigMaskGuard` holds it. -/
structure WaitingCall where
  mask : Option SigSet
  guarded : Bool
deriving DecidableEq

/-- Where the thread is. A call stands where it is to be restarted if no handler runs. -/
inductive SignalPlace where
  | user
  | inCall (call : WaitingCall)
  | exiting (restart : Option WaitingCall)
  | delivering (restart : Option WaitingCall)
  | nothing (restart : Option WaitingCall) (sawStop : Bool)
  | stopWait (restart : Option WaitingCall)
  | restarting (call : WaitingCall)
  | pushing
  | pushedAll
  | pushStop
  | applying
deriving DecidableEq

/-- The masks in the frames are listed from the running handler outwards, and so are the masks that the running
code and the interrupted ones run with. -/
structure SignalThread (α : Type*) where
  signals : ThreadSignals α := {}
  place : SignalPlace := .user
  frames : List SigSet := []
  levels : List SigSet := [0]

namespace SignalThread
variable {α : Type*}

inductive Event (α : Type*) where
  | enter (call : WaitingCall)
  | leave (restart : Bool)
  | proceed
  | sigreturn
  | interrupt
  | endInterrupt (viaExit : Bool)
  | fault (signo : ℕ)
  | sigprocmask (how : SigHow) (nset : SigSet)
  | enqueue (info : SigInfo α)
  | enqueueShared (info : SigInfo α)
  | setInterrupted
  | stop
  | continue
  | sigaction (sig : ℕ) (act : KSigaction)

def enterCall (s : SignalThread α) (call : WaitingCall) : SignalThread α :=
  { s with
    signals := match call.mask with
      | some mask => s.signals.replaceAndSaveBlocked mask
      | none => s.signals
    place := .inCall call }

/-- One turn of the loop of `GetNextSignal`. A handler that is started gets a frame. -/
def turn (s : SignalThread α) (nothing again deliver : SignalPlace) : SignalThread α :=
  match s.signals.nextTurn with
  | (.nothing, h) => { s with signals := h, place := nothing }
  | (.again, h) => { s with signals := h, place := again }
  | (.deliver sig, h) =>
    { s with
      signals := h
      place := deliver
      frames := sig.prevBlocked :: s.frames
      levels := h.blocked :: s.levels }

/-- The next step of a thread on its way out of the kernel: the check of the interrupt flag, and the loops of
`DeliverSignals`. -/
def proceed (s : SignalThread α) : SignalThread α :=
  match s.place with
  | .exiting restart =>
    { s with place := if s.signals.interrupted then .delivering restart else .user }
  | .delivering restart => s.turn (.nothing restart s.signals.stopped) (.delivering restart) .pushing
  | .nothing restart _ =>
    if s.signals.stopped then
      { s with signals := { s.signals with interrupted := true }, place := .stopWait restart }
    else
      match restart with
      | some call => { s with place := .restarting call }
      | none => { s with place := .exiting none }
  | .stopWait restart => if s.signals.stopped then s else { s with place := .delivering restart }
  | .restarting call => s.enterCall call
  | .pushing => s.turn .pushedAll .pushing .pushing
  | .pushedAll =>
    if s.signals.stopped then
      { s with signals := { s.signals with interrupted := true }, place := .pushStop }
    else { s with place := .exiting none }
  | .pushStop => if s.signals.stopped then s else { s with place := .pushing }
  | .user | .inCall _ | .applying => s

def step (s : SignalThread α) : Event α → SignalThread α
  | .enter call => if s.place = .user then s.enterCall call else s
  | .leave restart =>
    match s.place with
    | .inCall call =>
      if call.guarded then
        { s with
          signals := s.signals.restoreBlocked
          place := .exiting (if restart then some call else none) }
      else if s.signals.interrupted then { s with place := .exiting (some call) }
      else s
    | _ => s
  | .proceed => s.proceed
  | .sigreturn =>
    match s.place, s.frames with
    | .user, mask :: frames =>
      { s with
        signals := s.signals.replaceMask mask
        place := .exiting none
        frames := frames
        levels := s.levels.tail }
    | _, _ => s
  | .interrupt =>
    match s.place with
    | .user => { s with place := .applying }
    | .applying => s.turn .applying .applying .applying
    | _ => s
  | .endInterrupt viaExit =>
    if s.place = .applying then { s with place := if viaExit then .exiting none else .user } else s
  | .fault signo =>
    if s.place = .user then
      match s.signals.deliverKernelSigToUser signo with
      | (none, _) => s
      | (some (_, mask), h) =>
        { s with
          signals := h
          place := .exiting none
          frames := mask :: s.frames
          levels := h.blocked :: s.levels }
    else s
  | .sigprocmask how nset =>
    if s.place = .user then
      let h := (s.signals.sigProcMask how nset).2
      { s with signals := h, levels := h.blocked :: s.levels.tail }
    else s
  | .enqueue info => { s with signals := { s.signals with sigQ := (s.signals.sigQ.enqueue info).2 } }
  | .enqueueShared info =>
    { s with signals := { s.signals with sharedQ := (s.signals.sharedQ.enqueue info).2 } }
  | .setInterrupted => { s with signals := { s.signals with interrupted := true } }
  | .stop => { s with signals := { s.signals with stopped := true } }
  | .continue => { s with signals := { s.signals with stopped := false } }
  | .sigaction sig act =>
    { s with signals := { s.signals with table := Function.update s.signals.table sig act } }

/-- A thread that runs its program, with any signals and actions. -/
def start (h : ThreadSignals α) : SignalThread α where
  signals := { h with blocked := h.blocked &&& ~~~kSignalKernelOnlyMask, savedBlocked := none }
  levels := [h.blocked &&& ~~~kSignalKernelOnlyMask]

/-- The process is not continued while the thread, about to restart a system call, has seen it stopped and holds a
saved mask. -/
def StopHeld (s : SignalThread α) : Event α → Prop
  | .continue =>
    match s.place with
    | .nothing (some _) true => s.signals.savedBlocked = none
    | _ => True
  | _ => True

instance (s : SignalThread α) (e : Event α) : Decidable (StopHeld s e) := by
  unfold StopHeld
  split
  · split <;> infer_instance
  · infer_instance

end SignalThread

/-! ### The masks of a thread -/

namespace ThreadSignals
variable {α : Type*}

def restoreMask (h : ThreadSignals α) : SigSet := h.savedBlocked.getD h.blocked

/-- No signal that only the kernel handles is in a mask of the thread. -/
structure KernelFree (h : ThreadSignals α) : Prop where
  blocked : h.blocked &&& ~~~kSignalKernelOnlyMask = h.blocked
  saved : ∀ mask, h.savedBlocked = some mask → mask &&& ~~~kSignalKernelOnlyMask = mask

variable {h : ThreadSignals α}

theorem kernelFree_of_none (hsaved : h.savedBlocked = none)
    (hblocked : h.blocked &&& ~~~kSignalKernelOnlyMask = h.blocked) : KernelFree h := by
  refine ⟨hblocked, fun mask hmask => ?_⟩
  rw [hsaved] at hmask
  cases hmask

structure SameMasks (h h' : ThreadSignals α) : Prop where
  blocked : h'.blocked = h.blocked
  saved : h'.savedBlocked = h.savedBlocked
  interrupted : h'.interrupted = h.interrupted

theorem SameMasks.trans {h h' h'' : ThreadSignals α} (a : SameMasks h h') (b : SameMasks h' h'') : SameMasks h h'' :=
  ⟨b.blocked.trans a.blocked, b.saved.trans a.saved, b.interrupted.trans a.interrupted⟩

theorem SameMasks.restoreMask {h h' : ThreadSignals α} (a : SameMasks h h') : h'.restoreMask = h.restoreMask := by
  rw [ThreadSignals.restoreMask, ThreadSignals.restoreMask, a.blocked, a.saved]

theorem SameMasks.kernelFree {h h' : ThreadSignals α} (a : SameMasks h h') (hk : KernelFree h) : KernelFree h' := by
  refine ⟨?_, fun mask hmask => hk.saved mask (a.saved ▸ hmask)⟩
  rw [a.blocked]
  exact hk.blocked

variable (hk : KernelFree h)
include hk

theorem KernelFree.restoreMask : h.restoreMask &&& ~~~kSignalKernelOnlyMask = h.restoreMask := by
  unfold ThreadSignals.restoreMask
  cases hsaved : h.savedBlocked with
  | none => exact hk.blocked
  | some mask => exact hk.saved mask hsaved

omit hk in
theorem and_kernelFree (mask : SigSet) :
    mask &&& ~~~kSignalKernelOnlyMask &&& ~~~kSignalKernelOnlyMask = mask &&& ~~~kSignalKernelOnlyMask := by
  rw [BitVec.and_assoc, BitVec.and_self]

theorem replaceMask_kernelFree (mask : SigSet) : KernelFree (h.replaceMask mask) := by
  refine ⟨?_, ?_⟩
  · rw [replaceMask_blocked]
    exact and_kernelFree mask
  · rw [replaceMask_savedBlocked]
    exact hk.saved

theorem replaceAndSaveBlocked_masks (hnone : h.savedBlocked = none) (mask : SigSet) :
    KernelFree (h.replaceAndSaveBlocked mask) ∧ (h.replaceAndSaveBlocked mask).restoreMask = h.restoreMask := by
  unfold replaceAndSaveBlocked
  split_ifs
  · exact ⟨hk, rfl⟩
  have hk' : KernelFree { h with savedBlocked := some h.blocked } :=
    ⟨hk.blocked, fun m hm => by rw [← Option.some.inj hm]; exact hk.blocked⟩
  refine ⟨replaceMask_kernelFree hk' mask, ?_⟩
  rw [restoreMask, restoreMask, replaceMask_savedBlocked, hnone]
  rfl

theorem restoreBlocked_masks : KernelFree h.restoreBlocked ∧ h.restoreBlocked.restoreMask = h.restoreMask ∧
      (h.restoreBlocked.savedBlocked ≠ none → h.restoreBlocked.interrupted) := by
  unfold restoreBlocked
  cases hsaved : h.savedBlocked with
  | none => exact ⟨hk, rfl, fun hne => absurd hsaved hne⟩
  | some saved =>
    dsimp only
    by_cases hint : h.interrupted
    · rw [if_pos hint]
      exact ⟨hk, rfl, fun _ => hint⟩
    rw [if_neg hint]
    have hfree := hk.saved saved hsaved
    split_ifs with hne
    · refine ⟨kernelFree_of_none rfl ?_, ?_, fun hne => absurd rfl hne⟩
      · simpa using hfree
      · simp [restoreMask, hsaved]
    · refine ⟨kernelFree_of_none rfl hk.blocked, ?_, fun hne => absurd rfl hne⟩
      simp [restoreMask, hsaved, not_not.mp hne]

omit hk

/-- Without a signal, the masks are left alone if the process is stopped, and put back if it is not. -/
theorem popSigInfo_none {h h' : ThreadSignals α} {blocked : SigSet} (hpop : h.popSigInfo blocked true = (none, h')) :
    (h.stopped ∧ SameMasks h h' ∧ h'.stopped) ∨
    (h.stopped = false ∧ h'.savedBlocked = none ∧ h'.blocked = h.restoreMask) := by
  unfold popSigInfo at hpop
  rcases hown : h.sigQ.pop blocked true with ⟨found, q⟩
  rw [hown] at hpop
  cases found with
  | some info => simp at hpop
  | none =>
    dsimp only at hpop
    by_cases hstopped : h.stopped
    · rw [if_pos hstopped] at hpop
      obtain ⟨-, rfl⟩ := Prod.mk.inj hpop
      exact .inl ⟨hstopped, ⟨rfl, rfl, rfl⟩, hstopped⟩
    rw [if_neg hstopped] at hpop
    rcases hshared : h.sharedQ.pop blocked true with ⟨found, q'⟩
    rw [hshared] at hpop
    cases found with
    | some info => simp at hpop
    | none =>
      obtain ⟨-, rfl⟩ := Prod.mk.inj hpop
      refine .inr ⟨Bool.eq_false_iff.mpr hstopped, ?_⟩
      rw [if_pos rfl, restoreBlockedLocked, restoreMask]
      cases h.savedBlocked <;> simp [resetInterruptState]

theorem popSigInfo_sameMasks {h h' : ThreadSignals α} {blocked : SigSet} {reset : Bool} {info : SigInfo α}
    (hpop : h.popSigInfo blocked reset = (some info, h')) : SameMasks h h' := by
  obtain ⟨hblocked, hsaved, hinterrupted, -⟩ := popSigInfo_some hpop
  exact ⟨hblocked, hsaved, hinterrupted⟩

theorem getAction_sameMasks (h : ThreadSignals α) (sig : ℕ) : SameMasks h (h.getAction sig).2 := by
  have htake : SameMasks h (h.takeAction sig).2 := by
    dsimp only [takeAction]
    split_ifs <;> exact ⟨rfl, rfl, rfl⟩
  dsimp only [getAction]
  cases parseAction (h.takeAction sig).1 sig <;> exact { htake with }

theorem startHandler_masks (h : ThreadSignals α) (info : SigInfo α) (act : KSigaction) :
    (h.startHandler info act).1.prevBlocked = h.restoreMask ∧
      (h.startHandler info act).2.savedBlocked = none ∧ KernelFree (h.startHandler info act).2 := by
  have hnone : (h.startHandler info act).2.savedBlocked = none := by
    unfold startHandler getSigframeRestoreMask
    cases hsaved : h.savedBlocked <;> simp [hsaved]
  refine ⟨?_, hnone, kernelFree_of_none hnone ?_⟩
  · unfold startHandler getSigframeRestoreMask restoreMask
    cases hsaved : h.savedBlocked <;> rfl
  change (replaceMask _ _).blocked &&& _ = (replaceMask _ _).blocked
  rw [replaceMask_blocked]
  exact and_kernelFree _

end ThreadSignals
end Junction

/-! ### The masks of the code on all levels are the mask to return to and those in the frames -/

namespace Junction.SignalThread
open ThreadSignals List
variable {α : Type*}

/-- The masks that the code on each level runs with are the ones that it will be given back. -/
structure Levelled (s : SignalThread α) : Prop where
  levels : s.levels = s.signals.restoreMask :: s.frames
  free : KernelFree s.signals
  frames : ∀ mask ∈ s.frames, mask &&& ~~~kSignalKernelOnlyMask = mask

/-- Where a saved mask may be. On the way to restarting a system call it is only there if the process is seen
stopped. -/
def SettledAt (h : ThreadSignals α) : SignalPlace → Prop
  | .inCall _ => True
  | .exiting _ | .delivering _ | .stopWait _ => h.savedBlocked ≠ none → h.interrupted = true
  | .nothing restart sawStop =>
    h.savedBlocked ≠ none →
      h.interrupted = true ∧ (restart ≠ none → sawStop = true ∧ h.stopped = true)
  | .user | .restarting _ | .pushing | .pushedAll | .pushStop | .applying => h.savedBlocked = none

structure Framed (s : SignalThread α) : Prop extends Levelled s where
  settled : SettledAt s.signals s.place

variable {s : SignalThread α}

theorem Framed.none_of_user (hs : Framed s) (huser : s.place = .user) : s.signals.savedBlocked = none := by
  have hsettled := hs.settled
  rw [huser] at hsettled
  exact hsettled

variable {h : ThreadSignals α}

theorem settledAt_of_none (hnone : h.savedBlocked = none) (place : SignalPlace) : SettledAt h place := by
  cases place with
  | inCall => trivial
  | exiting | delivering | stopWait | nothing => exact fun hne => absurd hnone hne
  | _ => exact hnone

theorem SettledAt.mono {h h' : ThreadSignals α} {place : SignalPlace} (hs : SettledAt h place)
    (hsaved : h'.savedBlocked = h.savedBlocked) (hint : h.interrupted → h'.interrupted)
    (hstopped : h.stopped → h'.stopped) : SettledAt h' place := by
  cases place with
  | inCall => trivial
  | exiting | delivering | stopWait => exact fun hne => hint (hs (hsaved ▸ hne))
  | nothing restart sawStop =>
    intro hne
    obtain ⟨hflag, hseen⟩ := hs (hsaved ▸ hne)
    exact ⟨hint hflag, fun hrestart => ⟨(hseen hrestart).1, hstopped (hseen hrestart).2⟩⟩
  | _ => exact hsaved.trans hs

theorem Levelled.of_restoreMask (hs : Levelled s)
    (hfree : KernelFree h) (hmask : h.restoreMask = s.signals.restoreMask) (place : SignalPlace) :
    Levelled { s with signals := h, place := place } := by
  refine ⟨?_, hfree, hs.frames⟩
  rw [hmask]
  exact hs.levels

theorem Levelled.moved (hs : Levelled s) {place : SignalPlace}
    (hsettled : SettledAt s.signals place) : Framed { s with place := place } :=
  ⟨hs.of_restoreMask hs.free rfl place, hsettled⟩

theorem Levelled.keepsMasks (hs : Levelled s)
    (hblocked : h.blocked = s.signals.blocked) (hsaved : h.savedBlocked = s.signals.savedBlocked)
    (place : SignalPlace) : Levelled { s with signals := h, place := place } := by
  refine hs.of_restoreMask ⟨?_, ?_⟩ ?_ place
  · rw [hblocked]
    exact hs.free.blocked
  · rw [hsaved]
    exact hs.free.saved
  · rw [restoreMask, restoreMask, hblocked, hsaved]

/-- A handler is started: the mask to return to goes into its frame, and its code is a level of its own. -/
theorem Levelled.push (hs : Levelled s) (hfree : KernelFree h) (hnone : h.savedBlocked = none) (place : SignalPlace) :
    Framed
      { s with
        signals := h
        place := place
        frames := s.signals.restoreMask :: s.frames
        levels := h.blocked :: s.levels } := by
  refine ⟨⟨?_, hfree, ?_⟩, settledAt_of_none hnone place⟩
  · dsimp only
    rw [restoreMask, hnone, hs.levels]
    rfl
  intro mask hmask
  rcases mem_cons.mp hmask with rfl | hmem
  · exact hs.free.restoreMask
  · exact hs.frames mask hmem

/-- A turn of the loop: a handler is started, or a signal is taken that has none, or there is no signal. In the
last case the masks are put back unless the process is stopped. -/
theorem Levelled.turn (hs : Levelled s) (nothing again deliver : SignalPlace)
    (hstopped : ∀ h : ThreadSignals α, SameMasks s.signals h → h.stopped → s.signals.stopped →
      SettledAt h nothing) (hagain : ∀ h : ThreadSignals α, SameMasks s.signals h → SettledAt h again) :
    Framed (s.turn nothing again deliver) := by
  unfold SignalThread.turn
  rcases s.signals.nextTurn_cases with
    ⟨h, hpop, heq⟩ | ⟨info, h₁, h₂, hpop, hact, heq⟩ | ⟨info, act, h₁, h₂, hpop, hact, heq⟩
  · rw [heq]
    rcases popSigInfo_none hpop with ⟨hstop, hsame, hstop'⟩ | ⟨-, hnone, hblocked⟩
    · exact ⟨hs.keepsMasks hsame.blocked hsame.saved nothing, hstopped h hsame hstop' hstop⟩
    have hmask : h.restoreMask = s.signals.restoreMask := by
      rw [restoreMask, hnone]
      exact hblocked
    have hfree : KernelFree h := kernelFree_of_none hnone (by rw [hblocked]; exact hs.free.restoreMask)
    exact ⟨hs.of_restoreMask hfree hmask nothing, settledAt_of_none hnone nothing⟩
  · have hsame : SameMasks s.signals h₂ := by
      have hact' := h₁.getAction_sameMasks info.signo
      rw [hact] at hact'
      exact (popSigInfo_sameMasks hpop).trans hact'
    rw [heq]
    exact ⟨hs.keepsMasks hsame.blocked hsame.saved again, hagain h₂ hsame⟩
  have hsame : SameMasks s.signals h₂ := by
    have hact' := h₁.getAction_sameMasks info.signo
    rw [hact] at hact'
    exact (popSigInfo_sameMasks hpop).trans hact'
  obtain ⟨hprev, hnone, hfree⟩ := h₂.startHandler_masks info act
  rw [heq]
  dsimp only
  rw [hprev, hsame.restoreMask]
  exact hs.push hfree hnone deliver

theorem Levelled.enterCall (hs : Levelled s) (hnone : s.signals.savedBlocked = none)
    (call : WaitingCall) : Framed (s.enterCall call) := by
  refine ⟨?_, trivial⟩
  unfold SignalThread.enterCall
  cases call.mask with
  | none => exact hs.of_restoreMask hs.free rfl _
  | some mask =>
    obtain ⟨hfree, hmask⟩ := replaceAndSaveBlocked_masks hs.free hnone mask
    exact hs.of_restoreMask hfree hmask _

variable (hs : Framed s)
include hs

theorem framed_proceed : Framed s.proceed := by
  have hl := hs.toLevelled
  have hsettled := hs.settled
  unfold proceed
  cases hplace : s.place with
  | user | inCall | applying => exact hs
  | exiting restart =>
    rw [hplace] at hsettled
    dsimp only
    split_ifs with hint
    · exact hl.moved fun _ => hint
    · exact hl.moved (not_not.mp fun hne => hint (hsettled hne))
  | delivering restart =>
    rw [hplace] at hsettled
    refine hl.turn _ _ _ (fun h hsame hstop hstop' hne => ?_) (fun h hsame hne => ?_)
    · rw [hsame.saved] at hne
      exact ⟨hsame.interrupted.trans (hsettled hne), fun _ => ⟨hstop', hstop⟩⟩
    · rw [hsame.saved] at hne
      exact hsame.interrupted.trans (hsettled hne)
  | nothing restart sawStop =>
    rw [hplace] at hsettled
    dsimp only
    split_ifs with hstopped
    · exact ⟨hl.keepsMasks (h := { s.signals with interrupted := true }) rfl rfl _, fun _ => rfl⟩
    cases restart with
    | none => exact hl.moved fun hne => (hsettled hne).1
    | some call =>
      refine hl.moved (not_not.mp fun hne => hstopped ?_)
      exact ((hsettled hne).2 (Option.some_ne_none call)).2
  | stopWait | pushStop =>
    rw [hplace] at hsettled
    dsimp only
    split_ifs
    · exact hs
    · exact hl.moved hsettled
  | restarting call =>
    rw [hplace] at hsettled
    exact hl.enterCall hsettled call
  | pushing =>
    rw [hplace] at hsettled
    exact hl.turn _ _ _ (fun h hsame _ _ => hsame.saved.trans hsettled) (fun h hsame => hsame.saved.trans hsettled)
  | pushedAll =>
    rw [hplace] at hsettled
    dsimp only
    split_ifs
    · exact ⟨hl.keepsMasks (h := { s.signals with interrupted := true }) rfl rfl _, hsettled⟩
    · exact hl.moved (settledAt_of_none hsettled _)

theorem framed_leave (restart : Bool) : Framed (s.step (.leave restart)) := by
  have hl := hs.toLevelled
  cases hplace : s.place with
  | inCall call =>
    simp only [step, hplace]
    by_cases hguarded : call.guarded
    · rw [if_pos hguarded]
      obtain ⟨hfree, hmask, hint⟩ := restoreBlocked_masks hl.free
      exact ⟨hl.of_restoreMask hfree hmask _, hint⟩
    rw [if_neg hguarded]
    split_ifs with hint
    · exact hl.moved fun _ => hint
    · exact hs
  | _ =>
    simp only [step, hplace]
    exact hs

theorem framed_sigreturn : Framed (s.step .sigreturn) := by
  have hl := hs.toLevelled
  cases hplace : s.place with
  | user =>
    cases hframes : s.frames with
    | nil =>
      simp only [step, hplace, hframes]
      exact hs
    | cons mask frames =>
      have hmask := hl.frames mask (hframes ▸ mem_cons_self)
      simp only [step, hplace, hframes]
      have hnone' : (s.signals.replaceMask mask).savedBlocked = none := by
        rw [replaceMask_savedBlocked]
        exact hs.none_of_user hplace
      refine ⟨⟨?_, replaceMask_kernelFree hl.free mask, ?_⟩, settledAt_of_none hnone' _⟩
      · rw [restoreMask, hnone', hl.levels, hframes, Option.getD_none, replaceMask_blocked, hmask]
        rfl
      · intro m hm
        exact hl.frames m (hframes ▸ mem_cons_of_mem mask hm)
  | _ =>
    simp only [step, hplace]
    exact hs

theorem framed_interrupt : Framed (s.step .interrupt) := by
  have hl := hs.toLevelled
  have hsettled := hs.settled
  cases hplace : s.place with
  | user =>
    rw [hplace] at hsettled
    simp only [step, hplace]
    exact hl.moved hsettled
  | applying =>
    rw [hplace] at hsettled
    simp only [step, hplace]
    exact hl.turn _ _ _ (fun h hsame _ _ => hsame.saved.trans hsettled) (fun h hsame => hsame.saved.trans hsettled)
  | _ =>
    simp only [step, hplace]
    exact hs

omit hs in
theorem deliverKernelSigToUser_masks {h h' : ThreadSignals α} (hfree : KernelFree h) {signo : ℕ}
    {act : KSigaction} {mask : SigSet} (heq : h.deliverKernelSigToUser signo = (some (act, mask), h')) :
    mask = h.blocked ∧ h'.savedBlocked = h.savedBlocked ∧ KernelFree h' := by
  have hsame := h.getAction_sameMasks signo
  unfold deliverKernelSigToUser at heq
  by_cases hblocked : signalInMask h.blocked signo
  · simp [hblocked] at heq
  rw [if_neg hblocked] at heq
  rcases hact : h.getAction signo with ⟨found, h₁⟩
  rw [hact] at heq hsame
  cases found with
  | none => simp at heq
  | some found =>
    dsimp only at heq hsame
    by_cases hkill : found.handler = .sigKill
    · simp [hkill] at heq
    rw [if_neg hkill] at heq
    obtain ⟨hpair, rfl⟩ := Prod.mk.inj heq
    obtain ⟨-, rfl⟩ := Prod.mk.inj (Option.some.inj hpair)
    refine ⟨hsame.blocked, ?_, replaceMask_kernelFree (hsame.kernelFree hfree) _⟩
    exact (replaceMask_savedBlocked _ _).trans hsame.saved

theorem framed_fault (signo : ℕ) : Framed (s.step (.fault signo)) := by
  have hl := hs.toLevelled
  dsimp only [step]
  split_ifs with huser
  · have hnone := hs.none_of_user huser
    rcases heq : s.signals.deliverKernelSigToUser signo with ⟨found, h⟩
    cases found with
    | none => exact hs
    | some found =>
      obtain ⟨act, mask⟩ := found
      obtain ⟨rfl, hsaved, hfree⟩ := deliverKernelSigToUser_masks hl.free heq
      have hmask : s.signals.blocked = s.signals.restoreMask := by rw [restoreMask, hnone]; rfl
      rw [hmask]
      exact hl.push hfree (hsaved.trans hnone) _
  · exact hs

theorem framed_sigprocmask (how : SigHow) (nset : SigSet) : Framed (s.step (.sigprocmask how nset)) := by
  have hl := hs.toLevelled
  dsimp only [step]
  split_ifs with huser
  · have hnone : (s.signals.sigProcMask how nset).2.savedBlocked = none :=
      (replaceMask_savedBlocked _ _).trans (hs.none_of_user huser)
    refine ⟨⟨?_, replaceMask_kernelFree hl.free _, hl.frames⟩, settledAt_of_none hnone _⟩
    rw [restoreMask, hnone, hl.levels]
    rfl
  · exact hs

theorem framed_continue (hheld : StopHeld s .continue) : Framed (s.step .continue) := by
  have hl := hs.toLevelled
  have hsettled := hs.settled
  refine ⟨hl.keepsMasks (h := { s.signals with stopped := false }) rfl rfl s.place, ?_⟩
  change SettledAt _ s.place
  cases hplace : s.place with
  | nothing restart sawStop =>
    rw [hplace] at hsettled
    intro hne
    obtain ⟨hint, hseen⟩ := hsettled hne
    refine ⟨hint, fun hrestart => absurd ?_ hne⟩
    obtain ⟨call, rfl⟩ := Option.ne_none_iff_exists'.mp hrestart
    rw [StopHeld, hplace, (hseen hrestart).1] at hheld
    exact hheld
  | _ =>
    rw [hplace] at hsettled
    exact hsettled

omit hs

theorem framed_step (s : SignalThread α) (e : Event α) (hs : Framed s) (hheld : StopHeld s e) : Framed (s.step e) := by
  have hl := hs.toLevelled
  unfold step
  cases e with
  | enter call =>
    dsimp only
    split_ifs with huser
    · exact hl.enterCall (hs.none_of_user huser) call
    · exact hs
  | leave restart => exact framed_leave hs restart
  | proceed => exact framed_proceed hs
  | sigreturn => exact framed_sigreturn hs
  | interrupt => exact framed_interrupt hs
  | endInterrupt viaExit =>
    dsimp only
    by_cases happlying : s.place = .applying
    · rw [if_pos happlying]
      have hsettled := hs.settled
      rw [happlying] at hsettled
      exact hl.moved (settledAt_of_none hsettled _)
    · rw [if_neg happlying]
      exact hs
  | fault signo => exact framed_fault hs signo
  | sigprocmask how nset => exact framed_sigprocmask hs how nset
  | setInterrupted =>
    exact ⟨hl.keepsMasks (h := { s.signals with interrupted := true }) rfl rfl s.place,
      hs.settled.mono rfl (fun _ => rfl) id⟩
  | stop =>
    exact ⟨hl.keepsMasks (h := { s.signals with stopped := true }) rfl rfl s.place,
      hs.settled.mono rfl id (fun _ => rfl)⟩
  | «continue» => exact framed_continue hs hheld
  | enqueue info =>
    exact ⟨hl.keepsMasks (h := { s.signals with sigQ := (s.signals.sigQ.enqueue info).2 }) rfl rfl s.place,
      hs.settled.mono rfl id id⟩
  | enqueueShared info =>
    exact ⟨hl.keepsMasks (h := { s.signals with sharedQ := (s.signals.sharedQ.enqueue info).2 }) rfl rfl
      s.place, hs.settled.mono rfl id id⟩
  | sigaction sig act =>
    exact ⟨hl.keepsMasks (h := { s.signals with table := Function.update s.signals.table sig act }) rfl rfl
      s.place, hs.settled.mono rfl id id⟩

theorem framed_start (h : ThreadSignals α) : Framed (start h) :=
  ⟨⟨rfl, kernelFree_of_none rfl (and_kernelFree h.blocked), fun _ hmask => by cases hmask⟩, rfl⟩

/-! ### Nested code -/

def Event.changesMask : Event α → Bool
  | .sigprocmask _ _ => true
  | _ => false

/-- A step of code that runs on at least `depth` frames and does not change its mask. -/
def Nested (depth : ℕ) (s : SignalThread α) (e : Event α) : Prop :=
  StopHeld s e ∧ e.changesMask = false ∧ depth ≤ (s.step e).frames.length

instance (depth : ℕ) (s : SignalThread α) (e : Event α) : Decidable (Nested depth s e) :=
  inferInstanceAs (Decidable (_ ∧ _ ∧ _))

theorem levels_turn (s : SignalThread α) (nothing again deliver : SignalPlace) :
    (s.turn nothing again deliver).levels = s.levels ∨
      ∃ mask, (s.turn nothing again deliver).levels = mask :: s.levels := by
  unfold SignalThread.turn
  rcases s.signals.nextTurn with ⟨turn, h⟩
  cases turn with
  | nothing | again => exact .inl rfl
  | deliver sig => exact .inr ⟨h.blocked, rfl⟩

theorem levels_proceed (s : SignalThread α) :
    s.proceed.levels = s.levels ∨ ∃ mask, s.proceed.levels = mask :: s.levels := by
  unfold proceed
  cases s.place with
  | user | inCall | applying | exiting | restarting => exact .inl rfl
  | delivering | pushing => exact levels_turn s _ _ _
  | nothing restart sawStop =>
    left
    dsimp only
    split_ifs
    · rfl
    · cases restart <;> rfl
  | stopWait | pushedAll | pushStop =>
    left
    split_ifs <;> rfl

/-- A step that does not change the mask adds a level, ends the innermost one, or leaves the levels alone. -/
theorem levels_step (s : SignalThread α) {e : Event α} (hkeep : e.changesMask = false) :
    (s.step e).levels = s.levels ∨ (∃ mask, (s.step e).levels = mask :: s.levels) ∨
      (s.step e).levels = s.levels.tail := by
  have hadds : ∀ l : List SigSet, l = s.levels ∨ (∃ mask, l = mask :: s.levels) →
      l = s.levels ∨ (∃ mask, l = mask :: s.levels) ∨ l = s.levels.tail :=
    fun l hl => hl.imp_right .inl
  unfold step
  cases e with
  | enqueue | enqueueShared | setInterrupted | stop | «continue» | sigaction => exact .inl rfl
  | sigprocmask how nset => simp [Event.changesMask] at hkeep
  | enter | endInterrupt =>
    left
    split_ifs <;> rfl
  | leave restart =>
    left
    cases s.place with
    | inCall call =>
      dsimp only
      split_ifs <;> rfl
    | _ => rfl
  | proceed => exact hadds _ (levels_proceed s)
  | interrupt =>
    apply hadds
    cases s.place with
    | applying => exact levels_turn s _ _ _
    | _ => exact .inl rfl
  | fault signo =>
    apply hadds
    dsimp only
    split_ifs
    · rcases s.signals.deliverKernelSigToUser signo with ⟨found, h⟩
      cases found with
      | none => exact .inl rfl
      | some found => exact .inr ⟨h.blocked, rfl⟩
    · exact .inl rfl
  | sigreturn =>
    cases s.place with
    | user =>
      cases s.frames with
      | nil => exact .inl rfl
      | cons mask frames => exact .inr (.inr rfl)
    | _ => exact .inl rfl

include hs

theorem suffix_step {outer : List SigSet} {e : Event α}
    (houter : outer <:+ s.levels) (hnested : Nested (outer.length - 1) s e) : outer <:+ (s.step e).levels := by
  obtain ⟨hheld, hkeep, hdepth⟩ := hnested
  have hlevels := (framed_step s e hs hheld).levels
  have hlength : outer.length ≤ (s.step e).levels.length := by
    rw [hlevels, length_cons]
    omega
  rcases levels_step s hkeep with heq | ⟨mask, heq⟩ | heq
  · rw [heq]
    exact houter
  · rw [heq]
    exact suffix_cons_iff.mpr (.inr houter)
  rw [heq] at hlength ⊢
  rw [hs.levels] at houter hlength ⊢
  rcases suffix_cons_iff.mp houter with hall | hsuffix
  · rw [hall, tail_cons, length_cons] at hlength
    omega
  · exact hsuffix

theorem nested_run {outer : List SigSet} (houter : outer <:+ s.levels)
    {events : List (Event α)} (hnested : Run.Admitted step (Nested (outer.length - 1)) s events) :
    Framed (Run.exec step s events) ∧ outer <:+ (Run.exec step s events).levels := by
  have hstep : ∀ (s : SignalThread α) e, (Framed s ∧ outer <:+ s.levels) → Nested (outer.length - 1) s e →
      Framed (s.step e) ∧ outer <:+ (s.step e).levels :=
    fun s e hinv hn => ⟨framed_step s e hinv.1 hn.1, suffix_step hinv.1 hinv.2 hn⟩
  exact Run.invariant_exec hstep ⟨hs, houter⟩ hnested

omit hs

/-- In every run in which the process is not continued between the two looks of the delivery loop, interrupted code goes
on with the mask that it had, and masks are saved one at a time. -/
theorem interrupted_code_keeps_mask (h : ThreadSignals α) (before during : List (Event α))
    (hbefore : Run.Admitted step StopHeld (start h) before) :
    let s := Run.exec step (start h) before
    ((s.place = .user ∨ ∃ call, s.place = .restarting call) → s.signals.savedBlocked = none) ∧
    (s.place = .user → Run.Admitted step (Nested s.frames.length) s during →
      let s' := Run.exec step s during
      s'.place = .user → s'.frames.length = s.frames.length →
      s'.signals.blocked = s.signals.blocked ∧ s'.signals.savedBlocked = none ∧ s'.frames = s.frames) := by
  intro s
  have hs : Framed s := Run.invariant_exec framed_step (framed_start h) hbefore
  refine ⟨?_, fun huser hnested => ?_⟩
  · rintro (huser | ⟨call, hcall⟩)
    · exact hs.none_of_user huser
    have hsettled := hs.settled
    rw [hcall] at hsettled
    exact hsettled
  intro s' huser' hlength
  have hdepth : s.levels.length - 1 = s.frames.length := by
    rw [hs.levels, length_cons, Nat.add_sub_cancel]
  obtain ⟨hs', hsuffix⟩ := nested_run hs suffix_rfl (hdepth ▸ hnested)
  have hnone := hs.none_of_user huser
  have hnone' := hs'.none_of_user huser'
  have heq : s.levels = s'.levels := by
    refine hsuffix.eq_of_length ?_
    rw [hs.levels, hs'.levels, length_cons, length_cons, hlength]
  rw [hs.levels, hs'.levels, restoreMask, restoreMask, hnone, hnone'] at heq
  obtain ⟨hmask, hframes⟩ := cons.inj heq
  exact ⟨hmask.symm, hnone', hframes.symm⟩

/-- A thread that blocks `SIGUSR2`, with handlers for all signals. -/
def blockingThread : ThreadSignals Unit where
  blocked := signalMask SIGUSR2
  table := fun _ => { handler := .user 1 }

/-- A system call with a mask of its own, interrupted by a signal whose handler runs and returns. -/
def interruptedCall : List (Event Unit) :=
  [.enter ⟨some 0, true⟩, .enqueue ⟨SIGUSR1, ()⟩, .setInterrupted, .leave true, .proceed, .proceed, .proceed,
    .proceed, .proceed, .sigreturn, .proceed]

theorem interrupted_code_keeps_mask_interruptedCall :
    (Run.exec step (start blockingThread) (interruptedCall.take 9)).frames = [signalMask SIGUSR2] ∧
    (Run.exec step (start blockingThread) interruptedCall).signals.blocked = signalMask SIGUSR2 := by
  refine ⟨by decide +kernel, ?_⟩
  have hkeeps := (interrupted_code_keeps_mask blockingThread [] interruptedCall trivial).2 rfl
  have hrun := hkeeps (by decide +kernel) (by decide +kernel) (by decide +kernel)
  exact hrun.1.trans (by decide +kernel)

/-- The process is stopped and continued while the call is on its way out, and the call is restarted with all
signals blocked. -/
def continuedCall : List (Event Unit) :=
  [.enter ⟨some (~~~0), true⟩, .stop, .setInterrupted, .leave true, .proceed, .proceed, .continue, .proceed]

/-- The restarted call finds a saved mask, saves the temporary one over it, and the program goes on with nearly
all signals blocked. -/
theorem restarted_call_loses_mask :
    let s := Run.exec step (start blockingThread) continuedCall
    let s' := Run.exec step s [.proceed, .leave true, .proceed, .proceed, .proceed, .proceed, .leave false, .proceed]
    s.place = .restarting ⟨some (~~~0), true⟩ ∧ s.signals.savedBlocked = some (signalMask SIGUSR2) ∧
      s'.place = .user ∧ s'.frames = [] ∧ s'.signals.blocked = ~~~kSignalKernelOnlyMask := by
  decide +kernel

end Junction.SignalThread
