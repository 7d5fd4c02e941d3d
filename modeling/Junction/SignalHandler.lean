import Junction.SignalQueue

/-!
# Delivery of signals to a thread

A thread has its own queue of signals and shares one with its process. It has a mask of blocked signals, and
during some system calls a saved mask that the one in force stands in for. To start a handler the mask is replaced
and the mask to return to goes into the frame of the handler.
-/

namespace Junction

def SIGQUIT : ℕ := 3
def SIGILL : ℕ := 4
def SIGTRAP : ℕ := 5
def SIGABRT : ℕ := 6
def SIGBUS : ℕ := 7
def SIGFPE : ℕ := 8
def SIGCHLD : ℕ := 17
def SIGTSTP : ℕ := 20
def SIGTTIN : ℕ := 21
def SIGTTOU : ℕ := 22
def SIGURG : ℕ := 23
def SIGXCPU : ℕ := 24
def SIGXFSZ : ℕ := 25
def SIGWINCH : ℕ := 28
def SIGSYS : ℕ := 31

def kSignalStopMask : SigSet := multiSignalMask [SIGSTOP, SIGTSTP, SIGTTIN, SIGTTOU]
def kSignalCoredumpMask : SigSet :=
  multiSignalMask [SIGQUIT, SIGILL, SIGTRAP, SIGABRT, SIGFPE, SIGSEGV, SIGBUS, SIGSYS, SIGXCPU, SIGXFSZ]
def kSignalIgnoreMask : SigSet := multiSignalMask [SIGCONT, SIGCHLD, SIGWINCH, SIGURG]

def SA_ONSTACK : BitVec 64 := 0x08000000
def SA_RESTART : BitVec 64 := 0x10000000
def SA_NODEFER : BitVec 64 := 0x40000000
def SA_RESETHAND : BitVec 64 := 0x80000000

/-- The handler of an action: `SIG_DFL`, `SIG_IGN`, a function of the program, or the function that ends the
process. -/
inductive SigHandler where
  | default
  | ignore
  | user (address : ℕ)
  | sigKill
deriving DecidableEq

structure KSigaction where
  handler : SigHandler := .default
  saFlags : BitVec 64 := 0
  saMask : SigSet := 0
deriving DecidableEq

namespace KSigaction

def isOneshot (act : KSigaction) : Bool := act.saFlags &&& SA_RESETHAND != 0
def isNodefer (act : KSigaction) : Bool := act.saFlags &&& SA_NODEFER != 0
def reset (act : KSigaction) : KSigaction := { act with handler := .default, saFlags := 0 }

end KSigaction

def sigKillAction : KSigaction :=
  { handler := .sigKill, saFlags := SA_ONSTACK ||| SA_RESTART ||| SA_NODEFER, saMask := ~~~0 }

inductive SignalAction where
  | stop
  | coredump
  | terminate
  | ignore
  | normal
deriving DecidableEq

def parseAction (act : KSigaction) (sig : ℕ) : SignalAction :=
  match act.handler with
  | .ignore => .ignore
  | .user _ | .sigKill => .normal
  | .default =>
    if signalInMask kSignalStopMask sig then .stop
    else if signalInMask kSignalCoredumpMask sig then .coredump
    else if signalInMask kSignalIgnoreMask sig then .ignore
    else .terminate

/-- The signal state of a thread, with what it uses of its process: the shared queue, whether the process is
stopped, and the table of actions. `interrupted` is the interrupt state of the thread in the runtime. -/
structure ThreadSignals (α : Type*) where
  sigQ : SignalQueue α := {}
  sharedQ : SignalQueue α := {}
  blocked : SigSet := 0
  savedBlocked : Option SigSet := none
  interrupted : Bool := false
  stopped : Bool := false
  table : ℕ → KSigaction := fun _ => {}

structure DeliveredSignal (α : Type*) where
  act : KSigaction
  info : SigInfo α
  prevBlocked : SigSet

namespace ThreadSignals
variable {α : Type*}

variable (h : ThreadSignals α)

def anySigReady : Bool :=
  (h.sigQ.getPending 0 ||| h.sharedQ.getPending 0) &&& ~~~h.blocked != 0

def setInterruptFlagIfNeeded (h : ThreadSignals α) : ThreadSignals α :=
  if h.anySigReady then { h with interrupted := true } else h

def replaceMask (h : ThreadSignals α) (newMask : SigSet) : ThreadSignals α :=
  let newMask := newMask &&& ~~~kSignalKernelOnlyMask
  if newMask = h.blocked then h else setInterruptFlagIfNeeded { h with blocked := newMask }

inductive SigHow where
  | block
  | unblock
  | setMask

/-- `SigProcMask` with a new set; it also answers with the old mask. -/
def sigProcMask (h : ThreadSignals α) (how : SigHow) (nset : SigSet) : SigSet × ThreadSignals α :=
  let newSig :=
    match how with
    | .block => h.blocked ||| nset
    | .unblock => h.blocked &&& ~~~nset
    | .setMask => nset
  (h.blocked, h.replaceMask newSig)

def getSigframeRestoreMask (h : ThreadSignals α) : SigSet × ThreadSignals α :=
  match h.savedBlocked with
  | some saved => (saved, { h with savedBlocked := none })
  | none => (h.blocked, h)

def replaceAndSaveBlocked (h : ThreadSignals α) (mask : SigSet) : ThreadSignals α :=
  if h.blocked = mask then h else replaceMask { h with savedBlocked := some h.blocked } mask

def restoreBlocked (h : ThreadSignals α) : ThreadSignals α :=
  match h.savedBlocked with
  | none => h
  | some saved =>
    if h.interrupted then h
    else
      let h := if saved ≠ h.blocked then setInterruptFlagIfNeeded { h with blocked := saved } else h
      { h with savedBlocked := none }

def restoreBlockedLocked (h : ThreadSignals α) : ThreadSignals α :=
  match h.savedBlocked with
  | none => h
  | some saved => setInterruptFlagIfNeeded { h with blocked := saved, savedBlocked := none }

def resetInterruptState (h : ThreadSignals α) : ThreadSignals α := { h with interrupted := false }

def popSigInfo (h : ThreadSignals α) (blocked : SigSet) (resetFlag : Bool) :
    Option (SigInfo α) × ThreadSignals α :=
  match h.sigQ.pop blocked true with
  | (some info, q) => (some info, { h with sigQ := q })
  | (none, q) =>
    let h := { h with sigQ := q }
    if h.stopped then (none, h)
    else
      match h.sharedQ.pop blocked true with
      | (some info, q) => (some info, { h with sharedQ := q })
      | (none, q) =>
        let h := { h with sharedQ := q }
        (none, if resetFlag then h.resetInterruptState.restoreBlockedLocked else h)

/-- `get_action` of the signal table, with the reset of a one-shot action. -/
def takeAction (h : ThreadSignals α) (sig : ℕ) : KSigaction × ThreadSignals α :=
  let sa := h.table sig
  (sa, if sa.isOneshot then { h with table := Function.update h.table sig sa.reset } else h)

def getAction (h : ThreadSignals α) (sig : ℕ) : Option KSigaction × ThreadSignals α :=
  let (act, h) := h.takeAction sig
  match parseAction act sig with
  | .normal => (some act, h)
  | .ignore => (none, h)
  | .stop => (none, { h with stopped := true })
  | .terminate | .coredump => (some sigKillAction, h)

/-- The set that `GetNextSignal` blocks for a handler. -/
def toBlock (act : KSigaction) (signo : ℕ) : SigSet :=
  if act.isNodefer then act.saMask else act.saMask ||| signalMask signo

/-- The end of `GetNextSignal`, for the signal and the action that its loop has found. -/
def startHandler (h : ThreadSignals α) (info : SigInfo α) (act : KSigaction) :
    DeliveredSignal α × ThreadSignals α :=
  let (prevBlocked, h) := h.getSigframeRestoreMask
  (⟨act, info, prevBlocked⟩, h.replaceMask (toBlock act info.signo))

/-- What one turn of the loop of `GetNextSignal` comes to. -/
inductive Turn (α : Type*) where
  | nothing
  | again
  | deliver (sig : DeliveredSignal α)

def nextTurn : Turn α × ThreadSignals α :=
  match h.popSigInfo h.blocked true with
  | (none, h) => (.nothing, h)
  | (some info, h) =>
    match h.getAction info.signo with
    | (none, h) => (.again, h)
    | (some act, h) =>
      let (sig, h) := h.startHandler info act
      (.deliver sig, h)

/-- `GetNextSignal`, for at most `fuel` turns of its loop. -/
def getNextSignal : ℕ → ThreadSignals α → Option (Option (DeliveredSignal α) × ThreadSignals α)
  | 0, _ => none
  | fuel + 1, h =>
    match h.nextTurn with
    | (.nothing, h) => some (none, h)
    | (.again, h) => getNextSignal fuel h
    | (.deliver sig, h) => some (some sig, h)

/-- `DeliverKernelSigToUser`: nothing if the process is killed, else the action and the mask in the frame. -/
def deliverKernelSigToUser (h : ThreadSignals α) (signo : ℕ) :
    Option (KSigaction × SigSet) × ThreadSignals α :=
  if signalInMask h.blocked signo then (none, h)
  else
    match h.getAction signo with
    | (none, h) => (none, h)
    | (some act, h) =>
      if act.handler = .sigKill then (none, h)
      else
        let (mask, h) := h.sigProcMask .block act.saMask
        (some (act, mask), h)

/-! ### What the operations do to the masks -/

@[simp] theorem setInterruptFlagIfNeeded_blocked : h.setInterruptFlagIfNeeded.blocked = h.blocked := by
  unfold setInterruptFlagIfNeeded
  split_ifs <;> rfl

@[simp] theorem setInterruptFlagIfNeeded_savedBlocked : h.setInterruptFlagIfNeeded.savedBlocked = h.savedBlocked := by
  unfold setInterruptFlagIfNeeded
  split_ifs <;> rfl

@[simp] theorem replaceMask_blocked (mask : SigSet) :
    (h.replaceMask mask).blocked = mask &&& ~~~kSignalKernelOnlyMask := by
  dsimp only [replaceMask]
  split_ifs with heq
  · exact heq.symm
  · exact setInterruptFlagIfNeeded_blocked _

@[simp] theorem replaceMask_savedBlocked (mask : SigSet) : (h.replaceMask mask).savedBlocked = h.savedBlocked := by
  dsimp only [replaceMask]
  split_ifs
  · rfl
  · exact setInterruptFlagIfNeeded_savedBlocked _

theorem getAction_masks (sig : ℕ) :
    (h.getAction sig).2.blocked = h.blocked ∧ (h.getAction sig).2.savedBlocked = h.savedBlocked := by
  have htake : (h.takeAction sig).2.blocked = h.blocked ∧ (h.takeAction sig).2.savedBlocked = h.savedBlocked := by
    dsimp only [takeAction]
    split_ifs <;> exact ⟨rfl, rfl⟩
  dsimp only [getAction]
  cases parseAction (h.takeAction sig).1 sig <;> exact htake

def queued : ℕ := h.sigQ.pendingQ.length + h.sharedQ.pendingQ.length

theorem popSigInfo_some {h h' : ThreadSignals α} {blocked : SigSet} {reset : Bool} {info : SigInfo α}
    (hpop : h.popSigInfo blocked reset = (some info, h')) :
    h'.blocked = h.blocked ∧ h'.savedBlocked = h.savedBlocked ∧ h'.interrupted = h.interrupted ∧
      h'.queued < h.queued := by
  have hown := h.sigQ.length_pop blocked
  have hshared := h.sharedQ.length_pop blocked
  unfold popSigInfo at hpop
  rcases heq : h.sigQ.pop blocked true with ⟨found, q⟩
  rw [heq] at hpop hown
  cases found with
  | some info' =>
    obtain ⟨-, rfl⟩ := Prod.mk.inj hpop
    have hlen : q.pendingQ.length + 1 = h.sigQ.pendingQ.length := hown
    exact ⟨rfl, rfl, rfl, by unfold queued; dsimp only; omega⟩
  | none =>
    have hsame : q.pendingQ.length = h.sigQ.pendingQ.length := hown
    dsimp only at hpop
    by_cases hstopped : h.stopped
    · simp [hstopped] at hpop
    rw [if_neg hstopped] at hpop
    rcases heq' : h.sharedQ.pop blocked true with ⟨found, q'⟩
    rw [heq'] at hpop hshared
    cases found with
    | some info' =>
      obtain ⟨-, rfl⟩ := Prod.mk.inj hpop
      have hlen : q'.pendingQ.length + 1 = h.sharedQ.pendingQ.length := hshared
      exact ⟨rfl, rfl, rfl, by unfold queued; dsimp only; omega⟩
    | none => simp at hpop

theorem getAction_queued (sig : ℕ) : (h.getAction sig).2.queued = h.queued := by
  have htake : (h.takeAction sig).2.queued = h.queued := by
    dsimp only [takeAction]
    split_ifs <;> rfl
  dsimp only [getAction]
  cases parseAction (h.takeAction sig).1 sig <;> exact htake

theorem nextTurn_cases :
    (∃ h', h.popSigInfo h.blocked true = (none, h') ∧ h.nextTurn = (.nothing, h')) ∨
    (∃ info h₁ h₂, h.popSigInfo h.blocked true = (some info, h₁) ∧ h₁.getAction info.signo = (none, h₂) ∧
      h.nextTurn = (.again, h₂)) ∨
    ∃ info act h₁ h₂, h.popSigInfo h.blocked true = (some info, h₁) ∧
      h₁.getAction info.signo = (some act, h₂) ∧
      h.nextTurn = (.deliver (h₂.startHandler info act).1, (h₂.startHandler info act).2) := by
  unfold nextTurn
  rcases h.popSigInfo h.blocked true with ⟨found, h₁⟩
  cases found with
  | none => exact .inl ⟨h₁, rfl, rfl⟩
  | some info =>
    rcases hact : h₁.getAction info.signo with ⟨act, h₂⟩
    cases act with
    | none => exact .inr (.inl ⟨info, h₁, h₂, rfl, hact, by simp only [hact]⟩)
    | some act => exact .inr (.inr ⟨info, act, h₁, h₂, rfl, hact, by simp only [hact]⟩)

theorem nextTurn_again {h h' : ThreadSignals α} (hturn : h.nextTurn = (.again, h')) : h'.queued < h.queued := by
  rcases h.nextTurn_cases with ⟨_, -, heq⟩ | ⟨info, h₁, h₂, hpop, hact, heq⟩ | ⟨_, _, _, _, -, -, heq⟩
  · rw [heq] at hturn
    simp at hturn
  · rw [heq] at hturn
    obtain ⟨-, rfl⟩ := Prod.mk.inj hturn
    have hqueued := h₁.getAction_queued info.signo
    rw [hact] at hqueued
    exact hqueued.trans_lt (popSigInfo_some hpop).2.2.2
  · rw [heq] at hturn
    simp at hturn

/-- `GetNextSignal` takes at most one turn for each queued signal and one more. -/
theorem getNextSignal_returns (h : ThreadSignals α) :
    ∃ result, ∀ fuel, h.queued ≤ fuel → getNextSignal (fuel + 1) h = some result := by
  induction hq : h.queued using Nat.strong_induction_on generalizing h with
  | _ n ih =>
    rcases hturn : h.nextTurn with ⟨turn, h'⟩
    cases turn with
    | nothing | deliver => exact ⟨_, fun fuel _ => by rw [getNextSignal, hturn]⟩
    | again =>
      have hless := hq ▸ nextTurn_again hturn
      obtain ⟨result, hresult⟩ := ih _ hless h' rfl
      refine ⟨result, fun fuel hfuel => ?_⟩
      obtain ⟨k, rfl⟩ := Nat.exists_eq_add_one.2 (Nat.zero_lt_of_lt (hless.trans_le hfuel))
      rw [getNextSignal, hturn]
      exact hresult k (by omega)

end ThreadSignals
end Junction

/-! ### The mask while a handler runs

`GetNextSignal` leaves out the signals that were blocked before, and the delivery of a fault its own signal. -/

namespace Junction.ThreadSignals
open BitVec
variable {α : Type*}

/-- The mask with which the handler of an action is to run for a signal. -/
def handlerMask (blocked : SigSet) (act : KSigaction) (signo : ℕ) : SigSet :=
  (blocked ||| act.saMask ||| if act.isNodefer then 0 else signalMask signo) &&& ~~~kSignalKernelOnlyMask

theorem handlerMask_eq (blocked : SigSet) (act : KSigaction) (signo : ℕ) :
    handlerMask blocked act signo = (blocked ||| toBlock act signo) &&& ~~~kSignalKernelOnlyMask := by
  unfold handlerMask toBlock
  split_ifs
  · rw [show (0 : SigSet) = 0#64 from rfl, or_zero]
  · rw [BitVec.or_assoc]

theorem and_eq_or_and_iff (a b k : SigSet) : b &&& k = (a ||| b) &&& k ↔ a &&& k &&& ~~~b = 0 := by
  constructor
  all_goals
    intro h
    refine eq_of_getLsbD_eq fun i hi => ?_
    have hbit := congrArg (·.getLsbD i) h
    simp only [getLsbD_and, getLsbD_or, getLsbD_not] at hbit ⊢
    cases ha : a.getLsbD i <;> cases hb : b.getLsbD i <;> cases hk : k.getLsbD i <;> simp_all

variable {h h' : ThreadSignals α} {sig : DeliveredSignal α}

theorem nextTurn_deliver (hturn : h.nextTurn = (.deliver sig, h')) :
    h'.blocked = toBlock sig.act sig.info.signo &&& ~~~kSignalKernelOnlyMask := by
  rcases h.nextTurn_cases with ⟨_, -, heq⟩ | ⟨_, _, _, -, -, heq⟩ | ⟨info, act, h₁, h₂, -, -, heq⟩
  · rw [heq] at hturn
    simp at hturn
  · rw [heq] at hturn
    simp at hturn
  rw [heq] at hturn
  obtain ⟨hsig, rfl⟩ := Prod.mk.inj hturn
  obtain rfl := Turn.deliver.inj hsig
  exact replaceMask_blocked _ _

variable {fuel : ℕ}

theorem getNextSignal_blocked (hnext : getNextSignal fuel h = some (some sig, h')) :
    h'.blocked = toBlock sig.act sig.info.signo &&& ~~~kSignalKernelOnlyMask := by
  induction fuel generalizing h with
  | zero => cases hnext
  | succ fuel ih =>
    rw [getNextSignal] at hnext
    rcases hturn : h.nextTurn with ⟨turn, h₁⟩
    rw [hturn] at hnext
    cases turn with
    | nothing => simp at hnext
    | again => exact ih hnext
    | deliver sig' =>
      obtain ⟨hsig, rfl⟩ := Prod.mk.inj (Option.some.inj hnext)
      obtain rfl := Option.some.inj hsig
      exact nextTurn_deliver hturn

variable {signo : ℕ}

theorem deliverKernelSigToUser_blocked {act : KSigaction} {mask : SigSet}
    (hdeliver : h.deliverKernelSigToUser signo = (some (act, mask), h')) : signalInMask h.blocked signo = false ∧
      h'.blocked = (h.blocked ||| act.saMask) &&& ~~~kSignalKernelOnlyMask := by
  unfold deliverKernelSigToUser at hdeliver
  by_cases hin : signalInMask h.blocked signo
  · simp [hin] at hdeliver
  rw [if_neg hin] at hdeliver
  have hmasks := h.getAction_masks signo
  rcases hact : h.getAction signo with ⟨found, h₁⟩
  rw [hact] at hdeliver hmasks
  cases found with
  | none => simp at hdeliver
  | some act' =>
    dsimp only at hdeliver
    split_ifs at hdeliver
    · simp at hdeliver
    obtain ⟨hsome, rfl⟩ := Prod.mk.inj hdeliver
    obtain ⟨rfl, -⟩ := Prod.mk.inj (Option.some.inj hsome)
    refine ⟨Bool.eq_false_iff.mpr hin, ?_⟩
    rw [← hmasks.1]
    exact replaceMask_blocked _ _

theorem signalMask_and_eq_zero (x : SigSet) (signo : ℕ) :
    signalMask signo &&& x = 0 ↔ signalInMask x signo = false := by
  rw [signalInMask, BitVec.and_comm, bne_eq_false_iff_eq]

/-- A handler that `GetNextSignal` starts runs with the right mask exactly if the action blocks every signal that was
blocked before, and one for a fault exactly if its own signal is blocked or is not to be. -/
theorem handler_mask_iff : (∀ fuel (h h' : ThreadSignals α) sig, getNextSignal fuel h = some (some sig, h') →
      (h'.blocked = handlerMask h.blocked sig.act sig.info.signo ↔
        h.blocked &&& ~~~kSignalKernelOnlyMask &&& ~~~toBlock sig.act sig.info.signo = 0)) ∧
    ∀ (h h' : ThreadSignals α) signo act mask, SignalValid signo →
      h.deliverKernelSigToUser signo = (some (act, mask), h') →
      (h'.blocked = handlerMask h.blocked act signo ↔ act.isNodefer = true ∨ signalInMask act.saMask signo = true ∨
          signalInMask kSignalKernelOnlyMask signo = true) := by
  refine ⟨fun fuel h h' sig hnext => ?_, fun h h' signo act mask hvalid hdeliver => ?_⟩
  · rw [getNextSignal_blocked hnext, handlerMask_eq]
    exact and_eq_or_and_iff _ _ _
  obtain ⟨hnot, hblocked⟩ := deliverKernelSigToUser_blocked hdeliver
  rw [hblocked, handlerMask, or_comm (h.blocked ||| act.saMask), and_eq_or_and_iff]
  by_cases hnodefer : act.isNodefer = true
  · simp [hnodefer]
  rw [if_neg hnodefer, BitVec.and_assoc, signalMask_and_eq_zero, signalInMask_and _ _ hvalid,
    signalInMask_not _ hvalid, signalInMask_not _ hvalid, signalInMask_or _ _ hvalid, hnot]
  cases signalInMask kSignalKernelOnlyMask signo <;> cases signalInMask act.saMask signo <;> simp [hnodefer]

/-- Whether `GetNextSignal` starts a handler, and a test of what it started and of the mask then. -/
def startsWith (fuel : ℕ) (h : ThreadSignals α) (test : DeliveredSignal α → SigSet → Bool) : Bool :=
  match getNextSignal fuel h with
  | some (some sig, h') => test sig h'.blocked
  | _ => false

theorem exists_of_startsWith {h : ThreadSignals α} {test : DeliveredSignal α → SigSet → Bool}
    (htest : startsWith fuel h test) :
    ∃ sig h', getNextSignal fuel h = some (some sig, h') ∧ test sig h'.blocked := by
  unfold startsWith at htest
  split at htest
  · exact ⟨_, _, ‹_›, htest⟩
  · cases htest

def faultsWith (h : ThreadSignals α) (signo : ℕ) (test : KSigaction → SigSet → Bool) : Bool :=
  match h.deliverKernelSigToUser signo with
  | (some (act, _), h') => test act h'.blocked
  | _ => false

theorem exists_of_faultsWith {h : ThreadSignals α} {test : KSigaction → SigSet → Bool}
    (htest : faultsWith h signo test) :
    ∃ act mask h', h.deliverKernelSigToUser signo = (some (act, mask), h') ∧ test act h'.blocked := by
  unfold faultsWith at htest
  split at htest
  · exact ⟨_, _, _, ‹_›, htest⟩
  · cases htest

/-- A thread with `blocked` in force and one signal in its own queue, and with one action for it. -/
def withSignal (blocked : SigSet) (signo : ℕ) (act : KSigaction) : ThreadSignals Unit where
  sigQ := ⟨[⟨signo, ()⟩], signalMask signo⟩
  blocked := blocked
  table := Function.update (fun _ => {}) signo act

/-- An action with a handler of the program that blocks two signals. -/
def blockingAction : KSigaction :=
  { handler := .user 4096, saMask := signalMask SIGUSR2 ||| signalMask SIGSEGV }

theorem handler_mask_iff_blockingAction :
    (∃ sig h', getNextSignal 2 (withSignal (signalMask SIGUSR2) SIGUSR1 blockingAction) = some (some sig, h') ∧
      h'.blocked = handlerMask (signalMask SIGUSR2) sig.act sig.info.signo) ∧
    ∃ act mask h', (withSignal (signalMask SIGUSR2) SIGSEGV blockingAction).deliverKernelSigToUser SIGSEGV =
      (some (act, mask), h') ∧ h'.blocked = handlerMask (signalMask SIGUSR2) act SIGSEGV := by
  have hstart : startsWith 2 (withSignal (signalMask SIGUSR2) SIGUSR1 blockingAction) (fun sig _ =>
      signalMask SIGUSR2 &&& ~~~kSignalKernelOnlyMask &&& ~~~toBlock sig.act sig.info.signo = 0) = true := by
    decide +kernel
  have hfault : faultsWith (withSignal (signalMask SIGUSR2) SIGSEGV blockingAction) SIGSEGV
      (fun act _ => signalInMask act.saMask SIGSEGV) = true := by
    decide +kernel
  obtain ⟨sig, h₁, hnext, hsig⟩ := exists_of_startsWith hstart
  obtain ⟨act, mask, h₂, hdeliver, hact⟩ := exists_of_faultsWith hfault
  exact ⟨⟨sig, h₁, hnext, (handler_mask_iff.1 2 _ h₁ sig hnext).mpr (of_decide_eq_true hsig)⟩, ⟨act, mask, h₂, hdeliver,
      (handler_mask_iff.2 _ h₂ SIGSEGV act mask (by decide) hdeliver).mpr (.inr (.inl hact))⟩⟩

/-- While `SIGUSR2` is blocked, a handler of `SIGUSR1` is started and `SIGUSR2` is no longer blocked; and the
handler for a fault is started with its own signal not blocked. -/
theorem handler_mask_loses_signals :
    let act : KSigaction := { handler := .user 4096 }
    (∃ sig h', getNextSignal 2 (withSignal (signalMask SIGUSR2) SIGUSR1 act) = some (some sig, h') ∧
      (signalInMask (handlerMask (signalMask SIGUSR2) sig.act sig.info.signo) SIGUSR2 &&
        !signalInMask h'.blocked SIGUSR2) = true) ∧
    ∃ fault mask h', (withSignal 0 SIGSEGV act).deliverKernelSigToUser SIGSEGV = (some (fault, mask), h') ∧
      (signalInMask (handlerMask 0 fault SIGSEGV) SIGSEGV && !signalInMask h'.blocked SIGSEGV) = true := by
  intro act
  have hstart : startsWith 2 (withSignal (signalMask SIGUSR2) SIGUSR1 { handler := .user 4096 })
      (fun sig blocked => signalInMask (handlerMask (signalMask SIGUSR2) sig.act sig.info.signo) SIGUSR2 &&
        !signalInMask blocked SIGUSR2) = true := by
    decide +kernel
  have hfault : faultsWith (withSignal 0 SIGSEGV { handler := .user 4096 }) SIGSEGV
      (fun fault blocked => signalInMask (handlerMask 0 fault SIGSEGV) SIGSEGV &&
        !signalInMask blocked SIGSEGV) = true := by
    decide +kernel
  exact ⟨exists_of_startsWith hstart, exists_of_faultsWith hfault⟩

end Junction.ThreadSignals
