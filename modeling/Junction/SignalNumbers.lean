import Junction.Base
import Junction.SignalHandler

/-!
# Signal numbers from programs

`kill`, `tgkill`, `rt_tgsigqueueinfo` and `rt_sigaction` pass on the 32-bit number that they are given. It is tested
only by the assertion of the action table; a shift takes it modulo 64.
-/

namespace Junction
open SignalQueue

def Error.ESRCH : Error := ⟨3⟩

/-- `SignalMask` of any number. -/
def signalMaskInt (sig : BitVec 32) : SigSet := 1#64 <<< ((sig - 1).toNat % 64)

def SignalValidInt (sig : BitVec 32) : Prop := 0 < sig.toInt ∧ sig.toInt ≤ 64

instance (sig : BitVec 32) : Decidable (SignalValidInt sig) := inferInstanceAs (Decidable (_ ∧ _))

/-- `Enqueue` of any number. -/
def SignalQueue.enqueueInt {α : Type} (q : SignalQueue α) (sig : BitVec 32) (data : α) : SignalQueue α :=
  let accepted := ⟨q.pendingQ ++ [⟨sig.toNat, data⟩], q.pending ||| signalMaskInt sig⟩
  if sig.toInt < kNumStandardSignals then if q.pending &&& signalMaskInt sig ≠ 0 then q else accepted
  else if kMaxQueuedRT ≤ q.pendingQ.length then q
  else accepted

/-- The processes with their groups, their threads, the queues of both, how often a process was continued, and the
tables of actions. -/
structure SignalSystem (α : Type) where
  procs : List (ℤ × ℤ)
  threads : List (ℤ × ℤ)
  queue : ℤ × Option ℤ → SignalQueue α
  continued : ℤ → ℕ
  action : ℤ → ℕ → KSigaction

inductive SignalTarget
  | process (me pgid tgid : ℤ)
  | thread (tgid tid : ℤ)

inductive SignalCall (α : Type)
  | send (target : SignalTarget) (sig : BitVec 32) (info : α)
  | rtSigaction (me : ℤ) (sig : BitVec 32) (iact : Option KSigaction) (sigsetsize : ℕ)
  | pop (r : ℤ × Option ℤ) (blocked : SigSet) (remove : Bool)

inductive SignalAnswer
  | done
  | error (e : Error)
  | asserts
  deriving DecidableEq

namespace SignalSystem
variable {α : Type}

def kill [Inhabited α] (me pgid tgid : ℤ) (sig : BitVec 32) : SignalCall α := .send (.process me pgid tgid) sig default

def tgkill [Inhabited α] (tgid tid : ℤ) (sig : BitVec 32) : SignalCall α := .send (.thread tgid tid) sig default

def rtTgsigqueueinfo [Inhabited α] (me tgid tid : ℤ) (sig : BitVec 32) (info : α) : SignalCall α :=
  .send (.thread tgid tid) sig (if tgid = me then info else default)

/-- The queues that a signal goes to, unless there is no such process or thread. -/
def recipients (s : SignalSystem α) (sig : BitVec 32) : SignalTarget → Option (List (ℤ × Option ℤ))
  | .process me pgid tgid =>
    let found :=
      if tgid = me then [me]
      else if tgid = -1 then s.procs.map Prod.fst
      else if tgid ≤ 0 then (s.procs.filter (·.2 = if tgid = 0 then pgid else -tgid)).map Prod.fst
      else (s.procs.map Prod.fst).filter (· = tgid)
    if found = [] ∧ tgid ≠ -1 then none else some (found.map (·, none))
  | .thread tgid tid =>
    if tgid ∉ s.procs.map Prod.fst then none
    else if sig = SIGCONT then some [(tgid, none)]
    else if (tgid, tid) ∈ s.threads then some [(tgid, some tid)]
    else none

def signal (s : SignalSystem α) (rs : List (ℤ × Option ℤ)) (sig : BitVec 32) (info : α) : SignalSystem α :=
  if sig = SIGCONT then { s with continued := fun p => if (p, none) ∈ rs then s.continued p + 1 else s.continued p }
  else { s with queue := fun r => if r ∈ rs then (s.queue r).enqueueInt sig info else s.queue r }

def call (s : SignalSystem α) : SignalCall α → SignalAnswer × SignalSystem α
  | .send target sig info =>
    match s.recipients sig target with
    | none => (.error .ESRCH, s)
    | some rs => (.done, s.signal rs sig info)
  | .rtSigaction me sig iact sigsetsize =>
    if sigsetsize ≠ 8 then (.error .EINVAL, s)
    else if kSignalKernelOnlyMask &&& signalMaskInt sig ≠ 0 then (.error .EINVAL, s)
    else if ¬ SignalValidInt sig then (.asserts, s)
    else (.done, { s with action := fun p i =>
      if p = me ∧ i = sig.toNat - 1 then iact.getD (s.action p i) else s.action p i })
  | .pop r blocked remove =>
    (.done, { s with queue := Function.update s.queue r ((s.queue r).pop blocked remove).2 })

def exec : SignalSystem α → List (SignalCall α) → SignalSystem α := Run.exec fun s c => (s.call c).2

/-- A number that is none of a signal is refused and changes nothing, and number zero sends nothing. -/
def Validates (s : SignalSystem α) : SignalCall α → Prop
  | .send target sig info =>
    (¬ SignalValidInt sig → sig ≠ 0 → s.call (.send target sig info) = (.error .EINVAL, s)) ∧
      (sig = 0 → (s.call (.send target sig info)).2 = s)
  | .rtSigaction me sig iact sigsetsize =>
    ¬ SignalValidInt sig → s.call (.rtSigaction me sig iact sigsetsize) = (.error .EINVAL, s)
  | .pop .. => True

/-- The number is one of a signal, or the call comes to nothing for another reason. -/
def Harmless (s : SignalSystem α) : SignalCall α → Prop
  | .send target sig _ =>
    SignalValidInt sig ∨ sig = 0 ∧ ∀ r ∈ (s.recipients sig target).getD [], (s.queue r).pending.getLsbD 63
  | .rtSigaction _ sig _ sigsetsize =>
    SignalValidInt sig ∨ sigsetsize ≠ 8 ∨ kSignalKernelOnlyMask &&& signalMaskInt sig ≠ 0
  | .pop .. => True

def Valid : SignalCall α → Prop
  | .send _ sig _ | .rtSigaction _ sig _ _ => SignalValidInt sig
  | .pop .. => True

variable {sig : BitVec 32}

theorem signalMaskInt_eq (h : SignalValidInt sig) :
    SignalValid sig.toNat ∧ (sig.toNat : ℤ) = sig.toInt ∧ signalMaskInt sig = signalMask sig.toNat := by
  obtain ⟨hpos, hle⟩ := h
  have hint : sig.toNat = sig.toInt := by
    rw [BitVec.toInt_eq_toNat_cond] at hpos ⊢
    split_ifs at hpos ⊢ <;> omega
  have hshift : (sig - 1).toNat % 64 = sig.toNat - 1 := by bv_omega
  refine ⟨⟨by omega, by unfold kNumSignals; omega⟩, hint, ?_⟩
  rw [signalMaskInt, signalMask, hshift]

variable {q : SignalQueue α}

theorem fits_enqueueInt (h : Fits q) (hsig : SignalValidInt sig) (data : α) : Fits (q.enqueueInt sig data) := by
  obtain ⟨hvalid, hint, hmask⟩ := signalMaskInt_eq hsig
  have heq : q.enqueueInt sig data = (q.enqueue ⟨sig.toNat, data⟩).2 := by
    unfold enqueueInt enqueue
    simp only [isSigPending_eq, signalInMask, bne_iff_ne, hmask, ← hint, Nat.cast_lt]
    split_ifs <;> rfl
  rw [heq]
  rcases enqueue_cases q ⟨sig.toNat, data⟩ with ⟨heq, -⟩ | ⟨heq, hnew⟩
  · rw [heq]
    exact h
  · rw [heq]
    exact h.append hvalid hnew

theorem enqueueInt_zero {data : α} : q.enqueueInt 0 data = q ↔ q.pending.getLsbD 63 := by
  have hbit : q.pending &&& signalMaskInt 0 ≠ 0 ↔ q.pending.getLsbD 63 := by
    rw [show signalMaskInt 0 = BitVec.twoPow 64 63 by decide, BitVec.and_twoPow]
    cases q.pending.getLsbD 63 <;> decide
  rw [← hbit, enqueueInt, if_pos (by decide)]
  split_ifs with hpending
  · exact iff_of_true rfl hpending
  refine iff_of_false (fun heq => ?_) hpending
  have hlen := congrArg (fun q => q.pendingQ.length) heq
  simp at hlen

variable {s : SignalSystem α}

theorem signal_zero {rs : List (ℤ × Option ℤ)} {info : α} :
    s.signal rs 0 info = s ↔ ∀ r ∈ rs, (s.queue r).pending.getLsbD 63 := by
  rw [signal, if_neg (by decide)]
  constructor
  · intro heq r hr
    have hqueue : (if r ∈ rs then _ else _) = s.queue r := congrFun (congrArg queue heq) r
    rw [if_pos hr] at hqueue
    exact enqueueInt_zero.1 hqueue
  intro h
  have hqueue : (fun r => if r ∈ rs then (s.queue r).enqueueInt 0 info else s.queue r) = s.queue := by
    funext r
    split_ifs with hr
    · exact enqueueInt_zero.2 (h r hr)
    · rfl
  rw [hqueue]

theorem validates_iff (s : SignalSystem α) (c : SignalCall α) : s.Validates c ↔ s.Harmless c := by
  cases c with
  | send target sig info =>
    have hanswer : (s.call (.send target sig info)).1 ≠ .error .EINVAL := by
      cases hr : s.recipients sig target <;> simp only [call, hr] <;> decide
    have hzero : (s.call (.send target 0 info)).2 = s ↔
        ∀ r ∈ (s.recipients 0 target).getD [], (s.queue r).pending.getLsbD 63 := by
      cases hr : s.recipients 0 target with
      | none => simp only [call, hr, Option.getD_none, List.not_mem_nil, false_imp_iff, implies_true]
      | some rs => simpa only [call, hr, Option.getD_some] using signal_zero
    constructor
    · rintro ⟨hout, hnull⟩
      by_cases hsig : SignalValidInt sig
      · exact .inl hsig
      by_cases h0 : sig = 0
      · subst h0
        exact .inr ⟨rfl, hzero.1 (hnull rfl)⟩
      · exact absurd (congrArg Prod.fst (hout hsig h0)) hanswer
    · rintro (hsig | ⟨rfl, hbits⟩)
      · refine ⟨fun hno => absurd hsig hno, ?_⟩
        rintro rfl
        exact absurd hsig (by decide)
      · exact ⟨fun _ hne => absurd rfl hne, fun _ => hzero.2 hbits⟩
  | rtSigaction me sig iact sigsetsize =>
    dsimp only [Validates, Harmless, call]
    split_ifs with hsize hmask hsig <;> simp_all
  | pop => exact Iff.rfl

def Fit (s : SignalSystem α) : Prop := ∀ r, Fits (s.queue r)

theorem fit_call {c : SignalCall α} (h : s.Fit) (hc : Valid c) : (s.call c).2.Fit := by
  cases c with
  | send target sig info =>
    dsimp only [call, signal]
    split
    · exact h
    split_ifs
    · exact h
    intro r
    dsimp only
    split_ifs
    · exact fits_enqueueInt (h r) hc info
    · exact h r
  | rtSigaction me sig iact sigsetsize =>
    dsimp only [call]
    split_ifs <;> exact h
  | pop r blocked remove =>
    intro u
    rcases eq_or_ne u r with rfl | hne
    · simp only [call, Function.update_self]
      rcases (h u).pop_cases blocked remove with ⟨-, heq⟩ | ⟨signo, p, hvalid, hp, -, -, -, heq⟩
      · rw [heq]
        exact h u
      rw [heq]
      cases remove with
      | false => exact h u
      | true => exact (h u).taken hvalid hp
    · simp only [call, Function.update_of_ne hne]
      exact h u

/-- A call validates its number exactly if the number is harmless. In every run in which all numbers are those of
signals, no assertion fails, and every bit of a queue stands for an entry. -/
theorem numbers_validated_iff :
    (∀ (s : SignalSystem α) c, s.Validates c ↔ s.Harmless c) ∧
    ∀ (s : SignalSystem α) calls c, s.Fit → (∀ d ∈ calls, Valid d) → Valid c →
      ((exec s calls).call c).1 ≠ .asserts ∧ ∀ r i, ((exec s calls).queue r).pending.getLsbD i →
        ∃ e ∈ ((exec s calls).queue r).pendingQ, e.signo = i + 1 := by
  refine ⟨validates_iff, fun s calls c hs hcalls hc => ⟨?_, fun r i hi => ?_⟩⟩
  · cases c with
    | send target sig info => cases hr : (exec s calls).recipients sig target <;> simp [call, hr]
    | rtSigaction me sig iact sigsetsize =>
      have hsig : SignalValidInt sig := hc
      simp only [call, hsig, not_true_eq_false, if_false]
      split_ifs <;> nofun
    | pop => nofun
  have hstep : ∀ (s : SignalSystem α) d, s.Fit → Valid d → (s.call d).2.Fit := fun s d h hd => fit_call h hd
  have hfits : Fits ((exec s calls).queue r) :=
    Run.invariant_exec hstep hs (Run.admitted_of_mem (fun d hd _ => hcalls d hd) s) r
  have hlt : i < 64 := by
    by_contra hge
    rw [BitVec.getLsbD_of_ge _ _ (by omega)] at hi
    cases hi
  have hvalid : SignalValid (i + 1) := ⟨Nat.succ_pos i, hlt⟩
  have hqueued := (hfits.pending (i + 1) hvalid).1 (by rw [signalInMask_eq _ hvalid]; exact hi)
  obtain ⟨e, he⟩ := List.exists_mem_of_ne_nil _ hqueued
  exact ⟨e, (List.mem_filter.1 he).1, of_decide_eq_true (List.mem_filter.1 he).2⟩

def lone : SignalSystem ℕ := ⟨[(1, 1)], [(1, 1)], fun _ => {}, fun _ => 0, fun _ _ => {}⟩

theorem numbers_validated_iff_lone : (lone.Validates (kill 1 1 1 64) ↔ lone.Harmless (kill 1 1 1 64)) ∧
      ((exec lone [kill 1 1 1 64]).call (.rtSigaction 1 64 none 8)).1 ≠ .asserts :=
  ⟨numbers_validated_iff.1 _ _, (numbers_validated_iff.2 lone [kill 1 1 1 64] (.rtSigaction 1 64 none 8)
    (fun _ => fits_empty) (by simpa [kill, Valid] using (by decide : SignalValidInt 64))
    (by decide : SignalValidInt 64)).1⟩

/-- Number zero is queued, with the bit of signal 64; number 65 gets the bit of signal 1; number 100 runs into the
assertion of the table. -/
theorem numbers_unchecked :
    (lone.call (kill 1 1 1 0)).1 = .done ∧ (exec lone [kill 1 1 1 0]).queue (1, none) = ⟨[⟨0, 0⟩], signalMask 64⟩ ∧
      (exec lone [tgkill 1 1 65]).queue (1, some 1) = ⟨[⟨65, 0⟩], signalMask 1⟩ ∧
      (lone.call (.rtSigaction 1 100 none 8)).1 = .asserts := by
  decide

end SignalSystem

end Junction
