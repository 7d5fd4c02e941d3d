import Junction.Capabilities
import Junction.InitialStack
import Junction.SignalHandler

/-!
# A program is replaced

`execve` gives the process a new memory map and ends its other threads. What the old program has left with the process
and with the thread is reset by three functions, and none of them touches the table of actions.
-/

namespace Junction

def SS_DISABLE : BitVec 32 := 2

structure StackT where
  sp : ℕ
  flags : BitVec 32
  size : ℕ
deriving DecidableEq

structure RseqState where
  userRs : Option ℕ := none
  len : BitVec 32 := 0
  sig : BitVec 32 := 0
deriving DecidableEq

def RseqState.reset (r : RseqState) : RseqState := if r.userRs = none then r else {}

def SignalQueue.onExec {α : Type*} (_ : SignalQueue α) : SignalQueue α := {}

/-- The thread that calls `execve`, and what there is of its process: the table of actions and the shared queue, which
the signal state of the thread has, the memory map and the other threads. -/
structure ExecState (α M : Type*) where
  sighand : ThreadSignals α
  sigaltstack : StackT
  childTid : Option ℕ
  rseq : RseqState
  creds : Credential
  memMap : M
  isNonReloc : Bool
  threads : List ℕ

/-- `execve` comes back with an error, ends the process, or starts the new program. -/
inductive ExecOutcome where
  | returned (e : Error)
  | exited
  | entered (rsp rip : ℕ)
deriving DecidableEq

namespace ExecState
variable {α M : Type*} (s : ExecState α M)

def resetRseq : ExecState α M := { s with rseq := s.rseq.reset }

def killThreadsAndWait : ExecState α M := { s with threads := [] }

/-- `Process::FinishExec`. -/
def finishExec (mm : M) (isNonReloc : Bool) : ExecState α M := { s.killThreadsAndWait with memMap := mm, isNonReloc }

/-- `Thread::OnExec`; credentials are kept. -/
def onExec : ExecState α M :=
  { s with
    sighand := { s.sighand with sigQ := s.sighand.sigQ.onExec, sharedQ := s.sighand.sharedQ.onExec }
    sigaltstack := ⟨0, SS_DISABLE, 0⟩
    childTid := none }

/-- `DoExecve`, with the new memory map, what `ResolveElf` finds (whether the program is a relocatable one), and the
stack and the entry that `FinishExec` sets up. -/
def doExecve (mm : Status M) (dynamic : Status Bool) (regs : Status (ℕ × ℕ)) : ExecOutcome × ExecState α M :=
  match mm, dynamic with
  | .error e, _ => (.returned e, s)
  | .ok _, .error e => (.returned e, s)
  | .ok mm, .ok dynamic =>
    let replaceNonReloc := s.isNonReloc && !dynamic
    let s := if replaceNonReloc then s.killThreadsAndWait.resetRseq else s
    match regs with
    | .error e => (if replaceNonReloc then .exited else .returned e, s)
    | .ok (rsp, rip) => (.entered rsp rip, (s.resetRseq.finishExec mm !dynamic).onExec)

/-- Nothing of the program of `s` is left in `s'`: ignored signals stay ignored and all others have the default action,
the alternate stack is off, and no address of the thread is registered. -/
structure Forgets (s s' : ExecState α M) : Prop where
  actions : ∀ sig, (s'.sighand.table sig).handler =
    if (s.sighand.table sig).handler = .ignore then .ignore else .default
  altstack : s'.sigaltstack.flags &&& SS_DISABLE ≠ 0
  childTid : s'.childTid = none
  rseq : s'.rseq.userRs = none
  blocked : s'.sighand.blocked = s.sighand.blocked
  unreached : ∀ sig, parseAction (s'.sighand.table sig) sig ≠ .normal

theorem userRs_reset (r : RseqState) : r.reset.userRs = none := by
  unfold RseqState.reset
  split_ifs with h
  · exact h
  · rfl

variable {s} {mm : Status M} {dynamic : Status Bool} {regs : Status (ℕ × ℕ)} {rsp rip : ℕ}

theorem doExecve_entered (h : (s.doExecve mm dynamic regs).1 = .entered rsp rip) :
    (s.doExecve mm dynamic regs).2.sighand = { s.sighand with sigQ := {}, sharedQ := {} } ∧
      (s.doExecve mm dynamic regs).2.sigaltstack = ⟨0, SS_DISABLE, 0⟩ ∧
      (s.doExecve mm dynamic regs).2.childTid = none ∧ (s.doExecve mm dynamic regs).2.rseq.userRs = none := by
  unfold doExecve at h ⊢
  split at h
  · cases h
  · cases h
  rename_i dynamic
  split at h
  · dsimp only at h
    split_ifs at h
  refine ⟨?_, rfl, rfl, userRs_reset _⟩
  cases hreplace : s.isNonReloc && !dynamic with
  | false | true => rfl

/-- A program that starts finds nothing of the one before it if and only if that one had no handlers. -/
theorem execve_forgets_iff (h : (s.doExecve mm dynamic regs).1 = .entered rsp rip) :
    Forgets s (s.doExecve mm dynamic regs).2 ↔
      ∀ sig, (s.sighand.table sig).handler = .default ∨ (s.sighand.table sig).handler = .ignore := by
  obtain ⟨hsighand, haltstack, htid, hrseq⟩ := doExecve_entered h
  constructor
  · intro hforgets sig
    have haction := hforgets.actions sig
    rw [hsighand] at haction
    split_ifs at haction with hignore
    · exact .inr hignore
    · exact .inl haction
  intro hplain
  refine ⟨fun sig => ?_, by rw [haltstack]; decide, htid, hrseq, by rw [hsighand], fun sig => ?_⟩
  · rw [hsighand]
    rcases hplain sig with hdefault | hignore
    · simp [hdefault]
    · simp [hignore]
  rw [hsighand]
  rcases hplain sig with hdefault | hignore
  · simp only [parseAction, hdefault]
    split_ifs <;> exact nofun
  · simp [parseAction, hignore]

/-- A thread of a program that handles signal 10 at the given address. -/
def handling (handler : SigHandler) : ExecState ℕ ℕ :=
  { sighand := { table := fun sig => if sig = 10 then { handler } else {} }
    sigaltstack := ⟨0x7000, 0, 0x2000⟩
    childTid := some 0x5000
    rseq := ⟨some 0x6000, 32, 0⟩
    creds := {}
    memMap := 1
    isNonReloc := false
    threads := [2] }

theorem execve_forgets_ignored : Forgets (handling .ignore) ((handling .ignore).doExecve (.ok 2) (.ok true) (.ok (8, 9))).2 := by
  refine (@execve_forgets_iff _ _ _ _ _ _ 8 9 rfl).2 fun sig => ?_
  simp only [handling]
  split_ifs <;> simp

/-- The new program still has the handler of the old one. -/
theorem execve_keeps_handler :
    let after := (handling (.user 0x4000)).doExecve (.ok 2) (.ok true) (.ok (8, 9))
    after.1 = .entered 8 9 ∧ (after.2.sighand.table 10).handler = .user 0x4000 ∧
      parseAction (after.2.sighand.table 10) 10 = .normal := by
  decide

end ExecState

/-!
### The room of the new stack

Nothing on the way to `SetupStack` compares the size of the arguments and the environment with that of the stack.
-/

open ByteStores List

def Error.E2BIG : Error := ⟨7⟩

def kStackSize : ℕ := 512 * 1024 * 32

/-- What `DoELFLoad` and the two calls that map the stack return. -/
structure ExecMaps where
  edata : Status ElfData
  guard : Status ℕ
  ret : Status ℕ

section Calls
variable (maps : ExecMaps) (argv envp : List (List UInt8)) (hwcap : ℕ) (random : List UInt8)

/-- `FinishExec`: the stack, and the address where the program begins. -/
def ExecMaps.finishExec : Status (StackSetup × ℕ) := do
  let edata ← maps.edata
  let guard ← maps.guard
  let _ ← maps.ret
  let sp := addWord (addWord guard kStackSize) kStackSize
  return (setupStack sp argv envp edata hwcap random, (edata.interp.map InterpData.entryAddr).getD edata.entryAddr)

/-- The call fails for this reason and leaves the process alone, or what it stores lies in the stack. -/
def KeepsToStack {α M : Type*} (s : ExecState α M) (mm : Status M) (dynamic : Status Bool) : Prop :=
  let regs := maps.finishExec argv envp hwcap random
  s.doExecve mm dynamic (regs.map fun r => (r.1.sp, r.2)) = (.returned .E2BIG, s) ∨
    ∀ guard, maps.guard = .ok guard → ∀ mm' d r, mm = .ok mm' → dynamic = .ok d → regs = .ok r →
      ∀ w ∈ r.1.log, w.Within (guard + kStackSize) (guard + kStackSize + kStackSize)

end Calls

variable {argv envp : List (List UInt8)} {hwcap lo hi : ℕ} {random : List UInt8}

theorem pushStrings_room {args : List (List UInt8)} {p q : ℕ} (hhi : hi < 2 ^ 64)
    (h : ∀ w ∈ (pushStrings args p q).1, w.Within lo hi) : p + 8 * args.length ≤ max p hi ∧
      (stringBytes args = 0 ∨ lo ≤ q ∧ q + stringBytes args ≤ hi) := by
  induction args generalizing p q with
  | nil => exact ⟨le_max_left _ _, .inl rfl⟩
  | cons arg args ih =>
    simp only [pushStrings, stringStores, cons_append, nil_append, forall_mem_cons] at h
    obtain ⟨hword, hstr, hnul, hrest⟩ := h
    have hp : p + 8 ≤ hi := hword.2
    have hq : q + arg.length + 1 ≤ hi := hnul.2
    have hlo : lo ≤ q := hstr.1
    rw [addWord_of_lt (by omega), addWord_of_lt (by omega)] at hrest
    have hargs := ih hrest
    rw [length_cons, stringBytes_cons]
    omega

theorem lt_stackBytes (arg : List UInt8) (args envp : List (List UInt8)) : arg.length < stackBytes (arg :: args) envp := by
  rw [stackBytes, stringBytes_cons]
  omega

/-- With some memory below the stack, arguments that are copied to it fit. -/
theorem stackBytes_le_of_within {edata : ElfData} (hhi : hi < 2 ^ 64) (hbelow : 2 * (hi - lo) + 400 ≤ hi)
    (h : ∀ w ∈ (setupStack hi argv envp edata hwcap random).log, w.Within lo hi) : stackBytes argv envp ≤ hi - lo := by
  have hbytes : stackBytes argv envp = (stringBytes argv + stringBytes envp + 16 +
    (16 * 20 + (argv.length + envp.length + 3) * 8) + 31) / 32 * 32 := rfl
  have hplaces := @setupStack_places hi argv envp edata hwcap random hhi
  set st := setupStack hi argv envp edata hwcap random with hst
  have hq : st.infoBlock < 2 ^ 64 := Nat.mod_lt _ (by decide)
  have hlog : st.log = stackLog st.sp st.infoBlock st.randomPtr argv envp edata hwcap random := rfl
  simp only [hlog, stackLog, forall_mem_cons, forall_mem_append] at h
  obtain ⟨-, hargc, hargs, hnull, henvs, -⟩ := h
  have hsp : lo ≤ st.sp ∧ st.sp + 8 ≤ hi := hargc
  have hnext : addWord st.sp 8 = st.sp + 8 := addWord_of_lt (by omega)
  rw [hnext] at hargs hnull henvs
  have hroom := pushStrings_room hhi hargs
  obtain ⟨hend, -⟩ := @pushStrings_spec argv (st.sp + 8) st.infoBlock (by omega) (by omega)
  rw [hend] at hnull henvs
  have hlast : st.sp + 8 + 8 * argv.length + 8 ≤ hi := hnull.2
  rw [addWord_of_lt (by dsimp only; omega)] at henvs
  have hroom' := pushStrings_room hhi henvs
  have hat := hplaces (by omega)
  omega

section Exec
variable {α M : Type*} {s : ExecState α M} {maps : ExecMaps}

theorem stackBytes_le_of_keepsToStack {mm : M} {d : Bool} {edata : ElfData} {guard ret : ℕ} (hlow : kPageSize ≤ guard)
    (hhigh : guard + 2 * kStackSize < 2 ^ 64)
    (h : KeepsToStack ⟨.ok edata, .ok guard, .ok ret⟩ argv envp hwcap random s (.ok mm) (.ok d)) :
    stackBytes argv envp ≤ kStackSize := by
  have hsize : kPageSize = 4096 ∧ kStackSize = 2 ^ 24 := by decide
  rcases h with h | h
  · cases h
  have hin := h guard rfl _ _ _ rfl rfl rfl
  rw [addWord_of_lt (show guard + kStackSize < 2 ^ 64 by omega), addWord_of_lt (by omega)] at hin
  have hle := stackBytes_le_of_within (by omega) (by omega) hin
  omega

/-- The stack is kept to if and only if the arguments and the environment fit, whenever they are copied. -/
theorem keepsToStack_iff {mm : Status M} {dynamic : Status Bool} (hrandom : random.length ≤ 16)
    (hguard : ∀ guard, maps.guard = .ok guard → kPageSize ≤ guard ∧ guard + 2 * kStackSize < 2 ^ 64) :
    KeepsToStack maps argv envp hwcap random s mm dynamic ↔ ∀ mm' d edata guard ret, mm = .ok mm' → dynamic = .ok d →
      maps = ⟨.ok edata, .ok guard, .ok ret⟩ → stackBytes argv envp ≤ kStackSize := by
  constructor
  · rintro h _ _ edata guard ret rfl rfl rfl
    exact stackBytes_le_of_keepsToStack (hguard guard rfl).1 (hguard guard rfl).2 h
  refine fun h => .inr fun guard hg mm' d r hmm hd hr => ?_
  obtain ⟨hlow, hhigh⟩ := hguard guard hg
  obtain ⟨edata | edata, guard | guard, ret | ret⟩ := maps <;> cases hr
  cases hg
  have hroom := h mm' d edata guard ret hmm hd rfl
  have hbytes : stackBytes argv envp =
    (stringBytes argv + stringBytes envp + 16 + tableBytes argv envp + 31) / 32 * 32 := rfl
  rw [addWord_of_lt (show guard + kStackSize < 2 ^ 64 by omega), addWord_of_lt (by omega)]
  set top := guard + kStackSize + kStackSize with htop
  obtain ⟨hperm, hwords, hblock⟩ := @setupStack_blocks top argv envp edata hwcap random (by omega) (by omega)
  obtain ⟨hsp, hinfo, hptr⟩ := @setupStack_places top argv envp edata hwcap random (by omega) (by omega)
  intro w hw
  rcases mem_cons.1 (hperm.mem_iff.1 hw) with rfl | hw
  · exact ⟨by dsimp only; omega, by simp only [Store.stop]; omega⟩
  rcases mem_append.1 hw with hw | hw
  · exact (hwords w hw).mono (by omega) (by omega)
  · exact (hblock w hw).mono (by omega) (by omega)

end Exec

def lsMaps : ExecMaps := ⟨.ok ⟨0, 0x2000, 0x1040, 0x40, 9, 56, none⟩, .ok 0x10000, .ok 0x1010000⟩

theorem keepsToStack_ls : KeepsToStack lsMaps [[108, 115]] [] 0 [] (ExecState.handling .ignore) (.ok 2) (.ok true) :=
  (keepsToStack_iff (by decide) (by rintro _ ⟨⟩; decide)).2 fun _ _ _ _ _ _ _ _ => by decide

/-- One argument as long as the stack. -/
theorem not_keepsToStack_long :
    ¬ KeepsToStack lsMaps [replicate kStackSize 97] [] 0 [] (ExecState.handling .ignore) (.ok 2) (.ok true) := by
  intro h
  have hlt := lt_stackBytes (replicate kStackSize 97) [] []
  rw [length_replicate] at hlt
  exact absurd (stackBytes_le_of_keepsToStack (by decide) (by decide) h) hlt.not_ge

end Junction
