import Junction.ProcessTree

/-!
# What the waits return

`wait4` and `waitid` look for a child in the same way, and both look for exited children whatever they are asked for.
A call that does not want to sleep and finds nothing gets an error.
-/

namespace Junction
open List

/-- A call of `waitid`, or of `wait4`, which always asks for exited children. -/
structure WaitCall extends WaitRequest where
  waitid : Bool
  wexited : Bool := false

/-- `ret`, `*wstatus`, and the pid, the status and the code of `*infop`; the code stands for the wait state. -/
structure WaitReply where
  ret : ℤ
  wstatus : Option ℤ
  info : Option (ℤ × ℤ × WaitState)
  deriving DecidableEq

/-- `GetWaitStatus`. A child that is not waitable is not found. -/
def Process.getWaitStatus (q : Process) : ℤ :=
  match q.waitState with
  | .exited => q.waitStatus * 2 ^ 8
  | .stopped => 19 * 2 ^ 8 + 0x7f
  | .continued => 0xffff
  | .notWaitable => 0

def WaitCall.reply (call : WaitCall) (q : Process) : WaitReply :=
  if call.waitid then ⟨0, none, some (q.pid, q.waitStatus, q.waitState)⟩ else ⟨q.pid, some q.getWaitStatus, none⟩

namespace ProcessTree
section Calls
variable (s : ProcessTree) (p : ℕ) (call : WaitCall)

/-- The children that the call is about, those that it finds, and those that it asks for. -/
def meant : List ℕ := (s.proc p).children.filter (s.candidate p call.toWaitRequest)

def ready (c : ℕ) : Bool := call.wants (s.proc c).waitState

def asked (c : ℕ) : Bool := s.ready call c && (!call.waitid || (s.proc c).waitState ≠ .exited || call.wexited)

structure WaitReports (r : Option (Status WaitReply) × ProcessTree) : Prop where
  echild : r.1 = some (.error .ECHILD) ↔ s.meant p call = []
  nohang : call.wnohang = true → s.meant p call ≠ [] → (∀ c ∈ s.meant p call, s.asked call c = false) →
    ∃ reply, r.1 = some (.ok reply) ∧ reply.ret = 0 ∧ ∀ info ∈ reply.info, info.1 = 0
  reported : (∃ c ∈ s.meant p call, s.asked call c = true) →
    ∃ c ∈ s.meant p call, s.asked call c = true ∧ r.1 = some (.ok (call.reply (s.proc c)))
  idle : (∀ c ∈ s.meant p call, s.asked call c = false) →
    r.2.proc = s.proc ∧ (call.wnohang = false → ∀ reply, r.1 ≠ some (.ok reply))
  unchanged : call.wnowait = true ∨ (∃ e, r.1 = some (.error e)) → r.2.proc = s.proc

end Calls
variable {s : ProcessTree} {p : ℕ} {call : WaitCall} {signal : Bool}

/-- Otherwise the reply of `waitid` shows another state than the one asked for, or a pid. -/
theorem WaitReports.asked {c : ℕ} {s' : ProcessTree} (h : WaitReports s p call (some (.ok (call.reply (s.proc c))), s'))
    (hmem : c ∈ s.meant p call) (hready : s.ready call c) (hpid : (s.proc c).pid ≠ 0) : s.asked call c := by
  by_contra hno
  have hwaitid : call.waitid := by simp_all [ProcessTree.asked]
  by_cases hany : ∃ d ∈ s.meant p call, s.asked call d
  · obtain ⟨d, -, hd, hreply⟩ := h.reported hany
    have hstate : (s.proc c).waitState = (s.proc d).waitState := by simp_all [WaitCall.reply]
    exact hno (by simp_all [ProcessTree.asked, ready])
  have hnone : ∀ d ∈ s.meant p call, s.asked call d = false := by simpa using hany
  cases hnohang : call.wnohang with
  | false => exact (h.idle hnone).2 hnohang _ rfl
  | true =>
    obtain ⟨reply, hreply, -, hzero⟩ := h.nohang hnohang (ne_nil_of_mem hmem) hnone
    obtain rfl : call.reply (s.proc c) = reply := by simpa using hreply
    exact hpid (hzero _ (by simp [WaitCall.reply, hwaitid]; rfl))

end ProcessTree
end Junction
