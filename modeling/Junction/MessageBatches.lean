import Junction.Base

/-!
# Batches of messages

`DoSendMsg` returns the negative error code of a failed send as a byte count. `usys_sendmsg` turns the count back into
the code, but `usys_sendmmsg` takes it for a success: it stores the count and goes on with the next message. The calls
are on a socket, with flags that they know.
-/

namespace Junction.Message
open List

def toSize (z : ℤ) : ℕ := (z % 2 ^ 64).toNat

def toSsize (n : ℕ) : ℤ := (n : ℤ).bmod (2 ^ 64)

def doRecvMsg (ret : Status ℕ) : Status ℕ := ret

def doSendMsg : Status ℕ → Status ℕ
  | .ok n => .ok n
  | .error e => .ok (toSize e.toLong)

def answer : Status ℕ → ℤ
  | .ok n => toSsize n
  | .error e => e.toLong

def usysSendmsg (ret : Status ℕ) : ℤ := answer (doSendMsg ret)

def usysRecvmsg (ret : Status ℕ) : ℤ := answer (doRecvMsg ret)

def msgLen (n : ℕ) : ℕ := n % 2 ^ 32

/-- The messages from `i` on, with the `msg_len`s that are set. A missing outcome is a timeout. -/
def batch (i : ℕ) : List (Option (Status ℕ)) → ℤ × List ℕ
  | [] => (i, [])
  | none :: _ => (i, [])
  | some (.error e) :: _ => (if 0 < i then (i : ℤ) else e.toLong, [])
  | some (.ok n) :: rest =>
    let r := batch (i + 1) rest
    (r.1, msgLen n :: r.2)

def usysSendmmsg (rets : List (Status ℕ)) : ℤ × List ℕ := batch 0 ((rets.map doSendMsg).map some)

def usysRecvmmsg (rets : List (Option (Status ℕ))) : ℤ × List ℕ := batch 0 (rets.map (Option.map doRecvMsg))

/-- The byte counts of the messages before the first failure. -/
def leading : List (Option (Status ℕ)) → List ℕ
  | some (.ok n) :: rest => n :: leading rest
  | _ => []

def Reports (rets : List (Option (Status ℕ))) (r : ℤ × List ℕ) : Prop :=
  r.2 = leading rets ∧ r.1 = match rets with
    | some (.error e) :: _ => e.toLong
    | _ => (leading rets).length

@[simp] theorem msgLen_eq_iff (n : ℕ) : msgLen n = n ↔ n < 2 ^ 32 := Nat.mod_eq_iff_lt (by decide)

theorem batch_succ (i : ℕ) (rets : List (Option (Status ℕ))) :
    batch (i + 1) rets = (((i + 1 + (leading rets).length : ℕ) : ℤ), (leading rets).map msgLen) := by
  induction rets generalizing i with
  | nil => simp [batch, leading]
  | cons ret rest ih =>
    match ret with
    | none => simp [batch, leading]
    | some (.error e) => simp [batch, leading]
    | some (.ok n) =>
      simp [batch, leading, ih]
      ring

theorem recv_reports (rets : List (Option (Status ℕ))) :
    Reports rets (batch 0 rets) ↔ ∀ n ∈ leading rets, n < 2 ^ 32 := by
  have hlens : ∀ l : List ℕ, l.map msgLen = l ↔ ∀ n ∈ l, n < 2 ^ 32 := fun l => by
    induction l with
    | nil => simp
    | cons n l ih => simp [ih]
  match rets with
  | [] => simp [Reports, batch, leading]
  | none :: _ => simp [Reports, batch, leading]
  | some (.error e) :: _ => simp [Reports, batch, leading]
  | some (.ok n) :: rest => simp [Reports, batch, leading, batch_succ, hlens, add_comm]

theorem send_reports (rets : List (Status ℕ)) :
    Reports (rets.map some) (usysSendmmsg rets) ↔ ∀ ret ∈ rets, ∃ n < 2 ^ 32, ret = .ok n := by
  have hlens (l : List (Status ℕ)) : (leading ((l.map doSendMsg).map some)).map msgLen = leading (l.map some) ↔
      ∀ ret ∈ l, ∃ n < 2 ^ 32, ret = .ok n := by
    induction l with
    | nil => simp [leading]
    | cons ret l ih => cases ret <;> simp [leading, doSendMsg, ih, -map_map]
  match rets with
  | [] => simp [Reports, usysSendmmsg, batch, leading]
  | .error e :: _ => simp [Reports, usysSendmmsg, batch, leading, doSendMsg]
  | .ok n :: rest =>
    rw [← hlens]
    simp only [Reports, usysSendmmsg, map_cons, doSendMsg, batch, batch_succ, leading]
    refine and_iff_left_of_imp fun h => ?_
    rw [← h]
    simp [add_comm]

theorem toSsize_toLong {e : Error} (he : e.code < 2 ^ 31) : toSsize (toSize e.toLong) = e.toLong := by
  unfold toSsize toSize Error.toLong
  rw [Int.bmod_def]
  push_cast
  split_ifs <;> omega

/-- Error codes are `int`s. -/
theorem calls_report_iff (ret : Status ℕ) (sends : List (Status ℕ)) (recvs : List (Option (Status ℕ)))
    (hcode : ∀ e, ret = .error e → e.code < 2 ^ 31) :
    ((∀ e, ret = .error e → usysSendmsg ret = e.toLong ∧ usysRecvmsg ret = e.toLong) ∧
      Reports (sends.map some) (usysSendmmsg sends) ∧ Reports recvs (usysRecvmmsg recvs)) ↔
      (∀ ret ∈ sends, ∃ n < 2 ^ 32, ret = .ok n) ∧ ∀ n ∈ leading recvs, n < 2 ^ 32 := by
  have hrecv : usysRecvmmsg recvs = batch 0 recvs := congrArg (batch 0) (map_id'' (fun ret => by cases ret <;> rfl) _)
  rw [send_reports, hrecv, recv_reports]
  refine and_iff_right ?_
  rintro e rfl
  have hback := toSsize_toLong (hcode e rfl)
  exact ⟨hback, rfl⟩

theorem calls_report_two : Reports [some (.ok 3), some (.ok 5)] (usysSendmmsg [.ok 3, .ok 5]) :=
  ((calls_report_iff (.error .EPIPE) [.ok 3, .ok 5] [some (.ok 3), none] (by simp [Error.EPIPE])).2
    (by simp [leading])).2.1

/-- The second of three sends fails. -/
theorem send_failure_counted : usysSendmmsg [.ok 3, .error .EPIPE, .ok 5] = (3, [3, 2 ^ 32 - 32, 5]) ∧
    ¬ Reports [some (.ok 3), some (.error .EPIPE), some (.ok 5)] (3, [3, 2 ^ 32 - 32, 5]) := by
  refine ⟨by decide, ?_⟩
  rintro ⟨h, -⟩
  cases h

end Junction.Message
