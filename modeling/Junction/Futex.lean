import Junction.Base
import Junction.TimedWait

/-!
# Futexes

A thread that waits checks the value once without and once with the lock of its bucket, puts a waiter on the
list of the bucket and parks. A wake takes waiters off the list, in the order of their arrival, and makes
their threads run again. A thread that comes back and finds its waiter still on the list takes it off itself.
A turn under the lock of a bucket is one step; between the turns timers fire and signals arrive.
-/

namespace Junction
open Function

/-- A waiter on the list of a bucket. The ticket counts the arrivals; no step depends on it. -/
structure FutexWaiter (ι : Type) where
  thread : ι
  key : ℕ
  bitset : BitVec 32
  ticket : ℕ
  deriving DecidableEq

/-- A thread in `Wait`. Its waiter has no waker once a wake has dequeued it; `dequeues` counts the wakes
that have done so, and no step depends on it. -/
structure FutexCall where
  key : ℕ
  val : BitVec 32
  bitset : BitVec 32
  wait : TimedWait
  dequeued : Bool
  ticket : ℕ
  dequeues : ℕ
  deriving DecidableEq

namespace FutexCall
variable {ι : Type}

def waiter (c : FutexCall) (i : ι) : FutexWaiter ι := { c with thread := i }

def queued (c : FutexCall) : Bool := c.wait.place != .entering && !c.dequeued

def dequeue (c : FutexCall) : FutexCall :=
  { c with wait := c.wait.wake, dequeued := true, dequeues := c.dequeues + 1 }

end FutexCall

/-- A `Wait` that has returned. -/
structure FutexReturn (ι : Type) where
  thread : ι
  answer : Status Unit
  dequeues : ℕ
  deriving DecidableEq

structure FutexTable (ι : Type) where
  memory : ℕ → BitVec 32
  buckets : ℕ → List (FutexWaiter ι)
  threads : ι → Option FutexCall
  arrivals : ℕ
  returns : List (FutexReturn ι)

namespace FutexTable
variable {ι : Type}

/-- `get_bucket`. -/
def bucketOf (hash : ℕ → ℕ) (key : ℕ) : ℕ := hash key % 16

/-- The loop of `Wake`: the waiters that it takes off the list, and those that it leaves. -/
def wakeLoop (matched : FutexWaiter ι → Bool) (n : ℤ) :
    ℤ → List (FutexWaiter ι) → List (FutexWaiter ι) × List (FutexWaiter ι)
  | _, [] => ([], [])
  | i, w :: futexes =>
    if !matched w then ((wakeLoop matched n i futexes).1, w :: (wakeLoop matched n i futexes).2)
    else if n ≤ i + 1 then ([w], futexes)
    else (w :: (wakeLoop matched n (i + 1) futexes).1, (wakeLoop matched n (i + 1) futexes).2)

def matched (key : ℕ) (bitset : BitVec 32) (w : FutexWaiter ι) : Bool :=
  w.key == key && w.bitset &&& bitset != 0

variable [DecidableEq ι]

def setThread (s : FutexTable ι) (i : ι) (c : Option FutexCall) : FutexTable ι :=
  { s with threads := update s.threads i c }

def setBucket (s : FutexTable ι) (b : ℕ) (l : List (FutexWaiter ι)) : FutexTable ι :=
  { s with buckets := update s.buckets b l }

/-- A thread returns from `Wait`. -/
def finish (s : FutexTable ι) (i : ι) (answer : Status Unit) (dequeues : ℕ) : FutexTable ι :=
  { s.setThread i none with returns := s.returns ++ [⟨i, answer, dequeues⟩] }

/-- `Wait`, up to the lock of the bucket. -/
def wait (s : FutexTable ι) (i : ι) (key : ℕ) (val bitset : BitVec 32) (timeout : Bool) : FutexTable ι :=
  if s.memory key ≠ val then s.finish i (.error .EAGAIN) 0
  else s.setThread i (some ⟨key, val, bitset, .construct timeout, false, 0, 0⟩)

variable (hash : ℕ → ℕ)

/-- `push_back`. -/
def enqueue (s : FutexTable ι) (w : FutexWaiter ι) : FutexTable ι :=
  { s.setBucket (bucketOf hash w.key) (s.buckets (bucketOf hash w.key) ++ [w]) with
    arrivals := s.arrivals + 1 }

/-- What `Wait` answers when the thread is through with the wait. -/
def waitAnswer (dequeued normally : Bool) : Status Unit :=
  if dequeued then .ok () else if normally then .error .ETIMEDOUT else .error .EINTR

/-- The waiter of a thread leaves its list, unless a wake has dequeued it. -/
def leave (s : FutexTable ι) (i : ι) (c : FutexCall) : FutexTable ι :=
  if c.dequeued then s
  else s.setBucket (bucketOf hash c.key) ((s.buckets (bucketOf hash c.key)).filter fun w => w.thread != i)

/-- The thread has parked, or it is through with the wait and returns. -/
def settle (s : FutexTable ι) (i : ι) (c : FutexCall) : FutexTable ι :=
  match c.wait.place with
  | .through normally => (s.leave hash i c).finish i (waitAnswer c.dequeued normally) c.dequeues
  | _ => s.setThread i (some c)

/-- The next turn of a waiting thread under the lock of its bucket. -/
def turn (s : FutexTable ι) (i : ι) (c : FutexCall) (signal : Bool) : FutexTable ι :=
  match c.wait.place with
  | .entering =>
    if s.memory c.key ≠ c.val then s.finish i (.error .EAGAIN) c.dequeues
    else (s.enqueue hash ⟨i, c.key, c.bitset, s.arrivals⟩).settle hash i
      { c with ticket := s.arrivals, wait := c.wait.pass c.dequeued signal }
  | .parked => s
  | _ => s.settle hash i { c with wait := c.wait.pass c.dequeued signal }

def futexes (s : FutexTable ι) (key : ℕ) : List (FutexWaiter ι) := s.buckets (bucketOf hash key)

/-- The waiters that `Wake` dequeues. -/
def woken (s : FutexTable ι) (key : ℕ) (n : ℤ) (bitset : BitVec 32) : List (FutexWaiter ι) :=
  if n = 0 then [] else (wakeLoop (matched key bitset) n 0 (s.futexes hash key)).1

/-- The waiters of the bucket that `Wake` leaves. -/
def kept (s : FutexTable ι) (key : ℕ) (n : ℤ) (bitset : BitVec 32) : List (FutexWaiter ι) :=
  if n = 0 then s.futexes hash key else (wakeLoop (matched key bitset) n 0 (s.futexes hash key)).2

/-- The waiters that were taken off their list have no waker any more, and their threads run again. -/
def dequeueAll (s : FutexTable ι) (l : List (FutexWaiter ι)) : FutexTable ι :=
  { s with threads := fun i =>
      if i ∈ l.map FutexWaiter.thread then (s.threads i).map FutexCall.dequeue else s.threads i }

def wake (s : FutexTable ι) (key : ℕ) (n : ℤ) (bitset : BitVec 32) : ℕ × FutexTable ι :=
  ((s.woken hash key n bitset).length,
    (s.setBucket (bucketOf hash key) (s.kept hash key n bitset)).dequeueAll (s.woken hash key n bitset))

/-- A thread calls `Wait`, or takes its next turn; the timer of its wait fires; it gets a signal; some
thread calls `Wake`, or stores a value. -/
inductive Tick (ι : Type)
  | wait (i : ι) (key : ℕ) (val bitset : BitVec 32) (timeout : Bool)
  | turn (i : ι) (signal : Bool)
  | timer (i : ι)
  | signal (i : ι)
  | wake (key : ℕ) (n : ℤ) (bitset : BitVec 32)
  | store (key : ℕ) (val : BitVec 32)

def step (s : FutexTable ι) : Tick ι → FutexTable ι
  | .wait i key val bitset timeout =>
    match s.threads i with
    | none => s.wait i key val bitset timeout
    | some _ => s
  | .turn i signal =>
    match s.threads i with
    | none => s
    | some c => s.turn hash i c signal
  | .timer i =>
    match s.threads i with
    | none => s
    | some c => s.setThread i (some { c with wait := c.wait.fire })
  | .signal i =>
    match s.threads i with
    | none => s
    | some c => s.setThread i (some { c with wait := c.wait.ready })
  | .wake key n bitset => (s.wake hash key n bitset).2
  | .store key val => { s with memory := update s.memory key val }

def start (memory : ℕ → BitVec 32) : FutexTable ι := ⟨memory, fun _ => [], fun _ => none, 0, []⟩

end FutexTable
end Junction

/-! ### Wakes and waits match: a wait succeeds if and only if one wake has dequeued it -/

namespace Junction
open List FutexTable FutexCall TimedWait
namespace FutexTable
variable {ι : Type}

section Loop
variable {p : FutexWaiter ι → Bool} {n i : ℤ} (l : List (FutexWaiter ι))

theorem wakeLoop_perm : ((wakeLoop p n i l).1 ++ (wakeLoop p n i l).2).Perm l := by
  induction l generalizing i with
  | nil => rfl
  | cons w l ih =>
    unfold wakeLoop
    split_ifs
    · exact perm_middle.trans (ih.cons w)
    · rfl
    · exact ih.cons w

theorem wakeLoop_sublist : (wakeLoop p n i l).2.Sublist l := by
  induction l generalizing i with
  | nil => exact List.Sublist.slnil
  | cons w l ih =>
    unfold wakeLoop
    split_ifs
    · exact ih.cons_cons w
    · exact sublist_cons_self w l
    · exact ih.cons w

theorem wakeLoop_filter (h : i < n) (l : List (FutexWaiter ι)) :
    (wakeLoop p n i l).1 = (l.filter p).take (n - i).toNat ∧
      (wakeLoop p n i l).2.filter p = (l.filter p).drop (n - i).toNat ∧
      (wakeLoop p n i l).2.filter (!p ·) = l.filter (!p ·) := by
  induction l generalizing i with
  | nil => simp [wakeLoop]
  | cons w l ih =>
    unfold wakeLoop
    by_cases hw : p w
    · rw [hw, if_neg (by decide), filter_cons_of_pos hw, filter_cons_of_neg (by simp [hw])]
      split_ifs with hlast
      · obtain rfl : n = i + 1 := by omega
        simp
      obtain ⟨k, hk⟩ : ∃ k, (n - i).toNat = k + 1 := ⟨(n - i).toNat - 1, by omega⟩
      rw [hk, take_succ_cons, drop_succ_cons, show k = (n - (i + 1)).toNat by omega]
      exact (ih (by omega)).imp_left (congrArg (w :: ·))
    · rw [if_pos (by simp [hw]), filter_cons_of_neg hw, filter_cons_of_neg hw,
        filter_cons_of_pos (by simp [hw]), filter_cons_of_pos (by simp [hw])]
      obtain ⟨hwoken, hmatched, hothers⟩ := ih h
      exact ⟨hwoken, hmatched, congrArg (w :: ·) hothers⟩

end Loop

variable [DecidableEq ι] {hash : ℕ → ℕ} {s : FutexTable ι}

def queuedAs (s : FutexTable ι) (i : ι) : Option (FutexWaiter ι) :=
  (s.threads i).bind fun c => if c.queued then some (c.waiter i) else none

end FutexTable

variable {t : TimedWait}

namespace FutexCall

/-- Once a call was dequeued its thread runs, and nobody else wakes it. -/
structure Sound (c : FutexCall) : Prop where
  wait : c.wait.Sound
  released : c.dequeued = true →
    c.wait.place ≠ .entering ∧ c.wait.place ≠ .parked ∧ c.wait.waker.th_ = none
  dequeues : c.dequeues = if c.dequeued then 1 else 0

variable {c : FutexCall}

theorem Sound.not_dequeued (h : c.Sound) (hplace : c.wait.place = .entering) : c.dequeued = false ∧ c.dequeues = 0 := by
  have hdequeues := h.dequeues
  cases hd : c.dequeued with
  | false => exact ⟨rfl, by rwa [hd] at hdequeues⟩
  | true => exact absurd hplace (h.released hd).1

theorem Sound.roused (h : c.Sound) (ht : c.wait.Roused t) (hsound : t.Sound) :
    ({ c with wait := t } : FutexCall).Sound where
  wait := hsound
  released hd := by
    obtain ⟨hentering, hparked, hwaker⟩ := h.released hd
    rcases ht.place with hplace | ⟨habs, -⟩
    · exact ⟨hplace ▸ hentering, hplace ▸ hparked, ht.waker hwaker⟩
    · exact absurd habs hparked
  dequeues := h.dequeues

theorem queued_roused (ht : c.wait.Roused t) : ({ c with wait := t } : FutexCall).queued = c.queued := by
  rcases ht.place with hplace | ⟨hparked, hwoken⟩
  · simp [queued, hplace]
  · simp only [queued, hparked, hwoken]
    rfl

theorem Sound.dequeue (h : c.Sound) (hqueued : c.queued) : c.dequeue.Sound where
  wait := h.wait.wake
  released _ := by
    obtain ⟨hparked, hwaker⟩ := h.wait.wake_place
    refine ⟨fun hentering => ?_, hparked, hwaker⟩
    rcases (roused_wake).place with hplace | ⟨-, hwoken⟩
    · rw [queued, ← hplace, show c.wait.wake.place = .entering from hentering] at hqueued
      exact Bool.noConfusion hqueued
    · cases hwoken.symm.trans hentering
  dequeues := by
    have hnot : c.dequeued = false := by
      cases hd : c.dequeued with
      | false => rfl
      | true => simp [queued, hd] at hqueued
    change c.dequeues + 1 = 1
    rw [h.dequeues, hnot]
    rfl

theorem Sound.pass (h : c.Sound) (signal : Bool) (hplace : c.wait.place = .entering ∨ c.wait.place = .woken) :
    ({ c with wait := c.wait.pass c.dequeued signal } : FutexCall).Sound where
  wait := h.wait.pass _ _
  released hd := by
    obtain ⟨hentering, -, hwaker⟩ := h.released hd
    have hpass := pass_of_condition (hplace.resolve_left hentering) hwaker signal
    rw [hd, hpass]
    exact ⟨nofun, nofun, rfl⟩
  dequeues := h.dequeues

end FutexCall

namespace FutexTable
variable {ι : Type} [DecidableEq ι] {hash : ℕ → ℕ} {s : FutexTable ι}

/-- The lists of the buckets belong to the threads, whether these are in their wait or just through. -/
structure Core (hash : ℕ → ℕ) (s : FutexTable ι) : Prop where
  sorted : ∀ b, (s.buckets b).Pairwise fun v w => v.ticket < w.ticket
  fresh : ∀ b, ∀ w ∈ s.buckets b, w.ticket < s.arrivals
  queue : ∀ b w, w ∈ s.buckets b ↔ s.queuedAs w.thread = some w ∧ b = bucketOf hash w.key
  sound : ∀ i c, s.threads i = some c → c.Sound
  returns : ∀ e ∈ s.returns, e.dequeues ≤ 1 ∧ (e.answer = .ok () ↔ e.dequeues = 1)

theorem threads_setThread_self (i : ι) (c : Option FutexCall) : (s.setThread i c).threads i = c := by
  simp [setThread]

variable {j : ι}

theorem threads_setThread_ne {i : ι} (h : j ≠ i) (c : Option FutexCall) :
    (s.setThread i c).threads j = s.threads j := by
  simp [setThread, h]

variable {w : FutexWaiter ι}

omit [DecidableEq ι] in
theorem queuedAs_thread {i : ι} (h : s.queuedAs i = some w) : w.thread = i := by
  obtain ⟨c, -, hc⟩ := Option.bind_eq_some_iff.1 h
  split_ifs at hc
  exact (Option.some.inj hc) ▸ rfl

theorem queuedAs_setThread_ne {i : ι} (h : j ≠ i) (c : Option FutexCall) :
    (s.setThread i c).queuedAs j = s.queuedAs j := by
  rw [queuedAs, queuedAs, threads_setThread_ne h]

theorem queuedAs_setThread_self (i : ι) (c : Option FutexCall) :
    (s.setThread i c).queuedAs i = c.bind fun c => if c.queued then some (c.waiter i) else none := by
  rw [queuedAs, threads_setThread_self]

namespace Core
variable (h : Core hash s)
include h

theorem setThread {i : ι} {c : Option FutexCall} (hsound : ∀ c' ∈ c, c'.Sound)
    (hqueued : (s.setThread i c).queuedAs i = s.queuedAs i) : Core hash (s.setThread i c) := { h with
  queue b w := by
    by_cases hw : w.thread = i
    · rw [hw, hqueued, ← hw]
      exact h.queue b w
    · rw [queuedAs_setThread_ne hw]
      exact h.queue b w
  sound j c' hc' := by
    by_cases hj : j = i
    · subst hj
      exact hsound c' ((threads_setThread_self j c).symm.trans hc')
    · exact h.sound j c' ((threads_setThread_ne hj c).symm.trans hc') }

theorem finish {i : ι} {answer : Status Unit} {dequeues : ℕ} (hqueued : s.queuedAs i = none)
    (hdequeues : dequeues ≤ 1) (hanswer : answer = .ok () ↔ dequeues = 1) :
    Core hash (s.finish i answer dequeues) := by
  have hset : Core hash (s.setThread i none) := h.setThread nofun (by rw [queuedAs_setThread_self, hqueued]; rfl)
  refine { hset with returns := fun e he => ?_ }
  rcases mem_append.1 he with he | he
  · exact h.returns e he
  · obtain rfl := mem_singleton.1 he
    exact ⟨hdequeues, hanswer⟩

theorem remove {i : ι} {err : Error} (hqueued : s.queuedAs i = some w) : Core hash ((s.setBucket (bucketOf hash w.key)
      ((s.buckets (bucketOf hash w.key)).filter fun v => v.thread != i)).finish i (.error err) 0) := by
  set s' := (s.setBucket (bucketOf hash w.key)
    ((s.buckets (bucketOf hash w.key)).filter fun v => v.thread != i)).setThread i none with hs'
  have hmem : ∀ b v, v ∈ s'.buckets b ↔ v ∈ s.buckets b ∧ v.thread ≠ i := by
    intro b v
    by_cases hb : b = bucketOf hash w.key
    · simp [hs', setBucket, FutexTable.setThread, hb]
    have hsame : s'.buckets b = s.buckets b := by simp [hs', setBucket, FutexTable.setThread, hb]
    rw [hsame]
    refine ⟨fun hv => ⟨hv, fun hi => ?_⟩, And.left⟩
    obtain ⟨hv', rfl⟩ := (h.queue b v).1 hv
    rw [hi, hqueued] at hv'
    exact hb (Option.some.inj hv' ▸ rfl)
  have hsub : ∀ b, (s'.buckets b).Sublist (s.buckets b) := by
    intro b
    by_cases hb : b = bucketOf hash w.key <;> simp [hs', setBucket, FutexTable.setThread, hb]
  refine ⟨fun b => (h.sorted b).sublist (hsub b), fun b v hv => h.fresh b v ((hsub b).subset hv),
    fun b v => ?_, fun j c hc => ?_, fun e he => ?_⟩
  · change v ∈ s'.buckets b ↔ s'.queuedAs v.thread = some v ∧ b = bucketOf hash v.key
    rw [hmem, h.queue]
    by_cases hv : v.thread = i
    · have hnone : s'.queuedAs v.thread = none := by rw [hv, hs', queuedAs_setThread_self]; rfl
      rw [hnone]
      simp [hv]
    have hsame : s'.queuedAs v.thread = s.queuedAs v.thread := by
      rw [hs', queuedAs_setThread_ne hv]
      rfl
    simp [hsame, hv]
  · change s'.threads j = some c at hc
    by_cases hj : j = i
    · rw [hs', hj, threads_setThread_self] at hc
      cases hc
    · rw [hs', threads_setThread_ne hj] at hc
      exact h.sound j c hc
  · rcases mem_append.1 he with he | he
    · exact h.returns e he
    · obtain rfl := mem_singleton.1 he
      exact ⟨Nat.zero_le 1, by simp⟩

theorem enqueue {i : ι} {c : FutexCall} (hqueued : s.queuedAs i = none) (hc : c.queued)
    (hsound : c.Sound) (hticket : c.ticket = s.arrivals) :
    Core hash ((s.enqueue hash (c.waiter i)).setThread i (some c)) := by
  set s' := (s.enqueue hash (c.waiter i)).setThread i (some c) with hs'
  have hself : s'.queuedAs i = some (c.waiter i) := by
    rw [hs', queuedAs_setThread_self, Option.bind_some, if_pos hc]
  have hbuckets : ∀ b, s'.buckets b = s.buckets b ++ if b = bucketOf hash c.key then [c.waiter i] else [] := by
    intro b
    by_cases hb : b = bucketOf hash c.key <;>
      simp [hs', FutexTable.enqueue, setBucket, FutexTable.setThread, waiter, hb]
  have hmem : ∀ b v, v ∈ s'.buckets b ↔ v ∈ s.buckets b ∨ b = bucketOf hash c.key ∧ v = c.waiter i := by
    intro b v
    rw [hbuckets, mem_append]
    split_ifs with hb
    · simp [hb]
    · simp [hb]
  refine ⟨fun b => ?_, fun b v hv => ?_, fun b v => ?_, fun j c' hc' => ?_, h.returns⟩
  · rw [hbuckets, pairwise_append]
    refine ⟨h.sorted b, ?_, fun v hv w hw => ?_⟩
    · split_ifs
      · exact pairwise_singleton _ _
      · exact List.Pairwise.nil
    split_ifs at hw
    · obtain rfl := mem_singleton.1 hw
      exact (h.fresh b v hv).trans_eq hticket.symm
    · cases hw
  · rcases (hmem b v).1 hv with hv | ⟨-, rfl⟩
    · exact (h.fresh b v hv).trans (Nat.lt_succ_self _)
    · exact Nat.lt_succ_of_le hticket.le
  · rw [hmem, h.queue]
    by_cases hv : v.thread = i
    · rw [hv, hself, hqueued]
      constructor
      · rintro (⟨habs, -⟩ | ⟨rfl, rfl⟩)
        · cases habs
        · exact ⟨rfl, rfl⟩
      rintro ⟨hsome, rfl⟩
      obtain rfl := Option.some.inj hsome
      exact .inr ⟨rfl, rfl⟩
    have hsame : s'.queuedAs v.thread = s.queuedAs v.thread := by
      rw [hs', queuedAs_setThread_ne hv]
      rfl
    rw [hsame]
    refine ⟨fun hor => hor.resolve_right ?_, .inl⟩
    rintro ⟨-, rfl⟩
    exact hv rfl
  · by_cases hj : j = i
    · rw [hs', hj, threads_setThread_self] at hc'
      exact Option.some.inj hc' ▸ hsound
    · rw [hs', threads_setThread_ne hj] at hc'
      exact h.sound j c' hc'

end Core

theorem finish_setThread (s : FutexTable ι) (i : ι) (c : Option FutexCall) (answer : Status Unit)
    (dequeues : ℕ) : (s.setThread i c).finish i answer dequeues = s.finish i answer dequeues := by
  simp [finish, setThread]

theorem Core.settle {i : ι} {c : FutexCall} (h : Core hash (s.setThread i (some c)))
    (hplace : c.wait.place ≠ .entering) : Core hash (s.settle hash i c) := by
  have hself : (s.setThread i (some c)).queuedAs i = if c.dequeued then none else some (c.waiter i) := by
    rw [queuedAs_setThread_self, Option.bind_some, queued]
    cases c.dequeued <;> simp [hplace]
  have hdequeues := (h.sound i c (threads_setThread_self i _)).dequeues
  unfold FutexTable.settle
  split
  · rename_i normally _
    cases hd : c.dequeued with
    | true =>
      rw [hd, if_pos rfl] at hself hdequeues
      rw [leave, hd, if_pos rfl, ← finish_setThread s i (some c)]
      exact h.finish hself hdequeues.le (by simp [waitAnswer, hdequeues])
    | false =>
      rw [hd, if_neg Bool.false_ne_true] at hself hdequeues
      rw [leave, hd, if_neg Bool.false_ne_true, hdequeues, ← finish_setThread _ i (some c)]
      cases normally with
      | true | false => exact h.remove hself
  · exact h

section Wake
variable {key : ℕ} {n : ℤ} {bitset : BitVec 32}

omit [DecidableEq ι] in
theorem woken_perm : (s.woken hash key n bitset ++ s.kept hash key n bitset).Perm (s.futexes hash key) := by
  unfold woken kept
  split_ifs
  · rfl
  · exact wakeLoop_perm _

omit [DecidableEq ι] in
theorem kept_sublist : (s.kept hash key n bitset).Sublist (s.futexes hash key) := by
  unfold kept
  split_ifs
  · exact List.Sublist.refl _
  · exact wakeLoop_sublist _

theorem threads_wake (i : ι) : (s.wake hash key n bitset).2.threads i =
    if i ∈ (s.woken hash key n bitset).map FutexWaiter.thread then (s.threads i).map dequeue
    else s.threads i := rfl

theorem buckets_wake (b : ℕ) : (s.wake hash key n bitset).2.buckets b =
    if b = bucketOf hash key then s.kept hash key n bitset else s.buckets b := by
  simp [wake, dequeueAll, setBucket, Function.update_apply]

omit [DecidableEq ι] in
theorem mem_futexes_of_woken (hw : w ∈ s.woken hash key n bitset) :
    w ∈ s.futexes hash key := woken_perm.subset (mem_append_left _ hw)

theorem queuedAs_wake (i : ι) : (s.wake hash key n bitset).2.queuedAs i =
    if i ∈ (s.woken hash key n bitset).map FutexWaiter.thread then none else s.queuedAs i := by
  rw [queuedAs, threads_wake]
  split_ifs
  · cases s.threads i with
    | none => rfl
    | some c => simp [queued, dequeue]
  · rfl

variable (h : Core hash s)
include h

omit [DecidableEq ι] in
theorem Core.queuedAs_of_woken (hw : w ∈ s.woken hash key n bitset) :
    s.queuedAs w.thread = some w := ((h.queue _ w).1 (mem_futexes_of_woken hw)).1

omit [DecidableEq ι] in
theorem Core.mem_kept : w ∈ s.kept hash key n bitset ↔ w ∈ s.futexes hash key ∧ w ∉ s.woken hash key n bitset := by
  have hnodup : (s.futexes hash key).Nodup := (h.sorted _).imp fun hlt heq => by
    rw [heq] at hlt
    exact Nat.lt_irrefl _ hlt
  have hperm : (s.woken hash key n bitset ++ s.kept hash key n bitset).Perm (s.futexes hash key) := woken_perm
  have hdisjoint := disjoint_of_nodup_append (hperm.nodup_iff.2 hnodup)
  rw [← hperm.mem_iff, mem_append]
  exact ⟨fun hk => ⟨.inr hk, fun hw => hdisjoint hw hk⟩, fun ⟨hor, hnot⟩ => hor.resolve_left hnot⟩

omit [DecidableEq ι] in
theorem Core.thread_mem_woken {i : ι} : i ∈ (s.woken hash key n bitset).map FutexWaiter.thread ↔
    ∃ w ∈ s.woken hash key n bitset, s.queuedAs i = some w := by
  rw [mem_map]
  constructor
  · rintro ⟨w, hw, rfl⟩
    exact ⟨w, hw, h.queuedAs_of_woken hw⟩
  · rintro ⟨w, hw, hi⟩
    exact ⟨w, hw, queuedAs_thread hi⟩

theorem Core.wake : Core hash (s.wake hash key n bitset).2 where
  sorted b := by
    rw [buckets_wake]
    split_ifs
    · exact (h.sorted _).sublist kept_sublist
    · exact h.sorted b
  fresh b w hw := by
    rw [buckets_wake] at hw
    split_ifs at hw
    · exact h.fresh _ w (kept_sublist.subset hw)
    · exact h.fresh b w hw
  queue b w := by
    rw [buckets_wake, queuedAs_wake]
    have hmem : w ∈ (if b = bucketOf hash key then s.kept hash key n bitset else s.buckets b) ↔
        w ∈ s.buckets b ∧ w ∉ s.woken hash key n bitset := by
      split_ifs with hb
      · rw [hb]
        exact h.mem_kept
      · refine ⟨fun hw => ⟨hw, fun hwoken => hb ?_⟩, And.left⟩
        rw [((h.queue b w).1 hw).2, ((h.queue _ w).1 (mem_futexes_of_woken hwoken)).2]
    rw [hmem, h.queue]
    split_ifs with hi
    · obtain ⟨v, hv, hqueued⟩ := h.thread_mem_woken.1 hi
      simp only [false_and, iff_false, not_and, not_not]
      rintro ⟨hw, -⟩
      exact Option.some.inj (hqueued.symm.trans hw) ▸ hv
    · exact ⟨And.left, fun hw => ⟨hw, fun hwoken => hi (mem_map_of_mem hwoken)⟩⟩
  sound i c hc := by
    rw [threads_wake] at hc
    split_ifs at hc with hi
    · obtain ⟨c₀, hc₀, rfl⟩ := Option.map_eq_some_iff.1 hc
      obtain ⟨w, -, hw⟩ := h.thread_mem_woken.1 hi
      rw [queuedAs, hc₀, Option.bind_some] at hw
      split_ifs at hw with hqueued
      exact (h.sound i c₀ hc₀).dequeue hqueued
    · exact h.sound i c hc
  returns := h.returns

end Wake

def Waiting (s : FutexTable ι) : Prop :=
  ∀ i c, s.threads i = some c → ∀ normally, c.wait.place ≠ .through normally

structure Inv (hash : ℕ → ℕ) (s : FutexTable ι) : Prop extends Core hash s where
  waiting : s.Waiting

theorem Waiting.setThread (h : s.Waiting) {i : ι} {c : Option FutexCall}
    (hc : ∀ c' ∈ c, ∀ normally, c'.wait.place ≠ .through normally) : (s.setThread i c).Waiting := by
  intro j c' hc'
  by_cases hj : j = i
  · rw [hj, threads_setThread_self] at hc'
    exact hc c' hc'
  · rw [threads_setThread_ne hj] at hc'
    exact h j c' hc'

theorem Waiting.finish (h : s.Waiting) (i : ι) (answer : Status Unit) (dequeues : ℕ) :
    (s.finish i answer dequeues).Waiting := h.setThread nofun

theorem Waiting.settle (h : s.Waiting) (i : ι) (c : FutexCall) : (s.settle hash i c).Waiting := by
  have hleave : (s.leave hash i c).Waiting := by
    unfold leave
    split_ifs <;> exact h
  unfold FutexTable.settle
  split
  · exact hleave.finish i _ _
  rename_i hplace
  refine h.setThread ?_
  rintro c' ⟨⟩
  exact hplace

omit [DecidableEq ι] in
theorem queuedAs_of_idle {i : ι} (h : s.threads i = none) : s.queuedAs i = none := by
  rw [queuedAs, h]
  rfl

omit [DecidableEq ι] in
theorem queuedAs_of_entering {i : ι} {c : FutexCall} (h : s.threads i = some c)
    (hplace : c.wait.place = .entering) : s.queuedAs i = none := by
  rw [queuedAs, h, Option.bind_some, queued, hplace]
  rfl

namespace Inv
variable (h : Inv hash s)
include h

theorem wait {i : ι} (hidle : s.threads i = none) (key : ℕ) (val bitset : BitVec 32) (timeout : Bool) :
    Inv hash (s.wait i key val bitset timeout) := by
  unfold FutexTable.wait
  split_ifs
  · exact ⟨h.toCore.finish (queuedAs_of_idle hidle) (Nat.zero_le 1) (by simp), h.waiting.setThread nofun⟩
  refine ⟨h.toCore.setThread ?_ ?_, h.waiting.setThread ?_⟩
  · rintro c ⟨⟩
    exact ⟨sound_of_not_parked nofun, nofun, rfl⟩
  · rw [queuedAs_setThread_self, queuedAs_of_idle hidle]
    rfl
  · rintro c ⟨⟩
    exact nofun

theorem enter {i : ι} {c : FutexCall} (hc : s.threads i = some c) (hplace : c.wait.place = .entering)
    (signal : Bool) : Inv hash ((s.enqueue hash ⟨i, c.key, c.bitset, s.arrivals⟩).settle hash i
      { c with ticket := s.arrivals, wait := c.wait.pass c.dequeued signal }) := by
  obtain ⟨hnot, -⟩ := (h.sound i c hc).not_dequeued hplace
  have hpass := (h.sound i c hc).pass signal (.inl hplace)
  have hleft := pass_place_ne c.dequeued signal (.inl hplace)
  set c' : FutexCall := { c with ticket := s.arrivals, wait := c.wait.pass c.dequeued signal }
  have hqueued : c'.queued := by
    rw [queued, show c'.dequeued = false from hnot]
    simpa using hleft
  exact ⟨Core.settle (h.toCore.enqueue (queuedAs_of_entering hc hplace) hqueued
    { hpass with } rfl) hleft,
    Waiting.settle (s := s.enqueue hash (c'.waiter i)) h.waiting i c'⟩

theorem resume {i : ι} {c : FutexCall} (hc : s.threads i = some c) (hplace : c.wait.place = .woken) (signal : Bool) :
    Inv hash (s.settle hash i { c with wait := c.wait.pass c.dequeued signal }) := by
  have hleft := pass_place_ne c.dequeued signal (.inr hplace)
  refine ⟨Core.settle (h.toCore.setThread ?_ ?_) hleft, h.waiting.settle i _⟩
  · rintro c' ⟨⟩
    exact (h.sound i c hc).pass signal (.inr hplace)
  · rw [queuedAs_setThread_self, queuedAs, hc, Option.bind_some, Option.bind_some]
    simp [queued, waiter, hleft, hplace]

theorem turn {i : ι} {c : FutexCall} (hc : s.threads i = some c) (signal : Bool) :
    Inv hash (s.turn hash i c signal) := by
  cases hplace : c.wait.place with
  | entering =>
    simp only [FutexTable.turn, hplace]
    split_ifs
    · obtain ⟨-, hdequeues⟩ := (h.sound i c hc).not_dequeued hplace
      rw [hdequeues]
      exact ⟨h.toCore.finish (queuedAs_of_entering hc hplace) (Nat.zero_le 1) (by simp), h.waiting.finish i _ 0⟩
    · exact h.enter hc hplace signal
  | parked =>
    simp only [FutexTable.turn, hplace]
    exact h
  | woken =>
    simp only [FutexTable.turn, hplace]
    exact h.resume hc hplace signal
  | through normally => exact absurd hplace (h.waiting i c hc normally)

theorem rouse {i : ι} {c : FutexCall} (hc : s.threads i = some c)
    (ht : c.wait.Roused t) (hsound : t.Sound) : Inv hash (s.setThread i (some { c with wait := t })) := by
  refine ⟨h.toCore.setThread ?_ ?_, h.waiting.setThread ?_⟩
  · rintro c' ⟨⟩
    exact (h.sound i c hc).roused ht hsound
  · rw [queuedAs_setThread_self, queuedAs, hc, Option.bind_some, Option.bind_some, queued_roused ht]
    rfl
  rintro c' ⟨⟩ normally
  rcases ht.place with hplace | ⟨-, hplace⟩
  · exact hplace ▸ h.waiting i c hc normally
  · rw [hplace]
    exact nofun

theorem wake (key : ℕ) (n : ℤ) (bitset : BitVec 32) : Inv hash (s.wake hash key n bitset).2 := by
  refine ⟨h.toCore.wake, fun i c hc normally => ?_⟩
  rw [threads_wake] at hc
  split_ifs at hc
  · obtain ⟨c₀, hc₀, rfl⟩ := Option.map_eq_some_iff.1 hc
    rcases (roused_wake (t := c₀.wait)).place with hplace | ⟨-, hplace⟩
    · exact hplace ▸ h.waiting i c₀ hc₀ normally
    · exact fun habs => nomatch hplace.symm.trans habs
  · exact h.waiting i c hc normally

theorem step (tick : Tick ι) : Inv hash (s.step hash tick) := by
  cases tick with
  | wait i key val bitset timeout =>
    cases hc : s.threads i with
    | none =>
      simp only [FutexTable.step, hc]
      exact h.wait hc key val bitset timeout
    | some c =>
      simp only [FutexTable.step, hc]
      exact h
  | turn i signal =>
    cases hc : s.threads i with
    | none =>
      simp only [FutexTable.step, hc]
      exact h
    | some c =>
      simp only [FutexTable.step, hc]
      exact h.turn hc signal
  | timer i =>
    cases hc : s.threads i with
    | none =>
      simp only [FutexTable.step, hc]
      exact h
    | some c =>
      simp only [FutexTable.step, hc]
      exact h.rouse hc roused_fire (h.sound i c hc).wait.fire
  | signal i =>
    cases hc : s.threads i with
    | none =>
      simp only [FutexTable.step, hc]
      exact h
    | some c =>
      simp only [FutexTable.step, hc]
      exact h.rouse hc roused_ready (sound_of_not_parked ready_place_ne)
  | wake key n bitset => exact h.wake key n bitset
  | store key val => exact ⟨{ h with }, h.waiting⟩

end Inv

omit [DecidableEq ι] in
theorem inv_start (memory : ℕ → BitVec 32) : Inv hash (start memory : FutexTable ι) := by
  refine ⟨⟨fun _ => List.Pairwise.nil, nofun, fun b w => ?_, nofun, nofun⟩, nofun⟩
  exact ⟨nofun, nofun⟩

/-- A wake dequeues the first waiters that wait on its key with a common bit, answers with their number, makes them run
again and changes nothing else. -/
structure WakeExact (hash : ℕ → ℕ) (s : FutexTable ι) (key : ℕ) (n : ℤ) (bitset : BitVec 32) : Prop where
  count : ((s.wake hash key n bitset).1 : ℤ) =
    min n ((s.futexes hash key).filter (matched key bitset)).length
  dequeued : s.woken hash key n bitset = ((s.futexes hash key).filter (matched key bitset)).take n.toNat
  remaining : ((s.wake hash key n bitset).2.futexes hash key).filter (matched key bitset) =
    ((s.futexes hash key).filter (matched key bitset)).drop n.toNat
  others : ((s.wake hash key n bitset).2.futexes hash key).filter (!matched key bitset ·) =
    (s.futexes hash key).filter (!matched key bitset ·)
  buckets : ∀ b, b ≠ bucketOf hash key → (s.wake hash key n bitset).2.buckets b = s.buckets b
  released : ∀ w ∈ s.woken hash key n bitset, ∃ c, s.threads w.thread = some c ∧ w = c.waiter w.thread ∧
    (s.wake hash key n bitset).2.threads w.thread = some c.dequeue
  spared : ∀ i, i ∉ (s.woken hash key n bitset).map FutexWaiter.thread →
    (s.wake hash key n bitset).2.threads i = s.threads i

theorem Core.wakeExact (h : Core hash s) (key : ℕ) {n : ℤ} (hn : 0 < n) (bitset : BitVec 32) :
    WakeExact hash s key n bitset := by
  have hwoken : s.woken hash key n bitset = ((s.futexes hash key).filter (matched key bitset)).take n.toNat := by
    rw [woken, if_neg hn.ne', (wakeLoop_filter hn _).1, Int.sub_zero]
  have hkept := (wakeLoop_filter (p := matched key bitset) hn (s.futexes hash key)).2
  have hfutexes : (s.wake hash key n bitset).2.futexes hash key =
      (wakeLoop (matched key bitset) n 0 (s.futexes hash key)).2 := by
    rw [futexes, buckets_wake, if_pos rfl, kept, if_neg hn.ne']
  rw [Int.sub_zero] at hkept
  refine ⟨?_, hwoken, ?_, ?_, fun b hb => ?_, fun w hw => ?_, fun i hi => ?_⟩
  · change ((s.woken hash key n bitset).length : ℤ) = _
    rw [hwoken, length_take]
    omega
  · rw [hfutexes]
    exact hkept.1
  · rw [hfutexes]
    exact hkept.2
  · rw [buckets_wake, if_neg hb]
  · obtain ⟨c, hc, hsome⟩ := Option.bind_eq_some_iff.1 (h.queuedAs_of_woken hw)
    split_ifs at hsome
    refine ⟨c, hc, (Option.some.inj hsome).symm, ?_⟩
    rw [threads_wake, if_pos (mem_map_of_mem hw), hc]
    rfl
  · rw [threads_wake, if_neg hi]

/-- Wakes are exact and in the order of arrival, a wait has returned success if and only if one wake has dequeued it,
and a thread that has returned is on no list. -/
structure WaitsMatchWakes (hash : ℕ → ℕ) (s : FutexTable ι) : Prop where
  wake_exact : ∀ key n bitset, 0 < n → WakeExact hash s key n bitset
  arrival_order : ∀ b, (s.buckets b).Pairwise fun v w => v.ticket < w.ticket
  counted : ∀ i c bitset, s.threads i = some c → c.wait.place ≠ .entering → c.dequeued = false →
    c.bitset &&& bitset ≠ 0 → c.waiter i ∈ (s.futexes hash c.key).filter (matched c.key bitset)
  succeeds : ∀ i c signal, s.threads i = some c → c.dequeued = true →
    (s.turn hash i c signal).returns = s.returns ++ [⟨i, .ok (), 1⟩]
  returned : ∀ e ∈ s.returns, e.dequeues ≤ 1 ∧ (e.answer = .ok () ↔ e.dequeues = 1)
  left : ∀ i, s.threads i = none → ∀ b, ∀ w ∈ s.buckets b, w.thread ≠ i

theorem Inv.turn_of_dequeued (h : Inv hash s) {i : ι} {c : FutexCall} (hc : s.threads i = some c)
    (hd : c.dequeued) (signal : Bool) : (s.turn hash i c signal).returns = s.returns ++ [⟨i, .ok (), 1⟩] := by
  have hsound := h.sound i c hc
  obtain ⟨hentering, hparked, hwaker⟩ := hsound.released hd
  have hplace : c.wait.place = .woken := by
    cases hplace : c.wait.place with
    | entering => exact absurd hplace hentering
    | parked => exact absurd hplace hparked
    | woken => rfl
    | through normally => exact absurd hplace (h.waiting i c hc normally)
  have hdequeues : c.dequeues = 1 := by rw [hsound.dequeues, hd, if_pos rfl]
  simp only [FutexTable.turn, hplace, hd, pass_of_condition hplace hwaker, FutexTable.settle,
    waitAnswer, leave, if_true, finish, setThread, hdequeues]

theorem Inv.waitsMatchWakes (h : Inv hash s) : WaitsMatchWakes hash s where
  wake_exact key _ bitset hn := h.wakeExact key hn bitset
  arrival_order := h.sorted
  counted i c bitset hc hplace hd hbits := by
    have hqueued : s.queuedAs i = some (c.waiter i) := by
      rw [queuedAs, hc, Option.bind_some, if_pos (by simp [queued, hplace, hd])]
    refine mem_filter.2 ⟨(h.queue _ (c.waiter i)).2 ⟨hqueued, rfl⟩, ?_⟩
    simpa [matched, waiter] using hbits
  succeeds _ _ signal hc hd := h.turn_of_dequeued hc hd signal
  returned := h.returns
  left i hidle b w hw heq := by
    have hqueued := ((h.queue b w).1 hw).1
    rw [heq, queuedAs_of_idle hidle] at hqueued
    cases hqueued

/-- Waits and wakes match in every interleaving, for every number of threads, keys and bitsets. -/
theorem waits_match_wakes (hash : ℕ → ℕ) (memory : ℕ → BitVec 32) (ticks : List (Tick ι)) :
    WaitsMatchWakes hash (Run.exec (step hash) (start memory) ticks) := by
  have hstep : ∀ (s : FutexTable ι) tick, Inv hash s → Inv hash (s.step hash tick) := fun _ tick h => h.step tick
  exact (Run.invariant_run hstep (inv_start memory) ticks).waitsMatchWakes

end FutexTable
end Junction
