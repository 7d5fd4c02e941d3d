import Junction.Library.Run

/-!
# Sets of signals

A set of signals is a word with bit `sig - 1` for signal `sig`, for the signals from 1 to 64.
-/

namespace Junction
open BitVec

abbrev SigSet := BitVec 64

def kNumSignals : ℕ := 64
def kNumStandardSignals : ℕ := 32

def SIGSEGV : ℕ := 11
def SIGUSR1 : ℕ := 10
def SIGUSR2 : ℕ := 12
def SIGKILL : ℕ := 9
def SIGCONT : ℕ := 18
def SIGSTOP : ℕ := 19

def SignalValid (sig : ℕ) : Prop := 0 < sig ∧ sig ≤ kNumSignals

instance (sig : ℕ) : Decidable (SignalValid sig) := inferInstanceAs (Decidable (_ ∧ _))

def signalMask (sig : ℕ) : SigSet := 1#64 <<< (sig - 1)

def signalInMask (mask : SigSet) (sig : ℕ) : Bool := mask &&& signalMask sig != 0

def multiSignalMask (sigs : List ℕ) : SigSet := sigs.foldl (fun mask a => mask ||| signalMask a) 0

def kSignalKernelOnlyMask : SigSet := multiSignalMask [SIGKILL, SIGSTOP]

variable {sig : ℕ}

theorem SignalValid.sub_one_lt (h : SignalValid sig) : sig - 1 < 64 := by
  obtain ⟨hpos, hle⟩ := h
  unfold kNumSignals at hle
  omega

theorem signalInMask_eq (mask : SigSet) (h : SignalValid sig) : signalInMask mask sig = mask.getLsbD (sig - 1) := by
  have htwo : signalMask sig = twoPow 64 (sig - 1) := (twoPow_eq 64 (sig - 1)).symm
  have hne : twoPow 64 (sig - 1) ≠ 0#64 := fun hzero => by
    have hbit : (twoPow 64 (sig - 1)).getLsbD (sig - 1) = (0#64).getLsbD (sig - 1) := by rw [hzero]
    simp [h.sub_one_lt] at hbit
  rw [signalInMask, htwo, and_twoPow]
  cases mask.getLsbD (sig - 1) with
  | false => rfl
  | true => simpa using hne

theorem signalInMask_signalMask {other : ℕ} (hs : SignalValid sig) (ho : SignalValid other) :
    signalInMask (signalMask sig) other = decide (other = sig) := by
  have hlt := ho.sub_one_lt
  rw [signalInMask_eq _ ho, signalMask, ← twoPow_eq, getLsbD_twoPow]
  obtain ⟨hs, -⟩ := hs
  obtain ⟨ho, -⟩ := ho
  by_cases heq : other = sig
  · subst heq
    simp [hlt]
  · have hne : sig - 1 ≠ other - 1 := by omega
    simp [heq, hne]

theorem signalInMask_or (a b : SigSet) (h : SignalValid sig) :
    signalInMask (a ||| b) sig = (signalInMask a sig || signalInMask b sig) := by
  rw [signalInMask_eq _ h, signalInMask_eq _ h, signalInMask_eq _ h, getLsbD_or]

theorem signalInMask_and (a b : SigSet) (h : SignalValid sig) :
    signalInMask (a &&& b) sig = (signalInMask a sig && signalInMask b sig) := by
  rw [signalInMask_eq _ h, signalInMask_eq _ h, signalInMask_eq _ h, getLsbD_and]

theorem signalInMask_not (a : SigSet) (h : SignalValid sig) : signalInMask (~~~a) sig = !signalInMask a sig := by
  rw [signalInMask_eq _ h, signalInMask_eq _ h, getLsbD_not]
  simp [h.sub_one_lt]

end Junction

/-!
### Queues

A queue holds the signals that have been sent and not been taken, and the set of their numbers.
-/

namespace Junction
open List

def kMaxQueuedRT : ℕ := 1024

/-- A `siginfo_t`: the number of the signal and the rest of the data. -/
structure SigInfo (α : Type*) where
  signo : ℕ
  data : α
deriving DecidableEq

structure SignalQueue (α : Type*) where
  pendingQ : List (SigInfo α) := []
  pending : SigSet := 0
deriving DecidableEq

namespace SignalQueue
variable {α : Type*}

variable (q : SignalQueue α)

def getPending (blocked : SigSet) : SigSet := q.pending &&& ~~~blocked

def isSigPending (signo : ℕ) : Bool := signalInMask (q.getPending 0) signo

/-- `__builtin_ffsl`: one more than the index of the lowest bit, or zero. -/
def ffsl (x : SigSet) : ℕ :=
  match (List.range 64).find? fun i => x.getLsbD i with
  | some i => i + 1
  | none => 0

/-- What the loop of `Pop` ends with: it has returned an entry, or it has left a list, the entry it took and
the number of entries it counted. -/
inductive Scan (α : Type*) where
  | returned (p : SigInfo α)
  | ended (rest : List (SigInfo α)) (si : Option (SigInfo α)) (signoCount : ℕ)

def Scan.keep (p : SigInfo α) : Scan α → Scan α
  | .returned r => .returned r
  | .ended rest si signoCount => .ended (p :: rest) si signoCount

/-- The loop of `Pop`. Once an entry has been taken, the next hit is the second one and ends the loop. -/
def scan (signo : ℕ) (remove : Bool) : List (SigInfo α) → Option (SigInfo α) → ℕ → Scan α
  | [], si, signoCount => .ended [] si signoCount
  | p :: q, si, signoCount =>
    if p.signo ≠ signo then (scan signo remove q si signoCount).keep p
    else
      match si with
      | none =>
        if !remove then .returned p
        else if p.signo < kNumStandardSignals then .ended q (some p) (signoCount + 1)
        else scan signo remove q (some p) (signoCount + 1)
      | some _ => .ended (p :: q) si (signoCount + 1)

def pop (q : SignalQueue α) (blocked : SigSet) (remove : Bool) : Option (SigInfo α) × SignalQueue α :=
  let signo := ffsl (q.pending &&& ~~~blocked)
  if signo = 0 then (none, q)
  else
    match scan signo remove q.pendingQ none 0 with
    | .returned p => (some p, q)
    | .ended rest none _ => (none, { q with pendingQ := rest })
    | .ended rest (some si) signoCount =>
      (some si,
        { pendingQ := rest
          pending := if signoCount = 1 then q.pending &&& ~~~signalMask signo else q.pending })

def enqueue (info : SigInfo α) : Bool × SignalQueue α :=
  let accepted := (true,
    { pendingQ := q.pendingQ ++ [info], pending := q.pending ||| signalMask info.signo })
  if info.signo < kNumStandardSignals then
    if q.isSigPending info.signo then (false, q) else accepted
  else if kMaxQueuedRT ≤ q.pendingQ.length then (false, q)
  else accepted

inductive Call (α : Type*) where
  | enqueue (info : SigInfo α)
  | pop (blocked : SigSet) (remove : Bool)

/-- A queue with the entries it has accepted and those that were taken from it, in order. -/
structure History (α : Type*) where
  queue : SignalQueue α := {}
  accepted : List (SigInfo α) := []
  popped : List (SigInfo α) := []

def History.step (s : History α) : Call α → History α
  | .enqueue info =>
    let (ok, queue) := s.queue.enqueue info
    { s with queue := queue, accepted := if ok then s.accepted ++ [info] else s.accepted }
  | .pop blocked remove =>
    let (si, queue) := s.queue.pop blocked remove
    { s with queue := queue, popped := if remove then s.popped ++ si.toList else s.popped }

/-- `Enqueue` is called with valid signals other than `SIGCONT`. -/
def Proper : Call α → Prop
  | .enqueue info => SignalValid info.signo ∧ info.signo ≠ SIGCONT
  | .pop _ _ => True

instance : (c : Call α) → Decidable (Proper c)
  | .enqueue _ => inferInstanceAs (Decidable (_ ∧ _))
  | .pop _ _ => .isTrue trivial

/-! ### The lowest signal of a set -/

theorem ffsl_eq_zero (x : SigSet) : ffsl x = 0 ↔ x = 0 := by
  unfold ffsl
  cases hfind : (range 64).find? fun i => x.getLsbD i with
  | none =>
    have hbits := find?_eq_none.mp hfind
    refine ⟨fun _ => BitVec.eq_of_getLsbD_eq fun i hi => ?_, fun _ => rfl⟩
    simpa using hbits i (mem_range.mpr hi)
  | some i =>
    have hbit := find?_some hfind
    refine ⟨fun h => absurd h (Nat.succ_ne_zero i), fun h => ?_⟩
    simp [h] at hbit

theorem ffsl_lowest {x : SigSet} (h : ffsl x ≠ 0) : SignalValid (ffsl x) ∧ signalInMask x (ffsl x) ∧
      ∀ sig, 0 < sig → sig < ffsl x → signalInMask x sig = false := by
  unfold ffsl at h ⊢
  cases hfind : (range 64).find? fun i => x.getLsbD i with
  | none =>
    rw [hfind] at h
    exact absurd rfl h
  | some i =>
    obtain ⟨hbit, hi, hlower⟩ := find?_range_eq_some.mp hfind
    have hvalid : SignalValid (i + 1) := ⟨Nat.succ_pos i, mem_range.mp hi⟩
    refine ⟨hvalid, by rwa [signalInMask_eq x hvalid], fun sig hpos hlt => ?_⟩
    have hlt : sig < i + 1 := hlt
    rw [signalInMask_eq x ⟨hpos, hlt.le.trans hvalid.2⟩]
    simpa using hlower (sig - 1) (by omega)

/-! ### The loop of `Pop` -/

variable (signo : ℕ)

theorem scan_some (remove : Bool) (q : List (SigInfo α)) (si : SigInfo α) (count : ℕ) :
    scan signo remove q (some si) count =
      .ended q (some si) (if q.any (·.signo = signo) then count + 1 else count) := by
  induction q with
  | nil => rfl
  | cons p q ih =>
    rw [scan]
    split_ifs with hp hany hany
    · rw [ih]
      simp_all [Scan.keep]
    · rw [ih]
      simp_all [Scan.keep]
    · rfl
    · simp_all

theorem scan_peek (q : List (SigInfo α)) : scan signo false q none 0 =
      match q.find? (·.signo = signo) with
      | some p => .returned p
      | none => .ended q none 0 := by
  induction q with
  | nil => rfl
  | cons p q ih =>
    rw [scan]
    by_cases hp : p.signo = signo
    · simp [hp]
    · rw [if_pos hp, ih, find?_cons_of_neg (by simpa using hp)]
      cases q.find? (·.signo = signo) <;> rfl

/-- With removal the loop takes the first entry with the number; its count tells whether there is another one,
unless the signal is a standard one. -/
theorem scan_remove (q : List (SigInfo α)) : scan signo true q none 0 =
      match q.find? (·.signo = signo) with
      | some p => .ended (q.eraseP (·.signo = signo)) (some p)
          (if kNumStandardSignals ≤ signo ∧ (q.eraseP (·.signo = signo)).any (·.signo = signo) then 2 else 1)
      | none => .ended q none 0 := by
  induction q with
  | nil => rfl
  | cons p q ih =>
    rw [scan]
    by_cases hp : p.signo = signo
    · have hfirst : (p :: q).eraseP (fun i => i.signo = signo) = q := by simp [hp]
      rw [if_neg (not_not.mpr hp), find?_cons_of_pos (by simpa using hp), hfirst]
      by_cases hstd : p.signo < kNumStandardSignals
      · have hnot : ¬ kNumStandardSignals ≤ signo := by omega
        simp [hstd, hnot]
      · have hrt : kNumStandardSignals ≤ signo := by omega
        simp [hstd, hrt, scan_some]
    have herase : (p :: q).eraseP (fun i => i.signo = signo) = p :: q.eraseP (·.signo = signo) := by
      simp [hp]
    rw [if_pos hp, ih, find?_cons_of_neg (by simpa using hp), herase]
    cases q.find? (·.signo = signo) with
    | none => rfl
    | some r => simp [Scan.keep, hp]

theorem length_pop (blocked : SigSet) :
    (q.pop blocked true).2.pendingQ.length + (q.pop blocked true).1.toList.length = q.pendingQ.length := by
  unfold pop
  by_cases hzero : ffsl (q.pending &&& ~~~blocked) = 0
  · simp [hzero]
  rw [if_neg hzero, scan_remove]
  cases hfind : q.pendingQ.find? (·.signo = ffsl (q.pending &&& ~~~blocked)) with
  | none => rfl
  | some p =>
    have hmem := mem_of_find?_eq_some hfind
    have hlen := length_eraseP_of_mem hmem (find?_some hfind)
    have hpos := length_pos_of_mem hmem
    dsimp only [Option.toList, length]
    omega

/-! ### Lists of entries by number -/

def numbered (l : List (SigInfo α)) (signo : ℕ) : List (SigInfo α) := l.filter (·.signo = signo)

theorem numbered_append (l m : List (SigInfo α)) (signo : ℕ) :
    numbered (l ++ m) signo = numbered l signo ++ numbered m signo := filter_append ..

theorem numbered_singleton (p : SigInfo α) (signo : ℕ) : numbered [p] signo = if p.signo = signo then [p] else [] := by
  by_cases hp : p.signo = signo <;> simp [numbered, hp]

theorem numbered_eq_cons {l : List (SigInfo α)} {signo : ℕ} {p : SigInfo α} (h : l.find? (·.signo = signo) = some p) :
    numbered l signo = p :: numbered (l.eraseP (·.signo = signo)) signo := by
  induction l with
  | nil => cases h
  | cons x l ih =>
    by_cases hx : x.signo = signo
    · have hxp : x = p := by simpa [hx] using h
      simp [numbered, hx, ← hxp]
    have htail : l.find? (·.signo = signo) = some p := by simpa [hx] using h
    have hrest := ih htail
    simpa [numbered, hx] using hrest

theorem numbered_eraseP_of_ne (l : List (SigInfo α)) {signo other : ℕ} (h : other ≠ signo) :
    numbered (l.eraseP (·.signo = signo)) other = numbered l other := by
  induction l with
  | nil => rfl
  | cons x l ih =>
    by_cases hx : x.signo = signo
    · have hother : x.signo ≠ other := fun h' => h (h'.symm.trans hx)
      simp [numbered, hx, h.symm]
    by_cases ho : x.signo = other
    · simpa [numbered, hx, ho, h] using ih
    · simpa [numbered, hx, ho] using ih

end SignalQueue
end Junction

/-! ### Runs

A standard signal is queued at most once, and for each number the accepted entries are those that were taken followed
by those still queued. -/

namespace Junction.SignalQueue
open List
variable {α : Type*}

structure Fits (q : SignalQueue α) : Prop where
  valid : ∀ i ∈ q.pendingQ, SignalValid i.signo
  pending : ∀ sig, SignalValid sig → (signalInMask q.pending sig = true ↔ numbered q.pendingQ sig ≠ [])
  once : ∀ sig, sig < kNumStandardSignals → (numbered q.pendingQ sig).length ≤ 1

theorem isSigPending_eq (q : SignalQueue α) (sig : ℕ) : q.isSigPending sig = signalInMask q.pending sig := by
  have hall : ~~~(0 : SigSet) = BitVec.allOnes 64 := rfl
  rw [isSigPending, getPending, hall, BitVec.and_allOnes]

theorem fits_empty : Fits ({} : SignalQueue α) where
  valid i hi := by simp at hi
  pending sig _ := by simp [signalInMask, numbered]
  once sig _ := Nat.zero_le 1

variable {q : SignalQueue α}

theorem Fits.append (h : Fits q) {info : SigInfo α} (hvalid : SignalValid info.signo)
    (hnew : info.signo < kNumStandardSignals → signalInMask q.pending info.signo = false) :
    Fits ⟨q.pendingQ ++ [info], q.pending ||| signalMask info.signo⟩ where
  valid i hi := by
    rcases mem_append.mp hi with hold | hlast
    · exact h.valid i hold
    · rw [mem_singleton.mp hlast]
      exact hvalid
  pending sig hsig := by
    rw [signalInMask_or _ _ hsig, signalInMask_signalMask hvalid hsig, Bool.or_eq_true, h.pending sig hsig,
      numbered_append, numbered_singleton, decide_eq_true_eq]
    rcases eq_or_ne sig info.signo with rfl | hne
    · simp
    · simp [hne, hne.symm]
  once sig hstd := by
    rw [numbered_append, numbered_singleton, length_append]
    split_ifs with heq
    · subst heq
      have hnil : numbered q.pendingQ info.signo = [] := by
        by_contra hne
        have htrue := (h.pending info.signo hvalid).mpr hne
        rw [hnew hstd] at htrue
        cases htrue
      rw [hnil]
      exact le_rfl
    · exact h.once sig hstd

theorem enqueue_cases (q : SignalQueue α) (info : SigInfo α) : (q.enqueue info = (false, q) ∧
      if info.signo < kNumStandardSignals then signalInMask q.pending info.signo = true
      else kMaxQueuedRT ≤ q.pendingQ.length) ∨
    (q.enqueue info = (true, ⟨q.pendingQ ++ [info], q.pending ||| signalMask info.signo⟩) ∧
      (info.signo < kNumStandardSignals → signalInMask q.pending info.signo = false)) := by
  unfold enqueue
  rw [isSigPending_eq]
  split_ifs with hstd hpending hfull
  · exact .inl ⟨rfl, hpending⟩
  · exact .inr ⟨rfl, fun _ => Bool.eq_false_iff.mpr hpending⟩
  · exact .inl ⟨rfl, hfull⟩
  · exact .inr ⟨rfl, fun h => absurd h hstd⟩

/-- The first entry with a number has been taken, and the bit is cleared if it was the last one. -/
def taken (q : SignalQueue α) (signo : ℕ) : SignalQueue α :=
  let rest := q.pendingQ.eraseP (·.signo = signo)
  ⟨rest, if numbered rest signo = [] then q.pending &&& ~~~signalMask signo else q.pending⟩

variable {signo : ℕ} {p : SigInfo α}

theorem Fits.taken (h : Fits q) (hvalid : SignalValid signo) (hp : q.pendingQ.find? (·.signo = signo) = some p) : Fits (q.taken signo) where
  valid i hi := h.valid i (mem_of_mem_eraseP hi)
  pending sig hsig := by
    have hold := h.pending sig hsig
    dsimp only [SignalQueue.taken]
    rcases eq_or_ne sig signo with rfl | hne
    · rw [numbered_eq_cons hp] at hold
      split_ifs with hlast
      · rw [signalInMask_and _ _ hsig, signalInMask_not _ hsig, signalInMask_signalMask hsig hsig]
        simp [hlast]
      · simp [hlast, hold.mpr (cons_ne_nil _ _)]
    rw [numbered_eraseP_of_ne _ hne, ← hold]
    split_ifs
    · rw [signalInMask_and _ _ hsig, signalInMask_not _ hsig, signalInMask_signalMask hvalid hsig]
      simp [hne]
    · rfl
  once sig hstd := by
    have hold := h.once sig hstd
    change (numbered (q.pendingQ.eraseP (·.signo = signo)) sig).length ≤ 1
    rcases eq_or_ne sig signo with rfl | hne
    · rw [numbered_eq_cons hp, length_cons] at hold
      omega
    · rwa [numbered_eraseP_of_ne _ hne]

theorem any_iff_numbered (l : List (SigInfo α)) (sig : ℕ) : l.any (·.signo = sig) = true ↔ numbered l sig ≠ [] := by
  simp [numbered, filter_eq_nil_iff]

theorem Fits.count_eq_one (h : Fits q) (hp : q.pendingQ.find? (·.signo = signo) = some p) :
    let rest := q.pendingQ.eraseP (·.signo = signo)
    (if kNumStandardSignals ≤ signo ∧ rest.any (·.signo = signo) then 2 else 1) = 1 ↔ numbered rest signo = [] := by
  intro rest
  by_cases hstd : signo < kNumStandardSignals
  · have honce := h.once signo hstd
    rw [numbered_eq_cons hp, length_cons] at honce
    have hnil : numbered rest signo = [] := length_eq_zero_iff.mp (Nat.le_zero.mp (Nat.le_of_succ_le_succ honce))
    simp [hnil, Nat.not_le.mpr hstd]
  have hrt : kNumStandardSignals ≤ signo := by omega
  simp only [any_iff_numbered]
  by_cases hnil : numbered rest signo = [] <;> simp [hrt, hnil]

theorem Fits.pop_cases (h : Fits q) (blocked : SigSet) (remove : Bool) :
    (q.pending &&& ~~~blocked = 0 ∧ q.pop blocked remove = (none, q)) ∨
    ∃ signo p, SignalValid signo ∧ q.pendingQ.find? (·.signo = signo) = some p ∧ p.signo = signo ∧
      signalInMask (q.pending &&& ~~~blocked) signo = true ∧
      (∀ sig, 0 < sig → sig < signo → signalInMask (q.pending &&& ~~~blocked) sig = false) ∧
      q.pop blocked remove = (some p, if remove then q.taken signo else q) := by
  unfold pop
  by_cases hzero : ffsl (q.pending &&& ~~~blocked) = 0
  · rw [if_pos hzero]
    exact .inl ⟨(ffsl_eq_zero _).mp hzero, rfl⟩
  rw [if_neg hzero]
  obtain ⟨hvalid, hin, hlowest⟩ := ffsl_lowest hzero
  generalize ffsl (q.pending &&& ~~~blocked) = signo at hvalid hin hlowest
  have hqueued : numbered q.pendingQ signo ≠ [] := by
    rw [← h.pending _ hvalid]
    exact ((Bool.and_eq_true _ _).mp ((signalInMask_and _ _ hvalid).symm.trans hin)).1
  obtain ⟨p, hp⟩ : ∃ p, q.pendingQ.find? (·.signo = signo) = some p := by
    cases hfind : q.pendingQ.find? (·.signo = signo) with
    | some p => exact ⟨p, rfl⟩
    | none => exact absurd (filter_eq_nil_iff.mpr (find?_eq_none.mp hfind)) hqueued
  have hpsigno : p.signo = signo := by simpa using find?_some hp
  refine .inr ⟨signo, p, hvalid, hp, hpsigno, hin, hlowest, ?_⟩
  cases remove with
  | false => rw [scan_peek, hp]; rfl
  | true =>
    rw [scan_remove, hp]
    simp only [h.count_eq_one hp, if_true]
    rfl

theorem Fits.pop_exact (h : Fits q) (blocked : SigSet) (remove : Bool) :
    ((q.pop blocked remove).1 = none ↔ q.pending &&& ~~~blocked = 0) ∧ (∀ info, (q.pop blocked remove).1 = some info →
      q.pendingQ.find? (·.signo = info.signo) = some info ∧
      signalInMask (q.pending &&& ~~~blocked) info.signo = true ∧
      ∀ sig, 0 < sig → sig < info.signo → signalInMask (q.pending &&& ~~~blocked) sig = false) ∧
    (remove = false → (q.pop blocked remove).2 = q) := by
  rcases h.pop_cases blocked remove with ⟨hzero, heq⟩ | ⟨signo, p, hvalid, hp, rfl, hin, hlowest, heq⟩
  · rw [heq]
    refine ⟨⟨fun _ => hzero, fun _ => rfl⟩, ?_, fun _ => rfl⟩
    intro info hinfo
    cases hinfo
  rw [heq]
  refine ⟨⟨?_, ?_⟩, ?_, ?_⟩
  · intro hnone
    cases hnone
  · intro hzero
    rw [hzero] at hin
    simp [signalInMask] at hin
  · intro info hinfo
    obtain rfl := Option.some.inj hinfo
    exact ⟨hp, hin, hlowest⟩
  · intro hpeek
    simp [hpeek]

/-- The state of a history: the queue fits, and nothing was lost, doubled or reordered. -/
structure Exact (s : History α) : Prop where
  fits : Fits s.queue
  conserved : ∀ sig, numbered s.accepted sig = numbered s.popped sig ++ numbered s.queue.pendingQ sig

theorem exact_start : Exact ({} : History α) := ⟨fits_empty, fun _ => rfl⟩

variable {s : History α}

theorem exact_enqueue (h : Exact s) (info : SigInfo α) (hvalid : SignalValid info.signo) :
    Exact (s.step (.enqueue info)) := by
  rcases enqueue_cases s.queue info with ⟨heq, -⟩ | ⟨heq, hnew⟩
  · simp only [History.step, heq]
    exact h
  simp only [History.step, heq]
  refine ⟨h.fits.append hvalid hnew, fun sig => ?_⟩
  rw [if_pos trivial, numbered_append, numbered_append, h.conserved, append_assoc]

theorem exact_pop (h : Exact s) (blocked : SigSet) (remove : Bool) : Exact (s.step (.pop blocked remove)) := by
  rcases h.fits.pop_cases blocked remove with ⟨-, heq⟩ | ⟨signo, p, hvalid, hp, hpsigno, -, -, heq⟩
  · simp only [History.step, heq]
    refine ⟨h.fits, fun sig => ?_⟩
    have hconserved := h.conserved sig
    cases remove with
    | false => exact hconserved
    | true => simpa using hconserved
  simp only [History.step, heq]
  cases remove with
  | false => exact h
  | true =>
    refine ⟨h.fits.taken hvalid hp, fun sig => ?_⟩
    change numbered s.accepted sig =
      numbered (s.popped ++ [p]) sig ++ numbered (s.queue.pendingQ.eraseP (·.signo = signo)) sig
    rw [h.conserved, numbered_append, numbered_singleton, append_assoc]
    rcases eq_or_ne sig signo with rfl | hne
    · rw [numbered_eq_cons hp, if_pos hpsigno]
      rfl
    · rw [if_neg (hpsigno ▸ hne.symm), numbered_eraseP_of_ne _ hne]
      rfl

theorem exact_step (h : Exact s) (c : Call α) (hc : Proper c) : Exact (s.step c) := by
  cases c with
  | enqueue info => exact exact_enqueue h info hc.1
  | pop blocked remove => exact exact_pop h blocked remove

/-- After any calls the pending set and the queue agree, for each number the accepted entries are popped in their order,
and a pop returns the oldest entry with the lowest deliverable number. -/
theorem signal_queue_exact (calls : List (Call α)) (hcalls : ∀ c ∈ calls, Proper c) :
    let s : History α := Run.exec History.step {} calls
    let q := s.queue
    (∀ sig, SignalValid sig → (q.pending.getLsbD (sig - 1) = true ↔ ∃ i ∈ q.pendingQ, i.signo = sig)) ∧
    (∀ sig < kNumStandardSignals, (q.pendingQ.filter (·.signo = sig)).length ≤ 1) ∧
    (∀ sig, s.accepted.filter (·.signo = sig) = s.popped.filter (·.signo = sig) ++ q.pendingQ.filter (·.signo = sig)) ∧
    (∀ info : SigInfo α, SignalValid info.signo → info.signo < kNumStandardSignals →
      ((q.enqueue info).1 = true ↔ q.isSigPending info.signo = false)) ∧
    (∀ info : SigInfo α, kNumStandardSignals ≤ info.signo → (q.enqueue info).1 = false →
      kMaxQueuedRT ≤ q.pendingQ.length) ∧
    ∀ blocked remove,
      ((q.pop blocked remove).1 = none ↔ q.pending &&& ~~~blocked = 0) ∧
      (∀ info, (q.pop blocked remove).1 = some info →
        q.pendingQ.find? (·.signo = info.signo) = some info ∧
        signalInMask (q.pending &&& ~~~blocked) info.signo = true ∧
        ∀ sig, 0 < sig → sig < info.signo → signalInMask (q.pending &&& ~~~blocked) sig = false) ∧
      (remove = false → (q.pop blocked remove).2 = q) := by
  intro s q
  have hadmitted : Run.Admitted History.step (fun _ c => Proper c) ({} : History α) calls :=
    Run.admitted_of_mem (fun c hc _ => hcalls c hc) _
  have hstep : ∀ (s : History α) c, Exact s → Proper c → Exact (s.step c) := fun s c h hc => exact_step h c hc
  have h : Exact s := Run.invariant_exec hstep exact_start hadmitted
  refine ⟨fun sig hsig => ?_, h.fits.once, h.conserved, fun info hvalid hstd => ?_, fun info hrt hno => ?_,
    h.fits.pop_exact⟩
  · rw [← signalInMask_eq _ hsig, h.fits.pending sig hsig, ← any_iff_numbered, any_eq_true]
    simp only [decide_eq_true_eq]
    exact Iff.rfl
  · rw [isSigPending_eq]
    rcases enqueue_cases q info with ⟨heq, hpending⟩ | ⟨heq, hnew⟩
    · rw [if_pos hstd] at hpending
      rw [heq, hpending]
      simp
    · rw [heq, hnew hstd]
      simp
  · rcases enqueue_cases q info with ⟨-, hfull⟩ | ⟨heq, -⟩
    · rwa [if_neg (Nat.not_lt.mpr hrt)] at hfull
    · rw [heq] at hno
      cases hno

/-- Standard and real-time signals, with signal 64 sent three times and signal 2 twice. -/
def mixedSignals : List (Call ℕ) :=
  [.enqueue ⟨64, 0⟩, .enqueue ⟨2, 1⟩, .enqueue ⟨64, 2⟩, .enqueue ⟨2, 3⟩, .pop 0 false, .pop (signalMask 2) true,
    .enqueue ⟨64, 4⟩, .pop 0 true, .pop 0 true]

theorem signal_queue_exact_mixedSignals :
    let s : History ℕ := Run.exec History.step {} mixedSignals
    s.accepted.filter (·.signo = 64) = s.popped.filter (·.signo = 64) ++ s.queue.pendingQ.filter (·.signo = 64) :=
  (signal_queue_exact mixedSignals (by decide)).2.2.1 64

example : (Run.exec History.step ({} : History ℕ) mixedSignals).popped = [⟨64, 0⟩, ⟨2, 1⟩, ⟨64, 2⟩] ∧
    (Run.exec History.step ({} : History ℕ) mixedSignals).queue = ⟨[⟨64, 4⟩], signalMask 64⟩ := by
  decide

end Junction.SignalQueue
