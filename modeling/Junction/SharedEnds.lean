import Junction.WaitableChannelWakeups

/-!
# Ends that several threads share

The operations of the channel are interleaved access by access here, and each end has any number of threads.
If the threads of an end make their operations one after the other, then the channel cannot tell them from a
single thread: every turn is a turn of a system of one reader and one writer, or leaves the channel alone.
Every operation that succeeded has been returned by a call, or is about to be. No end is closed.
-/

set_option linter.unusedSectionVars false

namespace Junction
open Function Interleaving List Bool

namespace Transfer
variable {α : Type} {resp : α → Type} {κ ρ ι β : Type}

abbrev Operation (α : Type) (resp : α → Type) (κ ρ : Type) := κ × Prog α resp (Status ρ)

def current : Option (Transfer α resp κ ρ) → Option (Operation α resp κ ρ)
  | some ⟨call, _, .inside p⟩ => some (call, p)
  | _ => none

def owed (i : ι) : Option (Transfer α resp κ ρ) → Option (TransferEntry ι κ ρ)
  | some ⟨call, _, .waking a⟩ => some ⟨i, call, .ok a⟩
  | _ => none

/-- The thread is not in the middle of anything that concerns the channel. -/
def apart (t : Transfer α resp κ ρ) : Bool := !t.inside && !t.waking

def begins : Option (Transfer α resp κ ρ) → Bool
  | none => true
  | some ⟨_, _, .attempt⟩ => true
  | some _ => false

/-- The operation whose next access the next turn of the thread makes. -/
def nextProg (code : κ → Prog α resp (Status ρ)) (call : κ) :
    Option (Transfer α resp κ ρ) → Option (Prog α resp (Status ρ))
  | none => some (code call)
  | some ⟨call, _, .attempt⟩ => some (code call)
  | some ⟨_, _, .inside p⟩ => some p
  | some _ => none

variable {t : Transfer α resp κ ρ}

theorem current_of_not_inside (h : t.inside = false) : current (some t) = none := by
  obtain ⟨call, nonblocking, place⟩ := t
  cases place with
  | inside p => cases h
  | _ => rfl

theorem owed_of_not_waking (i : ι) (h : t.waking = false) : owed i (some t) = none := by
  obtain ⟨call, nonblocking, place⟩ := t
  cases place with
  | waking a => cases h
  | _ => rfl

theorem current_ready (t : Option (Transfer α resp κ ρ)) : current (t.map ready) = current t := by
  rcases t with _ | ⟨call, nonblocking, place⟩
  · rfl
  · cases place <;> rfl

theorem owed_ready (i : ι) (t : Option (Transfer α resp κ ρ)) : owed i (t.map ready) = owed i t := by
  rcases t with _ | ⟨call, nonblocking, place⟩
  · rfl
  · cases place <;> rfl

theorem call_ready (t : Transfer α resp κ ρ) : t.ready.call = t.call := by
  obtain ⟨call, nonblocking, place⟩ := t
  cases place <;> rfl

theorem ready_ne_emptyTest (h : t.place ≠ .emptyTest) : t.ready.place ≠ .emptyTest := by
  obtain ⟨call, nonblocking, place⟩ := t
  cases place with
  | parked => nofun
  | _ => exact h

theorem current_of_apart (h : t.apart) : current (some t) = none := by
  rw [apart, and_eq_true, not_eq_true'] at h
  exact current_of_not_inside h.1

theorem waking_of_apart (h : t.apart) : t.waking = false := by
  rw [apart, and_eq_true, not_eq_true', not_eq_true'] at h
  exact h.2

theorem owed_of_apart (i : ι) (h : t.apart) : owed i (some t) = none := owed_of_not_waking i (waking_of_apart h)

theorem of_mem_apart {o : Option (Transfer α resp κ ρ)} (i : ι) (ht : t ∈ o) (h : t.apart) :
    current o = none ∧ owed i o = none := by
  obtain rfl := Option.mem_def.1 ht
  exact ⟨current_of_apart h, owed_of_apart i h⟩

section Threads
variable [DecidableEq ι] {threads : ι → Option (Transfer α resp κ ρ)} {i : ι}

theorem rouse_apply (threads : ι → Option (Transfer α resp κ ρ)) (ths : List ι) (j : ι) :
    rouse threads ths j = threads j ∨ rouse threads ths j = (threads j).map ready := by
  unfold rouse
  split_ifs
  · exact .inr rfl
  · exact .inl rfl

theorem current_rouse (ths : List ι) (j : ι) : current (rouse threads ths j) = current (threads j) := by
  rcases rouse_apply threads ths j with h | h
  · rw [h]
  · rw [h, current_ready]

theorem owed_rouse (ths : List ι) (j : ι) : owed j (rouse threads ths j) = owed j (threads j) := by
  rcases rouse_apply threads ths j with h | h
  · rw [h]
  · rw [h, owed_ready]

/-- The threads make one operation together: at most one thread is inside of one, and it is the given one. -/
def Serial (threads : ι → Option (Transfer α resp κ ρ)) : Option (Operation α resp κ ρ) → Prop
  | none => ∀ j, current (threads j) = none
  | some op => ∃ i, current (threads i) = some op ∧ ∀ j, j ≠ i → current (threads j) = none

variable {threads' : ι → Option (Transfer α resp κ ρ)} {op : Option (Operation α resp κ ρ)}

theorem Serial.congr
    (h : Serial threads op) (hsame : ∀ j, current (threads' j) = current (threads j)) : Serial threads' op := by
  cases op with
  | none => exact fun j => (hsame j).trans (h j)
  | some op =>
    obtain ⟨i, hi, hothers⟩ := h
    exact ⟨i, (hsame i).trans hi, fun j hj => (hsame j).trans (hothers j hj)⟩

variable {t' : Option (Transfer α resp κ ρ)}

theorem current_update (hi : current (threads i) = none)
    (ht' : current t' = none) (j : ι) : current (update threads i t' j) = current (threads j) := by
  by_cases hj : j = i
  · subst hj
    rw [update_self, hi, ht']
  · rw [update_of_ne hj]

theorem owed_update (h : owed i t' = owed i (threads i)) (j : ι) :
    owed j (update threads i t' j) = owed j (threads j) := by
  by_cases hj : j = i
  · subst hj
    rw [update_self, h]
  · rw [update_of_ne hj]

theorem serial_update (hothers : ∀ j, j ≠ i → current (threads j) = none) (ht' : current t' = op) :
    Serial (update threads i t') op := by
  have hj : ∀ j, j ≠ i → current (update threads i t' j) = none := by
    intro j hj
    rw [update_of_ne hj]
    exact hothers j hj
  cases op with
  | some op => exact ⟨i, by rw [update_self, ht'], hj⟩
  | none =>
    intro j
    by_cases hi : j = i
    · subst hi
      rw [update_self, ht']
    · exact hj j hi

theorem sum_map_concat {γ : Type} (f : γ → Multiset β) (l : List γ) (x : γ) :
    ((l ++ [x]).map f).sum = (l.map f).sum + f x := by
  rw [map_append, sum_append, map_singleton, sum_singleton]

/-- What the operations moved is what the calls that have returned moved, and those that are about to. -/
def Balanced (f : TransferEntry ι κ ρ → Multiset β) (threads : ι → Option (Transfer α resp κ ρ))
    (ops returned : List (TransferEntry ι κ ρ)) : Prop :=
  ∃ due : List (TransferEntry ι κ ρ), due.Nodup ∧
    (∀ e, e ∈ due ↔ owed e.thread (threads e.thread) = some e) ∧
    (ops.map f).sum = (returned.map f).sum + (due.map f).sum

namespace Balanced
variable {f : TransferEntry ι κ ρ → Multiset β} {ops returned : List (TransferEntry ι κ ρ)}
  (h : Balanced f threads ops returned)
include h

theorem congr {ops' returned' : List (TransferEntry ι κ ρ)}
    (hsame : ∀ j, owed j (threads' j) = owed j (threads j)) (hops : (ops'.map f).sum = (ops.map f).sum)
    (hreturned : (returned'.map f).sum = (returned.map f).sum) : Balanced f threads' ops' returned' := by
  obtain ⟨due, hnodup, hmem, hsum⟩ := h
  exact ⟨due, hnodup, fun e => by rw [hmem, hsame], by rw [hops, hsum, hreturned]⟩

variable {e : TransferEntry ι κ ρ}

theorem succeed {t' : Transfer α resp κ ρ} (hi : owed i (threads i) = none)
    (ht' : owed i (some t') = some e) (he : e.thread = i) :
    Balanced f (update threads i (some t')) (ops ++ [e]) returned := by
  obtain ⟨due, hnodup, hmem, hsum⟩ := h
  have hnot : ∀ x ∈ due, x.thread ≠ i := by
    intro x hx hxi
    have hx' := (hmem x).1 hx
    rw [hxi, hi] at hx'
    cases hx'
  refine ⟨e :: due, nodup_cons.2 ⟨fun hmem' => hnot e hmem' he, hnodup⟩, fun x => ?_, ?_⟩
  · by_cases hx : x.thread = i
    · rw [hx, update_self, ht', mem_cons]
      refine ⟨fun hx' => ?_, fun hx' => .inl (Option.some.inj hx').symm⟩
      rcases hx' with rfl | hx'
      · rfl
      · exact absurd hx (hnot x hx')
    rw [update_of_ne hx, ← hmem, mem_cons]
    refine ⟨fun hx' => hx'.resolve_left ?_, .inr⟩
    rintro rfl
    exact hx he
  · rw [sum_map_concat, hsum, map_cons, sum_cons, add_assoc, add_comm (f e)]

theorem giveBack (hi : owed i (threads i) = some e) (he : e.thread = i) :
    Balanced f (update threads i none) ops (returned ++ [e]) := by
  obtain ⟨due, hnodup, hmem, hsum⟩ := h
  obtain ⟨l₁, l₂, rfl⟩ := append_of_mem ((hmem e).2 (by rw [he, hi]))
  have hperm : (l₁ ++ e :: l₂).Perm (e :: (l₁ ++ l₂)) := perm_middle
  have hnodup' := hperm.nodup_iff.1 hnodup
  refine ⟨l₁ ++ l₂, (nodup_cons.1 hnodup').2, fun x => ?_, ?_⟩
  · have hx := (hperm.mem_iff).symm.trans (hmem x)
    rw [mem_cons] at hx
    by_cases hxi : x.thread = i
    · rw [hxi, update_self]
      refine ⟨fun hx' => ?_, nofun⟩
      have hxe := hx.1 (.inr hx')
      rw [hxi, hi] at hxe
      obtain rfl := Option.some.inj hxe
      exact absurd hx' (nodup_cons.1 hnodup').1
    rw [update_of_ne hxi, ← hx]
    refine ⟨.inr, fun hx' => hx'.resolve_left ?_⟩
    rintro rfl
    exact hxi he
  · rw [hsum, (hperm.map f).sum_eq, map_cons, sum_cons, sum_map_concat, add_assoc]

theorem returned_le : (returned.map f).sum ≤ (ops.map f).sum := by
  obtain ⟨due, -, -, hsum⟩ := h
  rw [hsum]
  exact Multiset.le_add_right _ _

/-- If no call is about to return, the calls have returned what the operations gave them. -/
theorem settled (hsettled : ∀ j, ∀ t ∈ threads j, t.waking = false) : (returned.map f).sum = (ops.map f).sum := by
  obtain ⟨due, -, hmem, hsum⟩ := h
  have hdue : due = [] := by
    refine eq_nil_iff_forall_not_mem.2 fun e he => ?_
    have howed := (hmem e).1 he
    cases ht : threads e.thread with
    | none =>
      rw [ht] at howed
      cases howed
    | some t =>
      rw [ht, owed_of_not_waking _ (hsettled _ t ht)] at howed
      cases howed
  rw [hsum, hdue, map_nil, sum_nil, add_zero]

end Balanced
end Threads
end Transfer

namespace WaitableChannel
open Transfer
variable {σ α : Type} {resp : α → Type} {κr ρ κw ι κ ω β γ : Type} [DecidableEq ι] [DecidableEq κ] [Wakeable ω κ]
  {C : ChannelType σ α resp κr ρ κw} {s : WaitableChannel σ α resp κr ρ κw ι κ ω}

structure Open (s : WaitableChannel σ α resp κr ρ κw ι κ ω) : Prop where
  reader : s.reader_closed_ = false
  writer : s.writer_closed_ = false
  testing : ∀ i, ∀ t ∈ s.readers i, t.place ≠ .emptyTest

/-- What the next access of a thread belongs to: an operation that begins, or the one that the thread is
inside of. -/
def Proceeds {κ' ρ' : Type} (code : κ' → Prog α resp (Status ρ')) (now : Option (Transfer α resp κ' ρ'))
    (call : κ') (p : Prog α resp (Status ρ')) : Prop :=
  begins now = true ∧ p = code call ∨ current now = some (call, p)

section Cases
variable {P : WaitableChannel σ α resp κr ρ κw ι κ ω → Prop} (hopen : Open s)
include hopen

theorem readWait_cases {i : ι} {t : Transfer α resp κr ρ} (resumed signal : Bool)
    (rest : ∀ t', t'.call = t.call → t'.apart → t'.place ≠ .emptyTest → ∀ w,
      P { s with readers := update s.readers i (some t'), read_waker_ := w }) (fail : ∀ e w, P { s with
      readers := update s.readers i none, read_waker_ := w,
      reads := s.reads ++ [⟨i, t.call, .error e⟩] }) : P (s.readWait C i t resumed signal) := by
  unfold readWait
  generalize waitInterruptible i resumed _ signal s.read_waker_ = r
  obtain ⟨outcome, w⟩ := r
  cases outcome with
  | park => exact rest (t.move .parked) rfl rfl nofun w
  | through normally =>
    dsimp only [finishRead, setReader]
    split_ifs with hclosed
    · rw [hopen.reader, hopen.writer] at hclosed
      cases hclosed
    · exact fail .EINTR w
    · exact rest (t.move .attempt) rfl rfl nofun w

theorem readTurn_open_cases {i : ι} (call : κr) (nonblocking signal : Bool) (stay : P s)
    (access : ∀ t p, nextProg C.read call (s.readers i) = some p → Proceeds C.read (s.readers i) t.call p →
      owed i (s.readers i) = none → t ∈ s.readers i ∨ t.call = call → P (s.readAccess C i t p))
    (rest : ∀ t ∈ s.readers i, t.apart → ∀ t', t'.call = t.call → t'.apart →
      t'.place ≠ .emptyTest → ∀ w,
      P { s with readers := update s.readers i (some t'), read_waker_ := w })
    (fail : ∀ t ∈ s.readers i, t.apart → ∀ e w, P { s with
      readers := update s.readers i none, read_waker_ := w,
      reads := s.reads ++ [⟨i, t.call, .error e⟩] })
    (wake : ∀ t ∈ s.readers i, ∀ a, t.place = .waking a → ∀ events w ths, P { s with
      readers := update s.readers i none, reads := s.reads ++ [⟨i, t.call, .ok a⟩],
      events := events, write_waker_ := w, writers := rouse s.writers ths }) :
    P (s.readTurn C i call nonblocking signal) := by
  unfold readTurn
  cases hi : s.readers i with
  | none =>
    rw [hi] at access
    exact access _ _ rfl (.inl ⟨rfl, rfl⟩) rfl (.inr rfl)
  | some t =>
    have htest := hopen.testing i t hi
    rw [hi] at access
    dsimp only [readOn]
    obtain ⟨call, nonblocking, place⟩ := t
    cases place with
    | attempt => exact access _ _ rfl (.inl ⟨rfl, rfl⟩) rfl (.inl rfl)
    | inside p => exact access ⟨call, nonblocking, .inside p⟩ p rfl (.inr rfl) rfl (.inl rfl)
    | closedTest =>
      rw [hopen.writer]
      exact fail _ hi rfl .EAGAIN s.read_waker_
    | emptyTest => exact absurd rfl htest
    | waiting =>
      dsimp only
      split_ifs
      · exact readWait_cases hopen false signal (rest _ hi rfl) (fail _ hi rfl)
      · exact stay
    | parked => exact stay
    | woken =>
      dsimp only
      split_ifs
      · exact readWait_cases hopen true signal (rest _ hi rfl) (fail _ hi rfl)
      · exact stay
    | waking a =>
      have hreturn := wake _ hi a rfl
      have hsame := fun events => hreturn events s.write_waker_ []
      dsimp only [readWake, finishRead, setReader, wakeWriters, setEvents, clearEventsIf]
      split_ifs
      · exact hsame _
      · exact hreturn _ _ _
      · exact hsame _
      · exact stay

variable {j : κ}

theorem writeWait_cases {u : Transfer α resp κw ℕ} (resumed signal : Bool)
    (rest : ∀ u', u'.call = u.call → u'.apart → ∀ w lock, P { s with
      writers := update s.writers j (some u'), write_waker_ := w, lock_ := lock }) (fail : ∀ e w, P { s with
      writers := update s.writers j none, write_waker_ := w, lock_ := none,
      writes := s.writes ++ [⟨j, u.call, .error e⟩] }) : P (s.writeWait C j u resumed signal) := by
  unfold writeWait
  generalize waitInterruptible j resumed _ signal s.write_waker_ = r
  obtain ⟨outcome, w⟩ := r
  cases outcome with
  | park => exact rest (u.move .parked) rfl rfl w none
  | through normally =>
    dsimp only [finishWrite, setWriter]
    split_ifs with hclosed
    · rw [hopen.reader, hopen.writer] at hclosed
      cases hclosed
    · exact fail .EINTR w
    · exact rest (u.move .attempt) rfl rfl w (C.hold j)

theorem writeTurn_open_cases (call : κw) (nonblocking signal : Bool) (stay : P s)
    (skip : C.skips call → P { s with writes := s.writes ++ [⟨j, call, .ok 0⟩] })
    (access : ∀ u p, nextProg C.write call (s.writers j) = some p → Proceeds C.write (s.writers j) u.call p →
      owed j (s.writers j) = none → u ∈ s.writers j ∨ u.call = call ∧ C.skips call = false → ∀ lock,
      P ({ s with lock_ := lock }.writeAccess C j u p))
    (rest : ∀ u ∈ s.writers j, u.apart → ∀ u', u'.call = u.call → u'.apart → ∀ w lock,
      P { s with
        writers := update s.writers j (some u'), write_waker_ := w, lock_ := lock })
    (fail : ∀ u ∈ s.writers j, u.apart → ∀ e w, P { s with
      writers := update s.writers j none, write_waker_ := w, lock_ := none,
      writes := s.writes ++ [⟨j, u.call, .error e⟩] })
    (wake : ∀ u ∈ s.writers j, ∀ n, u.place = .waking n → ∀ events w ths, P { s with
      writers := update s.writers j none, lock_ := none,
      writes := s.writes ++ [⟨j, u.call, .ok n⟩], events := events, read_waker_ := w,
      readers := rouse s.readers ths }) : P (s.writeTurn C j call nonblocking signal) := by
  unfold writeTurn
  cases hj : s.writers j with
  | none =>
    rw [hj] at access
    split_ifs with hskip
    · exact skip hskip
    · exact access ⟨call, nonblocking, .attempt⟩ _ rfl (.inl ⟨rfl, rfl⟩) rfl (.inr ⟨rfl, eq_false_iff.2 hskip⟩) _
    · exact stay
  | some u =>
    rw [hj] at access
    dsimp only [writeOn]
    obtain ⟨call, nonblocking, place⟩ := u
    cases place with
    | attempt => exact access _ _ rfl (.inl ⟨rfl, rfl⟩) rfl (.inl rfl) s.lock_
    | inside p => exact access ⟨call, nonblocking, .inside p⟩ p rfl (.inr rfl) rfl (.inl rfl) s.lock_
    | closedTest => exact fail _ hj rfl _ s.write_waker_
    | emptyTest | parked => exact stay
    | waiting => exact writeWait_cases hopen false signal (rest _ hj rfl) (fail _ hj rfl)
    | woken =>
      dsimp only
      split_ifs
      · exact writeWait_cases hopen true signal (rest _ hj rfl) (fail _ hj rfl)
      · exact stay
    | waking n =>
      have hreturn := wake _ hj n rfl
      have hsame := fun events => hreturn events s.read_waker_ []
      dsimp only [writeWake, finishWrite, setWriter, wakeReader, setEvents, clearEventsIf]
      split_ifs with hclosed
      · rw [hopen.reader] at hclosed
        cases hclosed
      · exact hreturn _ _ _
      · exact hsame _

end Cases
end WaitableChannel
end Junction
