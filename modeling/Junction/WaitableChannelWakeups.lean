import Junction.WaitableChannel

/-!
# No wakeup is lost

The operations of the channel are single steps here. Whoever is parked is armed in the waker of its end, and
has a reason to be parked: no end is closed, and either the channel is as it was when the thread parked, or a
thread of the other end has just changed it and has not taken the lock to wake the others yet. For this a
poll source has to be attached to the end, since the wakes depend on it.
-/

set_option linter.unusedSectionVars false

namespace Junction
open Interleaving Function

namespace Transfer
variable {α : Type} {resp : α → Type} {κ ρ ι ω : Type}

def waits (t : Transfer α resp κ ρ) : Bool :=
  match t.place with
  | .waiting => true
  | .woken => true
  | _ => false

@[simp] theorem parked_ready (t : Transfer α resp κ ρ) : t.ready.parked = false := by
  obtain ⟨call, nonblocking, place⟩ := t
  cases place <;> rfl

@[simp] theorem waking_ready (t : Transfer α resp κ ρ) : t.ready.waking = t.waking := by
  obtain ⟨call, nonblocking, place⟩ := t
  cases place <;> rfl

@[simp] theorem inside_ready (t : Transfer α resp κ ρ) : t.ready.inside = t.inside := by
  obtain ⟨call, nonblocking, place⟩ := t
  cases place <;> rfl

theorem forall_mem_none {P : Transfer α resp κ ρ → Prop} : ∀ t ∈ (none : Option (Transfer α resp κ ρ)), P t := nofun

theorem forall_mem_some {P : Transfer α resp κ ρ → Prop} {t : Transfer α resp κ ρ} (ht : P t) : ∀ u ∈ some t, P u := by
  intro u hu
  obtain rfl := Option.some.inj hu
  exact ht

section Threads
variable [DecidableEq ι] {threads : ι → Option (Transfer α resp κ ρ)} {i : ι}
  {t' : Option (Transfer α resp κ ρ)}

theorem forall_update {P : ι → Transfer α resp κ ρ → Prop} (h : ∀ j, j ≠ i → ∀ t ∈ threads j, P j t)
    (ht' : ∀ t ∈ t', P i t) : ∀ j, ∀ t ∈ update threads i t' j, P j t := by
  intro j t ht
  by_cases hj : j = i
  · subst hj
    rw [update_self] at ht
    exact ht' t ht
  · rw [update_of_ne hj] at ht
    exact h j hj t ht

theorem forall_rouse {P : ι → Transfer α resp κ ρ → Prop} {ths : List ι}
    (h : ∀ j, ∀ t ∈ threads j, (j ∉ ths → P j t) ∧ P j t.ready) :
    ∀ j, ∀ t ∈ rouse threads ths j, P j t := by
  intro j t ht
  unfold rouse at ht
  split_ifs at ht with hj
  · obtain ⟨u, hu, rfl⟩ := Option.mem_map.1 ht
    exact (h j u hu).2
  · exact (h j t ht).1 hj

def Owes (threads : ι → Option (Transfer α resp κ ρ)) : Prop := ∃ i, ∃ t ∈ threads i, t.waking = true

theorem Owes.update (h : Owes threads) (hnot : ∀ t ∈ threads i, t.waking = false) : Owes (update threads i t') := by
  obtain ⟨j, t, ht, hwaking⟩ := h
  have hj : j ≠ i := by
    rintro rfl
    rw [hnot t ht] at hwaking
    cases hwaking
  exact ⟨j, t, by rwa [update_of_ne hj], hwaking⟩

theorem owes_update (ht : ∃ t ∈ t', t.waking) : Owes (update threads i t') := by
  obtain ⟨t, ht, hwaking⟩ := ht
  exact ⟨i, t, by rwa [update_self], hwaking⟩

theorem Owes.rouse (h : Owes threads) (ths : List ι) : Owes (Transfer.rouse threads ths) := by
  obtain ⟨j, t, ht, hwaking⟩ := h
  by_cases hj : j ∈ ths
  · refine ⟨j, t.ready, ?_, by rwa [waking_ready]⟩
    rw [Transfer.rouse, if_pos hj]
    exact Option.mem_map_of_mem ready ht
  · exact ⟨j, t, by rwa [Transfer.rouse, if_neg hj], hwaking⟩

variable [Wakeable ω ι] [LawfulWakeable ω] {w w' : ω} {B B' : Prop}

def Waits (threads : ι → Option (Transfer α resp κ ρ)) (w : ω) (B : Prop) : Prop :=
  ∀ i, ∀ t ∈ threads i, t.parked = true → LawfulWakeable.Armed i w ∧ B

omit [DecidableEq ι] in
theorem Waits.imp (h : Waits threads w B) (hB : B → B') : Waits threads w B' :=
  fun i t ht hparked => (h i t ht hparked).imp_right hB

theorem Waits.update (h : Waits threads w B) (hw : ∀ j, j ≠ i → LawfulWakeable.Armed j w →
    LawfulWakeable.Armed j w') (ht' : ∀ t ∈ t', t.parked = false) : Waits (update threads i t') w' B := by
  refine forall_update (fun j hj t ht hparked => ?_) fun t ht hparked => ?_
  · exact (h j t ht hparked).imp_left (hw j hj)
  · rw [ht' t ht] at hparked
    cases hparked

theorem Waits.park (h : Waits threads w B) (hw : ∀ j, j ≠ i → LawfulWakeable.Armed j w →
    LawfulWakeable.Armed j w') (harmed : LawfulWakeable.Armed i w') (hB : B) :
    Waits (Function.update threads i t') w' B :=
  forall_update (fun j hj t ht hparked => (h j t ht hparked).imp_left (hw j hj)) fun _ _ _ => ⟨harmed, hB⟩

theorem Waits.rouse (h : Waits threads w B) (ths : List ι) : Waits (Transfer.rouse threads ths) w B :=
  forall_rouse fun j t ht => ⟨fun _ => h j t ht, fun hparked => by rw [parked_ready] at hparked; cases hparked⟩

theorem Waits.wakeAll (h : Waits threads w B) :
    Waits (Transfer.rouse threads (Wakeable.wakeAll w).1) (Wakeable.wakeAll w).2 B' := by
  refine forall_rouse fun j t ht => ⟨fun hj hparked => ?_, fun hparked => ?_⟩
  · exact absurd (LawfulWakeable.mem_wakeAll j w (h j t ht hparked).1) hj
  · rw [parked_ready] at hparked
    cases hparked

end Threads
end Transfer

namespace ChannelType
variable {σ α : Type} {resp : α → Type} {κr ρ κw : Type}

/-- What the wakes rely on: an operation that fails leaves the channel as full, or as empty, as it was; a
read of an empty channel leaves it empty, and a write to a full one leaves it full. -/
structure Orderly (C : ChannelType σ α resp κr ρ κw) (Good : σ → Prop) : Prop where
  good_read : ∀ call s, Good s → Good ((C.read call).run C.exec s).2
  good_write : ∀ call s, Good s → Good ((C.write call).run C.exec s).2
  read_empty : ∀ call s, Good s → C.isEmpty s = true → C.isEmpty ((C.read call).run C.exec s).2 = true
  write_full : ∀ call s, Good s → C.isFull s = true → C.isFull ((C.write call).run C.exec s).2 = true
  read_error : ∀ call s e, Good s → ((C.read call).run C.exec s).1 = .error e → C.isFull s = true →
    C.isFull ((C.read call).run C.exec s).2 = true
  write_error : ∀ call s e, Good s → ((C.write call).run C.exec s).1 = .error e → C.isEmpty s = true →
    C.isEmpty ((C.write call).run C.exec s).2 = true

theorem attach_ne_nil (C : ChannelType σ α resp κr ρ κw) (ps : List ℕ) (p : ℕ) : C.attach ps p ≠ [] := by
  unfold attach
  split_ifs
  · exact List.append_ne_nil_of_right_ne_nil ps (List.cons_ne_nil p [])
  · exact List.cons_ne_nil p []

end ChannelType

namespace WaitableChannel
open Transfer
variable {σ α : Type} {resp : α → Type} {κr ρ κw ι κ ω : Type}

abbrev Stepwise (σ κr ρ κw ι κ ω : Type) :=
  WaitableChannel σ (κr ⊕ κw) (Sum.elim (fun _ => Status ρ) fun _ => Status ℕ) κr ρ κw ι κ ω

structure WriteBlocked (C : ChannelType σ α resp κr ρ κw) (s : Stepwise σ κr ρ κw ι κ ω) : Prop where
  attached : s.write_poll_ ≠ []
  reader : s.reader_closed_ = false
  writer : s.writer_closed_ = false
  cause : C.isFull s.chan_ = true ∨ Owes s.readers

structure ReadBlocked (C : ChannelType σ α resp κr ρ κw) (s : Stepwise σ κr ρ κw ι κ ω) : Prop where
  attached : s.read_poll_.isSome = true
  reader : s.reader_closed_ = false
  writer : s.writer_closed_ = false
  cause : C.isEmpty s.chan_ = true ∨ Owes s.writers

structure Whole (Good : σ → Prop) (s : Stepwise σ κr ρ κw ι κ ω) : Prop where
  good : Good s.chan_
  readers : ∀ i, ∀ t ∈ s.readers i, t.inside = false
  writers : ∀ j, ∀ t ∈ s.writers j, t.inside = false

variable [DecidableEq ι] [DecidableEq κ] [Wakeable ω κ] {C : ChannelType σ α resp κr ρ κw} {Good : σ → Prop}
  {s : Stepwise σ κr ρ κw ι κ ω}

/-- The operation of the channel that the next turn of a reader makes, if it makes one. -/
def nextRead (s : Stepwise σ κr ρ κw ι κ ω) (i : ι) (call : κr) : Option κr :=
  match s.readers i with
  | none => some call
  | some ⟨call, _, .attempt⟩ => some call
  | some _ => none

/-- Where a thread goes when the operation of the channel has ended. -/
def ended {α' κ' ρ' : Type} {resp' : α' → Type} (t : Transfer α' resp' κ' ρ') :
    Status ρ' → TransferPlace α' resp' ρ'
  | .ok a => .waking a
  | .error _ => if t.nonblocking then .closedTest else .waiting

theorem readAccess_atomic {i : ι} (t : Transfer (κr ⊕ κw) _ κr ρ) (call : κr) :
    s.readAccess C.atomic i t (C.atomic.read call) =
      ({ s with chan_ := ((C.read call).run C.exec s.chan_).2 }.noteRead i t.call
        ((C.read call).run C.exec s.chan_).1).setReader i
          (some (t.move (ended t ((C.read call).run C.exec s.chan_).1))) := by
  change readReached _ i t (.done ((C.read call).run C.exec s.chan_).1) = _
  cases ((C.read call).run C.exec s.chan_).1 with
  | ok | error => rfl

variable {j : κ}

theorem writeAccess_atomic (t : Transfer (κr ⊕ κw) _ κw ℕ) (call : κw) :
    s.writeAccess C.atomic j t (C.atomic.write call) =
      ({ s with chan_ := ((C.write call).run C.exec s.chan_).2 }.noteWrite j t.call
        ((C.write call).run C.exec s.chan_).1).setWriter j
          (some (t.move (ended t ((C.write call).run C.exec s.chan_).1))) := by
  change writeReached _ j t (.done ((C.write call).run C.exec s.chan_).1) = _
  cases ((C.write call).run C.exec s.chan_).1 with
  | ok | error => rfl

theorem readWait_moves {i : ι} (t : Transfer (κr ⊕ κw) _ κr ρ) (resumed signal : Bool) : ∃ w t' reads,
    s.readWait C.atomic i t resumed signal =
        { s with read_waker_ := w, readers := update s.readers i t', reads := reads } ∧
      ∀ u ∈ t', u = t.move .attempt ∨ u = t.move .parked := by
  unfold readWait
  generalize waitInterruptible i resumed _ signal s.read_waker_ = r
  obtain ⟨outcome, w⟩ := r
  cases outcome with
  | park => exact ⟨w, _, _, rfl, forall_mem_some (.inr rfl)⟩
  | through normally =>
    dsimp only
    split_ifs
    · exact ⟨w, _, _, rfl, forall_mem_none⟩
    · exact ⟨w, _, _, rfl, forall_mem_none⟩
    · exact ⟨w, _, _, rfl, forall_mem_some (.inl rfl)⟩

theorem writeWait_moves (u : Transfer (κr ⊕ κw) _ κw ℕ) (resumed signal : Bool) : ∃ w u' lock writes,
    s.writeWait C.atomic j u resumed signal =
        { s with write_waker_ := w, writers := update s.writers j u', lock_ := lock, writes := writes } ∧
      ∀ v ∈ u', v = u.move .attempt ∨ v = u.move .parked := by
  unfold writeWait
  generalize waitInterruptible j resumed _ signal s.write_waker_ = r
  obtain ⟨outcome, w⟩ := r
  cases outcome with
  | park => exact ⟨w, _, _, _, rfl, forall_mem_some (.inr rfl)⟩
  | through normally =>
    dsimp only
    split_ifs
    · exact ⟨w, _, _, _, rfl, forall_mem_none⟩
    · exact ⟨w, _, _, _, rfl, forall_mem_none⟩
    · exact ⟨w, _, _, _, rfl, forall_mem_some (.inl rfl)⟩

theorem readWake_moves {i : ι} (t : Transfer (κr ⊕ κw) _ κr ρ) (a : ρ) : ∃ events w writers reads,
    s.readWake C.atomic i t a =
        { s with
          events := events, write_waker_ := w, writers := writers, readers := update s.readers i none,
          reads := reads } ∧
      (writers = s.writers ∨ ∃ ths, writers = rouse s.writers ths) := by
  dsimp only [readWake, finishRead, setReader, wakeWriters, setEvents, clearEventsIf]
  split_ifs
  · exact ⟨_, _, _, _, rfl, .inl rfl⟩
  · exact ⟨_, _, _, _, rfl, .inr ⟨_, rfl⟩⟩
  · exact ⟨_, _, _, _, rfl, .inl rfl⟩

theorem writeWake_moves (u : Transfer (κr ⊕ κw) _ κw ℕ) (n : ℕ) : ∃ events w readers writes,
    s.writeWake C.atomic j u n =
        { s with
          events := events, read_waker_ := w, readers := readers, writers := update s.writers j none,
          lock_ := none, writes := writes } ∧
      (readers = s.readers ∨ ∃ ths, readers = rouse s.readers ths) := by
  dsimp only [writeWake, finishWrite, setWriter, wakeReader, setEvents, clearEventsIf]
  split_ifs
  · exact ⟨_, _, _, _, rfl, .inl rfl⟩
  · exact ⟨_, _, _, _, rfl, .inr ⟨_, rfl⟩⟩
  · exact ⟨_, _, _, _, rfl, .inl rfl⟩

variable {α' κ' ρ' : Type} {resp' : α' → Type}

theorem waking_ended_error (t : Transfer α' resp' κ' ρ') (e : Error) :
    (t.move (ended t (.error e))).waking = false ∧ (t.move (ended t (.error e))).parked = false := by
  cases hblock : t.nonblocking with
  | true | false => simp [ended, hblock, move, waking, parked]

theorem parked_ended (t : Transfer α' resp' κ' ρ') (answer : Status ρ') : (t.move (ended t answer)).parked = false := by
  cases answer with
  | ok a => rfl
  | error e => exact (waking_ended_error t e).2

section Cases
variable {P : Stepwise σ κr ρ κw ι κ ω → Prop} (hs : Whole Good s)
include hs

theorem readTurn_cases {i : ι} (call : κr) (nonblocking signal : Bool) (stay : P s)
    (access : (∀ t ∈ s.readers i, t.waking = false) → ∀ t, t ∈ s.readers i ∨ t.call = call →
      s.nextRead i call = some t.call → P (s.readAccess C.atomic i t (C.atomic.read t.call)))
    (test : (∀ t ∈ s.readers i, t.waking = false) → ∀ t ∈ s.readers i, s.writer_closed_ →
      P (s.setReader i (some (t.move .emptyTest))))
    (tested : (∀ t ∈ s.readers i, t.waking = false) → ∀ t ∈ s.readers i, ∀ answer, answer = .error .EAGAIN ∨
      t.place = .emptyTest ∧ C.isEmpty s.chan_ ∧ answer = .ok C.eof → P (s.finishRead i t.call answer))
    (wait : (∀ t ∈ s.readers i, t.waking = false) → ∀ t ∈ s.readers i, ∀ resumed,
      P (s.readWait C.atomic i t resumed signal))
    (wake : ∀ t ∈ s.readers i, ∀ a, t.place = .waking a → P (s.readWake C.atomic i t a)) :
    P (s.readTurn C.atomic i call nonblocking signal) := by
  unfold WaitableChannel.readTurn
  cases hi : s.readers i with
  | none => exact access (by rw [hi]; exact forall_mem_none) _ (.inr rfl) (by rw [nextRead, hi])
  | some t =>
    have hinside := hs.readers i t hi
    have hnot : t.waking = false → ∀ u ∈ s.readers i, u.waking = false := by
      intro hwaking
      rw [hi]
      exact forall_mem_some hwaking
    dsimp only [readOn]
    obtain ⟨call, nonblocking, place⟩ := t
    cases place with
    | attempt => exact access (hnot rfl) _ (.inl hi) (by rw [nextRead, hi])
    | inside p => cases hinside
    | closedTest =>
      dsimp only
      split_ifs with hclosed
      · exact test (hnot rfl) _ hi hclosed
      · exact tested (hnot rfl) _ hi _ (.inl rfl)
    | emptyTest =>
      dsimp only
      split_ifs with hempty
      · exact tested (hnot rfl) _ hi _ (.inr ⟨rfl, hempty, rfl⟩)
      · exact tested (hnot rfl) _ hi _ (.inl rfl)
    | waiting =>
      dsimp only
      split_ifs
      · exact wait (hnot rfl) _ hi false
      · exact stay
    | parked => exact stay
    | woken =>
      dsimp only
      split_ifs
      · exact wait (hnot rfl) _ hi true
      · exact stay
    | waking a =>
      dsimp only
      split_ifs
      · exact wake _ hi a rfl
      · exact stay

theorem writeTurn_cases (call : κw) (nonblocking signal : Bool) (stay : P s)
    (skip : ∀ writes, P { s with writes := writes }) (access : (∀ u ∈ s.writers j, u.waking = false) → ∀ u lock,
      P ({ s with lock_ := lock }.writeAccess C.atomic j u (C.atomic.write u.call)))
    (fail : (∀ u ∈ s.writers j, u.waking = false) → ∀ u answer, P (s.finishWrite j u answer))
    (wait : (∀ u ∈ s.writers j, u.waking = false) → ∀ u ∈ s.writers j, u.waits → ∀ resumed,
      P (s.writeWait C.atomic j u resumed signal)) (wake : ∀ u n, P (s.writeWake C.atomic j u n)) :
    P (s.writeTurn C.atomic j call nonblocking signal) := by
  unfold WaitableChannel.writeTurn
  cases hj : s.writers j with
  | none =>
    split_ifs
    · exact skip _
    · exact access (by rw [hj]; exact forall_mem_none) ⟨call, nonblocking, .attempt⟩ _
    · exact stay
  | some u =>
    have hinside := hs.writers j u hj
    have hnot : u.waking = false → ∀ v ∈ s.writers j, v.waking = false := by
      intro hwaking
      rw [hj]
      exact forall_mem_some hwaking
    dsimp only [writeOn]
    obtain ⟨call, nonblocking, place⟩ := u
    cases place with
    | attempt => exact access (hnot rfl) ⟨call, nonblocking, .attempt⟩ s.lock_
    | inside p => cases hinside
    | closedTest => exact fail (hnot rfl) _ _
    | emptyTest | parked => exact stay
    | waiting => exact wait (hnot rfl) _ hj rfl false
    | woken =>
      dsimp only
      split_ifs
      · exact wait (hnot rfl) _ hj rfl true
      · exact stay
    | waking n => exact wake _ n

theorem readTurn_moves {i : ι} (call : κr) (nonblocking signal : Bool) (stay : P s)
    (access : ∀ t, t ∈ s.readers i ∨ t.call = call → P (s.readAccess C.atomic i t (C.atomic.read t.call)))
    (move : (∀ t ∈ s.readers i, t.waking = false) → ∀ t ∈ s.readers i, ∀ w t' reads,
      (∀ u ∈ t', ∃ place, u = t.move place ∧
        (place = .attempt ∨ place = .parked ∨ place = .emptyTest ∧ s.writer_closed_)) →
      P { s with read_waker_ := w, readers := update s.readers i t', reads := reads })
    (wake : ∀ events w writers reads, (writers = s.writers ∨ ∃ ths, writers = rouse s.writers ths) →
      P { s with
        events := events, write_waker_ := w, writers := writers, readers := update s.readers i none,
        reads := reads }) : P (s.readTurn C.atomic i call nonblocking signal) := by
  refine readTurn_cases hs call nonblocking signal stay (fun _ t ht _ => access t ht) (fun hnot t ht hclosed => ?_)
    (fun hnot t ht _ _ => move hnot t ht _ none _ forall_mem_none) (fun hnot t ht resumed => ?_) fun t ht a _ => ?_
  · exact move hnot t ht _ _ _ (forall_mem_some ⟨_, rfl, .inr (.inr ⟨rfl, hclosed⟩)⟩)
  · obtain ⟨w, t', reads, heq, ht'⟩ := readWait_moves (s := s) t resumed signal
    rw [heq]
    refine move hnot t ht w t' reads fun u hu => ?_
    rcases ht' u hu with rfl | rfl
    · exact ⟨_, rfl, .inl rfl⟩
    · exact ⟨_, rfl, .inr (.inl rfl)⟩
  · obtain ⟨events, w, writers, reads, heq, hwriters⟩ := readWake_moves (s := s) t a
    rw [heq]
    exact wake events w writers reads hwriters

theorem writeTurn_moves (call : κw) (nonblocking signal : Bool) (stay : ∀ writes, P { s with writes := writes })
    (access : ∀ u lock, P ({ s with lock_ := lock }.writeAccess C.atomic j u (C.atomic.write u.call)))
    (move : (∀ u ∈ s.writers j, u.waking = false) → ∀ (u : Transfer (κr ⊕ κw) _ κw ℕ) w u' lock writes,
      (∀ v ∈ u', v = u.move .attempt ∨ v = u.move .parked) →
      P { s with write_waker_ := w, writers := update s.writers j u', lock_ := lock, writes := writes })
    (wake : ∀ events w readers writes, (readers = s.readers ∨ ∃ ths, readers = rouse s.readers ths) →
      P { s with
        events := events, read_waker_ := w, readers := readers, writers := update s.writers j none,
        lock_ := none, writes := writes }) : P (s.writeTurn C.atomic j call nonblocking signal) := by
  refine writeTurn_cases hs call nonblocking signal (stay s.writes) stay (fun _ u lock => access u lock)
    (fun hnot u _ => ?_) (fun hnot u _ _ resumed => ?_) fun u n => ?_
  · exact move hnot ⟨u, nonblocking, .attempt⟩ _ none _ _ forall_mem_none
  · obtain ⟨w, u', lock, writes, heq, hu'⟩ := writeWait_moves (s := s) u resumed signal
    rw [heq]
    exact move hnot u w u' lock writes hu'
  obtain ⟨events, w, readers, writes, heq, hreaders⟩ := writeWake_moves (s := s) u n
  rw [heq]
  exact wake events w readers writes hreaders

omit hs in
theorem step_cases (tick : ChannelTick κr κw ι κ) (stay : P s)
    (reader : ∀ i call nonblocking signal, tick = .reader i call nonblocking signal →
      P (s.readTurn C.atomic i call nonblocking signal))
    (writer : ∀ j call nonblocking signal, tick = .writer j call nonblocking signal →
      P (s.writeTurn C.atomic j call nonblocking signal))
    (signalReader : ∀ i, P { s with readers := rouse s.readers [i] })
    (signalWriter : ∀ j, P { s with writers := rouse s.writers [j] })
    (closeReader : ∀ p, tick = .closeReader p → P (s.closeReader p)) (closeWriter : ∀ p, P (s.closeWriter C.atomic p))
    (attachReadPoll : ∀ p events, P { s with read_poll_ := some p, events := events }) (attachWritePoll : ∀ p events,
      P { s with write_poll_ := C.attach s.write_poll_ p, events := events }) : P (s.step C.atomic tick) := by
  cases tick with
  | reader i call nonblocking signal => exact reader i call nonblocking signal rfl
  | writer j call nonblocking signal => exact writer j call nonblocking signal rfl
  | signalReader i => exact signalReader i
  | signalWriter j => exact signalWriter j
  | closeReader p =>
    dsimp only [WaitableChannel.step]
    split_ifs
    · exact closeReader p rfl
    · exact stay
  | closeWriter p =>
    dsimp only [WaitableChannel.step]
    split_ifs
    · exact closeWriter p
    · exact stay
  | attachReadPoll p =>
    dsimp only [WaitableChannel.step, WaitableChannel.attachReadPoll]
    split_ifs
    · exact attachReadPoll p _
    · exact attachReadPoll p _
    · exact attachReadPoll p _
    · exact attachReadPoll p _
    · exact stay
  | attachWritePoll p =>
    dsimp only [WaitableChannel.step, WaitableChannel.attachWritePoll]
    split_ifs
    · exact attachWritePoll p _
    · exact attachWritePoll p _
    · exact attachWritePoll p _
    · exact attachWritePoll p _
    · exact stay

end Cases

theorem inside_ended (t : Transfer α' resp' κ' ρ') (answer : Status ρ') : (t.move (ended t answer)).inside = false := by
  cases answer with
  | ok a => rfl
  | error e =>
    cases hblock : t.nonblocking with
    | true | false => simp [ended, hblock, move, inside]

namespace Whole
variable (h : Whole Good s)
include h

theorem setReaders {i : ι} {t' : Option (Transfer (κr ⊕ κw) _ κr ρ)} (ht' : ∀ t ∈ t', t.inside = false) :
    ∀ k, ∀ t ∈ update s.readers i t' k, t.inside = false :=
  forall_update (fun k _ => h.readers k) ht'

theorem setWriters {u' : Option (Transfer (κr ⊕ κw) _ κw ℕ)} (hu' : ∀ u ∈ u', u.inside = false) :
    ∀ k, ∀ u ∈ update s.writers j u' k, u.inside = false :=
  forall_update (fun k _ => h.writers k) hu'

theorem rouseReaders (ths : List ι) : ∀ k, ∀ t ∈ rouse s.readers ths k, t.inside = false :=
  forall_rouse fun k t ht => ⟨fun _ => h.readers k t ht, (inside_ready t).trans (h.readers k t ht)⟩

theorem rouseWriters (ths : List κ) : ∀ k, ∀ u ∈ rouse s.writers ths k, u.inside = false :=
  forall_rouse fun k u hu => ⟨fun _ => h.writers k u hu, (inside_ready u).trans (h.writers k u hu)⟩

theorem readAccess (hC : C.Orderly Good) {i : ι} (t : Transfer (κr ⊕ κw) _ κr ρ) (call : κr) :
    Whole Good (s.readAccess C.atomic i t (C.atomic.read call)) := by
  rw [readAccess_atomic]
  exact ⟨hC.good_read call _ h.good, h.setReaders (forall_mem_some (inside_ended t _)), h.writers⟩

theorem writeAccess (hC : C.Orderly Good) (u : Transfer (κr ⊕ κw) _ κw ℕ) (call : κw) (lock : Option κ) :
    Whole Good ({ s with lock_ := lock }.writeAccess C.atomic j u (C.atomic.write call)) := by
  rw [writeAccess_atomic]
  exact ⟨hC.good_write call _ h.good, h.readers, h.setWriters (forall_mem_some (inside_ended u _))⟩

theorem readTurn (hC : C.Orderly Good) (i : ι) (call : κr) (nonblocking signal : Bool) :
    Whole Good (s.readTurn C.atomic i call nonblocking signal) := by
  refine readTurn_moves h call nonblocking signal h (fun t _ => h.readAccess hC t t.call)
    (fun _ t _ w t' reads ht' => { h with readers := h.setReaders fun u hu => ?_ })
    fun _ _ _ _ hwriters => ⟨h.good, h.setReaders forall_mem_none, ?_⟩
  · obtain ⟨place, rfl, rfl | rfl | ⟨rfl, -⟩⟩ := ht' u hu <;> rfl
  rcases hwriters with rfl | ⟨ths, rfl⟩
  · exact h.writers
  · exact h.rouseWriters ths

theorem writeTurn (hC : C.Orderly Good) (j : κ) (call : κw) (nonblocking signal : Bool) :
    Whole Good (s.writeTurn C.atomic j call nonblocking signal) := by
  refine writeTurn_moves h call nonblocking signal (fun _ => { h with }) (fun u lock => h.writeAccess hC u u.call lock)
    (fun _ u w u' lock writes hu' => { h with writers := h.setWriters fun v hv => ?_ })
    fun _ _ _ _ hreaders => ⟨h.good, ?_, h.setWriters forall_mem_none⟩
  · rcases hu' v hv with rfl | rfl <;> rfl
  rcases hreaders with rfl | ⟨ths, rfl⟩
  · exact h.readers
  · exact h.rouseReaders ths

theorem closeReader (p : Option ℕ) : Whole Good (s.closeReader p) := by
  dsimp only [WaitableChannel.closeReader]
  by_cases hwake : (!s.writer_closed_ && !s.write_poll_.isEmpty)
  · rw [if_pos hwake]
    exact ⟨h.good, h.rouseReaders _, h.rouseWriters _⟩
  · rw [if_neg hwake]
    exact { h with readers := h.rouseReaders _ }

theorem closeWriter (p : Option ℕ) : Whole Good (s.closeWriter C.atomic p) := by
  unfold WaitableChannel.closeWriter
  split_ifs
  · exact ⟨h.good, h.rouseReaders _, h.rouseWriters _⟩
  · exact { h with writers := h.rouseWriters _ }

theorem step (hC : C.Orderly Good) (tick : ChannelTick κr κw ι κ) : Whole Good (s.step C.atomic tick) :=
  step_cases tick h (fun i call nonblocking signal _ => h.readTurn hC i call nonblocking signal)
    (fun j call nonblocking signal _ => h.writeTurn hC j call nonblocking signal)
    (fun _ => { h with readers := h.rouseReaders _ }) (fun _ => { h with writers := h.rouseWriters _ })
    (fun p _ => h.closeReader p) h.closeWriter (fun _ _ => { h with })
    fun _ _ => { h with }

end Whole
end WaitableChannel
end Junction
