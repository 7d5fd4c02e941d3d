import Junction.SharedEnds

/-!
# Serial ends refine one reader and one writer

A turn that makes an access to the channel is a turn of the reader, or of the writer, of a system of two
threads; every other turn is a stuttering step. So what two threads keep by their contracts is kept by any
number of threads, if the threads of each end make their operations one after the other.
-/

set_option linter.unusedSectionVars false

namespace Junction.WaitableChannel
open Function Interleaving List
open Transfer
variable {σ α : Type} {resp : α → Type} {κr ρ κw ι κ ω β γ : Type} [DecidableEq ι] [DecidableEq κ] [Wakeable ω κ]
  {C : ChannelType σ α resp κr ρ κw} {s : WaitableChannel σ α resp κr ρ κw ι κ ω}

abbrev Pair (σ α : Type) (resp : α → Type) (κr ρ κw : Type) := System σ α resp κr (Status ρ) κw (Status ℕ)

/-- The turn begins an operation only while no thread of its end is inside of one. -/
def Exclusive (s : WaitableChannel σ α resp κr ρ κw ι κ ω) : ChannelTick κr κw ι κ → Prop
  | .reader i _ _ _ => begins (s.readers i) = true → ∀ i', ∀ t ∈ s.readers i', t.inside = false
  | .writer j _ _ _ => begins (s.writers j) = true → ∀ j', ∀ u ∈ s.writers j', u.inside = false
  | _ => True

instance [Fintype ι] [Fintype κ] (s : WaitableChannel σ α resp κr ρ κw ι κ ω) (tick : ChannelTick κr κw ι κ) :
    Decidable (Exclusive s tick) := by
  unfold Exclusive
  split <;> infer_instance

def AllowedTurn (allow : α → σ → Prop) (C : ChannelType σ α resp κr ρ κw)
    (s : WaitableChannel σ α resp κr ρ κw ι κ ω) : ChannelTick κr κw ι κ → Prop
  | .reader i call _ _ => ∀ p ∈ nextProg C.read call (s.readers i), p.Allowed allow s.chan_
  | .writer j call _ _ => ∀ p ∈ nextProg C.write call (s.writers j), p.Allowed allow s.chan_
  | _ => True

instance {allow : α → σ → Prop} [∀ a s, Decidable (allow a s)] (s : WaitableChannel σ α resp κr ρ κw ι κ ω)
    (tick : ChannelTick κr κw ι κ) : Decidable (AllowedTurn allow C s tick) := by
  unfold AllowedTurn
  split <;> infer_instance

/-- The contracts of a reader and a writer of the channel, with what a successful read receives and what a
successful write sends. -/
structure Protocol (C : ChannelType σ α resp κr ρ κw) (β γ : Type) where
  allow : α → σ → Prop
  good : σ → Prop
  watchRead : σ → Bool
  watchWrite : σ → Bool
  readerContract : Contract σ κr (Status ρ)
  writerContract : Contract σ κw (Status ℕ)
  acceptRead : κr → Prop
  acceptWrite : κw → Prop
  linked : σ → List (Interleaving.Entry κr (Status ρ)) → List (Interleaving.Entry κw (Status ℕ)) → Prop
  reader_honours : Honours C.exec allow good ⟨C.read, watchRead⟩ readerContract acceptRead
  writer_honours : Honours C.exec allow good ⟨C.write, watchWrite⟩ writerContract acceptWrite
  coupled : Coupled good readerContract writerContract linked
  receives : κr → ρ → Multiset β
  sends : κw → ℕ → Multiset γ
  sends_skip : ∀ call, C.skips call = true → sends call 0 = 0

namespace Protocol
variable (P : Protocol C β γ)

def reader : Client σ α resp κr (Status ρ) := ⟨C.read, P.watchRead⟩

def writer : Client σ α resp κw (Status ℕ) := ⟨C.write, P.watchWrite⟩

def receivesBy (call : κr) : Status ρ → Multiset β
  | .ok a => P.receives call a
  | .error _ => 0

def sendsBy (call : κw) : Status ℕ → Multiset γ
  | .ok n => P.sends call n
  | .error _ => 0

def received (reads : List (TransferEntry ι κr ρ)) : Multiset β :=
  (reads.map fun e => P.receivesBy e.call e.answer).sum

def sent (writes : List (TransferEntry κ κw ℕ)) : Multiset γ :=
  (writes.map fun e => P.sendsBy e.call e.answer).sum

def Holds (sys : Pair σ α resp κr ρ κw) : Prop :=
  sys.Inv C.exec P.allow P.reader P.writer P.readerContract P.writerContract P.linked

end Protocol

structure Simulates (s : WaitableChannel σ α resp κr ρ κw ι κ ω) (sys : Pair σ α resp κr ρ κw) : Prop where
  shared : sys.shared = s.chan_
  left : Serial s.readers (sys.left.current.map fun c => (c.1, c.2.1))
  right : Serial s.writers (sys.right.current.map fun c => (c.1, c.2.1))
  reads : sys.left.log.map (fun e => (e.call, e.answer)) = s.readOps.map fun e => (e.call, e.answer)
  writes : sys.right.log.map (fun e => (e.call, e.answer)) = s.writeOps.map fun e => (e.call, e.answer)

section Ends
variable {κ' ρ' ι' : Type} [DecidableEq ι'] {threads : ι' → Option (Transfer α resp κ' ρ')} {i : ι'}
  {th : Thread α resp κ' (Status ρ')} {A : Client σ α resp κ' (Status ρ')}

variable (hserial : Serial threads (th.current.map fun c => (c.1, c.2.1)))
include hserial

theorem start_of_proceeds {call : κ'} {p : Prog α resp (Status ρ')} (hp : Proceeds A.code (threads i) call p)
    (hexclusive : begins (threads i) → ∀ j, ∀ t ∈ threads j, t.inside = false) (s : σ) :
    (∃ seen, th.start A call s = (call, p, seen)) ∧ ∀ j, j ≠ i → current (threads j) = none := by
  rcases hp with ⟨hbegins, rfl⟩ | hcurrent
  · have hnone : ∀ j, current (threads j) = none := by
      intro j
      cases hj : threads j with
      | none => rfl
      | some t => exact current_of_not_inside (hexclusive hbegins j t hj)
    have hidle : th.current = none := by
      cases hth : th.current with
      | none => rfl
      | some c =>
        rw [hth] at hserial
        obtain ⟨j, hj, -⟩ := hserial
        rw [hnone j] at hj
        cases hj
    refine ⟨⟨A.watch s, ?_⟩, fun j _ => hnone j⟩
    rw [Thread.start, hidle]
    rfl
  · cases hth : th.current with
    | none =>
      rw [hth] at hserial
      rw [hserial i] at hcurrent
      cases hcurrent
    | some c =>
      rw [hth] at hserial
      obtain ⟨j, hj, hothers⟩ := hserial
      obtain rfl : i = j := by
        by_contra hij
        rw [hothers i hij] at hcurrent
        cases hcurrent
      obtain ⟨c, q, seen⟩ := c
      obtain ⟨rfl, rfl⟩ := Prod.mk.inj (Option.some.inj (hj.symm.trans hcurrent))
      refine ⟨⟨seen, ?_⟩, hothers⟩
      rw [Thread.start, hth]
      rfl

theorem idle_of_apart (hapart : ∀ j, ∀ t ∈ threads j, t.apart) : th.current = none := by
  cases hth : th.current with
  | none => rfl
  | some c =>
    rw [hth] at hserial
    obtain ⟨j, hj, -⟩ := hserial
    cases hthread : threads j with
    | none =>
      rw [hthread] at hj
      cases hj
    | some t =>
      rw [hthread, current_of_apart (hapart j t hthread)] at hj
      cases hj

omit hserial

theorem serial_observe (h : Serial threads (th.current.map fun c => (c.1, c.2.1))) (s : σ) :
    Serial threads ((th.observe A s).current.map fun c => (c.1, c.2.1)) := by
  rw [Thread.observe]
  cases hth : th.current with
  | none | some =>
    rw [hth] at h
    exact h

end Ends

theorem map_concat {δ ε ζ : Type} {f : δ → ζ} {g : ε → ζ} {l : List δ} {l' : List ε} (h : l.map f = l'.map g)
    {x : δ} {y : ε} (hxy : f x = g y) : (l ++ [x]).map f = (l' ++ [y]).map g := by
  rw [map_append, map_append, h, map_singleton, map_singleton, hxy]

variable {s' : WaitableChannel σ α resp κr ρ κw ι κ ω} {t : Transfer α resp κr ρ} {p : Prog α resp (Status ρ)} {j : κ} {u : Transfer α resp κw ℕ}

namespace Simulates
variable {sys : Pair σ α resp κr ρ κw} (h : Simulates s sys)
include h

theorem stutter (hchan : s'.chan_ = s.chan_) (hreaders : ∀ i, current (s'.readers i) = current (s.readers i))
    (hwriters : ∀ j, current (s'.writers j) = current (s.writers j)) (hreads : s'.readOps = s.readOps)
    (hwrites : s'.writeOps = s.writeOps) : Simulates s' sys :=
  ⟨h.shared.trans hchan.symm, h.left.congr hreaders, h.right.congr hwriters, by rw [h.reads, hreads],
    by rw [h.writes, hwrites]⟩

variable {B : Client σ α resp κw (Status ℕ)} {seen : Bool}

theorem readAccess {A : Client σ α resp κr (Status ρ)} {i : ι}
    (hstart : sys.left.start A t.call sys.shared = (t.call, p, seen))
    (hothers : ∀ j, j ≠ i → current (s.readers j) = none) :
    Simulates (s.readAccess C i t p) (sys.step C.exec A B (.left t.call)) := by
  have hright := serial_observe (A := B) h.right (p.step C.exec s.chan_).2
  dsimp only [System.step, Thread.step, WaitableChannel.readAccess]
  rw [hstart, h.shared]
  generalize hr : p.step C.exec s.chan_ = r at hright
  obtain ⟨q, c⟩ := r
  cases q with
  | act a k => exact ⟨rfl, serial_update hothers rfl, hright, h.reads, h.writes⟩
  | done answer =>
    cases answer with
    | ok a => exact ⟨rfl, serial_update hothers rfl, hright, map_concat h.reads rfl, h.writes⟩
    | error e =>
      refine ⟨rfl, serial_update hothers ?_, hright, map_concat h.reads rfl, h.writes⟩
      cases t.nonblocking with
      | true | false => rfl

theorem writeAccess {A : Client σ α resp κr (Status ρ)} {p : Prog α resp (Status ℕ)}
    (hstart : sys.right.start B u.call sys.shared = (u.call, p, seen))
    (hothers : ∀ k, k ≠ j → current (s.writers k) = none) (lock : Option κ) :
    Simulates ({ s with lock_ := lock }.writeAccess C j u p) (sys.step C.exec A B (.right u.call)) := by
  have hleft := serial_observe (A := A) h.left (p.step C.exec s.chan_).2
  dsimp only [System.step, Thread.step, WaitableChannel.writeAccess]
  rw [hstart, h.shared]
  generalize hr : p.step C.exec s.chan_ = r at hleft
  obtain ⟨q, c⟩ := r
  cases q with
  | act a k => exact ⟨rfl, hleft, serial_update hothers rfl, h.reads, h.writes⟩
  | done answer =>
    cases answer with
    | ok n => exact ⟨rfl, hleft, serial_update hothers rfl, h.reads, map_concat h.writes rfl⟩
    | error e =>
      refine ⟨rfl, hleft, serial_update hothers ?_, h.reads, map_concat h.writes rfl⟩
      cases u.nonblocking with
      | true | false => rfl

end Simulates

/-- Any number of threads at each end, which look like one thread; what they have received and sent is
accounted for. -/
structure Shared (P : Protocol C β γ) (s : WaitableChannel σ α resp κr ρ κw ι κ ω) : Prop where
  isOpen : Open s
  readCalls : ∀ i, ∀ t ∈ s.readers i, P.acceptRead t.call
  writeCalls : ∀ j, ∀ u ∈ s.writers j, P.acceptWrite u.call ∧ C.skips u.call = false
  ops : ∀ e ∈ s.writeOps, C.skips e.call = false
  refines : ∃ sys, Simulates s sys ∧ P.Holds sys
  reads : Balanced (fun e => P.receivesBy e.call e.answer) s.readers s.readOps s.reads
  writes : Balanced (fun e => P.sendsBy e.call e.answer) s.writers s.writeOps s.writes

namespace Shared
variable {P : Protocol C β γ} (h : Shared P s)
include h

theorem stutter (hchan : s'.chan_ = s.chan_) (hreaders : ∀ i, current (s'.readers i) = current (s.readers i))
    (hwriters : ∀ j, current (s'.writers j) = current (s.writers j)) (hreads : s'.readOps = s.readOps)
    (hwrites : s'.writeOps = s.writeOps) : ∃ sys, Simulates s' sys ∧ P.Holds sys := by
  obtain ⟨sys, hsim, hinv⟩ := h.refines
  exact ⟨sys, hsim.stutter hchan hreaders hwriters hreads hwrites, hinv⟩

theorem rouse_testing (ths : List ι) : ∀ k, ∀ t ∈ rouse s.readers ths k, t.place ≠ .emptyTest :=
  forall_rouse fun k t ht => ⟨fun _ => h.isOpen.testing k t ht, ready_ne_emptyTest (h.isOpen.testing k t ht)⟩

theorem rouse_readCalls (ths : List ι) : ∀ k, ∀ t ∈ rouse s.readers ths k, P.acceptRead t.call :=
  forall_rouse fun k t ht => ⟨fun _ => h.readCalls k t ht, by rw [call_ready]; exact h.readCalls k t ht⟩

theorem rouse_writeCalls (ths : List κ) : ∀ k, ∀ u ∈ rouse s.writers ths k,
    P.acceptWrite u.call ∧ C.skips u.call = false :=
  forall_rouse fun k u hu => ⟨fun _ => h.writeCalls k u hu, by rw [call_ready]; exact h.writeCalls k u hu⟩

theorem refines_readAccess {i : ι} (hp : Proceeds C.read (s.readers i) t.call p) (haccept : P.acceptRead t.call)
    (hexclusive : begins (s.readers i) → ∀ i', ∀ t ∈ s.readers i', t.inside = false)
    (hallowed : p.Allowed P.allow s.chan_) : ∃ sys, Simulates (s.readAccess C i t p) sys ∧ P.Holds sys := by
  obtain ⟨sys, hsim, hinv⟩ := h.refines
  obtain ⟨⟨seen, hstart⟩, hothers⟩ := start_of_proceeds (A := P.reader) hsim.left hp hexclusive sys.shared
  refine ⟨_, hsim.readAccess hstart hothers,
    System.inv_step P.reader_honours P.writer_honours P.coupled sys (.left t.call) hinv ⟨fun _ => haccept, ?_⟩⟩
  rw [hsim.shared] at hstart ⊢
  change (sys.left.start P.reader t.call s.chan_).2.1.Allowed P.allow s.chan_
  rw [hstart]
  exact hallowed

theorem refines_writeAccess {p : Prog α resp (Status ℕ)}
    (hp : Proceeds C.write (s.writers j) u.call p) (haccept : P.acceptWrite u.call)
    (hexclusive : begins (s.writers j) → ∀ j', ∀ u ∈ s.writers j', u.inside = false)
    (hallowed : p.Allowed P.allow s.chan_) (lock : Option κ) :
    ∃ sys, Simulates ({ s with lock_ := lock }.writeAccess C j u p) sys ∧ P.Holds sys := by
  obtain ⟨sys, hsim, hinv⟩ := h.refines
  obtain ⟨⟨seen, hstart⟩, hothers⟩ := start_of_proceeds (A := P.writer) hsim.right hp hexclusive sys.shared
  refine ⟨_, hsim.writeAccess hstart hothers lock,
    System.inv_step P.reader_honours P.writer_honours P.coupled sys (.right u.call) hinv ⟨fun _ => haccept, ?_⟩⟩
  rw [hsim.shared] at hstart ⊢
  change (sys.right.start P.writer u.call s.chan_).2.1.Allowed P.allow s.chan_
  rw [hstart]
  exact hallowed

theorem readAccess {i : ι} (haccept : P.acceptRead t.call) (howed : owed i (s.readers i) = none)
    (hrefines : ∃ sys, Simulates (s.readAccess C i t p) sys ∧ P.Holds sys) : Shared P (s.readAccess C i t p) := by
  dsimp only [WaitableChannel.readAccess] at hrefines ⊢
  generalize p.step C.exec s.chan_ = r at hrefines
  obtain ⟨q, c⟩ := r
  have hset : ∀ place, place ≠ .emptyTest → (∀ k, ∀ t' ∈ update s.readers i (some (t.move place)) k,
      t'.place ≠ .emptyTest) ∧
      ∀ k, ∀ t' ∈ update s.readers i (some (t.move place)) k, P.acceptRead t'.call :=
    fun place hplace => ⟨forall_update (fun k _ => h.isOpen.testing k) (forall_mem_some hplace),
      forall_update (fun k _ => h.readCalls k) (forall_mem_some haccept)⟩
  cases q with
  | act a k =>
    obtain ⟨htesting, hcalls⟩ := hset (.inside (.act a k)) nofun
    exact ⟨{ h.isOpen with testing := htesting }, hcalls, h.writeCalls, h.ops, hrefines,
      h.reads.congr (owed_update (howed.symm ▸ rfl)) rfl rfl, h.writes⟩
  | done answer =>
    cases answer with
    | ok a =>
      obtain ⟨htesting, hcalls⟩ := hset (.waking a) nofun
      exact ⟨{ h.isOpen with testing := htesting }, hcalls, h.writeCalls, h.ops, hrefines,
        h.reads.succeed howed rfl rfl, h.writes⟩
    | error e =>
      obtain ⟨htesting, hcalls⟩ := hset (if t.nonblocking then .closedTest else .waiting) (by split_ifs <;> nofun)
      have howed' : owed i (some (t.move (if t.nonblocking then .closedTest else .waiting))) = none := by
        split_ifs <;> rfl
      refine ⟨{ h.isOpen with testing := htesting }, hcalls, h.writeCalls, h.ops, hrefines, ?_, h.writes⟩
      exact h.reads.congr (owed_update (howed'.trans howed.symm)) (sum_map_concat _ _ _ |>.trans (add_zero _))
        rfl

theorem writeAccess {p : Prog α resp (Status ℕ)}
    (haccept : P.acceptWrite u.call ∧ C.skips u.call = false) (howed : owed j (s.writers j) = none) {lock : Option κ}
    (hrefines : ∃ sys, Simulates ({ s with lock_ := lock }.writeAccess C j u p) sys ∧ P.Holds sys) :
    Shared P ({ s with lock_ := lock }.writeAccess C j u p) := by
  dsimp only [WaitableChannel.writeAccess] at hrefines ⊢
  generalize p.step C.exec s.chan_ = r at hrefines
  obtain ⟨q, c⟩ := r
  have hcalls : ∀ place, ∀ k, ∀ u' ∈ update s.writers j (some (u.move place)) k,
      P.acceptWrite u'.call ∧ C.skips u'.call = false :=
    fun place => forall_update (fun k _ => h.writeCalls k) (forall_mem_some haccept)
  have hops : ∀ answer, ∀ e ∈ s.writeOps ++ [⟨j, u.call, answer⟩], C.skips e.call = false := by
    intro answer e he
    rcases mem_append.1 he with he | he
    · exact h.ops e he
    · rw [mem_singleton.1 he]
      exact haccept.2
  cases q with
  | act a k =>
    exact ⟨{ h.isOpen with }, h.readCalls, hcalls _, h.ops, hrefines,
      h.reads, h.writes.congr (owed_update (howed.symm ▸ rfl)) rfl rfl⟩
  | done answer =>
    cases answer with
    | ok n =>
      exact ⟨{ h.isOpen with }, h.readCalls, hcalls _, hops _, hrefines, h.reads, h.writes.succeed howed rfl rfl⟩
    | error e =>
      have howed' : owed j (some (u.move (if u.nonblocking then .closedTest else .waiting))) = none := by
        split_ifs <;> rfl
      refine ⟨{ h.isOpen with }, h.readCalls, hcalls _, hops _, hrefines, h.reads, ?_⟩
      exact h.writes.congr (owed_update (howed'.trans howed.symm)) (sum_map_concat _ _ _ |>.trans (add_zero _))
        rfl

theorem readTurn {i : ι} {call : κr} (haccept : P.acceptRead call)
    (hexclusive : begins (s.readers i) → ∀ i', ∀ t ∈ s.readers i', t.inside = false)
    (hallowed : ∀ p ∈ nextProg C.read call (s.readers i), p.Allowed P.allow s.chan_) (nonblocking signal : Bool) :
    Shared P (s.readTurn C i call nonblocking signal) := by
  refine readTurn_open_cases h.isOpen call nonblocking signal h (fun t p hnext hp howed hcall => ?_)
    (fun t ht hapart t' hcall hapart' hplace w => ?_) (fun t ht hapart e w => ?_)
    fun t ht a hplace events w ths => ?_
  · have haccept' : P.acceptRead t.call := by
      rcases hcall with ht | hcall
      · exact h.readCalls i t ht
      · rwa [hcall]
    exact h.readAccess haccept' howed (h.refines_readAccess hp haccept' hexclusive (hallowed p hnext))
  · obtain ⟨hcurrent, howed⟩ := of_mem_apart i ht hapart
    refine ⟨{ h.isOpen with testing := ?_ }, ?_, h.writeCalls, h.ops,
      h.stutter rfl (current_update hcurrent (current_of_apart hapart')) (fun _ => rfl) rfl rfl,
      h.reads.congr (owed_update ((owed_of_apart i hapart').trans howed.symm)) rfl rfl, h.writes⟩
    · exact forall_update (fun k _ => h.isOpen.testing k) (forall_mem_some hplace)
    refine forall_update (fun k _ => h.readCalls k) (forall_mem_some ?_)
    rw [hcall]
    exact h.readCalls i t ht
  · obtain ⟨hcurrent, howed⟩ := of_mem_apart i ht hapart
    exact ⟨{ h.isOpen with testing := forall_update (fun k _ => h.isOpen.testing k) forall_mem_none },
      forall_update (fun k _ => h.readCalls k) forall_mem_none, h.writeCalls, h.ops,
      h.stutter rfl (current_update hcurrent rfl) (fun _ => rfl) rfl rfl,
      h.reads.congr (owed_update howed.symm) rfl (sum_map_concat _ _ _ |>.trans (add_zero _)), h.writes⟩
  · obtain ⟨call, nonblocking, place⟩ := t
    obtain rfl : place = .waking a := hplace
    have hcurrent : current (s.readers i) = none := by rw [show s.readers i = some _ from ht]; rfl
    have howed : owed i (s.readers i) = some ⟨i, call, .ok a⟩ := by rw [show s.readers i = some _ from ht]; rfl
    exact ⟨{ h.isOpen with testing := forall_update (fun k _ => h.isOpen.testing k) forall_mem_none },
      forall_update (fun k _ => h.readCalls k) forall_mem_none, h.rouse_writeCalls ths, h.ops,
      h.stutter rfl (current_update hcurrent rfl) (current_rouse ths) rfl rfl,
      h.reads.giveBack howed rfl, h.writes.congr (owed_rouse ths) rfl rfl⟩

theorem writeTurn {call : κw} (haccept : P.acceptWrite call)
    (hexclusive : begins (s.writers j) → ∀ j', ∀ u ∈ s.writers j', u.inside = false)
    (hallowed : ∀ p ∈ nextProg C.write call (s.writers j), p.Allowed P.allow s.chan_) (nonblocking signal : Bool) :
    Shared P (s.writeTurn C j call nonblocking signal) := by
  refine writeTurn_open_cases h.isOpen call nonblocking signal h (fun hskip => ?_)
    (fun u p hnext hp howed hcall lock => ?_) (fun u hu hapart u' hcall hapart' w lock => ?_)
    (fun u hu hapart e w => ?_) fun u hu n hplace events w ths => ?_
  · refine { h with isOpen := { h.isOpen with }, refines := ?_, writes := ?_ }
    · exact h.stutter rfl (fun _ => rfl) (fun _ => rfl) rfl rfl
    refine h.writes.congr (fun _ => rfl) rfl (sum_map_concat _ _ _ |>.trans ?_)
    change _ + P.sends call 0 = _
    rw [P.sends_skip call hskip, add_zero]
  · have haccept' : P.acceptWrite u.call ∧ C.skips u.call = false := by
      rcases hcall with hu | ⟨hcall, hskip⟩
      · exact h.writeCalls j u hu
      · rw [hcall]
        exact ⟨haccept, hskip⟩
    exact h.writeAccess haccept' howed (h.refines_writeAccess hp haccept'.1 hexclusive (hallowed p hnext) lock)
  · obtain ⟨hcurrent, howed⟩ := of_mem_apart j hu hapart
    refine ⟨{ h.isOpen with }, h.readCalls, ?_, h.ops,
      h.stutter rfl (fun _ => rfl) (current_update hcurrent (current_of_apart hapart')) rfl rfl, h.reads,
      h.writes.congr (owed_update ((owed_of_apart j hapart').trans howed.symm)) rfl rfl⟩
    refine forall_update (fun k _ => h.writeCalls k) (forall_mem_some ?_)
    rw [hcall]
    exact h.writeCalls j u hu
  · obtain ⟨hcurrent, howed⟩ := of_mem_apart j hu hapart
    exact ⟨{ h.isOpen with }, h.readCalls,
      forall_update (fun k _ => h.writeCalls k) forall_mem_none, h.ops,
      h.stutter rfl (fun _ => rfl) (current_update hcurrent rfl) rfl rfl, h.reads,
      h.writes.congr (owed_update howed.symm) rfl (sum_map_concat _ _ _ |>.trans (add_zero _))⟩
  · obtain ⟨call, nonblocking, place⟩ := u
    obtain rfl : place = .waking n := hplace
    have hcurrent : current (s.writers j) = none := by rw [show s.writers j = some _ from hu]; rfl
    have howed : owed j (s.writers j) = some ⟨j, call, .ok n⟩ := by rw [show s.writers j = some _ from hu]; rfl
    exact ⟨{ h.isOpen with testing := h.rouse_testing ths }, h.rouse_readCalls ths,
      forall_update (fun k _ => h.writeCalls k) forall_mem_none, h.ops,
      h.stutter rfl (current_rouse ths) (current_update hcurrent rfl) rfl rfl,
      h.reads.congr (owed_rouse ths) rfl rfl, h.writes.giveBack howed rfl⟩

theorem signalReader (i : ι) : Shared P { s with readers := rouse s.readers [i] } :=
  ⟨{ h.isOpen with testing := h.rouse_testing [i] }, h.rouse_readCalls [i], h.writeCalls, h.ops,
    h.stutter rfl (current_rouse [i]) (fun _ => rfl) rfl rfl, h.reads.congr (owed_rouse [i]) rfl rfl, h.writes⟩

theorem signalWriter (j : κ) : Shared P { s with writers := rouse s.writers [j] } :=
  ⟨{ h.isOpen with }, h.readCalls, h.rouse_writeCalls [j], h.ops,
    h.stutter rfl (fun _ => rfl) (current_rouse [j]) rfl rfl, h.reads, h.writes.congr (owed_rouse [j]) rfl rfl⟩

omit h in
theorem start {chan : σ} (hlinked : P.linked chan [] []) (hread : P.readerContract.idle chan)
    (hwrite : P.writerContract.idle chan) (readPoll : Option ℕ) (writePoll : List ℕ) :
    Shared P (WaitableChannel.start chan readPoll writePoll : WaitableChannel σ α resp κr ρ κw ι κ ω) :=
  ⟨⟨rfl, rfl, fun _ => forall_mem_none⟩, fun _ => forall_mem_none, fun _ => forall_mem_none, nofun,
    ⟨⟨chan, .idle, .idle⟩, ⟨rfl, fun _ => rfl, fun _ => rfl, rfl, rfl⟩, System.inv_start hlinked hread hwrite⟩,
    ⟨[], nodup_nil, fun _ => ⟨nofun, nofun⟩, rfl⟩, ⟨[], nodup_nil, fun _ => ⟨nofun, nofun⟩, rfl⟩⟩

/-- The two threads that the threads of the ends look like, and what they have received and sent. -/
theorem pair : ∃ sys : Pair σ α resp κr ρ κw, P.Holds sys ∧ sys.shared = s.chan_ ∧
    ((∀ i, ∀ t ∈ s.readers i, t.apart) → sys.left.current = none) ∧
    ((∀ j, ∀ u ∈ s.writers j, u.apart) → sys.right.current = none) ∧
    P.received s.readOps = (sys.left.log.map fun e => P.receivesBy e.call e.answer).sum ∧
    P.sent s.writeOps = (sys.right.log.map fun e => P.sendsBy e.call e.answer).sum ∧
    ∀ e ∈ sys.right.log, C.skips e.call = false := by
  obtain ⟨sys, hsim, hinv⟩ := h.refines
  refine ⟨sys, hinv, hsim.shared, fun hapart => ?_, fun hapart => ?_, ?_, ?_, fun e he => ?_⟩
  · exact idle_of_apart hsim.left hapart
  · exact idle_of_apart hsim.right hapart
  · have hmap := congrArg (fun l => (l.map fun c => P.receivesBy c.1 c.2).sum) hsim.reads
    simp only [map_map] at hmap
    exact hmap.symm
  · have hmap := congrArg (fun l => (l.map fun c => P.sendsBy c.1 c.2).sum) hsim.writes
    simp only [map_map] at hmap
    exact hmap.symm
  have hmem : (e.call, e.answer) ∈ s.writeOps.map fun e => (e.call, e.answer) := by
    rw [← hsim.writes]
    exact mem_map_of_mem he
  obtain ⟨e', he', heq⟩ := mem_map.1 hmem
  rw [← (Prod.mk.inj heq).1]
  exact h.ops e' he'

end Shared
end Junction.WaitableChannel
