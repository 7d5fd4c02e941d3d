import Junction.MessageChannel

/-!
# Reads and writes keep to their contracts

A read looks at the next message, which stays where it is until the read has stored its index; what the
read answers is settled before that. A write fills its slot and sends what it has filled in.
-/

namespace Junction.MessageChannel
open Interleaving List
variable {T : Type} {r : RingSize} {movedFrom : T → T}

namespace ReadCall

def peek : ReadCall → Bool
  | .read _ _ peek => peek
  | .readShort _ peek => peek
  | .readv _ peek _ => peek

def auxOut : ReadCall → Bool
  | .read _ auxOut _ => auxOut
  | .readShort _ _ => false
  | .readv _ _ auxOut => auxOut

def room : ReadCall → ℕ
  | .read len _ _ => len
  | .readShort len _ => len
  | .readv iov _ _ => iov.sum

/-- The overload that does not pass `peek` on is used without it. -/
def Fair : ReadCall → Prop
  | .readShort _ peek => peek = false
  | _ => True

instance : DecidablePred Fair
  | .read _ _ _ => .isTrue trivial
  | .readShort _ peek => inferInstanceAs (Decidable (peek = false))
  | .readv _ _ _ => .isTrue trivial

def Delivers (call : ReadCall) (answer : List UInt8 × Option T) (m : Message T) : Prop :=
  answer.1 = m.data.take call.room ∧ answer.2 = if call.auxOut then some m.aux else none

end ReadCall

namespace WriteCall

def bytes : WriteCall T → List UInt8
  | .write bytes _ => bytes
  | .writev iov _ => iov.flatten

def auxIn : WriteCall T → Option T
  | .write _ auxIn => auxIn
  | .writev _ auxIn => auxIn

def message [Inhabited T] (call : WriteCall T) : Message T := ⟨call.bytes, call.auxIn.getD default⟩

def Fair (call : WriteCall T) : Prop := call.auxIn.isSome = true ∨ ∀ a b : T, a = b

instance [Decidable (∀ a b : T, a = b)] : DecidablePred (Fair (T := T)) := fun _ =>
  inferInstanceAs (Decidable (_ ∨ _))

end WriteCall

def readerContract (r : RingSize) (movedFrom : T → T) :
    Contract (Shared T) ReadCall (Status (List UInt8 × Option T)) where
  rely := Keeps r movedFrom
  silent s s' := Yields r movedFrom s s' ∧ s'.ghost.delivered = s.ghost.delivered
  commit call answer _ s s' := Yields r movedFrom s s' ∧ s'.ghost.handed = none ∧
    match answer with
    | .error _ => s'.ghost.delivered = s.ghost.delivered
    | .ok answer => ∃ m, s.sent[s.ghost.delivered]? = some m ∧ call.Delivers answer m ∧
        s'.ghost.delivered = s.ghost.delivered + if call.peek then 0 else 1
  idle s := s.ghost.handed = none

def writerContract [Inhabited T] (r : RingSize) (movedFrom : T → T) :
    Contract (Shared T) (WriteCall T) (Status ℕ) where
  rely := Yields r movedFrom
  silent s s' := Keeps r movedFrom s s' ∧ s'.ghost.reported = s.ghost.reported
  commit call answer _ s s' := Keeps r movedFrom s s' ∧
    (s'.ghost.filling = false ∧ s'.ghost.pending = none) ∧
    match answer with
    | .error _ => s'.ghost.reported = s.ghost.reported
    | .ok _ => s'.ghost.reported = s.ghost.reported ++ [call.message]
  idle s := s.ghost.filling = false ∧ s.ghost.pending = none

variable {seen : Bool} {watch : Shared T → Bool}

section Reader
variable {o : BitVec 64} {m : Message T}

structure Next (r : RingSize) (movedFrom : T → T) (o : BitVec 64) (m : Message T) (s : Shared T) :
    Prop where
  good : s.Good r movedFrom
  index : s.chan.out_ = o
  handed : s.ghost.handed = none
  used : 0 < s.used
  sent : s.sent[s.ghost.delivered]? = some m

theorem getElem?_of_isPrefix {α : Type*} {l l' : List α} {i : ℕ} {x : α} (h : l <+: l')
    (hx : l[i]? = some x) : l'[i]? = some x := by
  obtain ⟨t, rfl⟩ := h
  rw [List.getElem?_append_left (List.getElem?_eq_some_iff.1 hx).1, hx]

namespace Next
variable {s s' : Shared T}

theorem keeps (h : Next r movedFrom o m s) (hk : Keeps r movedFrom s s') : Next r movedFrom o m s' where
  good := hk.good
  index := hk.index.trans h.index
  handed := hk.handed.trans h.handed
  used := h.used.trans_le hk.used
  sent := by
    rw [hk.delivered]
    exact getElem?_of_isPrefix hk.sent h.sent

theorem slot (h : Next r movedFrom o m s) : r.slot o = s.cell r 0 := by
  rw [← h.index, Shared.slot_out]

theorem holds (h : Next r movedFrom o m s) : s.Holds r movedFrom 0 m := by
  obtain ⟨m', hm', hholds⟩ := h.good.window 0 h.used
  have htaken : s.taken + 0 = s.ghost.delivered := by simp [Shared.taken, h.handed]
  rw [htaken, h.sent] at hm'
  rwa [Option.some.inj hm']

theorem data (h : Next r movedFrom o m s) : (s.chan.msgs_ (r.slot o)).data = m.data := by
  rw [h.slot]
  exact h.holds.1

end Next

def collect (slot room : ℕ) (auxOut : Bool) : Code T (List UInt8 × Option T) := do
  let size ← sizeData slot
  let bytes ← copyData slot (min room size)
  let aux ← takeAux slot auxOut
  return (bytes, aux)

theorem Next.load {s : Shared T} (h : Next r movedFrom o m s) :
    Yields r movedFrom s s ∧ s.ghost.delivered = s.ghost.delivered := ⟨Yields.refl h.good, rfl⟩

theorem takeAux_quiet {s : Shared T} (auxOut : Bool) (h : Next r movedFrom o m s) :
    Quiet (exec r movedFrom) (allow movedFrom) (readerContract r movedFrom)
      (fun aux s => Next r movedFrom o m s ∧ aux = if auxOut then some m.aux else none)
      (takeAux (r.slot o) auxOut) s := by
  cases auxOut with
  | false => exact ⟨h, rfl⟩
  | true =>
    intro s₁ hk hallow
    have h₁ := h.keeps hk
    have hslot := h₁.slot
    have haux : (s₁.chan.msgs_ (r.slot o)).aux = m.aux := by
      rw [hslot]
      refine h₁.holds.2 ?_
      by_cases hmoved : s₁.ghost.moved
      · exact .inr (.inr (hallow hmoved))
      · exact .inr (.inl (by simpa using hmoved))
    have hy := yields_takeAux h₁.good h₁.used
    rw [← hslot] at hy
    refine ⟨⟨hy, rfl⟩, { h₁ with good := hy.good }, ?_⟩
    exact congrArg some haux

theorem collect_quiet {s : Shared T} (room : ℕ) (auxOut : Bool) (h : Next r movedFrom o m s) :
    Quiet (exec r movedFrom) (allow movedFrom) (readerContract r movedFrom)
      (fun answer s => Next r movedFrom o m s ∧ answer.1 = m.data.take room ∧
        answer.2 = if auxOut then some m.aux else none)
      (collect (r.slot o) room auxOut) s := by
  intro s₁ hk₁ _
  have h₁ := h.keeps hk₁
  refine ⟨h₁.load, fun s₂ hk₂ _ => ?_⟩
  have h₂ := h₁.keeps hk₂
  refine ⟨h₂.load, (takeAux_quiet auxOut h₂).bind fun aux s haux => ⟨haux.1, ?_, haux.2⟩⟩
  change (s₂.chan.msgs_ (r.slot o)).data.take (min room (s₁.chan.msgs_ (r.slot o)).data.length) = _
  rw [h₁.data, h₂.data]
  exact take_eq_take_min.symm

def receive (r : RingSize) (call : ReadCall) (o : BitVec 64) : Code T (Status (List UInt8 × Option T)) := do
  let answer ← collect (r.slot o) call.room call.auxOut
  if call.peek then return .ok answer
  else
    storeOut (o + 1)
    clearData (r.slot o)
    return .ok answer

def ReadCall.refused : ReadCall → Bool
  | .readv iov _ _ => iov = []
  | _ => false

theorem receive_meets {call : ReadCall} {s : Shared T}
    (h : Next r movedFrom o m s) : (readerContract r movedFrom).Effect call seen s s (receive r call o) ∧
      Meets (exec r movedFrom) (allow movedFrom) watch (readerContract r movedFrom) call (receive r call o) s seen := by
  have hquiet := collect_quiet call.room call.auxOut h
  cases hpeek : call.peek with
  | true =>
    have hp : receive (T := T) r call o = (collect (r.slot o) call.room call.auxOut >>= fun answer =>
        .done (.ok answer)) := by
      simp [receive, hpeek]
    rw [hp]
    refine Quiet.meets h.load (hquiet.bind (Q := fun a s => ∃ answer, a = .ok answer ∧
      Next r movedFrom o m s ∧ call.Delivers answer m) fun answer s ha => ⟨answer, rfl, ha⟩) ?_
    rintro _ seen s₁ s₂ hsilent ⟨answer, rfl, hnext, hdelivers⟩
    obtain ⟨hy, hdelivered⟩ := hsilent
    have hsent : s₁.sent = s₂.sent := by rw [Shared.sent, Shared.sent, hy.reported, hy.pending]
    refine ⟨hy, hnext.handed, m, ?_, hdelivers, ?_⟩
    · rw [hsent, ← hdelivered]
      exact hnext.sent
    · rw [hpeek]
      exact hdelivered
  | false =>
    have hp : receive (T := T) r call o = (collect (r.slot o) call.room call.auxOut >>= fun answer =>
        .act (.storeOut (o + 1)) fun _ => .act (.clearData (r.slot o)) fun _ =>
          .done (.ok answer)) := by
      simp [receive, hpeek]
      rfl
    rw [hp]
    refine Quiet.bind_meets h.load hquiet (fun _ => rfl) fun answer s' _ ha s₁ _ hk₁ _ _ _ => ?_
    have h₁ := ha.1.keeps hk₁
    have hy₁ := yields_storeOut h₁.good h₁.used h₁.handed
    rw [h₁.index] at hy₁
    refine ⟨⟨hy₁, rfl⟩, fun s₂ _ hk₂ _ _ _ => ⟨?_, trivial⟩⟩
    have hhanded : s₂.ghost.handed = some (r.slot o) := by
      rw [hk₂.handed, ← h₁.index]
      rfl
    refine ⟨yields_clearData hk₂.good hhanded, rfl, m, ?_, ha.2, by rw [hpeek]; rfl⟩
    rw [hk₂.delivered]
    exact getElem?_of_isPrefix hk₂.sent h₁.sent

theorem reader_code (call : ReadCall) (hfair : call.Fair) :
    ∃ rest : BitVec 64 → BitVec 64 → Code T (Status (List UInt8 × Option T)), (reader r).code call =
      (.act Access.loadIn fun i : BitVec 64 => .act Access.loadOut fun o : BitVec 64 => rest i o) ∧
    ∀ i o : BitVec 64, rest i o = if i = o then .done (.error .EAGAIN)
      else if call.refused then .done (.error .EINVAL) else receive r call o := by
  cases call with
  | read len auxOut peek =>
    refine ⟨_, rfl, fun i o => ?_⟩
    cases auxOut <;> rfl
  | readShort len peek =>
    obtain rfl : peek = false := hfair
    exact ⟨_, rfl, fun i o => rfl⟩
  | readv iov peek auxOut =>
    refine ⟨_, rfl, fun i o => ?_⟩
    have hlen : ∀ size, (genericCopyv [range' 0 size] (cellsOf 0 iov)).length = min iov.sum size := by
      intro size
      rw [genericCopyv_eq, length_zip, length_flatten_cellsOf, Nat.min_comm]
      simp
    simp only [hlen, ReadCall.refused, decide_eq_true_eq]
    cases auxOut <;> rfl

theorem reader_honours : Honours (exec r movedFrom) (allow movedFrom) (Shared.Good r movedFrom)
    (reader r) (readerContract r movedFrom) ReadCall.Fair where
  refl _ h := Keeps.refl h
  trans _ _ _ h h' := h.trans h'
  idle_rely _ _ hk hidle := hk.handed.trans hidle
  idle_commit _ _ _ _ _ hcommit := hcommit.2.1
  not_done call := by cases call <;> rfl
  meets call s hfair hgood hidle := by
    obtain ⟨rest, hcode, hrest⟩ := reader_code call hfair
    rw [hcode]
    intro s₁ seen₁ hk₁ _ _ _
    refine ⟨⟨Yields.refl hk₁.good, rfl⟩, fun s₂ seen₂ hk₂ _ _ _ => ?_⟩
    have hk₂ : Keeps r movedFrom s₁ s₂ := hk₂
    have hhanded : s₂.ghost.handed = none := hk₂.handed.trans (hk₁.handed.trans hidle)
    change (readerContract r movedFrom).Effect call _ s₂ s₂ (rest s₁.chan.in_ s₂.chan.out_) ∧
      Meets _ _ _ _ call (rest s₁.chan.in_ s₂.chan.out_) s₂ _
    rw [hrest]
    split_ifs with hempty hrefused
    · exact ⟨⟨Yields.refl hk₂.good, hhanded, rfl⟩, trivial⟩
    · exact ⟨⟨Yields.refl hk₂.good, hhanded, rfl⟩, trivial⟩
    have hused : 0 < s₂.used := by
      refine Nat.lt_of_lt_of_le ?_ hk₂.used
      rw [hk₂.index] at hempty
      change 0 < (s₁.chan.in_ - s₁.chan.out_).toNat
      bv_omega
    obtain ⟨m, hm, -⟩ := hk₂.good.window 0 hused
    refine receive_meets (m := m) ⟨hk₂.good, rfl, hhanded, hused, ?_⟩
    rw [← hm]
    simp [Shared.taken, hhanded]

end Reader

section Writer
variable {i : BitVec 64}

structure Vacant (r : RingSize) (movedFrom : T → T) (i : BitVec 64) (s : Shared T) : Prop where
  good : s.Good r movedFrom
  index : s.chan.in_ = i
  used : s.used < r.size.toNat
  pending : s.ghost.pending = none

structure Filling (r : RingSize) (movedFrom : T → T) (i : BitVec 64) (P : Message T → Prop)
    (s : Shared T) : Prop where
  good : s.Good r movedFrom
  index : s.chan.in_ = i
  filling : s.ghost.filling = true
  pending : s.ghost.pending = none
  msg : P (s.chan.msgs_ (r.slot i))

variable {s s' : Shared T}

theorem Vacant.yields (h : Vacant r movedFrom i s) (hy : Yields r movedFrom s s') : Vacant r movedFrom i s' :=
  ⟨hy.good, hy.index.trans h.index, hy.used.trans_lt h.used, hy.pending.trans h.pending⟩

variable {P : Message T → Prop}

theorem Filling.yields (h : Filling r movedFrom i P s) (hy : Yields r movedFrom s s') : Filling r movedFrom i P s' where
  good := hy.good
  index := hy.index.trans h.index
  filling := hy.filling.trans h.filling
  pending := hy.pending.trans h.pending
  msg := by
    have hslot := hy.slot h.filling
    rw [h.index] at hslot
    rw [hslot]
    exact h.msg

theorem Vacant.modify (h : Vacant r movedFrom i s)
    (f : Message T → Message T) (hallow : s.ghost.handed ≠ some (r.slot i))
    (hchan : s'.chan = s.chan.modifyMsg (r.slot i) f)
    (hghost : s'.ghost = { s.ghost with filling := true }) (hP : ∀ m, P (f m)) :
    Keeps r movedFrom s s' ∧ Filling r movedFrom i P s' := by
  obtain ⟨hgood, rfl, hused, hpending⟩ := h
  have hkeeps : Keeps r movedFrom s s' := keeps_modify hgood hused hallow (by rw [hchan]; rfl)
    (by rw [hchan]; rfl) (fun j hj => by rw [hchan]; exact if_neg hj) hghost
  refine ⟨hkeeps, hkeeps.good, by rw [hchan]; rfl, by rw [hghost], by rw [hghost]; exact hpending, ?_⟩
  have hslot : s'.chan.msgs_ (r.slot s.chan.in_) = f (s.chan.msgs_ (r.slot s.chan.in_)) := by
    rw [hchan]
    exact if_pos rfl
  rw [hslot]
  exact hP _

theorem Filling.modify {Q : Message T → Prop} (h : Filling r movedFrom i P s)
    (f : Message T → Message T) (hchan : s'.chan = s.chan.modifyMsg (r.slot i) f)
    (hghost : s'.ghost = s.ghost) (hQ : ∀ m, P m → Q (f m)) :
    Keeps r movedFrom s s' ∧ Filling r movedFrom i Q s' := by
  obtain ⟨hgood, rfl, hfilling, hpending, hmsg⟩ := h
  obtain ⟨hused, hhanded⟩ := hgood.filling hfilling
  have heta : s.ghost = { s.ghost with filling := true } := by
    rw [← hfilling]
  have hkeeps : Keeps r movedFrom s s' := keeps_modify hgood hused hhanded (by rw [hchan]; rfl)
    (by rw [hchan]; rfl) (fun j hj => by rw [hchan]; exact if_neg hj) (hghost.trans heta)
  refine ⟨hkeeps, hkeeps.good, by rw [hchan]; rfl, by rw [hghost, hfilling], by rw [hghost, hpending], ?_⟩
  have hslot : s'.chan.msgs_ (r.slot s.chan.in_) = f (s.chan.msgs_ (r.slot s.chan.in_)) := by
    rw [hchan]
    exact if_pos rfl
  rw [hslot]
  exact hQ _ hmsg

def fill (r : RingSize) (call : WriteCall T) (i : BitVec 64) : Code T Unit :=
  match call with
  | .write bytes _ => assignData (r.slot i) bytes
  | .writev iov _ => do
      resizeData (r.slot i) (iov.map length).sum
      fillData (r.slot i) ((genericCopyv iov [range' 0 (iov.map length).sum]).map Prod.fst)

def finish [Inhabited T] (r : RingSize) (call : WriteCall T) (i : BitVec 64) : Code T (Status ℕ) :=
  match call with
  | .write bytes auxIn => do
      storeIn (i + 1) ⟨bytes, auxIn.getD default⟩ true
      return .ok bytes.length
  | .writev iov auxIn => do
      storeIn (i + 1) ⟨iov.flatten, auxIn.getD default⟩ false
      let n ← reportSize (r.slot i)
      return .ok n

def send [Inhabited T] (r : RingSize) (call : WriteCall T) (i : BitVec 64) : Code T (Status ℕ) := do
  fill r call i
  storeAux (r.slot i) call.auxIn
  finish r call i

def WriteCall.refused : WriteCall T → Bool
  | .write _ _ => false
  | .writev iov _ => (iov.map length).sum = 0

theorem map_fst_genericCopyv (iov : List (List UInt8)) :
    (genericCopyv iov [range' 0 (iov.map length).sum]).map Prod.fst = iov.flatten := by
  rw [genericCopyv_eq, map_fst_zip]
  simp [length_flatten]

variable [Inhabited T] {call : WriteCall T}

theorem fill_quiet {s : Shared T} (h : Vacant r movedFrom i s) :
    Quiet (exec r movedFrom) (allow movedFrom) (writerContract r movedFrom)
      (fun _ s => Filling r movedFrom i (fun m => m.data = call.bytes) s) (fill r call i) s := by
  cases call with
  | write bytes auxIn =>
    intro s₁ hy hallow
    have hmodify : Keeps r movedFrom s₁ (exec r movedFrom (.assignData (r.slot i) bytes) s₁).2 ∧
        Filling r movedFrom i (fun m => m.data = bytes) (exec r movedFrom (.assignData (r.slot i) bytes) s₁).2 :=
      (h.yields hy).modify (fun m => { m with data := bytes }) hallow rfl rfl fun _ => rfl
    exact ⟨⟨hmodify.1, rfl⟩, hmodify.2⟩
  | writev iov auxIn =>
    intro s₁ hy hallow
    have hresize : Keeps r movedFrom s₁ (exec r movedFrom (.resizeData (r.slot i) (iov.map length).sum) s₁).2 ∧
        Filling r movedFrom i (fun m => m.data.length = (iov.map length).sum)
          (exec r movedFrom (.resizeData (r.slot i) (iov.map length).sum) s₁).2 := by
      refine (h.yields hy).modify (fun m => { m with data := resize m.data _ }) hallow rfl rfl fun m => ?_
      simp only [resize, length_append, length_take, length_replicate]
      omega
    refine ⟨⟨hresize.1, rfl⟩, fun s₂ hy₂ _ => ?_⟩
    rw [map_fst_genericCopyv]
    have hfill : Keeps r movedFrom s₂ (exec r movedFrom (.fillData (r.slot i) iov.flatten) s₂).2 ∧
        Filling r movedFrom i (fun m => m.data = iov.flatten)
          (exec r movedFrom (.fillData (r.slot i) iov.flatten) s₂).2 := by
      refine (hresize.2.yields hy₂).modify
        (fun m => { m with data := iov.flatten ++ m.data.drop iov.flatten.length }) rfl rfl fun m hm => ?_
      have hlen : m.data.length = iov.flatten.length := by rw [hm, length_flatten]
      simp [← hlen]
    exact ⟨⟨hfill.1, rfl⟩, hfill.2⟩

theorem storeAux_quiet {s : Shared T} (hfair : call.Fair) (h : Filling r movedFrom i (fun m => m.data = call.bytes) s) :
    Quiet (exec r movedFrom) (allow movedFrom) (writerContract r movedFrom)
      (fun _ s => Filling r movedFrom i (fun m => m = call.message) s)
      (storeAux (r.slot i) call.auxIn) s := by
  cases haux : call.auxIn with
  | some aux =>
    intro s₁ hy _
    have hmodify : Keeps r movedFrom s₁ (exec r movedFrom (.storeAux (r.slot i) aux) s₁).2 ∧
        Filling r movedFrom i (fun m => m = call.message) (exec r movedFrom (.storeAux (r.slot i) aux) s₁).2 := by
      refine (h.yields hy).modify (fun m => { m with aux := aux }) rfl rfl fun m hm => ?_
      simp [WriteCall.message, haux, hm]
    exact ⟨⟨hmodify.1, rfl⟩, hmodify.2⟩
  | none =>
    have hsub : ∀ a b : T, a = b := hfair.resolve_left (by simp [haux])
    refine { h with msg := ?_ }
    have hdata := h.msg
    generalize s.chan.msgs_ (r.slot i) = m at hdata ⊢
    obtain ⟨data, aux⟩ := m
    rw [WriteCall.message, Message.mk.injEq]
    exact ⟨hdata, hsub _ _⟩

theorem finish_meets {s : Shared T} (h : Filling r movedFrom i (fun m => m = call.message) s) :
    Meets (exec r movedFrom) (allow movedFrom) watch (writerContract r movedFrom) call (finish r call i) s seen := by
  have hsend : ∀ (last : Bool) (s₁ : Shared T), Yields r movedFrom s s₁ →
      Keeps r movedFrom s₁ (exec r movedFrom (.storeIn (i + 1) call.message last) s₁).2 ∧ s₁.ghost.pending = none := by
    intro last s₁ hy
    obtain ⟨hgood, rfl, hfilling, hpending, hmsg⟩ := h.yields hy
    exact ⟨(keeps_storeIn hgood last hfilling hpending hmsg).1, hpending⟩
  cases call with
  | write bytes auxIn =>
    intro s₁ _ hy _ _ _
    obtain ⟨hk, hpending⟩ := hsend true s₁ hy
    exact ⟨⟨hk, ⟨rfl, hpending⟩, rfl⟩, trivial⟩
  | writev iov auxIn =>
    intro s₁ _ hy _ _ _
    refine ⟨⟨(hsend false s₁ hy).1, rfl⟩, fun s₂ _ hy₂ _ _ _ => ⟨?_, trivial⟩⟩
    refine ⟨keeps_reportSize hy₂.good _, ⟨hy₂.filling, rfl⟩, ?_⟩
    change s₂.ghost.reported ++ s₂.ghost.pending.toList = s₂.ghost.reported ++ [_]
    rw [hy₂.pending]
    rfl

theorem send_meets {s : Shared T} (hfair : call.Fair) (h : Vacant r movedFrom i s) :
    (writerContract r movedFrom).Effect call seen s s (send r call i) ∧
      Meets (exec r movedFrom) (allow movedFrom) watch (writerContract r movedFrom) call (send r call i) s seen := by
  have hdone : (finish r call i).isDone = false := by cases call <;> rfl
  refine Quiet.bind_meets ⟨Keeps.refl h.good, rfl⟩ (fill_quiet h)
    (fun _ => Prog.isDone_bind _ fun _ => hdone) fun _ s _ hfilling => ?_
  have hsilent : (writerContract r movedFrom).silent s s := ⟨Keeps.refl hfilling.good, rfl⟩
  exact (Quiet.bind_meets hsilent (storeAux_quiet hfair hfilling) (fun _ => hdone)
    fun _ s _ hfilled => finish_meets hfilled).2

theorem writer_code (call : WriteCall T) : ∃ rest : BitVec 64 → BitVec 64 → Code T (Status ℕ), (writer r).code call =
      (.act Access.loadIn fun i : BitVec 64 => .act Access.loadOut fun o : BitVec 64 => rest i o) ∧
    ∀ i o : BitVec 64, rest i o = if r.size ≤ i - o then .done (.error .EAGAIN)
      else if call.refused then .done (.error .EINVAL) else send r call i := by
  cases call with
  | write bytes auxIn =>
    refine ⟨_, rfl, fun i o => ?_⟩
    cases auxIn <;> rfl
  | writev iov auxIn =>
    refine ⟨_, rfl, fun i o => ?_⟩
    simp only [WriteCall.refused, decide_eq_true_eq]
    cases auxIn <;> rfl

theorem writer_honours : Honours (exec r movedFrom) (allow movedFrom) (Shared.Good r movedFrom)
    (writer r) (writerContract r movedFrom) WriteCall.Fair where
  refl _ h := Yields.refl h
  trans _ _ _ h h' := h.trans h'
  idle_rely _ _ hy hidle := ⟨hy.filling.trans hidle.1, hy.pending.trans hidle.2⟩
  idle_commit _ _ _ _ _ hcommit := hcommit.2.1
  not_done call := by cases call <;> rfl
  meets call s hfair hgood hidle := by
    obtain ⟨rest, hcode, hrest⟩ := writer_code call
    rw [hcode]
    intro s₁ seen₁ hy₁ _ _ _
    refine ⟨⟨Keeps.refl hy₁.good, rfl⟩, fun s₂ seen₂ hy₂ _ _ _ => ?_⟩
    have hy₂ : Yields r movedFrom s₁ s₂ := hy₂
    have hidle₂ : s₂.ghost.filling = false ∧ s₂.ghost.pending = none :=
      ⟨hy₂.filling.trans (hy₁.filling.trans hidle.1), hy₂.pending.trans (hy₁.pending.trans hidle.2)⟩
    change (writerContract r movedFrom).Effect call _ s₂ s₂ (rest s₁.chan.in_ s₂.chan.out_) ∧
      Meets _ _ _ _ call (rest s₁.chan.in_ s₂.chan.out_) s₂ _
    rw [hrest, ← hy₂.index]
    split_ifs with hfull hrefused
    · exact ⟨⟨Keeps.refl hy₂.good, hidle₂, rfl⟩, trivial⟩
    · exact ⟨⟨Keeps.refl hy₂.good, hidle₂, rfl⟩, trivial⟩
    refine send_meets hfair ⟨hy₂.good, rfl, ?_, hidle₂.2⟩
    rw [BitVec.le_def] at hfull
    exact not_le.1 hfull

end Writer
end Junction.MessageChannel

/-! ### Messages are delivered whole, once and in order -/

namespace Junction.MessageChannel
open Interleaving List
variable {T : Type} {r : RingSize} {movedFrom : T → T}

abbrev ReadEntry (T : Type) := Interleaving.Entry ReadCall (Status (List UInt8 × Option T))

abbrev WriteEntry (T : Type) := Interleaving.Entry (WriteCall T) (Status ℕ)

abbrev Delivery (T : Type) := ReadCall × List UInt8 × Option T

def delivery (e : ReadEntry T) : Option (Delivery T) :=
  match e.answer with
  | .ok answer => if e.call.peek then none else some (e.call, answer)
  | .error _ => none

def posting [Inhabited T] (e : WriteEntry T) : Option (Message T) :=
  match e.answer with
  | .ok _ => some e.call.message
  | .error _ => none

def deliveries (reads : List (ReadEntry T)) : List (Delivery T) := reads.filterMap delivery

def postings [Inhabited T] (writes : List (WriteEntry T)) : List (Message T) :=
  writes.filterMap posting

structure Linked [Inhabited T] (r : RingSize) (movedFrom : T → T) (s : Shared T)
    (reads : List (ReadEntry T)) (writes : List (WriteEntry T)) : Prop where
  good : s.Good r movedFrom
  reported : s.ghost.reported = postings writes
  delivered : s.ghost.delivered = (deliveries reads).length
  matched : ∀ (i : ℕ) (d : Delivery T), (deliveries reads)[i]? = some d →
    ∃ m, s.sent[i]? = some m ∧ d.1.Delivers d.2 m

namespace Linked
variable [Inhabited T] {s s' : Shared T} {reads : List (ReadEntry T)} {writes : List (WriteEntry T)}
  (h : Linked r movedFrom s reads writes)
include h

theorem yields (hy : Yields r movedFrom s s') (hdelivered : s'.ghost.delivered = s.ghost.delivered) :
    Linked r movedFrom s' reads writes where
  good := hy.good
  reported := hy.reported.trans h.reported
  delivered := hdelivered.trans h.delivered
  matched := by
    rw [Shared.sent, hy.reported, hy.pending]
    exact h.matched

theorem keeps (hk : Keeps r movedFrom s s') (hreported : s'.ghost.reported = s.ghost.reported) :
    Linked r movedFrom s' reads writes where
  good := hk.good
  reported := hreported.trans h.reported
  delivered := hk.delivered.trans h.delivered
  matched i d hd := by
    obtain ⟨m, hm, hdelivers⟩ := h.matched i d hd
    exact ⟨m, getElem?_of_isPrefix hk.sent hm, hdelivers⟩

theorem commit_read {call : ReadCall} {answer : Status (List UInt8 × Option T)} {seen : Bool}
    (hcommit : (readerContract r movedFrom).commit call answer seen s s') :
    Linked r movedFrom s' (reads ++ [⟨call, answer, seen⟩]) writes ∧ Yields r movedFrom s s' := by
  obtain ⟨hy, -, hanswer⟩ := hcommit
  refine ⟨?_, hy⟩
  have hsame : delivery ⟨call, answer, seen⟩ = none → s'.ghost.delivered = s.ghost.delivered →
      Linked r movedFrom s' (reads ++ [⟨call, answer, seen⟩]) writes := by
    intro hnone hdelivered
    have hlog : deliveries (reads ++ [⟨call, answer, seen⟩]) = deliveries reads := by
      simp [deliveries, filterMap_append, hnone]
    have h' := h.yields hy hdelivered
    exact ⟨h'.good, h'.reported, hlog ▸ h'.delivered, hlog ▸ h'.matched⟩
  cases answer with
  | error err => exact hsame rfl hanswer
  | ok answer =>
    obtain ⟨m, hm, hdelivers, hdelivered⟩ := hanswer
    cases hpeek : call.peek with
    | true =>
      rw [hpeek] at hdelivered
      exact hsame (by simp [delivery, hpeek]) hdelivered
    | false =>
      rw [hpeek] at hdelivered
      have hlog : deliveries (reads ++ [⟨call, .ok answer, seen⟩]) = deliveries reads ++ [(call, answer)] := by
        simp [deliveries, filterMap_append, delivery, hpeek]
      have hsent : s'.sent = s.sent := by rw [Shared.sent, Shared.sent, hy.reported, hy.pending]
      refine ⟨hy.good, hy.reported.trans h.reported, ?_, fun i d hd => ?_⟩
      · rw [hlog, length_append, ← h.delivered]
        exact hdelivered
      rw [hlog] at hd
      rw [hsent]
      rcases Nat.lt_or_ge i (deliveries reads).length with hi | hi
      · rw [getElem?_append_left hi] at hd
        exact h.matched i d hd
      rw [getElem?_append_right hi, getElem?_singleton] at hd
      split_ifs at hd with hzero
      obtain rfl := Option.some.inj hd
      obtain rfl : i = s.ghost.delivered := by
        rw [h.delivered]
        omega
      exact ⟨m, hm, hdelivers⟩

theorem commit_write {call : WriteCall T} {answer : Status ℕ} {seen : Bool}
    (hcommit : (writerContract r movedFrom).commit call answer seen s s') :
    Linked r movedFrom s' reads (writes ++ [⟨call, answer, seen⟩]) ∧ Keeps r movedFrom s s' := by
  obtain ⟨hk, -, hanswer⟩ := hcommit
  refine ⟨?_, hk⟩
  refine ⟨hk.good, ?_, hk.delivered.trans h.delivered, fun i d hd => ?_⟩
  · rw [postings, filterMap_append, ← postings, ← h.reported]
    cases answer with
    | error err => exact hanswer.trans (append_nil _).symm
    | ok n => exact hanswer
  · obtain ⟨m, hm, hdelivers⟩ := h.matched i d hd
    exact ⟨m, getElem?_of_isPrefix hk.sent hm, hdelivers⟩

end Linked

theorem coupled [Inhabited T] : Coupled (Shared.Good r movedFrom) (readerContract r movedFrom)
    (writerContract r movedFrom) (Linked r movedFrom) where
  good _ _ _ h := h.good
  silent_left _ _ _ _ h hsilent := ⟨h.yields hsilent.1 hsilent.2, hsilent.1⟩
  commit_left _ _ _ _ _ _ _ h hcommit := h.commit_read hcommit
  silent_right _ _ _ _ h hsilent := ⟨h.keeps hsilent.1 hsilent.2, hsilent.1⟩
  commit_right _ _ _ _ _ _ _ h hcommit := h.commit_write hcommit

/-- Turns that the source does not rule out otherwise: the writer begins to fill a slot only after the
reader has cleared it, auxiliary data are moved away once, peeks are made with the overloads that know of
them, and writes give the auxiliary data. -/
def Careful [Inhabited T] (r : RingSize) (movedFrom : T → T) : Duo T → Tick ReadCall (WriteCall T) → Prop :=
  System.May (allow movedFrom) (reader r) (writer r) ReadCall.Fair WriteCall.Fair

theorem linked_start [Inhabited T] (index : BitVec 64) (msgs : ℕ → Message T) :
    Linked r movedFrom (start index msgs).shared [] [] := by
  have hused : (start index msgs).shared.used = 0 := by simp [Shared.used, start]
  refine ⟨⟨?_, ?_, fun k hk => ?_, by simp [start], by simp [start]⟩, rfl, rfl, by simp [deliveries]⟩
  · rw [hused]
    exact Nat.zero_le _
  · rw [hused]
    rfl
  · rw [hused] at hk
    cases hk

/-- In every careful interleaving, the reads that take messages answer with the messages that were
written, one after the other. -/
theorem messageChannel_delivers [Inhabited T] (request : ℕ) (hrequest : request ≤ 2 ^ 63)
    (movedFrom : T → T) (index : BitVec 64) (msgs : ℕ → Message T) (ticks : List (Tick ReadCall (WriteCall T)))
    (hcareful : Run.Admitted (step (RingSize.ofRequest request hrequest) movedFrom)
      (Careful (RingSize.ofRequest request hrequest) movedFrom) (start index msgs) ticks) :
    let sys := Run.exec (step (RingSize.ofRequest request hrequest) movedFrom) (start index msgs) ticks
    ∀ (i : ℕ) (d : Delivery T), (deliveries sys.left.log)[i]? = some d →
      ∃ m, (postings sys.right.log ++ sys.shared.ghost.pending.toList)[i]? = some m ∧ d.1.Delivers d.2 m := by
  intro sys i d hd
  have h : Linked (RingSize.ofRequest request hrequest) movedFrom sys.shared sys.left.log sys.right.log :=
    (System.inv_exec reader_honours writer_honours coupled (linked_start index msgs) rfl ⟨rfl, rfl⟩ hcareful).coupled
  rw [← h.reported]
  exact h.matched i d hd

/-- While the first message is read, the next write waits for its slot to be cleared. -/
def carefulTicks : List (Tick ReadCall (WriteCall Bool)) :=
  replicate 5 (.right (.write [1, 2] (some true))) ++
  replicate 6 (.left (.read 1 true false)) ++ replicate 2 (.right (.write [3] (some false))) ++
  [.left (.read 1 true false)] ++ replicate 3 (.right (.write [3] (some false))) ++
  replicate 7 (.left (.read 4 true false))

/-- A channel for one message, whose indices are about to wrap around. -/
def oneSlot : Duo Bool := start (BitVec.ofNat 64 (2 ^ 64 - 1)) fun _ => ⟨[], false⟩

theorem messageChannel_delivers_carefulTicks :
    let sys := Run.exec (step (RingSize.ofRequest 1 (by decide)) fun _ => false) oneSlot carefulTicks
    (∀ (i : ℕ) (d : Delivery Bool), (deliveries sys.left.log)[i]? = some d →
      ∃ m, (postings sys.right.log ++ sys.shared.ghost.pending.toList)[i]? = some m ∧
        d.1.Delivers d.2 m) ∧ (deliveries sys.left.log).map Prod.snd = [([1], some true), ([3], some false)] := by
  exact ⟨messageChannel_delivers 1 (by decide) (fun _ => false) (BitVec.ofNat 64 (2 ^ 64 - 1))
    (fun _ => ⟨[], false⟩) carefulTicks (by unfold Careful; decide +kernel), by decide +kernel⟩

/-- The second write fills the slot before the first read has cleared it. -/
def fullRingTicks : List (Tick ReadCall (WriteCall Unit)) :=
  replicate 4 (.right (.write [1] none)) ++ replicate 5 (.left (.read 1 false false)) ++
  replicate 4 (.right (.write [2] none)) ++ replicate 7 (.left (.read 1 false false))

theorem message_lost :
    let sys := Run.exec (step (RingSize.ofRequest 1 (by decide)) id) (start 0 fun _ => ⟨[], ()⟩)
      fullRingTicks
    postings sys.right.log = [⟨[1], ()⟩, ⟨[2], ()⟩] ∧
      (deliveries sys.left.log).map Prod.snd = [([1], none), ([], none)] := by
  decide +kernel

end Junction.MessageChannel
