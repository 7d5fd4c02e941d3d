import Junction.Io
import Junction.Library.Interleaving
import Junction.RingSize

/-!
# The message channel

A ring of messages for one reader and one writer. The accesses to the shared state are the loads and
stores of the indices and the operations on the data and the auxiliary data of a slot. A read hands its
slot over to the writer by storing its index, and clears the data of the slot after that; a vectored write
looks at the size of its data after it has handed the slot over. Beside the channel runs a ghost state
that no access depends on. For a channel without auxiliary data the type of it is `Unit`.
-/

namespace Junction
open Interleaving Prog

structure Message (T : Type) where
  data : List UInt8
  aux : T
  deriving DecidableEq

structure MessageChannel (T : Type) where
  in_ : BitVec 64
  out_ : BitVec 64
  msgs_ : ℕ → Message T

namespace MessageChannel

/-- The ghost state: the messages of the writes that have ended, and of one that has stored its index
only; the number of messages whose reads have ended; the slot that the reader has handed over but not
cleared; whether the auxiliary data of the next message were moved away; whether the writer has begun to
fill its slot. -/
structure Ghost (T : Type) where
  reported : List (Message T)
  pending : Option (Message T)
  delivered : ℕ
  handed : Option ℕ
  moved : Bool
  filling : Bool

structure Shared (T : Type) where
  chan : MessageChannel T
  ghost : Ghost T

/-- One access to the shared state. The store of the writer's index also tells the ghost state the message
of the call and whether the call ends with it. -/
inductive Access (T : Type)
  | loadIn
  | loadOut
  | sizeData (slot : ℕ)
  | copyData (slot n : ℕ)
  | takeAux (slot : ℕ)
  | storeOut (index : BitVec 64)
  | clearData (slot : ℕ)
  | assignData (slot : ℕ) (bytes : List UInt8)
  | resizeData (slot n : ℕ)
  | fillData (slot : ℕ) (bytes : List UInt8)
  | storeAux (slot : ℕ) (aux : T)
  | storeIn (index : BitVec 64) (m : Message T) (last : Bool)
  | reportSize (slot : ℕ)

variable {T : Type}

def Access.Resp : Access T → Type
  | .loadIn => BitVec 64
  | .loadOut => BitVec 64
  | .sizeData _ => ℕ
  | .copyData _ _ => List UInt8
  | .takeAux _ => T
  | .reportSize _ => ℕ
  | _ => Unit

def modifyMsg (c : MessageChannel T) (slot : ℕ) (f : Message T → Message T) : MessageChannel T :=
  { c with msgs_ := fun j => if j = slot then f (c.msgs_ j) else c.msgs_ j }

def resize (data : List UInt8) (n : ℕ) : List UInt8 :=
  data.take n ++ List.replicate (n - data.length) 0

/-- What an access does to the channel. `movedFrom` gives what is left where a value was moved away. -/
def perform (movedFrom : T → T) : (a : Access T) → MessageChannel T → a.Resp × MessageChannel T
  | .loadIn, c => (c.in_, c)
  | .loadOut, c => (c.out_, c)
  | .sizeData slot, c => ((c.msgs_ slot).data.length, c)
  | .copyData slot n, c => ((c.msgs_ slot).data.take n, c)
  | .takeAux slot, c =>
    ((c.msgs_ slot).aux, c.modifyMsg slot fun m => { m with aux := movedFrom m.aux })
  | .storeOut index, c => ((), { c with out_ := index })
  | .clearData slot, c => ((), c.modifyMsg slot fun m => { m with data := [] })
  | .assignData slot bytes, c => ((), c.modifyMsg slot fun m => { m with data := bytes })
  | .resizeData slot n, c => ((), c.modifyMsg slot fun m => { m with data := resize m.data n })
  | .fillData slot bytes, c =>
    ((), c.modifyMsg slot fun m => { m with data := bytes ++ m.data.drop bytes.length })
  | .storeAux slot aux, c => ((), c.modifyMsg slot fun m => { m with aux := aux })
  | .storeIn index _ _, c => ((), { c with in_ := index })
  | .reportSize slot, c => ((c.msgs_ slot).data.length, c)

def note (r : RingSize) : Access T → Shared T → Ghost T
  | .takeAux _, s => { s.ghost with moved := true }
  | .storeOut _, s => { s.ghost with handed := some (r.slot s.chan.out_), moved := false }
  | .clearData _, s => { s.ghost with handed := none, delivered := s.ghost.delivered + 1 }
  | .assignData _ _, s => { s.ghost with filling := true }
  | .resizeData _ _, s => { s.ghost with filling := true }
  | .storeIn _ m last, s =>
    if last then { s.ghost with filling := false, reported := s.ghost.reported ++ [m] }
    else { s.ghost with filling := false, pending := some m }
  | .reportSize _, s =>
    { s.ghost with reported := s.ghost.reported ++ s.ghost.pending.toList, pending := none }
  | _, s => s.ghost

def exec (r : RingSize) (movedFrom : T → T) (a : Access T) (s : Shared T) : a.Resp × Shared T :=
  ((perform movedFrom a s.chan).1, ⟨(perform movedFrom a s.chan).2, note r a s⟩)

abbrev Code (T : Type) := Prog (Access T) Access.Resp

def loadIn : Code T (BitVec 64) := access Access.loadIn

def loadOut : Code T (BitVec 64) := access Access.loadOut

def sizeData (slot : ℕ) : Code T ℕ := access (Access.sizeData slot)

def copyData (slot n : ℕ) : Code T (List UInt8) := access (Access.copyData slot n)

def storeOut (index : BitVec 64) : Code T Unit := access (Access.storeOut index)

def clearData (slot : ℕ) : Code T Unit := access (Access.clearData slot)

def assignData (slot : ℕ) (bytes : List UInt8) : Code T Unit :=
  access (Access.assignData slot bytes)

def resizeData (slot n : ℕ) : Code T Unit := access (Access.resizeData slot n)

def fillData (slot : ℕ) (bytes : List UInt8) : Code T Unit := access (Access.fillData slot bytes)

def storeIn (index : BitVec 64) (m : Message T) (last : Bool) : Code T Unit :=
  access (Access.storeIn index m last)

def reportSize (slot : ℕ) : Code T ℕ := access (Access.reportSize slot)

/-- The auxiliary data are moved out if there is a place for them. -/
def takeAux (slot : ℕ) (auxOut : Bool) : Code T (Option T) :=
  if auxOut then do
    let aux ← (access (Access.takeAux slot) : Code T T)
    return some aux
  else return none

def storeAux (slot : ℕ) : Option T → Code T Unit
  | some aux => access (Access.storeAux slot aux)
  | none => pure ()

variable (r : RingSize)

/-- `Read` into a buffer of `len` bytes; `auxOut` says that there is a place for the auxiliary data. -/
def read (len : ℕ) (auxOut peek : Bool) : Code T (Status (List UInt8 × Option T)) := do
  let i ← loadIn
  let o ← loadOut
  if i = o then return .error .EAGAIN
  else
    let size ← sizeData (r.slot o)
    let bytes ← copyData (r.slot o) (min len size)
    let aux ← takeAux (r.slot o) auxOut
    if peek then return .ok (bytes, aux)
    else
      storeOut (o + 1)
      clearData (r.slot o)
      return .ok (bytes, aux)

/-- The overload of `Read` without auxiliary data, which does not pass its last argument on. -/
def readShort (len : ℕ) (_peek : Bool) : Code T (Status (List UInt8 × Option T)) :=
  read r len false false

variable [Inhabited T]

def write (bytes : List UInt8) (auxIn : Option T) : Code T (Status ℕ) := do
  let i ← loadIn
  let o ← loadOut
  if r.size ≤ i - o then return .error .EAGAIN
  else
    assignData (r.slot i) bytes
    storeAux (r.slot i) auxIn
    storeIn (i + 1) ⟨bytes, auxIn.getD default⟩ true
    return .ok bytes.length

/-- `Readv` into buffers of the given lengths. -/
def readv (iov : List ℕ) (peek auxOut : Bool) : Code T (Status (List UInt8 × Option T)) := do
  let i ← loadIn
  let o ← loadOut
  if i = o then return .error .EAGAIN
  else if iov = [] then return .error .EINVAL
  else
    let size ← sizeData (r.slot o)
    let bytes ← copyData (r.slot o) (genericCopyv [List.range' 0 size] (cellsOf 0 iov)).length
    let aux ← takeAux (r.slot o) auxOut
    if peek then return .ok (bytes, aux)
    else
      storeOut (o + 1)
      clearData (r.slot o)
      return .ok (bytes, aux)

def writev (iov : List (List UInt8)) (auxIn : Option T) : Code T (Status ℕ) := do
  let i ← loadIn
  let o ← loadOut
  if r.size ≤ i - o then return .error .EAGAIN
  else
    let len := (iov.map List.length).sum
    if len = 0 then return .error .EINVAL
    else
      resizeData (r.slot i) len
      fillData (r.slot i) ((genericCopyv iov [List.range' 0 len]).map Prod.fst)
      storeAux (r.slot i) auxIn
      storeIn (i + 1) ⟨iov.flatten, auxIn.getD default⟩ false
      let n ← reportSize (r.slot i)
      return .ok n

inductive ReadCall
  | read (len : ℕ) (auxOut peek : Bool)
  | readShort (len : ℕ) (peek : Bool)
  | readv (iov : List ℕ) (peek auxOut : Bool)

inductive WriteCall (T : Type)
  | write (bytes : List UInt8) (auxIn : Option T)
  | writev (iov : List (List UInt8)) (auxIn : Option T)

def reader : Client (Shared T) (Access T) Access.Resp ReadCall (Status (List UInt8 × Option T)) where
  code
    | .read len auxOut peek => read r len auxOut peek
    | .readShort len peek => readShort r len peek
    | .readv iov peek auxOut => readv r iov peek auxOut
  watch _ := false

def writer : Client (Shared T) (Access T) Access.Resp (WriteCall T) (Status ℕ) where
  code
    | .write bytes auxIn => write r bytes auxIn
    | .writev iov auxIn => writev r iov auxIn
  watch _ := false

abbrev Duo (T : Type) := System (Shared T) (Access T) Access.Resp ReadCall
  (Status (List UInt8 × Option T)) (WriteCall T) (Status ℕ)

/-- A channel without messages, whose indices may start anywhere. -/
def start (index : BitVec 64) (msgs : ℕ → Message T) : Duo T :=
  ⟨⟨⟨index, index, msgs⟩, ⟨[], none, 0, none, false, false⟩⟩, .idle, .idle⟩

def step (movedFrom : T → T) : Duo T → Tick ReadCall (WriteCall T) → Duo T :=
  System.step (exec r movedFrom) (reader r) (writer r)

end MessageChannel
end Junction

/-! ### Who may touch a slot

A slot that the reader has handed over is outside of the messages until the writer has filled it, and the writer must
not begin to fill it before the reader has cleared it. -/

namespace Junction.MessageChannel
open Interleaving List Nat
variable {T : Type} {r : RingSize} {movedFrom : T → T}

namespace Shared

def used (s : Shared T) : ℕ := (s.chan.in_ - s.chan.out_).toNat

def sent (s : Shared T) : List (Message T) := s.ghost.reported ++ s.ghost.pending.toList

def taken (s : Shared T) : ℕ := s.ghost.delivered + if s.ghost.handed.isSome then 1 else 0

/-- The slot of the `k`-th message in the channel. -/
def cell (r : RingSize) (s : Shared T) (k : ℕ) : ℕ := (s.chan.out_.toNat + k) % r.size.toNat

/-- A slot holds a message, up to auxiliary data that were moved away. -/
def Holds (r : RingSize) (movedFrom : T → T) (s : Shared T) (k : ℕ) (m : Message T) : Prop :=
  (s.chan.msgs_ (s.cell r k)).data = m.data ∧
    ((k ≠ 0 ∨ s.ghost.moved = false ∨ ∀ a, movedFrom a = a) → (s.chan.msgs_ (s.cell r k)).aux = m.aux)

structure Good (r : RingSize) (movedFrom : T → T) (s : Shared T) : Prop where
  fits : s.used ≤ r.size.toNat
  count : s.taken + s.used = s.sent.length
  window : ∀ k < s.used, ∃ m, s.sent[s.taken + k]? = some m ∧ s.Holds r movedFrom k m
  handed : ∀ i, s.ghost.handed = some i → i = s.cell r (r.size.toNat - 1) ∧ s.used < r.size.toNat
  filling : s.ghost.filling = true →
    s.used < r.size.toNat ∧ s.ghost.handed ≠ some (r.slot s.chan.in_)

theorem slot_out (s : Shared T) : r.slot s.chan.out_ = s.cell r 0 := r.slot_eq _

theorem slot_in (s : Shared T) : r.slot s.chan.in_ = s.cell r s.used := by
  rw [r.slot_eq]
  exact r.cell_ahead s.chan.in_ s.chan.out_ 0

theorem cell_ne {s : Shared T} {j k : ℕ} (hj : j < r.size.toNat) (hk : k < r.size.toNat)
    (hne : j ≠ k) : s.cell r j ≠ s.cell r k := Ring.cell_ne hj hk hne

theorem Good.window_of_eq {s s' : Shared T} (h : s.Good r movedFrom) (hout : s'.chan.out_ = s.chan.out_)
    (hmoved : s'.ghost.moved = s.ghost.moved)
    (hmsgs : ∀ k < s.used, s'.chan.msgs_ (s.cell r k) = s.chan.msgs_ (s.cell r k)) :
    ∀ k < s.used, ∃ m, s.sent[s.taken + k]? = some m ∧ s'.Holds r movedFrom k m := by
  intro k hk
  obtain ⟨m, hm, hholds⟩ := h.window k hk
  refine ⟨m, hm, ?_⟩
  have hcell : s'.cell r k = s.cell r k := by rw [cell, cell, hout]
  rw [Holds, hcell, hmsgs k hk, hmoved]
  exact hholds

end Shared

structure Keeps (r : RingSize) (movedFrom : T → T) (s s' : Shared T) : Prop where
  good : s'.Good r movedFrom
  index : s'.chan.out_ = s.chan.out_
  handed : s'.ghost.handed = s.ghost.handed
  delivered : s'.ghost.delivered = s.ghost.delivered
  moved : s'.ghost.moved = s.ghost.moved
  sent : s.sent <+: s'.sent
  used : s.used ≤ s'.used

structure Yields (r : RingSize) (movedFrom : T → T) (s s' : Shared T) : Prop where
  good : s'.Good r movedFrom
  index : s'.chan.in_ = s.chan.in_
  filling : s'.ghost.filling = s.ghost.filling
  reported : s'.ghost.reported = s.ghost.reported
  pending : s'.ghost.pending = s.ghost.pending
  used : s'.used ≤ s.used
  slot : s.ghost.filling = true →
    s'.chan.msgs_ (r.slot s.chan.in_) = s.chan.msgs_ (r.slot s.chan.in_)

/-- The writer does not begin to fill a slot that is not cleared yet, and the auxiliary data of a message
are not moved away twice, unless this leaves them in place. -/
def allow (movedFrom : T → T) : Access T → Shared T → Prop
  | .assignData slot _, s => s.ghost.handed ≠ some slot
  | .resizeData slot _, s => s.ghost.handed ≠ some slot
  | .takeAux _, s => s.ghost.moved = true → ∀ a, movedFrom a = a
  | _, _ => True

instance [Decidable (∀ a, movedFrom a = a)] (a : Access T) (s : Shared T) : Decidable (allow movedFrom a s) := by
  unfold allow
  split <;> infer_instance

theorem Keeps.refl {s : Shared T} (h : s.Good r movedFrom) : Keeps r movedFrom s s :=
  ⟨h, rfl, rfl, rfl, rfl, prefix_rfl, Nat.le_refl _⟩

theorem Keeps.trans {s s₁ s₂ : Shared T} (h : Keeps r movedFrom s s₁) (h' : Keeps r movedFrom s₁ s₂) :
    Keeps r movedFrom s s₂ :=
  ⟨h'.good, h'.index.trans h.index, h'.handed.trans h.handed, h'.delivered.trans h.delivered,
    h'.moved.trans h.moved, h.sent.trans h'.sent, h.used.trans h'.used⟩

theorem Yields.refl {s : Shared T} (h : s.Good r movedFrom) : Yields r movedFrom s s :=
  ⟨h, rfl, rfl, rfl, rfl, Nat.le_refl _, fun _ => rfl⟩

theorem Yields.trans {s s₁ s₂ : Shared T} (h : Yields r movedFrom s s₁)
    (h' : Yields r movedFrom s₁ s₂) : Yields r movedFrom s s₂ where
  good := h'.good
  index := h'.index.trans h.index
  filling := h'.filling.trans h.filling
  reported := h'.reported.trans h.reported
  pending := h'.pending.trans h.pending
  used := h'.used.trans h.used
  slot hfilling := by
    rw [← h.slot hfilling, ← h.index]
    exact h'.slot (h.filling.trans hfilling)

section Reader
variable {s : Shared T} (h : s.Good r movedFrom)
include h

theorem yields_takeAux (hused : 0 < s.used) : Yields r movedFrom s (exec r movedFrom (.takeAux (s.cell r 0)) s).2 := by
  have hfirst : (exec r movedFrom (.takeAux (s.cell r 0)) s).2.chan.msgs_ (s.cell r 0) =
      { s.chan.msgs_ (s.cell r 0) with aux := movedFrom (s.chan.msgs_ (s.cell r 0)).aux } := if_pos rfl
  have hother : ∀ k < r.size.toNat, k ≠ 0 → (exec r movedFrom (.takeAux (s.cell r 0)) s).2.chan.msgs_ (s.cell r k) =
        s.chan.msgs_ (s.cell r k) := fun k hk hne =>
    if_neg (Shared.cell_ne hk r.size_pos hne)
  refine ⟨{ h with window := fun k hk => ?_ }, rfl, rfl, rfl, rfl, Nat.le_refl _, fun hfilling => ?_⟩
  · obtain ⟨m, hm, hdata, haux⟩ := h.window k hk
    refine ⟨m, hm, ?_⟩
    by_cases hk0 : k = 0
    · subst hk0
      refine ⟨(congrArg Message.data hfirst).trans hdata, fun hor => (congrArg Message.aux hfirst).trans ?_⟩
      rcases hor with hne | hfalse | hid
      · exact absurd rfl hne
      · cases hfalse
      · rw [hid]
        exact haux (.inr (.inr hid))
    · have heq := hother k (hk.trans_le h.fits) hk0
      exact ⟨(congrArg Message.data heq).trans hdata, fun _ =>
        (congrArg Message.aux heq).trans (haux (.inl hk0))⟩
  · rw [Shared.slot_in]
    exact hother _ (h.filling hfilling).1 hused.ne'

omit h in
theorem used_storeOut (hused : 0 < s.used) :
    (exec r movedFrom (.storeOut (s.chan.out_ + 1)) s).2.used = s.used - 1 := by
  change (s.chan.in_ - (s.chan.out_ + 1)).toNat = (s.chan.in_ - s.chan.out_).toNat - 1
  change 0 < (s.chan.in_ - s.chan.out_).toNat at hused
  bv_omega

omit h in
theorem cell_storeOut (k : ℕ) : (exec r movedFrom (.storeOut (s.chan.out_ + 1)) s).2.cell r k = s.cell r (k + 1) := by
  change ((s.chan.out_ + 1).toNat + k) % r.size.toNat = (s.chan.out_.toNat + (k + 1)) % r.size.toNat
  have hone := r.add_mod s.chan.out_ 1
  rw [add_mod, show (s.chan.out_ + 1 : BitVec 64) = s.chan.out_ + BitVec.ofNat 64 1 from rfl, hone,
    ← add_mod, add_assoc, add_comm 1 k]

theorem yields_storeOut (hused : 0 < s.used) (hhanded : s.ghost.handed = none) :
    Yields r movedFrom s (exec r movedFrom (.storeOut (s.chan.out_ + 1)) s).2 := by
  have hused' : (exec r movedFrom (.storeOut (s.chan.out_ + 1)) s).2.used = s.used - 1 := used_storeOut hused
  have hfits := h.fits
  have htaken : (exec r movedFrom (.storeOut (s.chan.out_ + 1)) s).2.taken = s.taken + 1 := by
    simp [Shared.taken, hhanded, exec, note]
  refine ⟨⟨by omega, ?_, fun k hk => ?_, fun i hi => ?_, fun hfilling => ?_⟩, rfl, rfl, rfl, rfl, by omega,
    fun _ => rfl⟩
  · have hcount := h.count
    change _ + _ = s.sent.length
    omega
  · obtain ⟨m, hm, hdata, haux⟩ := h.window (k + 1) (by omega)
    refine ⟨m, ?_, ?_⟩
    · rw [htaken, add_assoc, add_comm 1 k]
      exact hm
    · rw [Shared.Holds, cell_storeOut]
      exact ⟨hdata, fun _ => haux (.inl (succ_ne_zero k))⟩
  · have hi : r.slot s.chan.out_ = i := Option.some.inj hi
    refine ⟨?_, by omega⟩
    rw [cell_storeOut, ← hi, Nat.sub_add_cancel r.size_pos, r.slot_eq]
    exact (add_mod_right _ _).symm
  have hlt := (h.filling hfilling).1
  refine ⟨by omega, fun heq => ?_⟩
  have heq : r.slot s.chan.out_ = r.slot s.chan.in_ := Option.some.inj heq
  rw [Shared.slot_out, Shared.slot_in] at heq
  exact Shared.cell_ne r.size_pos hlt hused.ne heq

theorem yields_clearData {i : ℕ} (hhanded : s.ghost.handed = some i) :
    Yields r movedFrom s (exec r movedFrom (.clearData i) s).2 := by
  obtain ⟨rfl, hlt⟩ := h.handed i hhanded
  have htaken : (exec r movedFrom (.clearData (s.cell r (r.size.toNat - 1))) s).2.taken = s.taken := by
    simp [Shared.taken, hhanded, exec, note]
  have hmsgs : ∀ k < s.used, (exec r movedFrom (.clearData (s.cell r (r.size.toNat - 1))) s).2.chan.msgs_
      (s.cell r k) = s.chan.msgs_ (s.cell r k) := fun k hk =>
    if_neg (Shared.cell_ne (by omega) (by omega) (by omega))
  refine ⟨⟨h.fits, ?_, ?_, nofun, fun hfilling => ⟨hlt, nofun⟩⟩, rfl, rfl, rfl, rfl, Nat.le_refl _,
    fun hfilling => if_neg ?_⟩
  · rw [htaken]
    exact h.count
  · rw [htaken]
    exact h.window_of_eq rfl rfl hmsgs
  · intro heq
    exact (h.filling hfilling).2 (by rw [hhanded, heq])

end Reader

section Writer
variable {s : Shared T} (h : s.Good r movedFrom)
include h

theorem keeps_modify {s' : Shared T} (hlt : s.used < r.size.toNat) (hhanded : s.ghost.handed ≠ some (r.slot s.chan.in_))
    (hin : s'.chan.in_ = s.chan.in_) (hout : s'.chan.out_ = s.chan.out_)
    (hmsgs : ∀ j, j ≠ r.slot s.chan.in_ → s'.chan.msgs_ j = s.chan.msgs_ j)
    (hghost : s'.ghost = { s.ghost with filling := true }) : Keeps r movedFrom s s' := by
  have hused : s'.used = s.used := by rw [Shared.used, Shared.used, hin, hout]
  have hsent : s'.sent = s.sent := by rw [Shared.sent, Shared.sent, hghost]
  have htaken : s'.taken = s.taken := by rw [Shared.taken, Shared.taken, hghost]
  have hcell : ∀ k, s'.cell r k = s.cell r k := fun k => by rw [Shared.cell, Shared.cell, hout]
  have hhanded' : s'.ghost.handed = s.ghost.handed := by rw [hghost]
  refine ⟨⟨?_, ?_, ?_, ?_, fun _ => ?_⟩, hout, hhanded', by rw [hghost], by rw [hghost], ?_, hused.ge⟩
  · rw [hused]
    exact h.fits
  · rw [hused, hsent, htaken]
    exact h.count
  · rw [hused, hsent, htaken]
    refine h.window_of_eq hout (by rw [hghost]) fun k hk => hmsgs _ ?_
    rw [Shared.slot_in]
    exact Shared.cell_ne (by omega) hlt (by omega)
  · rw [hhanded', hcell, hused]
    exact h.handed
  · rw [hused, hhanded', hin]
    exact ⟨hlt, hhanded⟩
  · rw [hsent]

omit h in
theorem used_storeIn (m : Message T) (last : Bool) (hlt : s.used < r.size.toNat) :
    (exec r movedFrom (.storeIn (s.chan.in_ + 1) m last) s).2.used = s.used + 1 := by
  change (s.chan.in_ + 1 - s.chan.out_).toNat = (s.chan.in_ - s.chan.out_).toNat + 1
  change (s.chan.in_ - s.chan.out_).toNat < r.size.toNat at hlt
  bv_omega

theorem keeps_storeIn {m : Message T} (last : Bool) (hfilling : s.ghost.filling)
    (hpending : s.ghost.pending = none) (hmsg : s.chan.msgs_ (r.slot s.chan.in_) = m) :
    Keeps r movedFrom s (exec r movedFrom (.storeIn (s.chan.in_ + 1) m last) s).2 ∧
      (exec r movedFrom (.storeIn (s.chan.in_ + 1) m last) s).2.sent = s.sent ++ [m] := by
  set s' := (exec r movedFrom (.storeIn (s.chan.in_ + 1) m last) s).2 with hs'
  obtain ⟨hlt, hhanded⟩ := h.filling hfilling
  have hused : s'.used = s.used + 1 := used_storeIn m last hlt
  have hsent : s'.sent = s.sent ++ [m] := by
    cases last <;> simp [hs', Shared.sent, exec, note, hpending]
  have hghost : s'.ghost.handed = s.ghost.handed ∧ s'.ghost.delivered = s.ghost.delivered ∧
      s'.ghost.moved = s.ghost.moved ∧ s'.ghost.filling = false := by
    cases last <;> exact ⟨rfl, rfl, rfl, rfl⟩
  obtain ⟨hhanded', hdelivered, hmoved, hfilling'⟩ := hghost
  have htaken : s'.taken = s.taken := by
    rw [Shared.taken, Shared.taken, hhanded', hdelivered]
  refine ⟨⟨⟨by omega, ?_, fun k hk => ?_, fun i hi => ?_, ?_⟩, rfl, hhanded', hdelivered, hmoved, ?_, by omega⟩, hsent⟩
  · have hcount := h.count
    rw [hused, htaken, hsent, length_append, length_singleton]
    omega
  · rw [htaken, hsent]
    rcases lt_or_ge k s.used with hk' | hk'
    · have hwindow : ∀ k < s.used, ∃ m', s.sent[s.taken + k]? = some m' ∧ s'.Holds r movedFrom k m' :=
        h.window_of_eq rfl hmoved fun _ _ => rfl
      obtain ⟨m', hm, hholds⟩ := hwindow k hk'
      refine ⟨m', ?_, hholds⟩
      rw [getElem?_append_left]
      · exact hm
      · have hcount := h.count
        omega
    obtain rfl : k = s.used := by omega
    refine ⟨m, ?_, ?_⟩
    · rw [h.count, getElem?_append_right (Nat.le_refl _), Nat.sub_self]
      rfl
    · rw [← hmsg, Shared.slot_in]
      exact ⟨rfl, fun _ => rfl⟩
  · rw [hhanded'] at hi
    obtain ⟨hcell, _⟩ := h.handed i hi
    refine ⟨hcell, ?_⟩
    have hne : s.used ≠ r.size.toNat - 1 := by
      intro heq
      rw [hi, hcell, Shared.slot_in, heq] at hhanded
      exact hhanded rfl
    omega
  · rw [hfilling']
    nofun
  · rw [hsent]
    exact prefix_append _ _

theorem keeps_reportSize (i : ℕ) : Keeps r movedFrom s (exec r movedFrom (.reportSize i) s).2 := by
  have hsent : (exec r movedFrom (.reportSize i) s).2.sent = s.sent := by
    simp [Shared.sent, exec, note]
  refine ⟨{ h with count := ?_, window := ?_ }, rfl, rfl, rfl, rfl, hsent ▸ prefix_rfl, Nat.le_refl _⟩
  · rw [hsent]
    exact h.count
  · rw [hsent]
    exact h.window

end Writer
end Junction.MessageChannel
