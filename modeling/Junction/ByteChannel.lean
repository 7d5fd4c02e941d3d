import Junction.Io
import Junction.Library.Interleaving
import Junction.RingSize

/-!
# The byte channel

A lock-free ring of bytes for one reader and one writer. The accesses that the two make to the shared
state are the loads and stores of the two indices and the copies of single bytes; everything between them
is local. `size_` and `mask_` are constant.
-/

namespace Junction
open Interleaving

structure ByteChannel where
  in_ : BitVec 64
  out_ : BitVec 64
  buf_ : ℕ → UInt8

namespace ByteChannel

inductive Access
  | loadIn
  | loadOut
  | loadByte (pos : ℕ)
  | storeByte (pos : ℕ) (b : UInt8)
  | storeIn (index : BitVec 64)
  | storeOut (index : BitVec 64)

def Access.Resp : Access → Type
  | .loadIn => BitVec 64
  | .loadOut => BitVec 64
  | .loadByte _ => UInt8
  | .storeByte _ _ => Unit
  | .storeIn _ => Unit
  | .storeOut _ => Unit

def exec : (a : Access) → ByteChannel → a.Resp × ByteChannel
  | .loadIn, c => (c.in_, c)
  | .loadOut, c => (c.out_, c)
  | .loadByte pos, c => (c.buf_ pos, c)
  | .storeByte pos b, c => ((), { c with buf_ := fun j => if j = pos then b else c.buf_ j })
  | .storeIn index, c => ((), { c with in_ := index })
  | .storeOut index, c => ((), { c with out_ := index })

abbrev Code := Prog Access Access.Resp

def loadIn : Code (BitVec 64) := Prog.access Access.loadIn

def loadOut : Code (BitVec 64) := Prog.access Access.loadOut

def loadByte (pos : ℕ) : Code UInt8 := Prog.access (Access.loadByte pos)

def storeByte (pos : ℕ) (b : UInt8) : Code Unit := Prog.access (Access.storeByte pos b)

def storeIn (index : BitVec 64) : Code Unit := Prog.access (Access.storeIn index)

def storeOut (index : BitVec 64) : Code Unit := Prog.access (Access.storeOut index)

def copyOut : List ℕ → Code (List UInt8)
  | [] => pure []
  | pos :: positions => do
      let b ← loadByte pos
      let bs ← copyOut positions
      return b :: bs

def copyIn : List (UInt8 × ℕ) → Code Unit
  | [] => pure ()
  | (b, pos) :: moves => do
      storeByte pos b
      copyIn moves

variable (r : RingSize)

/-- `Read` into a buffer of `len` bytes. -/
def read (len : ℕ) (peek : Bool) : Code (Status (List UInt8)) := do
  let i ← loadIn
  let o ← loadOut
  let n := min (i - o).toNat len
  if n = 0 then return .error .EAGAIN
  else
    let bytes ← copyOut (r.segments o n).flatten
    if peek then return .ok bytes
    else
      storeOut (o + BitVec.ofNat 64 n)
      return .ok bytes

def write (bytes : List UInt8) : Code (Status ℕ) := do
  let i ← loadIn
  let o ← loadOut
  let n := min (r.size - (i - o)).toNat bytes.length
  if n = 0 then return .error .EAGAIN
  else
    copyIn (bytes.zip (r.segments i n).flatten)
    storeIn (i + BitVec.ofNat 64 n)
    return .ok n

/-- `Readv` into buffers of the given lengths. -/
def readv (iov : List ℕ) (peek : Bool) : Code (Status (List UInt8)) := do
  let i ← loadIn
  let o ← loadOut
  let n := (i - o).toNat
  if n = 0 then return .error .EAGAIN
  else
    let moves := genericCopyv (r.segments o n) (cellsOf 0 iov)
    let bytes ← copyOut (moves.map Prod.fst)
    if peek then return .ok bytes
    else
      storeOut (o + BitVec.ofNat 64 moves.length)
      return .ok bytes

def writev (iov : List (List UInt8)) : Code (Status ℕ) := do
  let i ← loadIn
  let o ← loadOut
  let n := (r.size - (i - o)).toNat
  if n = 0 then return .error .EAGAIN
  else
    let moves := genericCopyv iov (r.segments i n)
    copyIn moves
    storeIn (i + BitVec.ofNat 64 moves.length)
    return .ok moves.length

inductive ReadCall
  | read (len : ℕ) (peek : Bool)
  | readv (iov : List ℕ) (peek : Bool)

inductive WriteCall
  | write (bytes : List UInt8)
  | writev (iov : List (List UInt8))

variable (c : ByteChannel)

def isEmpty : Bool := c.in_ == c.out_

def isFull : Bool := r.size ≤ c.in_ - c.out_

def reader : Client ByteChannel Access Access.Resp ReadCall (Status (List UInt8)) where
  code
    | .read len peek => read r len peek
    | .readv iov peek => readv r iov peek
  watch := isEmpty

def writer : Client ByteChannel Access Access.Resp WriteCall (Status ℕ) where
  code
    | .write bytes => write r bytes
    | .writev iov => writev r iov
  watch := isFull r

abbrev Duo := System ByteChannel Access Access.Resp ReadCall (Status (List UInt8)) WriteCall (Status ℕ)

/-- A channel with a reader and a writer that have made no calls yet. -/
def start (c : ByteChannel) : Duo := ⟨c, .idle, .idle⟩

def run (ticks : List (Tick ReadCall WriteCall)) : Duo :=
  Run.exec (System.step exec (reader r) (writer r)) (start c) ticks

end ByteChannel
end Junction

/-! ### The contracts: what lies between the two indices belongs to the reader, the rest to the writer -/

namespace Junction.ByteChannel
open Interleaving List Nat
variable {r : RingSize}

def used (c : ByteChannel) : ℕ := (c.in_ - c.out_).toNat

variable {c : ByteChannel}

theorem isEmpty_iff : isEmpty c ↔ c.used = 0 := by
  rw [isEmpty, beq_iff_eq, used]
  constructor
  · intro h
    simp [h]
  · intro h
    bv_omega

theorem isFull_iff : isFull r c ↔ r.size.toNat ≤ c.used := by
  rw [isFull, decide_eq_true_eq, BitVec.le_def, used]

def contents (r : RingSize) (c : ByteChannel) : List UInt8 :=
  Ring.window r.size.toNat c.buf_ c.out_.toNat c.used

def Fits (r : RingSize) (c : ByteChannel) : Prop := c.used ≤ r.size.toNat

namespace ReadCall

def peek : ReadCall → Bool
  | .read _ peek => peek
  | .readv _ peek => peek

def room : ReadCall → ℕ
  | .read len _ => len
  | .readv iov _ => iov.sum

def gives (avail : ℕ) : ReadCall → Bool
  | .read len _ => min avail len = 0
  | .readv _ _ => avail = 0

theorem used_of_gives {avail : ℕ} (call : ReadCall) (hroom : 0 < call.room)
    (hgives : call.gives avail) : avail = 0 := by
  cases call with
  | read len peek =>
    have hmin : min avail len = 0 := by simpa [gives] using hgives
    have hlen : 0 < len := hroom
    omega
  | readv iov peek => simpa [gives] using hgives

end ReadCall

namespace WriteCall

def bytes : WriteCall → List UInt8
  | .write bytes => bytes
  | .writev iov => iov.flatten

def gives (free : ℕ) : WriteCall → Bool
  | .write bytes => min free bytes.length = 0
  | .writev _ => free = 0

theorem free_of_gives {free : ℕ} (call : WriteCall) (hlen : 0 < call.bytes.length)
    (hgives : call.gives free) : free = 0 := by
  cases call with
  | write bytes =>
    have hmin : min free bytes.length = 0 := by simpa [gives] using hgives
    have hlen : 0 < bytes.length := hlen
    omega
  | writev iov => simpa [gives] using hgives

end WriteCall

structure Keeps (r : RingSize) (c c' : ByteChannel) : Prop where
  fits : Fits r c'
  index : c'.out_ = c.out_
  used : c.used ≤ c'.used
  bytes : ∀ j < c.used, c'.buf_ ((c.out_.toNat + j) % r.size.toNat) =
    c.buf_ ((c.out_.toNat + j) % r.size.toNat)

structure Yields (r : RingSize) (c c' : ByteChannel) : Prop where
  fits : Fits r c'
  index : c'.in_ = c.in_
  buf : c'.buf_ = c.buf_
  used : c'.used ≤ c.used

def readerContract (r : RingSize) : Contract ByteChannel ReadCall (Status (List UInt8)) where
  rely := Keeps r
  silent c c' := c' = c
  commit call answer seen c c' :=
    match answer with
    | .error e => c' = c ∧ e = .EAGAIN ∧ (0 < call.room → seen = true)
    | .ok bytes => ∃ n ≤ c.used, n ≤ call.room ∧
        bytes = Ring.window r.size.toNat c.buf_ c.out_.toNat n ∧
        c' = if call.peek then c else { c with out_ := c.out_ + BitVec.ofNat 64 n }
  idle _ := True

def writerContract (r : RingSize) : Contract ByteChannel WriteCall (Status ℕ) where
  rely := Yields r
  silent c c' := c'.in_ = c.in_ ∧ Keeps r c c'
  commit call answer seen c c' :=
    match answer with
    | .error e => c' = c ∧ e = .EAGAIN ∧ (0 < call.bytes.length → seen = true)
    | .ok n => n ≤ call.bytes.length ∧ c.used + n ≤ r.size.toNat ∧
        Ring.window r.size.toNat c.buf_ c.in_.toNat n = call.bytes.take n ∧
        c' = { c with in_ := c.in_ + BitVec.ofNat 64 n }
  idle _ := True

theorem Keeps.refl (h : Fits r c) : Keeps r c c := ⟨h, rfl, le_refl _, fun _ _ => rfl⟩

theorem Keeps.trans {c c₁ c₂ : ByteChannel} (h : Keeps r c c₁) (h' : Keeps r c₁ c₂) : Keeps r c c₂ where
  fits := h'.fits
  index := h'.index.trans h.index
  used := h.used.trans h'.used
  bytes j hj := by
    rw [← h.bytes j hj, ← h.index]
    exact h'.bytes j (hj.trans_le h.used)

theorem Yields.refl (h : Fits r c) : Yields r c c := ⟨h, rfl, rfl, le_refl _⟩

theorem Yields.trans {c c₁ c₂ : ByteChannel} (h : Yields r c c₁) (h' : Yields r c₁ c₂) : Yields r c c₂ :=
  ⟨h'.fits, h'.index.trans h.index, h'.buf.trans h.buf, h'.used.trans h.used⟩

def always : Access → ByteChannel → Prop := fun _ _ => True

section Reader
variable {n : ℕ} {o : BitVec 64} {val : ℕ → UInt8}

def Holds (r : RingSize) (o : BitVec 64) (n : ℕ) (val : ℕ → UInt8) (c : ByteChannel) : Prop :=
  c.out_ = o ∧ n ≤ c.used ∧ ∀ j < n, c.buf_ ((o.toNat + j) % r.size.toNat) = val j

theorem Holds.keeps {c c' : ByteChannel} (h : Holds r o n val c) (hk : Keeps r c c') : Holds r o n val c' := by
  obtain ⟨hout, hn, hval⟩ := h
  refine ⟨hk.index.trans hout, hn.trans hk.used, fun j hj => ?_⟩
  rw [← hval j hj, ← hout]
  exact hk.bytes j (hj.trans_le hn)

theorem copyOut_quiet {c : ByteChannel} (l : List ℕ) (hl : ∀ j ∈ l, j < n)
    (h : Holds r o n val c) : Quiet exec always (readerContract r)
      (fun bytes c => Holds r o n val c ∧ bytes = l.map val)
      (copyOut (l.map fun j => (o.toNat + j) % r.size.toNat)) c := by
  induction l generalizing c with
  | nil => exact ⟨h, rfl⟩
  | cons j l ih =>
    intro c₁ hk _
    have h₁ := h.keeps hk
    refine ⟨rfl, (ih (fun x hx => hl x (mem_cons_of_mem j hx)) h₁).bind fun bytes c hb => ?_⟩
    refine ⟨hb.1, ?_⟩
    rw [hb.2, map_cons]
    exact congrArg (· :: _) (h₁.2.2 j (hl j mem_cons_self))

/-- What is left of a read that found `n` bytes. -/
def copyAndStore (r : RingSize) (call : ReadCall) (o : BitVec 64) (n : ℕ) :
    Code (Status (List UInt8)) := do
  let bytes ← copyOut (Ring.cells r.size.toNat o.toNat n)
  if call.peek then return .ok bytes
  else
    storeOut (o + BitVec.ofNat 64 n)
    return .ok bytes

def fetch (r : RingSize) (call : ReadCall) (i o : BitVec 64) : Code (Status (List UInt8)) :=
  if call.gives (i - o).toNat then .done (.error .EAGAIN)
  else copyAndStore r call o (min (i - o).toNat call.room)

theorem moves_fst (size start n : ℕ) (iov : List ℕ) :
    ((Ring.cells size start n).zip (cellsOf 0 iov).flatten).map Prod.fst = Ring.cells size start (min n iov.sum) ∧
      ((Ring.cells size start n).zip (cellsOf 0 iov).flatten).length = min n iov.sum := by
  constructor
  · rw [zip_eq_zip_take_min, map_fst_zip (by simp), Ring.length_cells,
      length_flatten_cellsOf, Ring.take_cells, min_comm, ← min_assoc, min_self]
  · rw [length_zip, Ring.length_cells, length_flatten_cellsOf]

theorem reader_code (call : ReadCall) : ∃ rest : BitVec 64 → BitVec 64 → Code (Status (List UInt8)),
    (reader r).code call =
    (.act Access.loadIn fun i : BitVec 64 => .act Access.loadOut fun o : BitVec 64 => rest i o) ∧
    ∀ i o : BitVec 64, (i - o).toNat ≤ r.size.toNat → rest i o = fetch r call i o := by
  cases call with
  | read len peek =>
    refine ⟨_, rfl, fun i o hfit => ?_⟩
    have hcells : (r.segments o (min (i - o).toNat len)).flatten =
        Ring.cells r.size.toNat o.toNat (min (i - o).toNat len) :=
      r.flatten_segments ((min_le_left _ len).trans hfit)
    simp only [fetch, copyAndStore, ReadCall.gives, ReadCall.room, ReadCall.peek, decide_eq_true_eq, ← hcells]
    rfl
  | readv iov peek =>
    refine ⟨_, rfl, fun i o hfit => ?_⟩
    have hmoves := moves_fst r.size.toNat o.toNat (i - o).toNat iov
    simp only [fetch, copyAndStore, ReadCall.gives, ReadCall.room, ReadCall.peek, decide_eq_true_eq, ← hmoves.1]
    rw [← hmoves.2, ← r.flatten_segments hfit, ← genericCopyv_eq]
    rfl

theorem copyAndStore_meets {call : ReadCall} {c : ByteChannel} {seen : Bool} (hroom : n ≤ call.room) (hn : n ≤ c.used) :
    (readerContract r).Effect call seen c c (copyAndStore r call c.out_ n) ∧
      Meets exec always isEmpty (readerContract r) call (copyAndStore r call c.out_ n) c seen := by
  have hview : Holds r c.out_ n (fun j => c.buf_ ((c.out_.toNat + j) % r.size.toNat)) c := ⟨rfl, hn, fun _ _ => rfl⟩
  generalize (fun j => c.buf_ ((c.out_.toNat + j) % r.size.toNat)) = val at hview
  have hquiet := copyOut_quiet (range n) (fun j hj => mem_range.1 hj) hview
  have hwindow : ∀ c' bytes, Holds r c.out_ n val c' → bytes = (range n).map val →
      bytes = Ring.window r.size.toNat c'.buf_ c'.out_.toNat n := by
    rintro c' bytes ⟨hout, _, hval⟩ rfl
    rw [hout]
    exact map_congr_left fun j hj => (hval j (mem_range.1 hj)).symm
  cases hpeek : call.peek with
  | true =>
    have hp : copyAndStore r call c.out_ n = (copyOut (Ring.cells r.size.toNat c.out_.toNat n) >>= fun bytes =>
        .done (.ok bytes)) := by
      simp [copyAndStore, hpeek]
    rw [hp]
    refine Quiet.meets rfl (hquiet.bind (Q := fun a c' => ∃ bytes, a = .ok bytes ∧
      Holds r c.out_ n val c' ∧ bytes = (range n).map val) fun bytes c' hb =>
        ⟨bytes, rfl, hb⟩) ?_
    rintro _ seen c₁ c₂ rfl ⟨bytes, rfl, hholds, hbytes⟩
    refine ⟨n, hholds.2.1, hroom, hwindow _ _ hholds hbytes, ?_⟩
    rw [hpeek]
    rfl
  | false =>
    have hp : copyAndStore r call c.out_ n = (copyOut (Ring.cells r.size.toNat c.out_.toNat n) >>= fun bytes =>
        .act (.storeOut (c.out_ + BitVec.ofNat 64 n)) fun _ => .done (.ok bytes)) := by
      simp [copyAndStore, hpeek]
      rfl
    rw [hp]
    refine Quiet.bind_meets rfl hquiet (fun _ => rfl) fun bytes c' _ hb c₁ _ hk _ _ _ => ⟨?_, trivial⟩
    have h₁ := hb.1.keeps hk
    refine ⟨n, h₁.2.1, hroom, hwindow _ _ h₁ hb.2, ?_⟩
    rw [hpeek, h₁.1]
    rfl

theorem reader_honours : Honours exec always (Fits r) (reader r) (readerContract r) (fun _ => True) where
  refl _ hfit := Keeps.refl hfit
  trans _ _ _ h h' := h.trans h'
  idle_rely _ _ _ _ := trivial
  idle_commit _ _ _ _ _ _ := trivial
  not_done call := by
    obtain ⟨rest, hcode, -⟩ := reader_code call
    rw [hcode]
    rfl
  meets call c _ hfit _ := by
    obtain ⟨rest, hcode, hrest⟩ := reader_code call
    rw [hcode]
    intro c₁ seen₁ h₁ _ hseen₁ _
    refine ⟨rfl, fun c₂ seen₂ h₂ hmono _ _ => ?_⟩
    have h₂ : Keeps r c₁ c₂ := h₂
    have havail : (c₁.in_ - c₂.out_).toNat = c₁.used := by rw [h₂.index, used]
    change (readerContract r).Effect call _ c₂ c₂ (rest c₁.in_ c₂.out_) ∧
      Meets exec always isEmpty (readerContract r) call (rest c₁.in_ c₂.out_) c₂ _
    rw [hrest _ _ (havail.trans_le h₁.fits), fetch, havail]
    split_ifs with hgives
    · refine ⟨⟨rfl, rfl, fun hroom => ?_⟩, trivial⟩
      have hold : seen₁ := hseen₁ (isEmpty_iff.2 (call.used_of_gives hroom hgives))
      rw [hmono (by rw [hold]; rfl)]
      rfl
    · exact copyAndStore_meets (min_le_right _ _) ((min_le_left _ _).trans h₂.used)

end Reader

section Writer
variable {n : ℕ} {i : BitVec 64} {val : ℕ → UInt8}

/-- The writer's view: room for `n` bytes, of which the first `k` are there. -/
def Filled (r : RingSize) (i : BitVec 64) (n k : ℕ) (val : ℕ → UInt8) (c : ByteChannel) : Prop :=
  c.in_ = i ∧ c.used + n ≤ r.size.toNat ∧ ∀ j < k, c.buf_ ((i.toNat + j) % r.size.toNat) = val j

theorem Filled.yields {k : ℕ} {c c' : ByteChannel} (h : Filled r i n k val c) (hy : Yields r c c') :
    Filled r i n k val c' := by
  obtain ⟨hin, hroom, hval⟩ := h
  refine ⟨hy.index.trans hin, ?_, fun j hj => ?_⟩
  · have := hy.used
    omega
  · rw [hy.buf]
    exact hval j hj

theorem storeByte_keeps {k : ℕ} {c : ByteChannel} (h : Filled r i n k val c) (hk : k < n) (b : UInt8) :
    Keeps r c (exec (.storeByte ((i.toNat + k) % r.size.toNat) b) c).2 := by
  obtain ⟨rfl, hroom, _⟩ := h
  refine ⟨?_, rfl, le_refl _, fun j hj => if_neg ?_⟩
  · change c.used ≤ _
    omega
  rw [r.cell_ahead c.in_ c.out_ k]
  change j < (c.in_ - c.out_).toNat at hj
  change (c.in_ - c.out_).toNat + n ≤ r.size.toNat at hroom
  exact Ring.cell_ne (by omega) (by omega) (by omega)

theorem storeByte_filled {k : ℕ} {c : ByteChannel} (h : Filled r i n k val c) (hk : k < n) :
    Filled r i n (k + 1) val (exec (.storeByte ((i.toNat + k) % r.size.toNat) (val k)) c).2 := by
  obtain ⟨hin, hroom, hval⟩ := h
  refine ⟨hin, hroom, fun j hj => ?_⟩
  by_cases hjk : j = k
  · rw [hjk]
    exact if_pos rfl
  have hlt : j < k := by omega
  rw [← hval j hlt]
  exact if_neg (Ring.cell_ne (by omega) (by omega) hjk)

theorem copyIn_quiet {k : ℕ} {c : ByteChannel} (m : ℕ) (hm : k + m = n) (h : Filled r i n k val c) :
    Quiet exec always (writerContract r) (fun _ c => Filled r i n n val c)
      (copyIn ((range' k m).map fun j => (val j, (i.toNat + j) % r.size.toNat))) c := by
  induction m generalizing k c with
  | zero =>
    obtain rfl : k = n := hm
    exact h
  | succ m ih =>
    intro c₁ hy _
    have h₁ := h.yields hy
    have hk : k < n := by omega
    refine ⟨⟨rfl, storeByte_keeps h₁ hk (val k)⟩, ?_⟩
    exact ih (by omega) (storeByte_filled h₁ hk)

/-- What is left of a write that found room for `n` bytes. -/
def fillAndStore (r : RingSize) (call : WriteCall) (i : BitVec 64) (n : ℕ) : Code (Status ℕ) := do
  copyIn ((List.range' 0 n).map fun j => (call.bytes.getD j 0, (i.toNat + j) % r.size.toNat))
  storeIn (i + BitVec.ofNat 64 n)
  return .ok n

def deposit (r : RingSize) (call : WriteCall) (i o : BitVec 64) : Code (Status ℕ) :=
  if call.gives (r.size - (i - o)).toNat then .done (.error .EAGAIN)
  else fillAndStore r call i (min (r.size - (i - o)).toNat call.bytes.length)

theorem zip_cells (bytes : List UInt8) (size start n : ℕ) : bytes.zip (Ring.cells size start n) =
      (range' 0 (min n bytes.length)).map fun j => (bytes.getD j 0, (start + j) % size) := by
  refine ext_getElem (by simp [min_comm]) fun j hj hj' => ?_
  have hlen : j < bytes.length := by
    rw [length_zip] at hj
    omega
  simp [Ring.cells, hlen]

theorem writer_code (call : WriteCall) : ∃ rest : BitVec 64 → BitVec 64 → Code (Status ℕ), (writer r).code call =
      (.act Access.loadIn fun i : BitVec 64 => .act Access.loadOut fun o : BitVec 64 => rest i o) ∧
    ∀ i o : BitVec 64, (i - o).toNat ≤ r.size.toNat → rest i o = deposit r call i o := by
  have hfree : ∀ i o : BitVec 64, (i - o).toNat ≤ r.size.toNat → (r.size - (i - o)).toNat ≤ r.size.toNat := by
    intro i o hfit
    rw [BitVec.toNat_sub_of_le hfit]
    exact sub_le _ _
  cases call with
  | write bytes =>
    refine ⟨_, rfl, fun i o hfit => ?_⟩
    have hcells := zip_cells bytes r.size.toNat i.toNat (min (r.size - (i - o)).toNat bytes.length)
    rw [min_assoc, min_self, ← r.flatten_segments ((min_le_left _ bytes.length).trans (hfree i o hfit))] at hcells
    simp only [deposit, fillAndStore, WriteCall.gives, WriteCall.bytes, decide_eq_true_eq, ← hcells]
    rfl
  | writev iov =>
    refine ⟨_, rfl, fun i o hfit => ?_⟩
    have hcells := zip_cells iov.flatten r.size.toNat i.toNat (r.size - (i - o)).toNat
    rw [← r.flatten_segments (hfree i o hfit), ← genericCopyv_eq] at hcells
    have hlen := congrArg length hcells
    rw [length_map, length_range'] at hlen
    simp only [deposit, fillAndStore, WriteCall.gives, WriteCall.bytes, decide_eq_true_eq]
    rw [← hcells, ← hlen]
    rfl

theorem fillAndStore_meets {call : WriteCall} {c : ByteChannel} {seen : Bool} (hfit : Fits r c)
    (hlen : n ≤ call.bytes.length) (hroom : c.used + n ≤ r.size.toNat) :
    (writerContract r).Effect call seen c c (fillAndStore r call c.in_ n) ∧
      Meets exec always (isFull r) (writerContract r) call (fillAndStore r call c.in_ n) c seen := by
  have hview : Filled r c.in_ n 0 (fun j => call.bytes.getD j 0) c := ⟨rfl, hroom, nofun⟩
  have hquiet := copyIn_quiet n (zero_add n) hview
  have htake : (range n).map (fun j => call.bytes.getD j 0) = call.bytes.take n := by
    refine ext_getElem (by simp [hlen]) fun j hj _ => ?_
    have hj : j < call.bytes.length := by
      rw [length_map, length_range] at hj
      omega
    simp [hj]
  refine Quiet.bind_meets ⟨rfl, Keeps.refl hfit⟩ hquiet (fun _ => rfl) fun _ c' _ hb c₁ _ hy _ _ _ => ⟨?_, trivial⟩
  obtain ⟨hin, hroom, hval⟩ := hb.yields hy
  refine ⟨hlen, hroom, ?_, by rw [hin]; rfl⟩
  rw [← htake, hin]
  exact map_congr_left fun j hj => hval j (mem_range.1 hj)

theorem writer_honours : Honours exec always (Fits r) (writer r) (writerContract r) (fun _ => True) where
  refl _ hfit := Yields.refl hfit
  trans _ _ _ h h' := h.trans h'
  idle_rely _ _ _ _ := trivial
  idle_commit _ _ _ _ _ _ := trivial
  not_done call := by
    obtain ⟨rest, hcode, -⟩ := writer_code call
    rw [hcode]
    rfl
  meets call c _ hfit _ := by
    obtain ⟨rest, hcode, hrest⟩ := writer_code call
    rw [hcode]
    intro c₁ seen₁ h₁ _ _ _
    refine ⟨⟨rfl, Keeps.refl h₁.fits⟩, fun c₂ seen₂ h₂ _ hseen₂ _ => ?_⟩
    have h₂ : Yields r c₁ c₂ := h₂
    have hfit₂ : (c₂.in_ - c₂.out_).toNat ≤ r.size.toNat := h₂.fits
    have hfree : (r.size - (c₂.in_ - c₂.out_)).toNat = r.size.toNat - c₂.used := BitVec.toNat_sub_of_le hfit₂
    change (writerContract r).Effect call _ c₂ c₂ (rest c₁.in_ c₂.out_) ∧
      Meets exec always (isFull r) (writerContract r) call (rest c₁.in_ c₂.out_) c₂ _
    rw [← h₂.index, hrest _ _ hfit₂, deposit, hfree]
    split_ifs with hgives
    · refine ⟨⟨rfl, rfl, fun hlen => ?_⟩, trivial⟩
      have hfull : r.size.toNat ≤ c₂.used := Nat.sub_eq_zero_iff_le.1 (call.free_of_gives hlen hgives)
      rw [hseen₂ (isFull_iff.2 hfull)]
      rfl
    refine fillAndStore_meets hfit₂ (min_le_right _ _) ?_
    have hle : c₂.used ≤ r.size.toNat := hfit₂
    omega

end Writer
end Junction.ByteChannel
