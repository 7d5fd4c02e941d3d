import Junction.Base
import Junction.Library.Run
import Junction.Library.Slice

/-!
# Memory files as byte strings

A regular file of the memory file system is a size and an extent of host memory. `SetSize` returns
whole pages to the host, which zeroes them; the bytes between the size and the next page boundary
stay as they are. A file stands for the byte string of its size as long as every byte of the extent
from the size on is zero. Reading beyond the end and shrinking into a page with other bytes leave
what a byte string does.
-/

namespace Junction
open Slice List

def kMaxSizeBytes : ℕ := 2 ^ 28

structure MemInode where
  size : ℕ
  buf : ℕ → UInt8

inductive FileOp
  | read (len off : ℕ)
  | write (data : List UInt8) (off : ℕ)
  | setSize (n : ℕ)

/-- What a call returns, with the offset that it leaves behind. -/
inductive FileAnswer
  | bytes (data : List UInt8) (off : ℕ)
  | wrote (count off : ℕ)
  | done
  | failed (e : Error)
  deriving DecidableEq

namespace MemInode

/-- `size_ - *off` is an unsigned difference. -/
def read (ino : MemInode) (len off : ℕ) : FileAnswer :=
  let n := min len (subWord ino.size off)
  .bytes (slice ino.buf off n) (off + n)

def write (ino : MemInode) (data : List UInt8) (off : ℕ) : FileAnswer × MemInode :=
  if kMaxSizeBytes ≤ off then (.failed .ENOSPC, ino)
  else
    let data := if kMaxSizeBytes - off < data.length then data.take (kMaxSizeBytes - off) else data
    let size := if ino.size < off + data.length then off + data.length else ino.size
    (.wrote data.length (off + data.length), ⟨size, store ino.buf off data⟩)

/-- `MADV_REMOVE` zeroes the pages that it is given. -/
def setSize (ino : MemInode) (newlen : ℕ) : FileAnswer × MemInode :=
  if kMaxSizeBytes < newlen then (.failed .EINVAL, ino)
  else
    let newlenP := pageAlign newlen
    let oldlenP := pageAlign ino.size
    (.done, ⟨newlen, if newlenP < oldlenP then fill ino.buf newlenP oldlenP 0 else ino.buf⟩)

def step (ino : MemInode) : FileOp → FileAnswer × MemInode
  | .read len off => (ino.read len off, ino)
  | .write data off => ino.write data off
  | .setSize n => ino.setSize n

end MemInode

abbrev ByteFile := List UInt8

namespace ByteFile

variable (s : ByteFile)

def read (len off : ℕ) : FileAnswer :=
  let data := (s.drop off).take len
  .bytes data (off + data.length)

def write (data : List UInt8) (off : ℕ) : FileAnswer × ByteFile :=
  if kMaxSizeBytes ≤ off then (.failed .ENOSPC, s)
  else
    let k := min data.length (kMaxSizeBytes - off)
    (.wrote k (off + k),
      (s ++ List.replicate (off - s.length) 0).take off ++ data.take k ++ s.drop (off + k))

def setSize (n : ℕ) : FileAnswer × ByteFile :=
  if kMaxSizeBytes < n then (.failed .EINVAL, s)
  else (.done, s.take n ++ List.replicate (n - s.length) 0)

def step : FileOp → FileAnswer × ByteFile
  | .read len off => (s.read len off, s)
  | .write data off => s.write data off
  | .setSize n => s.setSize n

end ByteFile

namespace MemInode

/-- A read starts within the file, and a shrink cuts off only zeroes in the last page it keeps. -/
def Safe (ino : MemInode) : FileOp → Prop
  | .read len off => off ≤ ino.size ∨ len = 0
  | .write _ _ => True
  | .setSize n => ∀ i, n ≤ i → i < ino.size → i < pageAlign n → ino.buf i = 0

/-- The file stands for a byte string, and the extent is zero beyond it. -/
structure StandsFor (ino : MemInode) (s : ByteFile) : Prop where
  size_le : ino.size ≤ kMaxSizeBytes
  content : slice ino.buf 0 ino.size = s
  zero_above : ∀ i, ino.size ≤ i → i < kMaxSizeBytes → ino.buf i = 0

variable {data : List UInt8} {k : ℕ}

namespace StandsFor
variable {ino : MemInode} {s : ByteFile} (h : ino.StandsFor s)
include h

theorem length_eq : s.length = ino.size := by
  rw [← h.content, length_slice]

variable {n : ℕ}

theorem slice_zero (hn : n ≤ kMaxSizeBytes) : slice ino.buf 0 n = (s ++ replicate (n - s.length) 0).take n := by
  by_cases hle : n ≤ ino.size
  · rw [h.length_eq, Nat.sub_eq_zero_of_le hle, replicate_zero, append_nil, ← h.content,
      take_slice, Nat.min_eq_left hle]
  obtain ⟨k, rfl⟩ := Nat.exists_eq_add_of_le (Nat.le_of_not_le hle)
  have hzero : slice ino.buf (0 + ino.size) k = replicate k 0 :=
    slice_eq_replicate fun i hi hlt => h.zero_above i (by omega) (by omega)
  rw [slice_add, h.content, hzero, h.length_eq, Nat.add_sub_cancel_left, take_of_length_le]
  simp [h.length_eq]

theorem read_eq {len off : ℕ} (hsafe : off ≤ ino.size ∨ len = 0) : ino.read len off = ByteFile.read s len off := by
  simp only [MemInode.read, ByteFile.read]
  rcases hsafe with hoff | rfl
  · have hsub : subWord ino.size off = ino.size - off := subWord_of_le hoff (h.size_le.trans_lt (by decide))
    have hdata : (s.drop off).take len = slice ino.buf off (min len (ino.size - off)) := by
      rw [← h.content, drop_slice, Nat.zero_add, take_slice]
    rw [hdata, length_slice, hsub]
  · simp [slice]

theorem store_at {off : ℕ} (hlen : data.length = k) (hmax : off + k ≤ kMaxSizeBytes) :
    StandsFor ⟨if ino.size < off + k then off + k else ino.size, store ino.buf off data⟩
      ((s ++ replicate (off - s.length) 0).take off ++ data ++ s.drop (off + k)) := by
  have hsize : (if ino.size < off + k then off + k else ino.size) = off + k + (ino.size - (off + k)) := by
    split_ifs <;> omega
  have hle := h.size_le
  have hhead : slice (store ino.buf off data) 0 off = (s ++ replicate (off - s.length) 0).take off := by
    rw [← h.slice_zero (by omega)]
    exact slice_congr fun i _ hi => store_of_lt data (by omega)
  have htail : slice (store ino.buf off data) (0 + (off + k)) (ino.size - (off + k)) = s.drop (off + k) := by
    rw [← h.content, drop_slice]
    exact slice_congr fun i hi _ => store_of_ge (by omega)
  have hmid : slice (store ino.buf off data) (0 + off) k = data := by
    rw [Nat.zero_add, ← hlen]
    exact slice_store ino.buf off data
  rw [hsize]
  refine ⟨show off + k + (ino.size - (off + k)) ≤ kMaxSizeBytes by omega, ?_, fun i hi hlt => ?_⟩
  · simp only [slice_add _ 0 (off + k), slice_add _ 0 off, hhead, hmid, htail]
  simp only at hi ⊢
  rw [store_of_ge (by omega)]
  exact h.zero_above i (by omega) hlt

theorem write {off : ℕ} : (ino.write data off).1 = (ByteFile.write s data off).1 ∧
      (ino.write data off).2.StandsFor (ByteFile.write s data off).2 := by
  unfold MemInode.write ByteFile.write
  by_cases hoff : kMaxSizeBytes ≤ off
  · rw [if_pos hoff, if_pos hoff]
    exact ⟨rfl, h⟩
  have htake : (if kMaxSizeBytes - off < data.length then data.take (kMaxSizeBytes - off)
      else data) = data.take (min data.length (kMaxSizeBytes - off)) := by
    split_ifs with hlong
    · rw [Nat.min_eq_right hlong.le]
    · rw [Nat.min_eq_left (by omega), take_length]
  rw [if_neg hoff, if_neg hoff, htake]
  generalize hk : min data.length (kMaxSizeBytes - off) = k
  have hlen : (data.take k).length = k := by
    rw [length_take]
    omega
  simp only [hlen]
  exact ⟨trivial, h.store_at hlen (by omega)⟩

theorem setSize (hsafe : ∀ i, n ≤ i → i < ino.size → i < pageAlign n → ino.buf i = 0) :
    (ino.setSize n).1 = (ByteFile.setSize s n).1 ∧ (ino.setSize n).2.StandsFor (ByteFile.setSize s n).2 := by
  unfold MemInode.setSize ByteFile.setSize
  by_cases hmax : kMaxSizeBytes < n
  · rw [if_pos hmax, if_pos hmax]
    exact ⟨rfl, h⟩
  rw [if_neg hmax, if_neg hmax]
  have hle := h.size_le
  have hbound : kMaxSizeBytes = 2 ^ 28 := rfl
  have hnew := pageAlign_le (by omega : n ≤ 2 ^ 28) (by decide) (by decide)
  have hold := pageAlign_le (by omega : ino.size ≤ 2 ^ 28) (by decide) (by decide)
  -- the bytes that the host zeroes lie above the new size
  have hfill : ∀ i, (if pageAlign n < pageAlign ino.size
      then fill ino.buf (pageAlign n) (pageAlign ino.size) 0 else ino.buf) i =
      if pageAlign n ≤ i ∧ i < pageAlign ino.size then 0 else ino.buf i := by
    intro i
    split_ifs with hlt hin hin
    · simp [fill, hin]
    · simp [fill, if_neg hin]
    · omega
    · rfl
  refine ⟨rfl, ⟨Nat.le_of_not_lt hmax, ?_, fun i hi hlt => ?_⟩⟩
  · have hsame : slice (if pageAlign n < pageAlign ino.size
        then fill ino.buf (pageAlign n) (pageAlign ino.size) 0 else ino.buf) 0 n =
        slice ino.buf 0 n := by
      refine slice_congr fun i _ hi => ?_
      rw [hfill, if_neg (by omega)]
    rw [hsame, h.slice_zero (by omega), take_append]
    congr 1
    rw [take_of_length_le]
    simp
  · simp only [hfill] at hi ⊢
    split_ifs with hin
    · rfl
    by_cases hsize : i < ino.size
    · exact hsafe i hi hsize (by omega)
    · exact h.zero_above i (by omega) hlt

theorem step_simulates (op : FileOp) (hsafe : ino.Safe op) : (ino.step op).1 = (ByteFile.step s op).1 ∧
      (ino.step op).2.StandsFor (ByteFile.step s op).2 := by
  cases op with
  | read len off => exact ⟨h.read_eq hsafe, h⟩
  | write data off => exact h.write
  | setSize n => exact h.setSize hsafe

end StandsFor

/-- A new file on fresh pages answers every admitted sequence of calls as a byte string does. -/
theorem refines_byteFile (mem : ℕ → UInt8) (hfresh : ∀ i < kMaxSizeBytes, mem i = 0)
    (ops : List FileOp) (h : Run.Admitted (Run.next step) Safe ⟨0, mem⟩ ops) :
    Run.answers step ⟨0, mem⟩ ops = Run.answers ByteFile.step [] ops := by
  have hstart : StandsFor ⟨0, mem⟩ [] := ⟨Nat.zero_le _, rfl, fun i _ hi => hfresh i hi⟩
  exact (Run.answers_eq_of_simulation (fun _ _ op hR hsafe => hR.step_simulates op hsafe) hstart h).1

/-- A write past the end, a shrink to nothing and a growth over the old bytes. -/
def shrinkRun : List FileOp := [.write [1, 2, 3] 5, .setSize 0, .setSize 6, .read 10 4]

theorem refines_byteFile_shrinkRun : Run.answers step ⟨0, fun _ => 0⟩ shrinkRun =
      [.wrote 3 8, .done, .done, .bytes [0, 0] 6] := by
  rw [refines_byteFile (fun _ => 0) (fun _ _ => rfl) shrinkRun]
  · decide
  refine ⟨trivial, fun i _ _ hi => ?_, fun i hi hsize _ => ?_, .inl (by decide), trivial⟩
  · exact absurd hi (by rw [show pageAlign 0 = 0 by decide]; omega)
  · exact absurd hsize (Nat.not_lt_zero i)

/-- After a shrink into a page its old byte is readable again, and a read beyond the end returns a
byte. -/
theorem stale_byte_readable : (Run.answers step ⟨0, fun _ => 0⟩ [.write [1, 2] 0, .setSize 1, .setSize 2, .read 2 0] =
        [.wrote 2 2, .done, .done, .bytes [1, 2] 2] ∧
      Run.answers ByteFile.step [] [.write [1, 2] 0, .setSize 1, .setSize 2, .read 2 0] =
        [.wrote 2 2, .done, .done, .bytes [1, 0] 2]) ∧ (Run.answers step ⟨0, fun _ => 0⟩ [.write [1] 0, .read 1 5] =
        [.wrote 1 1, .bytes [0] 6] ∧
      Run.answers ByteFile.step [] [.write [1] 0, .read 1 5] = [.wrote 1 1, .bytes [] 5]) := by
  decide +kernel

/-!
### Vectored transfers

`Readv` and `Writev` should do what one transfer does, but a file that may block is read into one entry only, and a
vector without bytes is not written at all.
-/

/-- `File::Readv`. The bytes fill the entries in their order. -/
def readv (ino : MemInode) (nonblocking : Bool) : List ℕ → ℕ → FileAnswer
  | [], off => .bytes [] off
  | len :: lens, off =>
    if len = 0 then readv ino nonblocking lens off
    else
      match ino.read len off with
      | .bytes data off =>
        if nonblocking = false ∨ data.length < len then .bytes data off
        else
          match readv ino nonblocking lens off with
          | .bytes more off => .bytes (data ++ more) off
          | answer => answer
      | answer => answer

/-- The loop of `File::Writev`. Without bytes its status is zero. -/
def writev : MemInode → List (List UInt8) → ℕ → ℕ → FileAnswer × MemInode
  | ino, [], total, off => (.wrote total off, ino)
  | ino, data :: datas, total, off =>
    if data = [] then writev ino datas total off
    else
      match ino.write data off with
      | (.wrote n off, ino) =>
        if n < data.length then (.wrote (total + n) off, ino) else writev ino datas (total + n) off
      | (.failed e, ino) => (if total ≠ 0 then .wrote total off else .failed e, ino)
      | r => r

/-- `usys_writev` and `usys_pwritev`. -/
def usysWritev (ino : MemInode) (datas : List (List UInt8)) (off : ℕ) : FileAnswer × MemInode :=
  if datas = [] then (.failed .EINVAL, ino) else ino.writev datas 0 off

def firstLen : List ℕ → ℕ
  | [] => 0
  | len :: lens => if len = 0 then firstLen lens else len

variable {ino : MemInode} {datas : List (List UInt8)} {off : ℕ} (lens : List ℕ)

theorem readv_nonblocking (off : ℕ) : ino.readv true lens off = ino.read lens.sum off := by
  induction lens generalizing off with
  | nil => simp [readv, read, slice]
  | cons len lens ih =>
    by_cases hlen : len = 0
    · rw [readv, if_pos hlen, ih, sum_cons, hlen, zero_add]
    simp only [readv, hlen, if_false, ih, read, length_slice, sum_cons, reduceCtorEq, false_or]
    by_cases hshort : min len (subWord ino.size off) < len
    · have hmin : min (len + lens.sum) (subWord ino.size off) = min len (subWord ino.size off) := by omega
      rw [if_pos hshort, hmin]
    have hroom : len ≤ subWord ino.size off := by omega
    have hleft : subWord ino.size (off + len) = subWord ino.size off - len := by
      unfold subWord at hroom ⊢
      omega
    have hmin : min (len + lens.sum) (subWord ino.size off) =
        len + min lens.sum (subWord ino.size (off + len)) := by omega
    rw [if_neg hshort, min_eq_left hroom, hmin, slice_add, add_assoc]

theorem readv_blocking : ino.readv false lens off = ino.read (firstLen lens) off := by
  induction lens with
  | nil => simp [readv, read, slice, firstLen]
  | cons len lens ih => by_cases hlen : len = 0 <;> simp [readv, hlen, ih, firstLen, read]

theorem firstLen_le : firstLen lens ≤ lens.sum := by
  induction lens with
  | nil => exact le_rfl
  | cons len lens ih => grind [firstLen]

theorem readv_iff {lens : List ℕ} {nonblocking : Bool} : ino.readv nonblocking lens off = ino.read lens.sum off ↔
    nonblocking = true ∨ min lens.sum (subWord ino.size off) ≤ firstLen lens := by
  cases nonblocking with
  | true => simp [readv_nonblocking]
  | false =>
    have hle := firstLen_le lens
    rw [readv_blocking]
    simp only [read, reduceCtorEq, false_or, FileAnswer.bytes.injEq]
    constructor
    · omega
    intro h
    have hmin : min lens.sum (subWord ino.size off) = min (firstLen lens) (subWord ino.size off) := by omega
    rw [hmin]
    exact ⟨rfl, rfl⟩

theorem write_eq (hoff : off < kMaxSizeBytes)
    (hk : min data.length (kMaxSizeBytes - off) = k) : ino.write data off =
      (.wrote k (off + k), ⟨max ino.size (off + k), store ino.buf off (data.take k)⟩) := by
  have htake : (if kMaxSizeBytes - off < data.length then data.take (kMaxSizeBytes - off) else data) = data.take k := by
    split_ifs with hlong
    · rw [← hk, min_eq_right hlong.le]
    · rw [take_of_length_le (by omega)]
  have hlen : (data.take k).length = k := by
    rw [length_take]
    omega
  unfold write
  rw [if_neg (not_le.mpr hoff), htake]
  dsimp only
  rw [hlen]
  congr 2
  split_ifs <;> omega

theorem write_of_not_lt (hoff : ¬ off < kMaxSizeBytes) :
    ino.write data off = (.failed .ENOSPC, ino) := if_pos (not_lt.1 hoff)

variable {total : ℕ}

theorem writev_of_empty (h : datas.flatten = []) :
    ino.writev datas total off = (.wrote total off, ino) := by
  induction datas with
  | nil => rfl
  | cons data datas ih =>
    obtain ⟨hdata, hrest⟩ := append_eq_nil_iff.1 h
    rw [writev, if_pos hdata, ih hrest]

theorem writev_eq (h : datas.flatten ≠ []) : ino.writev datas total off =
    match ino.write datas.flatten off with
    | (.wrote n off, ino) => (.wrote (total + n) off, ino)
    | (.failed e, ino) => (if total ≠ 0 then .wrote total off else .failed e, ino)
    | r => r := by
  induction datas generalizing ino total off with
  | nil => exact absurd rfl h
  | cons data datas ih =>
    by_cases hdata : data = []
    · subst hdata
      exact ih h
    have hpos := length_pos_iff.2 hdata
    rw [writev, if_neg hdata, flatten_cons]
    by_cases hoff : off < kMaxSizeBytes
    · by_cases hshort : kMaxSizeBytes - off < data.length
      · rw [write_eq hoff (min_eq_right hshort.le), write_eq (k := kMaxSizeBytes - off) hoff (by simp; omega)]
        dsimp only
        rw [if_pos hshort, take_append_of_le_length hshort.le]
      rw [write_eq (k := data.length) hoff (by omega), take_length]
      dsimp only
      rw [if_neg (lt_irrefl _)]
      by_cases hrest : datas.flatten = []
      · rw [writev_of_empty hrest, hrest, append_nil, write_eq (k := data.length) hoff (by omega), take_length]
      rw [ih hrest]
      by_cases hroom : off + data.length < kMaxSizeBytes
      · have hmin : min (data ++ datas.flatten).length (kMaxSizeBytes - off) =
            data.length + min datas.flatten.length (kMaxSizeBytes - (off + data.length)) := by simp; omega
        rw [write_eq hroom rfl, write_eq hoff hmin]
        simp only [store_append, take_length_add_append, add_assoc]
        rw [max_assoc, max_eq_right (Nat.add_le_add_left (Nat.le_add_right _ _) off)]
      · rw [write_of_not_lt hroom, write_eq (k := data.length) hoff (by simp; omega), take_left]
        dsimp only
        rw [if_pos (by omega)]
    · rw [write_of_not_lt hoff, write_of_not_lt hoff]

theorem writev_iff : ino.usysWritev datas off = ino.write datas.flatten off ↔
    datas.flatten ≠ [] ∨ datas ≠ [] ∧ off < kMaxSizeBytes ∧ off ≤ ino.size := by
  by_cases hflat : datas.flatten = []
  · have hnil : store ino.buf off [] = ino.buf := funext fun i => by simp [store]
    rw [usysWritev, writev_of_empty hflat, hflat]
    obtain ⟨size, buf⟩ := ino
    by_cases hoff : off < kMaxSizeBytes
    · split_ifs with hdatas <;> simp_all [write_eq hoff rfl]
    · split_ifs with hdatas <;> simp_all [write_of_not_lt, Error.EINVAL, Error.ENOSPC]
  have hne : datas ≠ [] := fun h => hflat (by rw [h, flatten_nil])
  rw [usysWritev, if_neg hne, writev_eq hflat]
  refine iff_of_true ?_ (.inl hflat)
  rcases ino.write datas.flatten off with ⟨_ | _, _⟩ <;> simp

/-- Vectored transfers do what one transfer does if and only if the file does not block or one entry takes all that is
read, and something is written or the file reaches to the offset. -/
theorem vectored_iff (ino : MemInode) (nonblocking : Bool) (lens : List ℕ) (datas : List (List UInt8)) (off : ℕ) :
    (ino.readv nonblocking lens off = ino.read lens.sum off ∧ ino.usysWritev datas off = ino.write datas.flatten off) ↔
      (nonblocking = true ∨ min lens.sum (subWord ino.size off) ≤ firstLen lens) ∧
        (datas.flatten ≠ [] ∨ datas ≠ [] ∧ off < kMaxSizeBytes ∧ off ≤ ino.size) :=
  and_congr readv_iff writev_iff

/-- A blocking file of four bytes, read into two entries of two bytes. -/
theorem readv_short : readv ⟨4, fun i => i.toUInt8⟩ false [2, 2] 0 = .bytes [0, 1] 2 ∧
    read ⟨4, fun i => i.toUInt8⟩ 4 0 = .bytes [0, 1, 2, 3] 4 := by
  decide

end MemInode

/-! ### Slots of the backing file -/

def kMaxFiles : ℕ := 2 ^ 17

/-- The slots that are taken, those of the live files, and the bytes of all. A restored file has no slot. -/
structure FileSlots where
  allocated : ℕ → Bool
  owners : List ℕ
  bytes : ℕ → ℕ → UInt8

inductive SlotOp
  /-- `mapped` says whether the host maps the extent. -/
  | create (mapped : Bool)
  | store (slot i : ℕ) (byte : UInt8)
  | destroy (slot : ℕ)
  | restore

namespace FileSlots
open Function

def init : FileSlots := ⟨fun _ => false, [], 0⟩

variable (s : FileSlots)

def findNextClear : Option ℕ := (range kMaxFiles).find? fun i => !s.allocated i

def step : SlotOp → FileSlots
  | .create mapped => s.findNextClear.elim s fun slot =>
    { s with allocated := update s.allocated slot true, owners := if mapped then slot :: s.owners else s.owners }
  | .store slot i byte =>
    if slot ∈ s.owners then { s with bytes := update s.bytes slot (update (s.bytes slot) i byte) } else s
  | .destroy slot =>
    if slot ∈ s.owners then ⟨update s.allocated slot false, s.owners.erase slot, update s.bytes slot 0⟩ else s
  | .restore => ⟨s.allocated, [], 0⟩

/-- Every extent is mapped, and a snapshot is taken while no file has a slot. -/
def Undisturbed : SlotOp → Prop
  | .create mapped => mapped = true
  | .restore => s.owners = []
  | _ => True

structure Exact : Prop where
  count : ∀ slot, s.owners.count slot = (s.allocated slot).toNat
  zero : ∀ slot, s.allocated slot = false → s.bytes slot = 0

variable {s}

theorem Exact.allocated_of_mem (h : s.Exact) {slot : ℕ} (hslot : slot ∈ s.owners) : s.allocated slot = true := by
  rw [← count_pos_iff, h.count] at hslot
  cases hbit : s.allocated slot <;> simp [hbit] at hslot ⊢

theorem Exact.step {op : SlotOp} (h : s.Exact) (hop : s.Undisturbed op) : (s.step op).Exact := by
  cases op with
  | create mapped =>
    obtain rfl : mapped = true := hop
    cases hnext : s.findNextClear with
    | none => simpa [FileSlots.step, hnext] using h
    | some slot =>
      have hclear : s.allocated slot = false := by simpa using find?_some hnext
      simp only [FileSlots.step, hnext, Option.elim_some, if_true]
      refine ⟨fun q => ?_, fun q hq => h.zero q ?_⟩ <;> by_cases hslot : q = slot
      · simp [hslot, h.count, hclear]
      · simp [h.count, hslot, Ne.symm hslot]
      · simp [hslot] at hq
      · simpa [hslot] using hq
  | store slot i byte =>
    dsimp only [FileSlots.step]
    split_ifs with howned
    · refine ⟨h.count, fun q hq => ?_⟩
      have hne : q ≠ slot := by
        rintro rfl
        exact Bool.false_ne_true (hq.symm.trans (h.allocated_of_mem howned))
      simpa [hne] using h.zero q hq
    · exact h
  | destroy slot =>
    dsimp only [FileSlots.step]
    split_ifs with howned
    · have hone := h.count slot
      rw [h.allocated_of_mem howned] at hone
      refine ⟨fun q => ?_, fun q hq => ?_⟩ <;> by_cases hslot : q = slot
      · simp [hslot, hone]
      · simp [hslot, h.count]
      · simp [hslot]
      · simpa [hslot] using h.zero q (by simpa [hslot] using hq)
    · exact h
  | restore =>
    have hcount := h.count
    rw [show s.owners = [] from hop] at hcount
    exact ⟨hcount, fun _ _ => rfl⟩

def after (ops : List SlotOp) : FileSlots := Run.exec step init ops

/-- In runs in which every extent is mapped and snapshots are taken while no file has a slot. -/
theorem slots_exact (ops : List SlotOp) (slot : ℕ) (hops : Run.Admitted step Undisturbed init ops) :
    (after ops).owners.count slot ≤ 1 ∧ ((after ops).allocated slot = true ↔ (after ops).owners.count slot = 1) ∧
      ((after ops).findNextClear = some slot → (after ops).bytes slot = 0) := by
  have h : (after ops).Exact := Run.invariant_exec (fun _ _ h hop => h.step hop) ⟨fun _ => rfl, fun _ _ => rfl⟩ hops
  rw [h.count]
  refine ⟨Bool.toNat_le _, by simp, fun hnext => h.zero slot ?_⟩
  simpa using find?_some hnext

theorem slots_exact_reused : (after [.create true, .store 0 5 7, .destroy 0]).bytes 0 = 0 :=
  (slots_exact [.create true, .store 0 5 7, .destroy 0] 0 ⟨rfl, trivial, trivial, trivial⟩).2.2 (by decide +kernel)

/-- The host does not map the extent of a new file. -/
theorem slot_lost : (after [.create false]).allocated 0 = true ∧ (after [.create false]).owners = [] := by
  decide +kernel

end FileSlots
end Junction
