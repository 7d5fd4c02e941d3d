import Junction.Bitmap

/-!
# The file table and the descriptor system calls

The table keeps an array of file slots, of which the first `len` are in use, and beside it a bitmap
of close-on-exec flags. `Insert` fills the first empty slot from `lowest` on, `InsertAt` a given one,
and both grow the array through `Resize`. A copy for `fork` has no spare slots. The system calls are
written over the operations of a descriptor table alone, so that the same text runs on this table
and on what it stands for.

An access outside the slots is a read of an empty slot or a store without effect; the source reads
or overwrites foreign memory there. An allocation that fails ends the process and is not modelled.
-/

namespace Junction

def kFlagCloseExec : BitVec 32 := 0x80000

/-- `(flags & kFlagCloseExec) > 0`. -/
def wantsCloseExec (flags : BitVec 32) : Bool := flags &&& kFlagCloseExec != 0

structure FileArray where
  len : ℕ
  cap : ℕ
  files : List (Option FileRef)

namespace FileArray

def ofCap (cap : ℕ) : FileArray := ⟨0, cap, List.replicate cap none⟩

/-- `CopyFileArray`: the slots in use, followed by empty ones up to the new capacity. -/
def copy (src : FileArray) (cap : ℕ) : FileArray :=
  ⟨src.len, cap, src.files.take src.len ++ List.replicate (cap - src.len) none⟩

/-- `files[i]`, with the outside of the array empty. -/
def slot (a : FileArray) (i : ℕ) : Option FileRef := (a.files[i]?).join

def setSlot (a : FileArray) (i : ℕ) (f : Option FileRef) : FileArray :=
  { a with files := a.files.set i f }

end FileArray

structure FileTable where
  farr : FileArray
  closeOnExec : DynamicBitmap

namespace FileTable

def kInitialCap : ℕ := 64

def kOversizeRatio : ℕ := 2

def empty : FileTable := ⟨FileArray.ofCap kInitialCap, DynamicBitmap.ofSize kInitialCap⟩

/-- The copy constructor, which `fork` uses. -/
def copy (o : FileTable) : FileTable := ⟨o.farr.copy o.farr.len, o.closeOnExec⟩

def resize (t : FileTable) (len : ℕ) : FileTable :=
  let newCap := bitCeil len * kOversizeRatio % 2 ^ 64
  if t.farr.cap < newCap then
    ⟨{ t.farr.copy newCap with len := len }, t.closeOnExec.resize newCap⟩
  else { t with farr := { t.farr with len := len } }

/-- `Get` and `Dup`. -/
def get (t : FileTable) (fd : CInt) : Option FileRef :=
  if t.farr.len ≤ fd.toSize then none else t.farr.slot fd.toSize

/-- A file goes into a slot, and its flag is set if that is asked for. -/
def put (t : FileTable) (i : ℕ) (f : FileRef) (cloexec : Bool) : FileTable :=
  ⟨t.farr.setSlot i (some f), if cloexec then t.closeOnExec.set i else t.closeOnExec⟩

/-- The loop of `Insert` for the first empty slot in use. -/
def findSlot (t : FileTable) (lowest : ℕ) : Option ℕ :=
  (List.range' lowest (t.farr.len - lowest)).find? fun i => (t.farr.slot i).isNone

variable (t : FileTable)

def insert (f : FileRef) (cloexec : Bool) (lowest : ℕ) : ℤ × FileTable :=
  match t.findSlot lowest with
  | some i => ((CInt.wrap i).1, t.put i f cloexec)
  | none =>
    -- the loop leaves `i` at the end of the slots in use, or where it started beyond them
    let i := max lowest t.farr.len
    ((CInt.wrap i).1, (t.resize (addWord i 1)).put i f cloexec)

def insertAt (fd : CInt) (f : FileRef) (cloexec : Bool) : FileTable :=
  -- `fd + 1` is an `int` and becomes a `size_t` as the argument
  let t := if t.farr.len ≤ fd.toSize then t.resize (CInt.wrap (fd.1 + 1)).toSize else t
  t.put fd.toSize f cloexec

def close (i : ℕ) : FileTable := ⟨t.farr.setSlot i none, t.closeOnExec.clear i⟩

def remove (fd : CInt) : Bool × FileTable :=
  if t.farr.len ≤ fd.toSize then (false, t)
  else if (t.farr.slot fd.toSize).isNone then (false, t)
  else (true, t.close fd.toSize)

/-- The body of the loop in `RemoveRange`. -/
def closeIfBound (t : FileTable) (i : ℕ) : FileTable :=
  if (t.farr.slot i).isNone then t else t.close i

/-- `RemoveRange`. Reserving room for a negative number of handles throws. -/
def removeRange (t : FileTable) (low high : CInt) : Option FileTable :=
  let high := min high.1 ((CInt.wrap t.farr.len).1 - 1)
  if high - low.1 + 1 < 0 then none
  else some ((List.range' low.1.toNat (high - low.1 + 1).toNat).foldl closeIfBound t)

def setCloseOnExec (t : FileTable) (fd : CInt) : FileTable :=
  { t with closeOnExec := t.closeOnExec.set fd.toSize }

def testCloseOnExec (fd : CInt) : Bool := t.closeOnExec.test fd.toSize

def clearCloseOnExec (t : FileTable) (fd : CInt) : FileTable :=
  { t with closeOnExec := t.closeOnExec.clear fd.toSize }

/-- The body of the loop in `SetCloseOnExecRange`. -/
def flagIfBound (t : FileTable) (i : ℕ) : FileTable :=
  if (t.farr.slot i).isNone then t else { t with closeOnExec := t.closeOnExec.set i }

def setCloseOnExecRange (low high : ℕ) : FileTable :=
  let high := min high (subWord t.farr.len 1)
  (List.range' low (high + 1 - low)).foldl flagIfBound t

def doCloseOnExec : FileTable :=
  ⟨t.closeOnExec.forEachSetBit.foldl (fun a i => a.setSlot i none) t.farr, t.closeOnExec.clearAll⟩

end FileTable

/-- The operations that the system calls use. -/
class DescriptorTable (τ : Type) where
  get : τ → CInt → Option FileRef
  insert : τ → FileRef → Bool → ℕ → ℤ × τ
  insertAt : τ → CInt → FileRef → Bool → τ
  remove : τ → CInt → Bool × τ
  setCloseOnExec : τ → CInt → τ
  testCloseOnExec : τ → CInt → Bool
  clearCloseOnExec : τ → CInt → τ
  doCloseOnExec : τ → τ
  copy : τ → τ

instance : DescriptorTable FileTable where
  get := FileTable.get
  insert := FileTable.insert
  insertAt := FileTable.insertAt
  remove := FileTable.remove
  setCloseOnExec := FileTable.setCloseOnExec
  testCloseOnExec := FileTable.testCloseOnExec
  clearCloseOnExec := FileTable.clearCloseOnExec
  doCloseOnExec := FileTable.doCloseOnExec
  copy := FileTable.copy

/-- The commands of `fcntl` that use the table. -/
inductive FcntlCmd
  | F_DUPFD
  | F_DUPFD_CLOEXEC
  | F_GETFD
  | F_SETFD
  deriving DecidableEq, Repr

section SystemCalls
variable {τ : Type} [DescriptorTable τ]
open DescriptorTable

variable (t : τ)

def usysDup (oldfd : CInt) : ℤ × τ :=
  match get t oldfd with
  | none => (Error.EBADF.toLong, t)
  | some f => insert t f false 0

def usysDup2 (oldfd newfd : CInt) : ℤ × τ :=
  if oldfd = newfd then (newfd.1, t)
  else match get t oldfd with
    | none => (Error.EBADF.toLong, t)
    | some f => (newfd.1, insertAt t newfd f false)

def usysDup3 (oldfd newfd : CInt) (flags : BitVec 32) : ℤ × τ :=
  if oldfd = newfd then (Error.EINVAL.toLong, t)
  else match get t oldfd with
    | none => (Error.EBADF.toLong, t)
    | some f => (newfd.1, insertAt t newfd f (wantsCloseExec flags))

def usysClose (fd : CInt) : ℤ × τ :=
  let r := remove t fd
  (if !r.1 then Error.EBADF.toLong else 0, r.2)

def usysFcntl (fd : CInt) (cmd : FcntlCmd) (arg : BitVec 64) : ℤ × τ :=
  match get t fd with
  | none => (Error.EBADF.toLong, t)
  | some f =>
    match cmd with
    | .F_DUPFD_CLOEXEC => insert t f true arg.toNat
    | .F_DUPFD => insert t f false arg.toNat
    | .F_GETFD => (if testCloseOnExec t fd then 1 else 0, t)
    | .F_SETFD =>
      if arg = 1 then (0, setCloseOnExec t fd)
      else if arg = 0 then (0, clearCloseOnExec t fd)
      else (Error.EINVAL.toLong, t)

/-- What a process does to its table. `Insert` stands for every call that makes a new file. -/
inductive TableCall
  | dup (oldfd : CInt)
  | dup2 (oldfd newfd : CInt)
  | dup3 (oldfd newfd : CInt) (flags : BitVec 32)
  | fcntl (fd : CInt) (cmd : FcntlCmd) (arg : BitVec 64)
  | close (fd : CInt)
  | insert (f : FileRef) (cloexec : Bool) (lowest : BitVec 64)
  | doCloseOnExec

def TableCall.run : TableCall → ℤ × τ
  | .dup oldfd => usysDup t oldfd
  | .dup2 oldfd newfd => usysDup2 t oldfd newfd
  | .dup3 oldfd newfd flags => usysDup3 t oldfd newfd flags
  | .fcntl fd cmd arg => usysFcntl t fd cmd arg
  | .close fd => usysClose t fd
  | .insert f cloexec lowest => DescriptorTable.insert t f cloexec lowest.toNat
  | .doCloseOnExec => (0, DescriptorTable.doCloseOnExec t)

/-- A step of a group of processes: one of them makes a call, or forks a new one. -/
inductive ProcessCall
  | on (p : ℕ) (call : TableCall)
  | fork (p : ℕ)

/-- The tables of all processes, in the order of their creation. A call by a process that does not
exist changes nothing. -/
def processStep (ts : List τ) : ProcessCall → ℤ × List τ
  | .on p call =>
    match ts[p]? with
    | none => (0, ts)
    | some t => ((call.run t).1, ts.set p (call.run t).2)
  | .fork p =>
    match ts[p]? with
    | none => (0, ts)
    | some t => (0, ts ++ [DescriptorTable.copy t])

end SystemCalls

/-!
### System calls that make descriptors

What a call does before its `Insert` is an input. Beside the calls stands a record of the close-on-exec requests, kept
from the arguments and the answers alone.
-/

namespace Error

def EAFNOSUPPORT : Error := ⟨97⟩

end Error

def kFlagNonblock : BitVec 32 := 0x800

def kFlagDirect : BitVec 32 := 0x4000

def kSockTypeMask : BitVec 32 := 0xf

def FIOCLEX : BitVec 32 := 0x5451

def FIONCLEX : BitVec 32 := 0x5450

def CLOSE_RANGE_CLOEXEC : BitVec 32 := 4

/-- The return value of a call and the descriptors that it hands to its caller. -/
structure FdAnswer where
  ret : ℤ
  fds : List ℤ

namespace FdAnswer

def fail (e : Error) : FdAnswer := ⟨e.toLong, []⟩

def done : FdAnswer := ⟨0, []⟩

end FdAnswer

def handedOut (ret : ℤ) : List ℤ := if ret < 0 then [] else [ret]

namespace FileTable

/-- `return ftbl.Insert(f, cloexec)`. -/
def insertOne (t : FileTable) (f : FileRef) (cloexec : Bool) : FdAnswer × FileTable :=
  let r := t.insert f cloexec 0
  (⟨r.1, handedOut r.1⟩, r.2)

/-- Two files are inserted and their descriptors stored for the caller. -/
def insertTwo (t : FileTable) (f g : FileRef) (cloexec : Bool) : FdAnswer × FileTable :=
  let r := t.insert f cloexec 0
  let r' := r.2.insert g cloexec 0
  (⟨0, handedOut r.1 ++ handedOut r'.1⟩, r'.2)

variable (t : FileTable)

def insertMade (made : Status FileRef) (cloexec : Bool) : FdAnswer × FileTable :=
  match made with
  | .error e => (.fail e, t)
  | .ok f => t.insertOne f cloexec

/-- `usys_open` and `usys_openat`. -/
def usysOpen (t : FileTable) (flags : BitVec 32) (made : Status FileRef) : FdAnswer × FileTable :=
  t.insertMade made (wantsCloseExec flags)

def usysSocket (type : BitVec 32) (made : Status FileRef) : FdAnswer × FileTable :=
  t.insertMade made (wantsCloseExec type)

def doAccept (sockfd : CInt) (flags : BitVec 32) (made : Status FileRef) :
    FdAnswer × FileTable :=
  match t.get sockfd with
  | none => (.fail .EBADF, t)
  | some _ => t.insertMade made (wantsCloseExec flags)

def usysAccept (sockfd : CInt) (made : Status FileRef) : FdAnswer × FileTable :=
  t.doAccept sockfd 0 made

def usysAccept4 (sockfd : CInt) (flags : BitVec 32) (made : Status FileRef) :
    FdAnswer × FileTable :=
  if flags &&& ~~~(kFlagNonblock ||| kFlagCloseExec) ≠ 0 then (.fail .EINVAL, t)
  else t.doAccept sockfd (flags &&& kFlagNonblock) made

def usysSocketpair (domain type protocol : BitVec 32) (f g : FileRef) :
    FdAnswer × FileTable :=
  if domain ≠ 1 ∨ protocol ≠ 0 then (.fail .EAFNOSUPPORT, t)
  else if type &&& kSockTypeMask ≠ 2 ∧ type &&& kSockTypeMask ≠ 1 then (.fail .EINVAL, t)
  else t.insertTwo f g (wantsCloseExec (type &&& ~~~kSockTypeMask))

def usysPipe2 (flags : BitVec 32) (f g : FileRef) : FdAnswer × FileTable :=
  if flags &&& ~~~(kFlagNonblock ||| kFlagCloseExec ||| kFlagDirect) ≠ 0 then (.fail .EINVAL, t)
  else t.insertTwo f g (wantsCloseExec flags)

def usysEventfd2 (flags : BitVec 32) (f : FileRef) : FdAnswer × FileTable :=
  t.insertOne f (wantsCloseExec flags)

def usysEpollCreate1 (flags : BitVec 32) (f : FileRef) : FdAnswer × FileTable :=
  t.insertOne f (wantsCloseExec flags)

def usysInotifyInit1 (flags : BitVec 32) (f : FileRef) : FdAnswer × FileTable :=
  t.insertOne f (wantsCloseExec flags)

/-- `usys_signalfd4`, which never reads its flags. Whether a file is a signal file is an input. -/
def usysSignalfd4 (t : FileTable) (isSignalFd : FileRef → Bool) (fd : CInt) (masksize : ℕ)
    (_flags : BitVec 32) (f : FileRef) : FdAnswer × FileTable :=
  if masksize ≠ 8 then (.fail .EINVAL, t)
  else if fd.1 = -1 then t.insertOne f false
  else if (t.get fd).any isSignalFd then (.done, t)
  else (.fail .EBADF, t)

/-- `usys_ioctl`. A request to the file itself has an answer that does not matter here. -/
def usysIoctl (t : FileTable) (fd : CInt) (request : BitVec 32) (other : ℤ) :
    FdAnswer × FileTable :=
  match t.get fd with
  | none => (.fail .EBADF, t)
  | some _ =>
    if request = FIOCLEX then (.done, t.setCloseOnExec fd)
    else if request = FIONCLEX then (.done, t.clearCloseOnExec fd)
    else (⟨other, []⟩, t)

/-- `usys_close_range`. The exception of `RemoveRange` ends the process, so the answer after it is
never seen. -/
def usysCloseRange (t : FileTable) (first last : CInt) (flags : BitVec 32) :
    FdAnswer × FileTable :=
  if flags &&& ~~~CLOSE_RANGE_CLOEXEC ≠ 0 then (.fail .EINVAL, t)
  else if first.1 < 0 ∨ last.1 < first.1 then (.fail .EINVAL, t)
  else if flags &&& CLOSE_RANGE_CLOEXEC ≠ 0 then
    (.done, t.setCloseOnExecRange first.toSize last.toSize)
  else (.done, (t.removeRange first last).getD t)

end FileTable

def TableCall.created (ret : ℤ) : TableCall → List ℤ
  | .dup _ | .dup3 .. | .fcntl _ .F_DUPFD _ | .fcntl _ .F_DUPFD_CLOEXEC _ | .insert .. =>
    handedOut ret
  | .dup2 oldfd newfd => if oldfd = newfd then [] else handedOut ret
  | .fcntl _ .F_GETFD _ | .fcntl _ .F_SETFD _ | .close _ | .doCloseOnExec => []

/-- What a process does to its descriptors, with what the rest of the system contributes. After
`fork` the run goes on in the child. -/
inductive FdCall
  | table (call : TableCall)
  | open (flags : BitVec 32) (made : Status FileRef)
  | socket (type : BitVec 32) (made : Status FileRef)
  | accept (sockfd : CInt) (made : Status FileRef)
  | accept4 (sockfd : CInt) (flags : BitVec 32) (made : Status FileRef)
  | socketpair (domain type protocol : BitVec 32) (f g : FileRef)
  | pipe2 (flags : BitVec 32) (f g : FileRef)
  | eventfd2 (flags : BitVec 32) (f : FileRef)
  | epollCreate1 (flags : BitVec 32) (f : FileRef)
  | inotifyInit1 (flags : BitVec 32) (f : FileRef)
  | signalfd4 (isSignalFd : FileRef → Bool) (fd : CInt) (masksize : ℕ) (flags : BitVec 32)
      (f : FileRef)
  | ioctl (fd : CInt) (request : BitVec 32) (other : ℤ)
  | closeRange (first last : CInt) (flags : BitVec 32)
  | fork

namespace FdCall

def run (t : FileTable) : FdCall → FdAnswer × FileTable
  | .table call => let r := call.run t; (⟨r.1, call.created r.1⟩, r.2)
  | .open flags made => t.usysOpen flags made
  | .socket type made => t.usysSocket type made
  | .accept sockfd made => t.usysAccept sockfd made
  | .accept4 sockfd flags made => t.usysAccept4 sockfd flags made
  | .socketpair domain type protocol f g => t.usysSocketpair domain type protocol f g
  | .pipe2 flags f g => t.usysPipe2 flags f g
  | .eventfd2 flags f => t.usysEventfd2 flags f
  | .epollCreate1 flags f => t.usysEpollCreate1 flags f
  | .inotifyInit1 flags f => t.usysInotifyInit1 flags f
  | .signalfd4 isSignalFd fd masksize flags f => t.usysSignalfd4 isSignalFd fd masksize flags f
  | .ioctl fd request other => t.usysIoctl fd request other
  | .closeRange first last flags => t.usysCloseRange first last flags
  | .fork => (.done, t.copy)

/-- The close-on-exec request in the arguments of a call that makes descriptors. -/
def requested : FdCall → Bool
  | .table (.dup3 _ _ flags) => wantsCloseExec flags
  | .table (.fcntl _ cmd _) => cmd = .F_DUPFD_CLOEXEC
  | .table (.insert _ cloexec _) => cloexec
  | .open flags _ | .socket flags _ | .accept4 _ flags _ | .socketpair _ flags _ _ _
  | .pipe2 flags _ _ | .eventfd2 flags _ | .epollCreate1 flags _ | .inotifyInit1 flags _
  | .signalfd4 _ _ _ flags _ => wantsCloseExec flags
  | _ => false

/-- The request that a successful call makes for a descriptor which exists already. -/
def changes (fd : ℤ) : FdCall → Option Bool
  | .table (.fcntl fd' .F_SETFD arg) => if fd'.1 = fd then some (arg = 1) else none
  | .ioctl fd' request _ =>
    if fd'.1 ≠ fd then none
    else if request = FIOCLEX then some true
    else if request = FIONCLEX then some false
    else none
  | .closeRange first last flags =>
    if flags = CLOSE_RANGE_CLOEXEC ∧ first.1 ≤ fd ∧ fd ≤ last.1 then some true else none
  | _ => none

def noteMade (asked : ℤ → Bool) (fds : List ℤ) (flag : Bool) : ℤ → Bool := fun fd =>
  if fds.contains fd then flag else asked fd

/-- The last request for each descriptor, after a call with its answer. -/
def note (asked : ℤ → Bool) (call : FdCall) (answer : FdAnswer) : ℤ → Bool :=
  noteMade (fun fd => if answer.ret = 0 then (call.changes fd).getD (asked fd) else asked fd)
    answer.fds call.requested

end FdCall

structure FdHistory where
  table : FileTable
  asked : ℤ → Bool

namespace FdHistory

def start : FdHistory := ⟨FileTable.empty, fun _ => false⟩

def step (s : FdHistory) (call : FdCall) : FdHistory :=
  let r := call.run s.table
  ⟨r.2, call.note s.asked r.1⟩

end FdHistory

/-! ### Descriptors as a finite map

A new file is bound to the least unbound number from a lowest one on, and a binding is replaced as a whole. -/

open Function List FileArray

structure FdMap where
  binding : ℕ → Option (FileRef × Bool)
  finite : ∃ n, ∀ i, n ≤ i → binding i = none

variable {i : ℕ}

namespace FdMap

@[ext] theorem ext {m m' : FdMap} (h : ∀ i, m.binding i = m'.binding i) : m = m' := by
  cases m
  cases m'
  congr
  exact funext h

def empty : FdMap := ⟨fun _ => none, 0, fun _ _ => rfl⟩

theorem exists_free (m : FdMap) (lowest : ℕ) : ∃ i, lowest ≤ i ∧ m.binding i = none := by
  obtain ⟨n, hn⟩ := m.finite
  exact ⟨max lowest n, le_max_left _ _, hn _ (le_max_right _ _)⟩

/-- The least unbound number from `lowest` on. -/
def leastFree (m : FdMap) (lowest : ℕ) : ℕ := Nat.find (m.exists_free lowest)

theorem leastFree_eq {m : FdMap} {lowest : ℕ} (hle : lowest ≤ i) (hfree : m.binding i = none)
    (hbelow : ∀ j, lowest ≤ j → j < i → m.binding j ≠ none) : m.leastFree lowest = i := by
  refine (Nat.find_eq_iff _).2 ⟨⟨hle, hfree⟩, ?_⟩
  rintro j hj ⟨hlo, hnone⟩
  exact hbelow j hlo hj hnone

/-- Numbers other than `i` keep their binding. -/
def set (m : FdMap) (i : ℕ) (b : Option (FileRef × Bool)) : FdMap where
  binding := update m.binding i b
  finite := by
    obtain ⟨n, hn⟩ := m.finite
    refine ⟨max n (i + 1), fun j hj => ?_⟩
    rw [update_of_ne (by omega)]
    exact hn j (by omega)

theorem binding_set (m : FdMap) (i : ℕ) (b : Option (FileRef × Bool)) (j : ℕ) :
    (m.set i b).binding j = if j = i then b else m.binding j := by
  simp [set, update_apply]

variable (m : FdMap)

def lookup (fd : CInt) : Option (FileRef × Bool) :=
  if fd.1 < 0 then none else m.binding fd.1.toNat

def insert (f : FileRef) (cloexec : Bool) (lowest : ℕ) : ℤ × FdMap :=
  (m.leastFree lowest, m.set (m.leastFree lowest) (some (f, cloexec)))

def insertAt (fd : CInt) (f : FileRef) (cloexec : Bool) : FdMap :=
  if fd.1 < 0 then m else m.set fd.1.toNat (some (f, cloexec))

def remove (fd : CInt) : Bool × FdMap :=
  match m.lookup fd with
  | none => (false, m)
  | some _ => (true, m.set fd.1.toNat none)

/-- Only the flag of `i` changes, if `i` is bound. -/
def flagAt (m : FdMap) (i : ℕ) (flag : Bool) : FdMap where
  binding j := if j = i then (m.binding j).map fun b => (b.1, flag) else m.binding j
  finite := by
    obtain ⟨n, hn⟩ := m.finite
    refine ⟨n, fun j hj => ?_⟩
    rw [hn j hj]
    split_ifs <;> rfl

def setFlag (fd : CInt) (flag : Bool) : FdMap :=
  if fd.1 < 0 then m else m.flagAt fd.1.toNat flag

def doCloseOnExec : FdMap where
  binding i := (m.binding i).filter fun b => !b.2
  finite := by
    obtain ⟨n, hn⟩ := m.finite
    exact ⟨n, fun i hi => by rw [hn i hi]; rfl⟩

end FdMap

instance : DescriptorTable FdMap where
  get m fd := (m.lookup fd).map Prod.fst
  insert := FdMap.insert
  insertAt := FdMap.insertAt
  remove := FdMap.remove
  setCloseOnExec m fd := m.setFlag fd true
  testCloseOnExec m fd := ((m.lookup fd).map Prod.snd).getD false
  clearCloseOnExec m fd := m.setFlag fd false
  doCloseOnExec := FdMap.doCloseOnExec
  copy := id

/-! ## The invariant of a file table -/

namespace FileArray
variable {a : FileArray}

theorem slot_of_length_le (h : a.files.length ≤ i) : a.slot i = none := by
  rw [slot, getElem?_eq_none h]
  rfl

theorem slot_setSlot (h : i < a.files.length) (f : Option FileRef) (j : ℕ) :
    (a.setSlot i f).slot j = if j = i then f else a.slot j := by
  simp only [slot, setSlot, getElem?_set]
  by_cases hj : i = j
  · subst hj
    simp [h]
  · simp [hj, Ne.symm hj]

theorem slot_setSlot_none (i j : ℕ) : (a.setSlot i none).slot j = if j = i then none else a.slot j := by
  by_cases h : i < a.files.length
  · exact slot_setSlot h none j
  rw [setSlot, set_eq_of_length_le (by omega)]
  by_cases hj : j = i
  · subst hj
    rw [if_pos rfl]
    exact slot_of_length_le (Nat.not_lt.1 h)
  · rw [if_neg hj]

theorem slot_foldl_setSlot_none (is : List ℕ) (j : ℕ) :
    (is.foldl (fun a i => a.setSlot i none) a).slot j = if j ∈ is then none else a.slot j := by
  induction is generalizing a with
  | nil => simp
  | cons i is ih =>
    simp only [foldl_cons, ih, slot_setSlot_none, mem_cons]
    by_cases hj : j = i <;> simp [hj]

theorem foldl_setSlot_none_fields (is : List ℕ) : (is.foldl (fun a i => a.setSlot i none) a).len = a.len ∧
      (is.foldl (fun a i => a.setSlot i none) a).cap = a.cap ∧
      (is.foldl (fun a i => a.setSlot i none) a).files.length = a.files.length := by
  induction is generalizing a with
  | nil => exact ⟨rfl, rfl, rfl⟩
  | cons i is ih =>
    obtain ⟨h₁, h₂, h₃⟩ := ih (a := a.setSlot i none)
    exact ⟨h₁, h₂, h₃.trans (length_set ..)⟩

theorem slot_copy (hlen : a.len ≤ a.files.length) (cap j : ℕ) :
    (a.copy cap).slot j = if j < a.len then a.slot j else none := by
  simp only [slot, copy]
  by_cases hj : j < a.len
  · rw [getElem?_append_left (by simp; omega), getElem?_take_of_lt hj, if_pos hj]
  · rw [getElem?_append_right (by simp; omega), getElem?_replicate, if_neg hj]
    split_ifs <;> rfl

end FileArray

namespace FileTable

/-- Array, length, capacity and bitmap fit together: the bitmap covers the capacity, slots above the
length are empty, and only a slot with a file has its flag set. -/
structure Inv (t : FileTable) : Prop where
  len_le_cap : t.farr.len ≤ t.farr.cap
  files_length : t.farr.files.length = t.farr.cap
  cap_le_size : t.farr.cap ≤ t.closeOnExec.size
  len_le : t.farr.len ≤ 2 ^ 31
  slot_above : ∀ i, t.farr.len ≤ i → t.farr.slot i = none
  flag_bound : ∀ i, t.closeOnExec.test i = true → t.farr.slot i ≠ none

def toMap (t : FileTable) : FdMap where
  binding i := (t.farr.slot i).map fun f => (f, t.closeOnExec.test i)
  finite := ⟨t.farr.files.length, fun i hi => by rw [slot_of_length_le hi]; rfl⟩

theorem binding_toMap (t : FileTable) (i : ℕ) :
    t.toMap.binding i = (t.farr.slot i).map fun f => (f, t.closeOnExec.test i) := rfl

theorem binding_toMap_eq_none_iff (t : FileTable) (i : ℕ) : t.toMap.binding i = none ↔ t.farr.slot i = none := by
  simp [binding_toMap, Option.map_eq_none_iff]

theorem inv_empty : empty.Inv := by
  have hslot : ∀ i, empty.farr.slot i = none := by
    intro i
    simp only [empty, slot, ofCap, getElem?_replicate]
    split_ifs <;> rfl
  refine ⟨by decide, by decide, by decide, by decide, fun i _ => hslot i, fun i hi => ?_⟩
  rw [show empty.closeOnExec.test i = false from DynamicBitmap.test_ofSize _ i] at hi
  exact absurd hi (by decide)

theorem toMap_empty : empty.toMap = FdMap.empty := by
  ext i : 1
  simp only [binding_toMap, empty, slot, ofCap, getElem?_replicate]
  split_ifs <;> rfl

namespace Inv
variable {t : FileTable} (h : t.Inv)
include h

theorem lt_len (hi : t.farr.slot i ≠ none) : i < t.farr.len := by
  by_contra hge
  exact hi (h.slot_above i (by omega))

theorem lt_size (hi : i < t.farr.len) : i < t.closeOnExec.size := by
  have := h.len_le_cap
  have := h.cap_le_size
  omega

theorem flag_clear (hi : t.farr.slot i = none) : t.closeOnExec.test i = false := by
  by_contra hset
  exact h.flag_bound i (by simpa using hset) hi

theorem get_eq (fd : CInt) : t.get fd = t.farr.slot fd.toSize := by
  unfold FileTable.get
  split_ifs with hlen
  · exact (h.slot_above _ hlen).symm
  · rfl

theorem slot_of_neg {fd : CInt} (hneg : fd.1 < 0) : t.farr.slot fd.toSize = none := by
  have := h.len_le
  have := CInt.le_toSize_of_neg hneg
  exact h.slot_above _ (by omega)

theorem lookup_toMap (fd : CInt) :
    t.toMap.lookup fd = (t.farr.slot fd.toSize).map fun f => (f, t.closeOnExec.test fd.toSize) := by
  unfold FdMap.lookup
  split_ifs with hneg
  · rw [h.slot_of_neg hneg]
    rfl
  · rw [← CInt.toSize_of_nonneg (by omega)]
    rfl

theorem put (hi : i < t.farr.len) (f : FileRef) {cloexec : Bool} (hflag : cloexec ∨ t.closeOnExec.test i = false) :
    (t.put i f cloexec).Inv ∧ (t.put i f cloexec).toMap = t.toMap.set i (some (f, cloexec)) := by
  have hcap := h.len_le_cap
  have hfiles := h.files_length
  have hslot : ∀ j, (t.put i f cloexec).farr.slot j = if j = i then some f else t.farr.slot j :=
    slot_setSlot (by omega) (some f)
  have htest : ∀ j, (t.put i f cloexec).closeOnExec.test j =
      if j = i then cloexec else t.closeOnExec.test j := by
    intro j
    simp only [FileTable.put]
    cases cloexec with
    | true =>
      simp only [if_true, DynamicBitmap.test_set (h.lt_size hi)]
      by_cases hj : j = i
      · simp [hj]
      · simp [hj, Ne.symm hj]
    | false =>
      have hclear : t.closeOnExec.test i = false := by simpa using hflag
      by_cases hj : j = i
      · subst hj
        simpa using hclear
      · simp [hj]
  have hsize : (t.put i f cloexec).closeOnExec.size = t.closeOnExec.size := by
    cases cloexec <;> rfl
  refine ⟨⟨hcap, (length_set ..).trans hfiles, hsize ▸ h.cap_le_size, h.len_le, fun j hj => ?_, fun j hj => ?_⟩, ?_⟩
  · have hne : j ≠ i := by
      rintro rfl
      exact absurd hi (Nat.not_lt.2 hj)
    rw [hslot, if_neg hne]
    exact h.slot_above j hj
  · rw [hslot]
    rw [htest] at hj
    split_ifs with hji
    · simp
    · rw [if_neg hji] at hj
      exact h.flag_bound j hj
  · ext j : 1
    rw [binding_toMap, FdMap.binding_set, hslot, htest]
    split_ifs <;> rfl

theorem resize {n : ℕ} (hle : t.farr.len ≤ n) (hn : n ≤ 2 ^ 31) :
    (t.resize n).Inv ∧ (t.resize n).toMap = t.toMap ∧ (t.resize n).farr.len = n := by
  obtain ⟨hceil, k, hk, hpow⟩ := bitCeil_spec hn (by decide)
  have hcap := h.len_le_cap
  have hfiles := h.files_length
  have hnew : n ≤ bitCeil n * kOversizeRatio % 2 ^ 64 := by
    have hbound : bitCeil n ≤ 2 ^ 31 := hpow ▸ Nat.pow_le_pow_right (by decide) hk
    simp only [kOversizeRatio]
    omega
  unfold FileTable.resize
  simp only
  generalize bitCeil n * kOversizeRatio % 2 ^ 64 = newCap at hnew
  split_ifs with hgrow
  · have hslot : ∀ j, ({ t.farr.copy newCap with len := n } : FileArray).slot j = t.farr.slot j := by
      intro j
      change (t.farr.copy newCap).slot j = t.farr.slot j
      rw [slot_copy (by omega)]
      split_ifs with hj
      · rfl
      · exact (h.slot_above j (by omega)).symm
    have htest : ∀ j, (t.closeOnExec.resize newCap).test j = t.closeOnExec.test j := by
      intro j
      refine DynamicBitmap.test_resize fun hset => ?_
      have := h.lt_len (h.flag_bound j hset)
      omega
    refine ⟨⟨hnew, ?_, le_refl _, hn, fun j hj => ?_, fun j hj => ?_⟩, ?_, rfl⟩
    · simp only [FileArray.copy, length_append, length_take, length_replicate]
      omega
    · rw [hslot]
      exact h.slot_above j (by simp only at hj; omega)
    · rw [hslot]
      exact h.flag_bound j ((htest j) ▸ hj)
    · ext j : 1
      simp [binding_toMap, hslot, htest]
  · exact ⟨⟨by simp only; omega, hfiles, h.cap_le_size, hn,
      fun j hj => h.slot_above j (by simp only at hj; omega), h.flag_bound⟩, rfl, rfl⟩

end Inv
end FileTable
end Junction
