import Junction.ByteChannel
import Junction.WaitableChannelWakeups

/-!
# The byte channel is a bounded queue

In every interleaving, what was in the channel at the start and what the writes reported is what the reads
took out, followed by what is in the channel. Peeks take nothing and see what the next read gets.
-/

namespace Junction.ByteChannel
open Interleaving List
variable {r : RingSize}

abbrev ReadEntry := Interleaving.Entry ReadCall (Status (List UInt8))

abbrev WriteEntry := Interleaving.Entry WriteCall (Status ℕ)

def taken (e : ReadEntry) : List UInt8 :=
  match e.answer with
  | .ok bytes => if e.call.peek then [] else bytes
  | .error _ => []

def put (e : WriteEntry) : List UInt8 :=
  match e.answer with
  | .ok n => e.call.bytes.take n
  | .error _ => []

def consumed (reads : List ReadEntry) : List UInt8 := reads.flatMap taken

def written (writes : List WriteEntry) : List UInt8 := writes.flatMap put

/-- A read got what the stream has at its place, or found the channel empty. -/
def ReadFits (stream : List UInt8) (pos : ℕ) (e : ReadEntry) : Prop :=
  match e.answer with
  | .ok bytes => bytes <+: stream.drop pos ∧ bytes.length ≤ e.call.room
  | .error err => err = .EAGAIN ∧ (0 < e.call.room → e.seen = true)

/-- Every read fits, at the place where the reads before it have left the stream. -/
def ReadsFit (stream : List UInt8) : ℕ → List ReadEntry → Prop
  | _, [] => True
  | pos, e :: reads => ReadFits stream pos e ∧ ReadsFit stream (pos + (taken e).length) reads

def WriteFits (e : WriteEntry) : Prop :=
  match e.answer with
  | .ok n => n ≤ e.call.bytes.length
  | .error err => err = .EAGAIN ∧ (0 < e.call.bytes.length → e.seen = true)

variable {pos : ℕ} {stream stream' : List UInt8} {e : ReadEntry}

theorem ReadFits.mono (h : ReadFits stream pos e) (hpre : stream <+: stream') : ReadFits stream' pos e := by
  unfold ReadFits at h ⊢
  cases hanswer : e.answer with
  | error err =>
    rw [hanswer] at h
    exact h
  | ok bytes =>
    rw [hanswer] at h
    exact ⟨h.1.trans (hpre.drop pos), h.2⟩

theorem ReadsFit.mono {reads : List ReadEntry}
    (h : ReadsFit stream pos reads) (hpre : stream <+: stream') : ReadsFit stream' pos reads := by
  induction reads generalizing pos with
  | nil => trivial
  | cons e reads ih => exact ⟨h.1.mono hpre, ih h.2⟩

theorem readsFit_append (reads reads' : List ReadEntry) : ReadsFit stream pos (reads ++ reads') ↔
      ReadsFit stream pos reads ∧ ReadsFit stream (pos + (consumed reads).length) reads' := by
  induction reads generalizing pos with
  | nil => simp [ReadsFit, consumed]
  | cons e reads ih =>
    simp [cons_append, ReadsFit, ih, consumed, flatMap_cons, length_append, and_assoc, Nat.add_assoc]

variable {c : ByteChannel} {n : ℕ}

theorem used_storeIn (h : c.used + n ≤ r.size.toNat) :
    ({ c with in_ := c.in_ + BitVec.ofNat 64 n } : ByteChannel).used = c.used + n := by
  unfold used at h ⊢
  bv_omega

theorem used_storeOut (h : n ≤ c.used) :
    ({ c with out_ := c.out_ + BitVec.ofNat 64 n } : ByteChannel).used = c.used - n := by
  unfold used at h ⊢
  bv_omega

theorem contents_storeIn (h : c.used + n ≤ r.size.toNat) : contents r { c with in_ := c.in_ + BitVec.ofNat 64 n } =
      contents r c ++ Ring.window r.size.toNat c.buf_ c.in_.toNat n := by
  rw [contents, used_storeIn h, Ring.window_add]
  refine congrArg (_ ++ ·) (Ring.window_start ?_)
  exact (r.cell_ahead c.in_ c.out_ 0).symm

theorem contents_storeOut (h : n ≤ c.used) : contents r c = Ring.window r.size.toNat c.buf_ c.out_.toNat n ++
      contents r { c with out_ := c.out_ + BitVec.ofNat 64 n } := by
  rw [contents, contents, used_storeOut h]
  conv_lhs => rw [← Nat.add_sub_of_le h, Ring.window_add]
  exact congrArg (_ ++ ·) (Ring.window_start (r.add_mod c.out_ n)).symm

theorem contents_keeps {c c' : ByteChannel} (hin : c'.in_ = c.in_) (hk : Keeps r c c') :
    contents r c' = contents r c := by
  have hused : c'.used = c.used := by rw [used, used, hin, hk.index]
  rw [contents, contents, hused, hk.index]
  exact map_congr_left fun j hj => hk.bytes j (mem_range.1 hj)

structure Linked (r : RingSize) (initial : List UInt8) (c : ByteChannel) (reads : List ReadEntry)
    (writes : List WriteEntry) : Prop where
  fits : Fits r c
  stream : initial ++ written writes = consumed reads ++ contents r c
  reads : ReadsFit (initial ++ written writes) 0 reads
  writes : ∀ e ∈ writes, WriteFits e

theorem written_append_singleton (writes : List WriteEntry) (e : WriteEntry) :
    written (writes ++ [e]) = written writes ++ put e := by
  simp [written]

namespace Linked
variable {initial : List UInt8} {c c' : ByteChannel} {reads : List ReadEntry}
  {writes : List WriteEntry} (h : Linked r initial c reads writes)
include h

theorem read (e : ReadEntry) (hfits : Fits r c') (hstream : contents r c = taken e ++ contents r c')
    (hread : ReadFits (initial ++ written writes) (consumed reads).length e) :
    Linked r initial c' (reads ++ [e]) writes where
  fits := hfits
  stream := by simpa [consumed, ← hstream] using h.stream
  reads := (readsFit_append reads [e]).2 ⟨h.reads, by rw [Nat.zero_add]; exact hread, trivial⟩
  writes := h.writes

theorem write (e : WriteEntry) (hfits : Fits r c') (hstream : contents r c' = contents r c ++ put e)
    (hwrite : WriteFits e) : Linked r initial c' reads (writes ++ [e]) where
  fits := hfits
  stream := by
    rw [written_append_singleton, hstream, ← append_assoc, ← append_assoc, h.stream]
  reads := by
    rw [written_append_singleton, ← append_assoc]
    exact h.reads.mono (prefix_append _ _)
  writes x hx := by
    rcases mem_append.1 hx with hx | hx
    · exact h.writes x hx
    · rwa [mem_singleton.1 hx]

theorem silent (hin : c'.in_ = c.in_) (hk : Keeps r c c') : Linked r initial c' reads writes :=
  ⟨hk.fits, h.stream.trans (by rw [contents_keeps hin hk]), h.reads, h.writes⟩

variable {seen : Bool}

theorem commit_read {call : ReadCall} {answer : Status (List UInt8)}
    (hcommit : (readerContract r).commit call answer seen c c') :
    Linked r initial c' (reads ++ [⟨call, answer, seen⟩]) writes ∧ Yields r c c' := by
  cases answer with
  | error err =>
    obtain ⟨rfl, herr, hseen⟩ := hcommit
    exact ⟨h.read _ h.fits rfl ⟨herr, hseen⟩, Yields.refl h.fits⟩
  | ok bytes =>
    obtain ⟨n, hn, hroom, rfl, rfl⟩ := hcommit
    have hsplit := contents_storeOut (r := r) hn
    have hread : ReadFits (initial ++ written writes) (consumed reads).length
        ⟨call, .ok (Ring.window r.size.toNat c.buf_ c.out_.toNat n), seen⟩ := by
      refine ⟨?_, by simpa using hroom⟩
      rw [h.stream, drop_left, hsplit]
      exact prefix_append _ _
    cases hpeek : call.peek with
    | true =>
      refine ⟨h.read _ h.fits ?_ hread, Yields.refl h.fits⟩
      simp [taken, hpeek]
    | false =>
      have hused := used_storeOut hn
      have hfits : Fits r { c with out_ := c.out_ + BitVec.ofNat 64 n } := by
        have := h.fits
        unfold Fits at this ⊢
        omega
      refine ⟨h.read _ hfits ?_ hread, hfits, rfl, rfl, ?_⟩
      · simpa [taken, hpeek] using hsplit
      · change ByteChannel.used { c with out_ := c.out_ + BitVec.ofNat 64 n } ≤ c.used
        omega

theorem commit_write {call : WriteCall} {answer : Status ℕ}
    (hcommit : (writerContract r).commit call answer seen c c') :
    Linked r initial c' reads (writes ++ [⟨call, answer, seen⟩]) ∧ Keeps r c c' := by
  cases answer with
  | error err =>
    obtain ⟨rfl, herr, hseen⟩ := hcommit
    exact ⟨h.write _ h.fits (append_nil _).symm ⟨herr, hseen⟩, Keeps.refl h.fits⟩
  | ok n =>
    obtain ⟨hlen, hroom, hwindow, rfl⟩ := hcommit
    have hused := used_storeIn hroom
    have hfits : Fits r { c with in_ := c.in_ + BitVec.ofNat 64 n } := hused.trans_le hroom
    refine ⟨h.write _ hfits ?_ hlen, hfits, rfl, ?_, fun _ _ => rfl⟩
    · rw [contents_storeIn hroom, hwindow]
      rfl
    · rw [hused]
      exact Nat.le_add_right _ _

end Linked

theorem coupled (initial : List UInt8) : Coupled (Fits r) (readerContract r) (writerContract r) (Linked r initial) where
  good _ _ _ h := h.fits
  silent_left c c' reads writes h hsilent := by
    obtain rfl : c' = c := hsilent
    exact ⟨h, Yields.refl h.fits⟩
  commit_left _ _ _ _ _ _ _ h hcommit := h.commit_read hcommit
  silent_right _ _ _ _ h hsilent := ⟨h.silent hsilent.1 hsilent.2, hsilent.2⟩
  commit_right _ _ _ _ _ _ _ h hcommit := h.commit_write hcommit

theorem allowed_always {α : Type} (c : ByteChannel) (p : Code α) : p.Allowed always c := by
  cases p <;> trivial

theorem run_inv (hc : Fits r c) (ticks : List (Tick ReadCall WriteCall)) :
    (run r c ticks).Inv exec always (reader r) (writer r) (readerContract r) (writerContract r)
      (Linked r (contents r c)) := by
  refine System.inv_exec reader_honours writer_honours (coupled _) ⟨hc, by simp [written, consumed],
    trivial, by simp⟩ trivial trivial (Run.admitted_of_forall (fun sys tick => ?_) _ _)
  cases tick with
  | left call | right call => exact ⟨fun _ => trivial, allowed_always _ _⟩

/-- What was there and what was written is what was taken, followed by what is there. A peek agrees with the next read,
and a call gives up only if the channel was empty, or full, at some time during it. -/
structure IsFifo (r : RingSize) (initial : List UInt8) (sys : Duo) : Prop where
  bounded : (sys.shared.in_ - sys.shared.out_).toNat ≤ r.size.toNat
  queue : initial ++ written sys.right.log = consumed sys.left.log ++ contents r sys.shared
  taken_prefix : consumed sys.left.log <+: initial ++ written sys.right.log
  peek_changes_nothing : ∀ call, (sys.left.start (reader r) call sys.shared).1.peek = true →
    (sys.step exec (reader r) (writer r) (.left call)).shared = sys.shared
  peek_agrees : ∀ l e m e' l', sys.left.log = l ++ e :: (m ++ e' :: l') → e.call.peek = true →
    e'.call.peek = false → consumed m = [] → ∀ bytes bytes', e.answer = .ok bytes →
    e'.answer = .ok bytes' → bytes.take bytes'.length = bytes'.take bytes.length
  read_gives_up : ∀ e ∈ sys.left.log, ∀ err, e.answer = .error err →
    err = .EAGAIN ∧ (0 < e.call.room → e.seen = true)
  write_gives_up : ∀ e ∈ sys.right.log, ∀ err, e.answer = .error err →
    err = .EAGAIN ∧ (0 < e.call.bytes.length → e.seen = true)

theorem ReadsFit.answer {reads : List ReadEntry} (h : ReadsFit stream pos reads) (he : e ∈ reads) :
    ∃ pos, ReadFits stream pos e := by
  induction reads generalizing pos with
  | nil => cases he
  | cons x reads ih =>
    rcases mem_cons.1 he with rfl | he
    · exact ⟨pos, h.1⟩
    · exact ih h.2 he

variable {bytes : List UInt8}

theorem ReadFits.ok (h : ReadFits stream pos e) (hanswer : e.answer = .ok bytes) : bytes <+: stream.drop pos := by
  rw [ReadFits, hanswer] at h
  exact h.1

theorem ReadFits.error {err : Error} (h : ReadFits stream pos e) (hanswer : e.answer = .error err) :
    err = .EAGAIN ∧ (0 < e.call.room → e.seen) := by
  rw [ReadFits, hanswer] at h
  exact h

theorem ReadsFit.agree {bytes' : List UInt8} {l m l' : List ReadEntry} {e' : ReadEntry}
    (h : ReadsFit stream 0 (l ++ e :: (m ++ e' :: l'))) (htaken : taken e = [])
    (hm : consumed m = []) (he : e.answer = .ok bytes) (he' : e'.answer = .ok bytes') :
    bytes.take bytes'.length = bytes'.take bytes.length := by
  obtain ⟨-, hread, hrest⟩ := (readsFit_append l _).1 h
  obtain ⟨-, hread', -⟩ := (readsFit_append m _).1 hrest
  rw [htaken, hm] at hread'
  rcases prefix_or_prefix_of_prefix (hread.ok he) (hread'.ok he') with hpre | hpre <;>
    rw [← prefix_iff_eq_take.1 hpre, take_of_length_le hpre.length_le]

/-- The byte channel is a bounded queue in every interleaving of one reader and one writer, whatever its
capacity and wherever its indices start. -/
theorem byteChannel_isFifo (request : ℕ) (hrequest : request ≤ 2 ^ 63) (c : ByteChannel)
    (hc : (c.in_ - c.out_).toNat ≤ (RingSize.ofRequest request hrequest).size.toNat)
    (ticks : List (Tick ReadCall WriteCall)) : IsFifo (RingSize.ofRequest request hrequest)
      (contents (RingSize.ofRequest request hrequest) c)
      (run (RingSize.ofRequest request hrequest) c ticks) := by
  generalize RingSize.ofRequest request hrequest = r at hc
  have hinv := run_inv hc ticks
  have h := hinv.coupled
  refine ⟨h.fits, h.stream, ⟨_, h.stream.symm⟩, fun call hpeek => ?_, ?_, ?_, ?_⟩
  · have hmay : (run r c ticks).left.May always (reader r) (fun _ => True) call (run r c ticks).shared :=
      ⟨fun _ => trivial, allowed_always _ _⟩
    obtain ⟨-, hsilent | ⟨answer, seen, hcommit, -⟩⟩ := Thread.step_effect reader_honours h.fits hinv.left hmay
    · exact hsilent.1
    cases answer with
    | error err => exact hcommit.1
    | ok bytes =>
      obtain ⟨n, -, -, -, hsame⟩ := hcommit
      rw [if_pos hpeek] at hsame
      exact hsame
  · intro l e m e' l' hlog hpeek _ hm bytes bytes' he he'
    have hreads := h.reads
    rw [hlog] at hreads
    exact hreads.agree (by simp [taken, he, hpeek]) hm he he'
  · intro e he err hanswer
    obtain ⟨pos, hfit⟩ := h.reads.answer he
    exact hfit.error hanswer
  · intro e he err hanswer
    have hfit := h.writes e he
    rw [WriteFits, hanswer] at hfit
    exact hfit

def lastIndex : ByteChannel := ⟨BitVec.ofNat 64 (2 ^ 64 - 1), BitVec.ofNat 64 (2 ^ 64 - 1), fun _ => 0⟩

/-- A write, and in the middle of it a read that finds nothing; then a peek and a read. -/
def wrapTicks : List (Tick ReadCall WriteCall) :=
  [.right (.write [1, 2, 3]), .right (.write []), .left (.read 1 false), .left (.read 1 false),
    .right (.write []), .right (.write []), .right (.write []), .left (.read 1 true),
    .left (.read 1 true), .left (.read 1 true), .left (.read 3 false), .left (.read 3 false),
    .left (.read 3 false), .left (.read 3 false), .left (.read 3 false)]

theorem byteChannel_isFifo_wrapTicks :
    IsFifo (RingSize.ofRequest 2 (by decide)) (contents (RingSize.ofRequest 2 (by decide)) lastIndex)
      (run (RingSize.ofRequest 2 (by decide)) lastIndex wrapTicks) ∧
    (run (RingSize.ofRequest 2 (by decide)) lastIndex wrapTicks).left.log.map Entry.answer =
      [.error .EAGAIN, .ok [1], .ok [1, 2]] ∧
    (run (RingSize.ofRequest 2 (by decide)) lastIndex wrapTicks).shared.out_ = 1 :=
  ⟨byteChannel_isFifo 2 (by decide) lastIndex (by decide) wrapTicks, by decide +kernel, by decide +kernel⟩

end Junction.ByteChannel

/-! ### Calls that run alone -/

namespace Junction.ByteChannel
open Interleaving
variable {r : RingSize} {c : ByteChannel}

theorem run_copyOut (l : List ℕ) : (copyOut l).run exec c = (l.map c.buf_, c) := by
  induction l with
  | nil => rfl
  | cons pos l ih =>
    change Prog.run exec (copyOut l >>= fun bs => .done (c.buf_ pos :: bs)) c = _
    rw [Prog.run_bind, ih]
    rfl

theorem run_copyAndStore (call : ReadCall) (n : ℕ) : (copyAndStore r call c.out_ n).run exec c =
    (.ok (Ring.window r.size.toNat c.buf_ c.out_.toNat n),
      if call.peek then c else { c with out_ := c.out_ + BitVec.ofNat 64 n }) := by
  have hwindow : (Ring.cells r.size.toNat c.out_.toNat n).map c.buf_ =
      Ring.window r.size.toNat c.buf_ c.out_.toNat n := by
    rw [Ring.cells, Ring.window, List.map_map]
    rfl
  rw [copyAndStore, Prog.run_bind, run_copyOut, hwindow]
  cases call.peek with
  | true | false => rfl

theorem run_read (hfit : Fits r c) (call : ReadCall) : ((reader r).code call).run exec c =
    if call.gives c.used then (.error .EAGAIN, c)
    else (.ok (Ring.window r.size.toNat c.buf_ c.out_.toNat (min c.used call.room)),
      if call.peek then c else { c with out_ := c.out_ + BitVec.ofNat 64 (min c.used call.room) }) := by
  obtain ⟨rest, hcode, hrest⟩ := reader_code call
  rw [hcode]
  change (rest c.in_ c.out_).run exec c = _
  rw [hrest _ _ hfit, fetch]
  change Prog.run exec (if call.gives c.used then _ else copyAndStore r call c.out_ (min c.used call.room)) c = _
  by_cases hgives : call.gives c.used
  · rw [if_pos hgives, if_pos hgives]
    rfl
  · rw [if_neg hgives, if_neg hgives]
    exact run_copyAndStore call _

theorem run_write (hfit : Fits r c) (call : WriteCall) : ∃ c₁ seen, c₁.in_ = c.in_ ∧ Keeps r c c₁ ∧
    (writerContract r).commit call (((writer r).code call).run exec c).1 seen c₁
      (((writer r).code call).run exec c).2 := by
  have hmeets := (writer_honours).meets call c trivial hfit trivial
  have hgood : ∀ c c', Fits r c → (writerContract r).silent c c' → Fits r c' :=
    fun _ _ _ hsilent => And.right hsilent |>.fits
  have hrefl : ∀ c, Fits r c → (writerContract r).rely c c := fun _ => Yields.refl
  obtain ⟨c₁, seen, hsilent, hcommit⟩ := hmeets.run hrefl hgood (fun _ _ => trivial) hfit (writer_honours.not_done call)
  refine ⟨c₁, seen, ?_, ?_, hcommit⟩
  · clear hcommit
    induction hsilent with
    | refl => rfl
    | tail _ hlast ih => exact hlast.1.trans ih
  clear hcommit
  induction hsilent with
  | refl => exact Keeps.refl hfit
  | tail _ hlast ih => exact ih.trans hlast.2

def takenBy {ι : Type} (e : TransferEntry ι ReadCall (List UInt8)) : List UInt8 :=
  taken { e with seen := false }

def putBy {κ : Type} (e : TransferEntry κ WriteCall ℕ) : List UInt8 := put { e with seen := false }

theorem gives_zero (call : ReadCall) : call.gives 0 := by
  cases call with
  | read | readv => simp [ReadCall.gives]

section Read
variable (hfit : Fits r c) (call : ReadCall)
include hfit

theorem fits_read : Fits r (((reader r).code call).run exec c).2 := by
  rw [run_read hfit]
  split_ifs
  · exact hfit
  · exact hfit
  · have hused := used_storeOut (Nat.min_le_left c.used call.room)
    exact (hused.trans_le (Nat.sub_le _ _)).trans hfit

theorem contents_read {ι : Type} (i : ι) : contents r c = takenBy ⟨i, call, (((reader r).code call).run exec c).1⟩ ++
      contents r (((reader r).code call).run exec c).2 := by
  rw [run_read hfit]
  by_cases hgives : call.gives c.used
  · rw [if_pos hgives]
    rfl
  rw [if_neg hgives]
  cases hpeek : call.peek with
  | true => simp [takenBy, taken, hpeek]
  | false => simpa [takenBy, taken, hpeek] using contents_storeOut (Nat.min_le_left c.used call.room)

theorem read_error {e : Error} (h : (((reader r).code call).run exec c).1 = .error e) :
    (((reader r).code call).run exec c).2 = c := by
  rw [run_read hfit] at h ⊢
  by_cases hgives : call.gives c.used
  · rw [if_pos hgives]
  · rw [if_neg hgives] at h
    cases h

theorem read_of_empty (hempty : isEmpty c) : (((reader r).code call).run exec c).2 = c := by
  have hused := isEmpty_iff.1 hempty
  rw [run_read hfit, hused, if_pos (gives_zero call)]

theorem read_ne_nil {bytes : List UInt8} (hroom : 0 < call.room)
    (h : (((reader r).code call).run exec c).1 = .ok bytes) : bytes ≠ [] := by
  rw [run_read hfit] at h
  by_cases hgives : call.gives c.used
  · rw [if_pos hgives] at h
    cases h
  rw [if_neg hgives] at h
  obtain rfl := Except.ok.inj h
  have hused : c.used ≠ 0 := by
    intro hused
    rw [hused] at hgives
    exact hgives (gives_zero call)
  intro hnil
  have hlength := congrArg List.length hnil
  rw [Ring.length_window, List.length_nil] at hlength
  omega

end Read

section Write
variable (hfit : Fits r c) (call : WriteCall)
include hfit

theorem contents_write {κ : Type} (j : κ) : contents r (((writer r).code call).run exec c).2 =
    contents r c ++ putBy ⟨j, call, (((writer r).code call).run exec c).1⟩ := by
  obtain ⟨c₁, seen, hin, hkeeps, hcommit⟩ := run_write hfit call
  rw [← contents_keeps hin hkeeps]
  cases hanswer : (((writer r).code call).run exec c).1 with
  | error e =>
    rw [hanswer] at hcommit
    rw [hcommit.1]
    exact (List.append_nil _).symm
  | ok n =>
    rw [hanswer] at hcommit
    obtain ⟨-, hroom, hwindow, hafter⟩ := hcommit
    rw [hafter, contents_storeIn hroom, hwindow]
    rfl

theorem used_write : Fits r (((writer r).code call).run exec c).2 ∧
    c.used ≤ (((writer r).code call).run exec c).2.used ∧
    ∀ e, (((writer r).code call).run exec c).1 = .error e → (((writer r).code call).run exec c).2.used = c.used := by
  obtain ⟨c₁, seen, hin, hkeeps, hcommit⟩ := run_write hfit call
  have hused : c₁.used = c.used := by rw [used, used, hin, hkeeps.index]
  cases hanswer : (((writer r).code call).run exec c).1 with
  | error e =>
    rw [hanswer] at hcommit
    rw [hcommit.1, hused]
    exact ⟨hkeeps.fits, Nat.le_refl _, fun _ _ => rfl⟩
  | ok n =>
    rw [hanswer] at hcommit
    obtain ⟨-, hroom, -, hafter⟩ := hcommit
    have hafter' := used_storeIn hroom
    rw [← hafter] at hafter'
    exact ⟨hafter'.trans_le hroom, by omega, by simp⟩

end Write

/-- `StreamPipe`. -/
def pipeType (r : RingSize) : ChannelType ByteChannel Access Access.Resp ReadCall (List UInt8) WriteCall where
  exec := exec
  read := (reader r).code
  write := (writer r).code
  isEmpty := isEmpty
  isFull := isFull r
  eof := []
  skips
    | .write bytes => bytes.isEmpty
    | .writev _ => false
  multiWriter := false

theorem pipeType_orderly : (pipeType r).Orderly (Fits r) where
  good_read call _ hfit := fits_read hfit call
  good_write call _ hfit := (used_write hfit call).1
  read_empty call c hfit hempty := by
    change isEmpty (((reader r).code call).run exec c).2
    rwa [read_of_empty hfit call hempty]
  write_full call c hfit hfull := by
    have hused := (used_write hfit call).2.1
    exact isFull_iff.2 ((isFull_iff.1 hfull).trans hused)
  read_error call c e hfit herror hfull := by
    change isFull r (((reader r).code call).run exec c).2
    rwa [read_error hfit call herror]
  write_error call c e hfit herror hempty := by
    have hused := (used_write hfit call).2.2 e herror
    exact isEmpty_iff.2 (hused.trans (isEmpty_iff.1 hempty))

end Junction.ByteChannel
