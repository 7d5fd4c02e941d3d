import Junction.Base

/-!
# Full transfers

`WritevFull`, `ReadvFull`, `WriteFull` and `ReadFull` call the transfer function until everything has been transferred
or a call fails. The answers of the calls are an input, and a run whose answers are used up waits. What a call accepts
are the first cells of the vector it is offered, so the accepted cells of a run can be compared with those of the
vector it began with.
-/

namespace Junction
open List Nat

structure IoVec where
  base : ℕ
  len : ℕ
  deriving DecidableEq

def IoVec.cells (v : IoVec) : List ℕ := List.range' v.base v.len

def cells (iov : List IoVec) : List ℕ := iov.flatMap IoVec.cells

def sumIOV (iov : List IoVec) : ℕ := iov.foldl (fun len e => addWord len e.len) 0

def pullIOV : List IoVec → ℕ → List IoVec
  | [], _ => []
  | v :: iov, n => if n < v.len then ⟨v.base + n, v.len - n⟩ :: iov else pullIOV iov (n - v.len)

inductive Progress where
  | done
  | failed (e : Error)
  | waiting
  deriving DecidableEq

def Progress.error : Progress → Option Error
  | failed e => some e
  | _ => none

abbrev IoCall := List IoVec × Status ℕ

/-- Why a call ends a transfer. A reader that returns nothing has met the end of its input. -/
def callError (reader : Bool) (c : IoCall) : Option Error :=
  match c.2 with
  | .error e => some e
  | .ok n => if reader && n = 0 && cells c.1 ≠ [] then some .EUNEXPECTEDEOF else none

def IoCall.accepted (c : IoCall) : List ℕ :=
  match c.2 with
  | .error _ => []
  | .ok n => (cells c.1).take n

structure IoRun where
  calls : List IoCall
  outcome : Progress
  deriving DecidableEq

namespace IoRun

def after (t : IoRun) (c : IoCall) : IoRun := { t with calls := c :: t.calls }

def accepted (t : IoRun) : List ℕ := t.calls.flatMap IoCall.accepted

end IoRun

/-- The loop of `DoFull`, up to the next call and from its answer on. -/
def doFullLoop (reader : Bool) (s : List IoVec) (ret : ℕ) (replies : List (Status ℕ)) : IoRun :=
  let s := pullIOV s ret
  if s = [] then ⟨[], .done⟩
  else
    match replies with
    | [] => ⟨[], .waiting⟩
    | .error e :: _ => ⟨[(s, .error e)], .failed e⟩
    | .ok ret :: replies =>
      if reader && ret = 0 then ⟨[(s, .ok ret)], .failed .EUNEXPECTEDEOF⟩
      else (doFullLoop reader s ret replies).after (s, .ok ret)

def doFull (reader : Bool) (iov : List IoVec) : List (Status ℕ) → IoRun
  | [] => ⟨[], .waiting⟩
  | .error e :: _ => ⟨[(iov, .error e)], .failed e⟩
  | .ok ret :: replies =>
    if ret = sumIOV iov then ⟨[(iov, .ok ret)], .done⟩ else (doFullLoop reader iov ret replies).after (iov, .ok ret)

/-- The loop of `ReadFull` and `WriteFull`. -/
def fullLoop (reader : Bool) (buf : IoVec) (n : ℕ) (replies : List (Status ℕ)) : IoRun :=
  if n < buf.len then
    let s : List IoVec := [⟨buf.base + n, buf.len - n⟩]
    match replies with
    | [] => ⟨[], .waiting⟩
    | .error e :: _ => ⟨[(s, .error e)], .failed e⟩
    | .ok ret :: replies =>
      if reader && ret = 0 then ⟨[(s, .ok ret)], .failed .EUNEXPECTEDEOF⟩
      else (fullLoop reader buf (n + ret) replies).after (s, .ok ret)
  else ⟨[], .done⟩

/-! ### Vectors and their cells -/

section Cells
variable {iov : List IoVec} {n : ℕ}

@[simp] theorem length_cells_ioVec (v : IoVec) : v.cells.length = v.len := length_range'

theorem cells_cons (v : IoVec) (iov : List IoVec) : cells (v :: iov) = v.cells ++ cells iov := flatMap_cons

theorem cells_append (iov iov' : List IoVec) : cells (iov ++ iov') = cells iov ++ cells iov' := flatMap_append

theorem length_cells (iov : List IoVec) : (cells iov).length = (iov.map IoVec.len).sum := by
  rw [cells, length_flatMap]
  simp only [length_cells_ioVec]

theorem cells_pullIOV (iov : List IoVec) (n : ℕ) : cells (pullIOV iov n) = (cells iov).drop n := by
  induction iov generalizing n with
  | nil => simp [pullIOV, cells]
  | cons v iov ih =>
    rw [pullIOV, cells_cons, drop_append, length_cells_ioVec]
    split_ifs with hlt
    · rw [cells_cons, IoVec.cells, IoVec.cells, drop_range', Nat.sub_eq_zero_of_le hlt.le, drop_zero, Nat.mul_one]
    · have hnil : v.cells.drop n = [] := drop_eq_nil_of_le (by simpa using Nat.le_of_not_lt hlt)
      rw [ih, hnil, nil_append]

theorem pullIOV_eq_nil : pullIOV iov n = [] ↔ (cells iov).length ≤ n := by
  rw [← drop_eq_nil_iff, ← cells_pullIOV]
  constructor
  · intro h
    rw [h]
    rfl
  intro h
  induction iov generalizing n with
  | nil => rfl
  | cons v iov ih =>
    rw [pullIOV] at h ⊢
    split_ifs at h ⊢ with hlt
    · have hlen := congrArg length h
      rw [cells_cons, length_append, length_cells_ioVec, length_nil] at hlen
      dsimp only at hlen
      omega
    · exact ih h

theorem foldl_addWord (iov : List IoVec) (m : ℕ) :
    iov.foldl (fun len e => addWord len e.len) m % 2 ^ 64 = (m + (cells iov).length) % 2 ^ 64 := by
  induction iov generalizing m with
  | nil => rfl
  | cons v iov ih =>
    rw [foldl_cons, ih, addWord, cells_cons, length_append, length_cells_ioVec, mod_add_mod, Nat.add_assoc]

theorem sumIOV_eq (iov : List IoVec) : sumIOV iov = (cells iov).length % 2 ^ 64 := by
  have hlt : sumIOV iov < 2 ^ 64 := by
    unfold sumIOV
    rcases eq_nil_or_concat iov with rfl | ⟨l, v, rfl⟩
    · decide
    · rw [concat_eq_append, foldl_append]
      exact mod_lt _ (by decide)
  rw [← mod_eq_of_lt hlt, sumIOV, foldl_addWord, zero_add]

end Cells

/-! ### What a transfer should do -/

/-- An answer is between one byte and what the call was offered; a reader may also return nothing. -/
def LegalCall (reader : Bool) (c : IoCall) : Prop :=
  match c.2 with
  | .error _ => True
  | .ok n => n ≤ (cells c.1).length ∧ (reader = false → cells c.1 ≠ [] → 0 < n)

def Legal (reader : Bool) (t : IoRun) : Prop := ∀ c ∈ t.calls, LegalCall reader c

instance (reader : Bool) (c : IoCall) : Decidable (LegalCall reader c) :=
  match c with
  | (_, .error _) => inferInstanceAs (Decidable True)
  | (_, .ok _) => inferInstanceAs (Decidable (_ ∧ _))

instance (reader : Bool) (t : IoRun) : Decidable (Legal reader t) :=
  inferInstanceAs (Decidable (∀ c ∈ t.calls, LegalCall reader c))

/-- The accepted cells are those of the vector in order, or a part of them from the first one on if a call failed, which
ends the transfer. A transfer ends after as many calls as there are bytes, and one more. -/
structure Full (reader : Bool) (target : List ℕ) (count : ℕ) (t : IoRun) : Prop where
  sofar : t.accepted <+: target
  complete : t.outcome = .done → t.accepted = target
  succeeds : t.outcome ≠ .waiting → (t.outcome = .done ↔ ∀ c ∈ t.calls, callError reader c = none)
  stops : ∀ c ∈ t.calls.dropLast, callError reader c = none
  last : (t.calls.getLast?.bind (callError reader)) = t.outcome.error
  ends : target.length < count → t.outcome ≠ .waiting

section Runs
variable {reader : Bool} {target : List ℕ} {count : ℕ} {t : IoRun} {c : IoCall}

theorem full_of_done : Full reader [] count ⟨[], .done⟩ :=
  ⟨ nil_prefix, fun _ => rfl, fun _ => by simp, by simp, rfl, fun _ => nofun⟩

theorem full_of_waiting : Full reader target 0 ⟨[], .waiting⟩ :=
  ⟨ nil_prefix, nofun, fun h => absurd rfl h, by simp, rfl, fun h => absurd h (not_lt_zero _)⟩

theorem full_of_failed {e : Error} (h : callError reader c = some e) (haccepted : IoCall.accepted c = []) :
    Full reader target count ⟨[c], .failed e⟩ where
  sofar := by simp [IoRun.accepted, haccepted]
  complete := nofun
  succeeds _ := iff_of_false nofun fun hall => by
    have hnone := hall c mem_cons_self
    rw [h] at hnone
    cases hnone
  stops := by simp
  last := h
  ends _ := nofun

theorem Full.after {n : ℕ} (h : Full reader (target.drop n) count t) (herror : callError reader c = none)
    (haccepted : IoCall.accepted c = target.take n) (hpos : 0 < n) (hle : n ≤ target.length) :
    Full reader target (count + 1) (t.after c) where
  sofar := by
    have hcat : (t.after c).accepted = target.take n ++ t.accepted := by
      rw [IoRun.accepted, IoRun.after, flatMap_cons, haccepted]
      rfl
    rw [hcat]
    conv_rhs => rw [← take_append_drop n target]
    exact (prefix_append_right_inj _).mpr h.sofar
  complete hdone := by
    rw [IoRun.accepted, IoRun.after, flatMap_cons, haccepted]
    conv_rhs => rw [← take_append_drop n target]
    exact congrArg _ (h.complete hdone)
  succeeds hnot := by
    refine (h.succeeds hnot).trans ⟨fun hall => ?_, fun hall c' hc' => hall c' (mem_cons_of_mem c hc')⟩
    exact forall_mem_cons.mpr ⟨herror, hall⟩
  stops := by
    change ∀ c' ∈ (c :: t.calls).dropLast, _
    cases hcalls : t.calls with
    | nil => simp
    | cons d calls =>
      rw [dropLast_cons_of_ne_nil (by simp), ← hcalls]
      exact forall_mem_cons.mpr ⟨herror, h.stops⟩
  last := by
    have hlast := h.last
    change ((c :: t.calls).getLast?.bind _) = t.outcome.error
    cases hcalls : t.calls with
    | nil =>
      rw [hcalls] at hlast
      exact herror.trans hlast
    | cons d calls =>
      rw [getLast?_cons_cons, ← hcalls]
      exact hlast
  ends hlen := h.ends (by rw [length_drop]; omega)

variable {s : List IoVec}

theorem callError_ok {n : ℕ} (h : reader → n ≠ 0) : callError reader (s, .ok n) = none := by
  have hno : ¬ (reader && decide (n = 0) && decide (cells s ≠ [])) := by
    intro hcond
    simp only [Bool.and_eq_true, decide_eq_true_eq] at hcond
    exact h hcond.1.1 hcond.1.2
  simp only [callError, if_neg hno]

theorem callError_eof (h : cells s ≠ []) : callError true (s, .ok 0) = some .EUNEXPECTEDEOF := by
  simp [callError, h]

theorem Legal.of_after {d : IoCall} (h : Legal reader (t.after d)) : Legal reader t := fun c hc =>
  h c (mem_cons_of_mem d hc)

variable {replies : List (Status ℕ)}

theorem full_doFullLoop {ret : ℕ} (hlegal : Legal reader (doFullLoop reader s ret replies)) :
    Full reader ((cells s).drop ret) replies.length (doFullLoop reader s ret replies) := by
  induction replies generalizing s ret with
  | nil =>
    dsimp only [doFullLoop]
    split_ifs with hnil
    · rw [← cells_pullIOV, hnil]
      exact full_of_done
    · exact full_of_waiting
  | cons reply replies ih =>
    unfold doFullLoop at hlegal ⊢
    rw [← cells_pullIOV]
    by_cases hnil : pullIOV s ret = []
    · rw [if_pos hnil, hnil]
      exact full_of_done
    rw [if_neg hnil] at hlegal ⊢
    have hcells : cells (pullIOV s ret) ≠ [] := by
      rw [cells_pullIOV, ne_eq, drop_eq_nil_iff, ← pullIOV_eq_nil]
      exact hnil
    cases reply with
    | error e => exact full_of_failed rfl rfl
    | ok n =>
      dsimp only at hlegal ⊢
      by_cases heof : (reader && decide (n = 0))
      · rw [if_pos heof]
        obtain ⟨rfl, hn⟩ := Bool.and_eq_true_iff.mp heof
        obtain rfl := of_decide_eq_true hn
        exact full_of_failed (callError_eof hcells) rfl
      rw [if_neg heof] at hlegal ⊢
      have hreader : reader → n ≠ 0 := by
        rintro rfl rfl
        exact heof rfl
      obtain ⟨hle, hpos⟩ := hlegal _ mem_cons_self
      refine (ih hlegal.of_after).after (callError_ok hreader) rfl ?_ hle
      cases reader with
      | true => exact pos_of_ne_zero (hreader rfl)
      | false => exact hpos rfl hcells

theorem pullIOV_one (buf : IoVec) (n ret : ℕ) : pullIOV [⟨buf.base + n, buf.len - n⟩] ret =
    if n + ret < buf.len then [⟨buf.base + (n + ret), buf.len - (n + ret)⟩] else [] := by
  simp only [pullIOV, Nat.add_assoc, Nat.sub_sub]
  exact if_congr (by omega) rfl rfl

theorem fullLoop_eq (buf : IoVec) (n ret : ℕ) (replies : List (Status ℕ)) :
    fullLoop reader buf (n + ret) replies = doFullLoop reader [⟨buf.base + n, buf.len - n⟩] ret replies := by
  have hpull := pullIOV_one buf n ret
  unfold fullLoop doFullLoop
  by_cases hlt : n + ret < buf.len
  · rw [if_pos hlt] at hpull ⊢
    simp only [hpull, cons_ne_nil, if_false]
    match replies with
    | [] => rfl
    | .error e :: _ => rfl
    | .ok m :: replies =>
      have hrest := fullLoop_eq buf (n + ret) m replies
      simp only [hrest]
  · rw [if_neg hlt] at hpull ⊢
    simp only [hpull, if_true]

theorem full_fullLoop {buf : IoVec} (hlegal : Legal reader (fullLoop reader buf 0 replies)) :
    Full reader (cells [buf]) replies.length (fullLoop reader buf 0 replies) := by
  have heq : fullLoop reader buf 0 replies = doFullLoop reader [buf] 0 replies := fullLoop_eq buf 0 0 replies
  rw [heq] at hlegal ⊢
  exact full_doFullLoop hlegal

/-- The first answer is not mistaken for a full transfer when the sum of the lengths wraps, and a reader that has
something to read is not at its end. -/
def FirstAnswered (reader : Bool) (iov : List IoVec) (replies : List (Status ℕ)) : Prop :=
  ∀ n, replies.head? = some (.ok n) →
    (n = (cells iov).length % 2 ^ 64 → n = (cells iov).length) ∧ (reader = true → n = 0 → cells iov = [])

theorem full_of_first {iov : List IoVec} {n : ℕ} (hlegal : Legal reader (doFull reader iov (.ok n :: replies)))
    (hfirst : FirstAnswered reader iov (.ok n :: replies)) :
    Full reader (cells iov) (replies.length + 1) (doFull reader iov (.ok n :: replies)) := by
  obtain ⟨hsum, heof⟩ := hfirst n rfl
  have hcall : callError reader (iov, .ok n) = none := by
    by_cases hzero : reader ∧ n = 0
    · obtain ⟨rfl, rfl⟩ := hzero
      simp [callError, heof rfl rfl]
    · exact callError_ok fun hr hn => hzero ⟨hr, hn⟩
  rw [doFull, sumIOV_eq] at hlegal ⊢
  split_ifs at hlegal ⊢ with heq
  · have hall : (cells iov).take n = cells iov := take_of_length_le (hsum heq).ge
    refine ⟨?_, fun _ => ?_, fun _ => ?_, by simp, hcall, fun _ => nofun⟩
    · simp [IoRun.accepted, IoCall.accepted, hall]
    · simp [IoRun.accepted, IoCall.accepted, hall]
    · simp [hcall]
  obtain ⟨hle, hpos⟩ := hlegal _ mem_cons_self
  have hne : cells iov ≠ [] := by
    intro hnil
    rw [hnil] at hle heq
    exact heq (le_zero.mp hle)
  refine (full_doFullLoop hlegal.of_after).after hcall rfl ?_ hle
  cases reader with
  | true => exact pos_of_ne_zero fun hn => hne (heof rfl hn)
  | false => exact hpos rfl hne

theorem error_eq_none_of_calls {ret : ℕ}
    (h : (doFullLoop reader s ret replies).calls = []) : (doFullLoop reader s ret replies).outcome.error = none := by
  unfold doFullLoop at h ⊢
  by_cases hnil : pullIOV s ret = []
  · simp only [hnil, if_true]
    rfl
  simp only [hnil, if_false] at h ⊢
  match replies with
  | [] => rfl
  | .error e :: _ => cases h
  | .ok m :: replies =>
    dsimp only at h
    split_ifs at h
    cases h

theorem not_full_of_eof {iov : List IoVec} (hne : cells iov ≠ []) (hsum : (cells iov).length % 2 ^ 64 ≠ 0) :
    ¬ Full true (cells iov) (replies.length + 1) (doFull true iov (.ok 0 :: replies)) := by
  intro h
  have hcall := callError_eof hne
  rw [doFull, sumIOV_eq, if_neg hsum.symm] at h
  have hstops := h.stops
  have hlast := h.last
  cases hcalls : (doFullLoop true iov 0 replies).calls with
  | nil =>
    simp only [IoRun.after, hcalls, getLast?_singleton, Option.bind_some, hcall] at hlast
    rw [error_eq_none_of_calls hcalls] at hlast
    cases hlast
  | cons d calls =>
    simp only [IoRun.after, hcalls, dropLast_cons_of_ne_nil (cons_ne_nil d calls)] at hstops
    have hnone := hstops _ mem_cons_self
    rw [hcall] at hnone
    cases hnone

theorem full_doFull_iff {iov : List IoVec} (hlegal : Legal reader (doFull reader iov replies)) :
    Full reader (cells iov) replies.length (doFull reader iov replies) ↔ FirstAnswered reader iov replies := by
  match replies with
  | [] => exact iff_of_true full_of_waiting nofun
  | .error e :: replies => exact iff_of_true (full_of_failed rfl rfl) nofun
  | .ok n :: replies =>
    refine ⟨fun h m hm => ?_, full_of_first hlegal⟩
    obtain rfl := Except.ok.inj (Option.some.inj hm)
    have hsum : n = (cells iov).length % 2 ^ 64 → n = (cells iov).length := by
      intro heq
      rw [doFull, sumIOV_eq, if_pos heq] at h
      have hall : (cells iov).take n = cells iov := by
        simpa [IoRun.accepted, IoCall.accepted] using h.complete rfl
      have hlen := congrArg length hall
      rw [length_take] at hlen
      omega
    refine ⟨hsum, ?_⟩
    rintro rfl rfl
    by_contra hne
    refine not_full_of_eof hne (fun hzero => hne ?_) h
    exact eq_nil_of_length_eq_zero (hsum hzero.symm).symm

end Runs

/-! ### The four functions -/

inductive FullCall where
  | writevFull (iov : List IoVec)
  | readvFull (iov : List IoVec)
  | writeFull (buf : IoVec)
  | readFull (buf : IoVec)

namespace FullCall

def reader : FullCall → Bool
  | writevFull _ => false
  | readvFull _ => true
  | writeFull _ => false
  | readFull _ => true

def target : FullCall → List ℕ
  | writevFull iov => cells iov
  | readvFull iov => cells iov
  | writeFull buf => buf.cells
  | readFull buf => buf.cells

def run (f : FullCall) (replies : List (Status ℕ)) : IoRun :=
  match f with
  | writevFull iov => doFull false iov replies
  | readvFull iov => doFull true iov replies
  | writeFull buf => fullLoop false buf 0 replies
  | readFull buf => fullLoop true buf 0 replies

/-- Only the vectored functions look at their first answer in a way of its own. -/
def Proper (f : FullCall) (replies : List (Status ℕ)) : Prop :=
  match f with
  | writevFull iov => FirstAnswered false iov replies
  | readvFull iov => FirstAnswered true iov replies
  | writeFull _ => True
  | readFull _ => True

theorem accepted_writevFull {iov : List IoVec} {replies : List (Status ℕ)} (hlen : (cells iov).length < 2 ^ 64)
    (hlegal : Legal false ((writevFull iov).run replies)) (hdone : ((writevFull iov).run replies).outcome = .done) :
    ((writevFull iov).run replies).accepted = cells iov := by
  refine ((full_doFull_iff hlegal).mpr fun n _ => ⟨fun hn => ?_, nofun⟩).complete hdone
  rw [hn]
  exact mod_eq_of_lt hlen

end FullCall

/-- Full transfers transfer everything once and in order, exactly when the first answer of a vectored one is neither a
wrapped sum nor the end of the input. -/
theorem full_transfer_iff (f : FullCall) (replies : List (Status ℕ)) (hlegal : Legal f.reader (f.run replies)) :
    Full f.reader f.target replies.length (f.run replies) ↔ f.Proper replies := by
  cases f with
  | writevFull iov | readvFull iov => exact full_doFull_iff hlegal
  | writeFull buf | readFull buf =>
    have hcells : cells [buf] = buf.cells := by simp [cells]
    have hfull := full_fullLoop hlegal
    rw [hcells] at hfull
    exact iff_of_true hfull trivial

theorem full_transfer_three :
    let f := FullCall.writevFull [⟨10, 3⟩, ⟨20, 0⟩, ⟨30, 2⟩]
    let t := f.run [.ok 2, .ok 1, .ok 2]
    Full f.reader f.target 3 t ∧ t.outcome = .done ∧ t.accepted = [10, 11, 12, 30, 31] := by
  refine ⟨(full_transfer_iff _ [.ok 2, .ok 1, .ok 2] (by decide)).mpr fun n hn => ?_, by decide, by decide⟩
  obtain rfl := Except.ok.inj (Option.some.inj hn)
  exact ⟨by decide, nofun⟩

/-- A reader meets the end of its input with the first call, and the transfer goes on and succeeds. -/
theorem readvFull_after_eof :
    let t := (FullCall.readvFull [⟨10, 2⟩]).run [.ok 0, .ok 2]
    t.outcome = .done ∧ callError true ([⟨10, 2⟩], .ok 0) = some .EUNEXPECTEDEOF ∧ ([⟨10, 2⟩], .ok 0) ∈ t.calls := by
  decide

/-! ### Reading a file -/

/-- `ReadFull` at a position of a file. -/
def readFull (file : List UInt8) (off len : ℕ) : Status (List UInt8) :=
  if len = 0 ∨ off + len ≤ file.length then .ok ((file.drop off).take len) else .error .EUNEXPECTEDEOF

theorem readFull_of_eq {file left bytes right : List UInt8} {off len : ℕ} (hfile : file = left ++ bytes ++ right)
    (hoff : off = left.length) (hlen : len = bytes.length) : readFull file off len = .ok bytes := by
  subst hfile hoff hlen
  have hfits : left.length + bytes.length ≤ (left ++ bytes ++ right).length := by
    rw [length_append, length_append]
    exact le_add_right _ _
  rw [readFull, if_pos (.inr hfits), append_assoc, drop_left, take_left]

end Junction
