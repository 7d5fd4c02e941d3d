import Junction.FileTableRefinement

/-!
# No descriptor leaks across exec

On a descriptor map the flag of every binding is the last request for it, by the definition of the
operations. The table refines the map, so along a run whose calls forward the request the flags of
the table are the requests too, and `DoCloseOnExec` unbinds exactly the descriptors for which
close-on-exec was asked for last. `accept4` and `signalfd4` do not forward it.
-/

namespace Junction
open FileTable FdCall DescriptorTable Option BitVec FdHistory

def FlagsAsked (m : FdMap) (asked : ℤ → Bool) : Prop :=
  ∀ (i : ℕ) (f : FileRef) (b : Bool), m.binding i = some (f, b) → asked i = b

variable (fd : CInt)

namespace FlagsAsked
variable {m : FdMap} {asked : ℤ → Bool} (h : FlagsAsked m asked)
include h

theorem set_some (i : ℕ) (f : FileRef) (b : Bool) :
    FlagsAsked (m.set i (some (f, b))) fun fd => if fd = i then b else asked fd := by
  intro j f' b' hj
  rw [FdMap.binding_set] at hj
  by_cases hji : j = i
  · rw [if_pos hji, some.injEq, Prod.mk.injEq] at hj
    simp [hji, hj.2]
  · rw [if_neg hji] at hj
    simpa [hji] using h j f' b' hj

theorem congr {asked' : ℤ → Bool} (heq : ∀ fd, asked fd = asked' fd) : FlagsAsked m asked' :=
  fun i f b hi => (heq i) ▸ h i f b hi

theorem of_binding_imp {m' : FdMap} (hsub : ∀ j b, m'.binding j = some b → m.binding j = some b) :
    FlagsAsked m' asked := fun i f b hi => h i f b (hsub i (f, b) hi)

theorem flagAt (i : ℕ) (flag : Bool) : FlagsAsked (m.flagAt i flag) fun fd => if fd = i then flag else asked fd := by
  intro j f b hj
  simp only [FdMap.flagAt] at hj
  by_cases hji : j = i
  · rw [if_pos hji, map_eq_some_iff] at hj
    obtain ⟨_, _, hb⟩ := hj
    simp [hji, (Prod.mk.inj hb).2]
  · rw [if_neg hji] at hj
    simpa [hji] using h j f b hj

theorem setFlag (flag : Bool) : FlagsAsked (m.setFlag fd flag) fun x => if fd.1 = x then flag else asked x := by
  unfold FdMap.setFlag
  split_ifs with hneg
  · intro j f b hj
    simpa [show fd.1 ≠ j by omega] using h j f b hj
  have hfd : ((fd.1.toNat : ℕ) : ℤ) = fd.1 := Int.toNat_of_nonneg (by omega)
  intro j f b hj
  simpa [hfd, eq_comm] using h.flagAt fd.1.toNat flag j f b hj

theorem insert (f : FileRef) (cloexec : Bool) (lowest : ℕ) : FlagsAsked (m.insert f cloexec lowest).2
      (noteMade asked (handedOut (m.insert f cloexec lowest).1) cloexec) := by
  have hpos : ¬((m.leastFree lowest : ℤ) < 0) := by omega
  refine (h.set_some (m.leastFree lowest) f cloexec).congr fun fd => ?_
  simp [noteMade, FdMap.insert, handedOut, hpos]

theorem insertAt (f : FileRef) (cloexec : Bool) :
    FlagsAsked (m.insertAt fd f cloexec) (noteMade asked (handedOut fd.1) cloexec) := by
  unfold FdMap.insertAt handedOut
  split_ifs with hneg
  · exact h.congr fun _ => rfl
  have hfd : ((fd.1.toNat : ℕ) : ℤ) = fd.1 := Int.toNat_of_nonneg (by omega)
  refine (h.set_some fd.1.toNat f cloexec).congr fun x => ?_
  simp [noteMade, hfd]

theorem remove : FlagsAsked (m.remove fd).2 asked := by
  unfold FdMap.remove
  cases m.lookup fd with
  | none => exact h
  | some b =>
    refine h.of_binding_imp fun j b' hj => ?_
    rw [FdMap.binding_set] at hj
    split_ifs at hj
    exact hj

theorem doCloseOnExec : FlagsAsked m.doCloseOnExec asked := h.of_binding_imp fun _ _ hj => (filter_eq_some_iff.1 hj).1

end FlagsAsked

/-- A call that changes no existing flag is noted by the descriptors that it hands out. -/
theorem note_made {call : FdCall} (hcall : ∀ fd, call.changes fd = none) (asked : ℤ → Bool) (answer : FdAnswer) :
    call.note asked answer = noteMade asked answer.fds call.requested := by
  simp [note, hcall]

theorem FlagsAsked.tableCall {m : FdMap} {asked : ℤ → Bool} (h : FlagsAsked m asked)
    (call : TableCall) : FlagsAsked (call.run m).2
      ((table call).note asked ⟨(call.run m).1, call.created (call.run m).1⟩) := by
  have hfail : ∀ e : Error, 0 < e.code → ∀ flag, FlagsAsked m (noteMade asked (handedOut e.toLong) flag) := by
    intro e he flag
    have hneg : e.toLong < 0 := by
      simp only [Error.toLong]
      omega
    rw [handedOut, if_pos hneg]
    exact h
  cases call with
  | dup oldfd =>
    rw [note_made fun _ => rfl]
    simp only [TableCall.run, TableCall.created, usysDup, requested]
    cases get m oldfd with
    | none => exact hfail .EBADF (by decide) _
    | some f => exact h.insert f false 0
  | dup2 oldfd newfd =>
    rw [note_made fun _ => rfl]
    simp only [TableCall.run, TableCall.created, usysDup2, requested]
    split_ifs with heq
    · exact h
    cases get m oldfd with
    | none => exact hfail .EBADF (by decide) _
    | some f => exact h.insertAt newfd f false
  | dup3 oldfd newfd flags =>
    rw [note_made fun _ => rfl]
    simp only [TableCall.run, TableCall.created, usysDup3, requested]
    split_ifs with heq
    · exact hfail .EINVAL (by decide) _
    cases get m oldfd with
    | none => exact hfail .EBADF (by decide) _
    | some f => exact h.insertAt newfd f (wantsCloseExec flags)
  | fcntl fd cmd arg =>
    cases cmd with
    | F_DUPFD | F_DUPFD_CLOEXEC =>
      rw [note_made fun _ => rfl]
      simp only [TableCall.run, TableCall.created, usysFcntl, requested]
      cases get m fd with
      | none => exact hfail .EBADF (by decide) _
      | some f => exact h.insert f _ arg.toNat
    | F_GETFD =>
      rw [note_made fun _ => rfl]
      simp only [TableCall.run, TableCall.created, usysFcntl]
      cases get m fd with
      | none | some => exact h
    | F_SETFD =>
      simp only [TableCall.run, usysFcntl]
      cases get m fd with
      | none => exact h
      | some f =>
        simp only
        split_ifs with hset hclear
        · refine (h.setFlag fd true).congr fun x => ?_
          simp only [note, noteMade, TableCall.created, changes, hset]
          by_cases hx : fd.1 = x <;> simp [hx]
        · refine (h.setFlag fd false).congr fun x => ?_
          simp only [note, noteMade, TableCall.created, changes, hclear]
          by_cases hx : fd.1 = x <;> simp [hx]
        · exact h
  | close fd =>
    rw [note_made fun _ => rfl]
    exact h.remove fd
  | insert f cloexec lowest =>
    rw [note_made fun _ => rfl]
    exact h.insert f cloexec lowest.toNat
  | doCloseOnExec =>
    rw [note_made fun _ => rfl]
    exact h.doCloseOnExec

def FileTable.HasRoom (t : FileTable) : Prop :=
  ∃ n n' : CInt, 0 ≤ n.1 ∧ n.1 < n'.1 ∧ t.get n = none ∧ t.get n' = none

/-- The table can do what the map does, and the call forwards the request of its caller. -/
def FdCall.Safe (t : FileTable) : FdCall → Prop
  | .table call => call.Safe t
  | .accept4 _ flags _ => t.HasRoom ∧ wantsCloseExec flags = false
  | .signalfd4 _ fd _ flags _ => t.HasRoom ∧ (fd.1 = -1 → wantsCloseExec flags = false)
  | .closeRange first last flags => 0 ≤ first.1 → first.1 ≤ last.1 →
      (flags = CLOSE_RANGE_CLOEXEC → t.farr.len ≠ 0) ∧
        (flags = 0 → first.1 ≤ (CInt.wrap t.farr.len).1)
  | .ioctl .. | .fork => True
  | _ => t.HasRoom

/-- The invariant of a history: the table is sound and its flags are the requests. -/
structure FdHistory.Kept (t : FileTable) (asked : ℤ → Bool) : Prop where
  inv : t.Inv
  flags : FlagsAsked t.toMap asked

theorem noteMade_append (asked : ℤ → Bool) (fds fds' : List ℤ) (flag : Bool) : noteMade asked (fds ++ fds') flag =
      noteMade (noteMade asked fds flag) fds' flag := by
  funext fd
  by_cases h : fds.contains fd <;> by_cases h' : fds'.contains fd <;>
    simp_all [noteMade]

theorem wantsCloseExec_and_nonblock (flags : BitVec 32) : wantsCloseExec (flags &&& kFlagNonblock) = false := by
  have hmask : kFlagNonblock &&& kFlagCloseExec = 0 := by decide
  rw [wantsCloseExec, BitVec.and_assoc, hmask]
  simp

theorem wantsCloseExec_and_not_type (type : BitVec 32) :
    wantsCloseExec (type &&& ~~~kSockTypeMask) = wantsCloseExec type := by
  have hmask : ~~~kSockTypeMask &&& kFlagCloseExec = kFlagCloseExec := by decide
  rw [wantsCloseExec, BitVec.and_assoc, hmask]
  rfl

theorem closeRange_flags {flags : BitVec 32} (h : flags &&& ~~~CLOSE_RANGE_CLOEXEC = 0) :
    flags = 0 ∨ flags = CLOSE_RANGE_CLOEXEC := by
  have hsplit : flags = flags &&& CLOSE_RANGE_CLOEXEC := by
    have hor : flags &&& CLOSE_RANGE_CLOEXEC ||| flags &&& ~~~CLOSE_RANGE_CLOEXEC = flags := by
      rw [← and_or_distrib_left,
        show CLOSE_RANGE_CLOEXEC ||| ~~~CLOSE_RANGE_CLOEXEC = allOnes 32 by decide,
        and_allOnes]
    rw [h] at hor
    simpa using hor.symm
  have hbit := and_twoPow flags 2
  rw [show twoPow 32 2 = CLOSE_RANGE_CLOEXEC from rfl, ← hsplit] at hbit
  split_ifs at hbit
  · exact .inr hbit
  · exact .inl hbit

theorem note_closeRange_cloexec (first last : CInt) (asked : ℤ → Bool) (fd : ℤ) :
    (closeRange first last CLOSE_RANGE_CLOEXEC).note asked .done fd =
      if first.1 ≤ fd ∧ fd ≤ last.1 then true else asked fd := by
  by_cases h : first.1 ≤ fd ∧ fd ≤ last.1 <;>
    simp [note, noteMade, changes, FdAnswer.done, h]

namespace FdHistory.Kept
variable {t : FileTable} {asked : ℤ → Bool} (h : Kept t asked)
include h

theorem get_eq_none_iff : t.get fd = none ↔ t.toMap.binding fd.toSize = none := by
  rw [h.inv.get_eq, binding_toMap_eq_none_iff]

theorem insert {lowest : ℕ} (hfree : t.FreeFrom lowest) (f : FileRef) (cloexec : Bool) :
    Kept (t.insert f cloexec lowest).2 (noteMade asked (handedOut (t.insert f cloexec lowest).1) cloexec) := by
  obtain ⟨hanswer, hinv, hmap⟩ := h.inv.insert f cloexec hfree
  refine ⟨hinv, ?_⟩
  rw [hanswer, hmap]
  exact h.flags.insert f cloexec lowest

variable (hroom : t.HasRoom)
include hroom

theorem insertOne (f : FileRef) (cloexec : Bool) : Kept (t.insertOne f cloexec).2
      (noteMade asked (t.insertOne f cloexec).1.fds cloexec) := by
  obtain ⟨n, _, hn, _, hfree, _⟩ := hroom
  exact h.insert ⟨n, by simpa using hn, hfree⟩ f cloexec

theorem insertTwo (f g : FileRef) (cloexec : Bool) : Kept (t.insertTwo f g cloexec).2
      (noteMade asked (t.insertTwo f g cloexec).1.fds cloexec) := by
  obtain ⟨n, n', hn, hlt, hfree, hfree'⟩ := hroom
  have hfirst : t.FreeFrom 0 := ⟨n, by simpa using hn, hfree⟩
  have hkept := h.insert hfirst f cloexec
  have hsecond : (t.insert f cloexec 0).2.FreeFrom 0 := by
    have hleast : t.toMap.leastFree 0 ≤ n.toSize := Nat.find_min' _ ⟨Nat.zero_le _, (h.get_eq_none_iff n).1 hfree⟩
    have hsize := CInt.toSize_of_nonneg hn
    have hsize' := CInt.toSize_of_nonneg (by omega : 0 ≤ n'.1)
    refine ⟨n', by simp only [Nat.cast_zero]; omega, ?_⟩
    rw [hkept.get_eq_none_iff, (h.inv.insert f cloexec hfirst).2.2, FdMap.insert, FdMap.binding_set, if_neg (by omega)]
    exact (h.get_eq_none_iff n').1 hfree'
  simp only [FileTable.insertTwo, noteMade_append]
  exact hkept.insert hsecond g cloexec

theorem insertMade (made : Status FileRef) (cloexec : Bool) : Kept (t.insertMade made cloexec).2
      (noteMade asked (t.insertMade made cloexec).1.fds cloexec) := by
  cases made with
  | error e => exact h
  | ok f => exact h.insertOne hroom f cloexec

theorem doAccept (sockfd : CInt) (flags : BitVec 32) (made : Status FileRef) : Kept (t.doAccept sockfd flags made).2
      (noteMade asked (t.doAccept sockfd flags made).1.fds (wantsCloseExec flags)) := by
  unfold FileTable.doAccept
  cases t.get sockfd with
  | none => exact h
  | some f => exact h.insertMade hroom made (wantsCloseExec flags)

theorem signalfd4 (isSignalFd : FileRef → Bool) (fd : CInt) (masksize : ℕ)
    {flags : BitVec 32} (hflags : fd.1 = -1 → wantsCloseExec flags = false) (f : FileRef) :
    Kept (t.usysSignalfd4 isSignalFd fd masksize flags f).2 (noteMade asked
      (t.usysSignalfd4 isSignalFd fd masksize flags f).1.fds (wantsCloseExec flags)) := by
  unfold usysSignalfd4
  split_ifs with hmask hfd hsignal
  · exact h
  · rw [hflags hfd]
    exact h.insertOne hroom f false
  · exact h
  · exact h

omit hroom

theorem ioctl (request : BitVec 32) (other : ℤ) : Kept (t.usysIoctl fd request other).2
      ((ioctl fd request other).note asked (t.usysIoctl fd request other).1) := by
  unfold usysIoctl
  cases hget : t.get fd with
  | none => exact h
  | some f =>
    simp only
    split_ifs with hset hclear
    · obtain ⟨hinv, hmap⟩ := h.inv.setCloseOnExec hget
      refine ⟨hinv, hmap ▸ (h.flags.setFlag fd true).congr fun x => ?_⟩
      by_cases hx : fd.1 = x <;>
        simp [note, noteMade, changes, FdAnswer.done, hset, hx]
    · obtain ⟨hinv, hmap⟩ := h.inv.clearCloseOnExec hget
      refine ⟨hinv, hmap ▸ (h.flags.setFlag fd false).congr fun x => ?_⟩
      have hne : FIONCLEX ≠ FIOCLEX := by decide
      by_cases hx : fd.1 = x <;>
        simp [note, noteMade, changes, FdAnswer.done, hclear, hne, hx]
    · refine ⟨h.inv, h.flags.congr fun x => ?_⟩
      simp [note, noteMade, changes, hset, hclear]

theorem closeRange {first last : CInt} {flags : BitVec 32} (hsafe : (closeRange first last flags).Safe t) :
    Kept (t.usysCloseRange first last flags).2
      ((closeRange first last flags).note asked (t.usysCloseRange first last flags).1) := by
  unfold usysCloseRange
  split_ifs with hflags hrange hcloexec
  · exact h
  · exact h
  · obtain rfl : flags = CLOSE_RANGE_CLOEXEC := by
      refine (closeRange_flags (not_not.1 hflags)).resolve_left ?_
      rintro rfl
      exact hcloexec (by decide)
    have hfirst := CInt.toSize_of_nonneg (by omega : 0 ≤ first.1)
    have hlast := CInt.toSize_of_nonneg (by omega : 0 ≤ last.1)
    obtain ⟨hinv, hbinding⟩ := h.inv.setCloseOnExecRange first.toSize last.toSize ((hsafe (by omega) (by omega)).1 rfl)
    refine ⟨hinv, fun j f b hj => ?_⟩
    rw [hbinding] at hj
    rw [note_closeRange_cloexec]
    by_cases hmem : first.toSize ≤ j ∧ j ≤ last.toSize
    · rw [if_pos hmem, map_eq_some_iff] at hj
      obtain ⟨_, _, hb⟩ := hj
      rw [if_pos (by omega)]
      exact (Prod.mk.inj hb).2
    rw [if_neg hmem] at hj
    rw [if_neg (by omega)]
    exact h.flags j f b hj
  · obtain rfl : flags = 0 := by
      refine (closeRange_flags (not_not.1 hflags)).resolve_right ?_
      rintro rfl
      exact hcloexec (by decide)
    obtain ⟨t', hremove, hinv, hbinding⟩ := h.inv.removeRange (by omega : 0 ≤ first.1)
      (by omega : first.1 ≤ last.1) ((hsafe (by omega) (by omega)).2 rfl)
    rw [hremove]
    refine ⟨hinv, (h.flags.of_binding_imp fun j b hj => ?_).congr fun x => ?_⟩
    · rw [getD_some, hbinding] at hj
      split_ifs at hj
      exact hj
    · simp [note, noteMade, changes, FdAnswer.done, CLOSE_RANGE_CLOEXEC]

theorem step {call : FdCall} (hsafe : call.Safe t) : Kept (call.run t).2 (call.note asked (call.run t).1) := by
  cases call with
  | table call =>
    obtain ⟨hanswer, hinv, hmap⟩ := tableCall_agrees h.inv hsafe
    refine ⟨hinv, ?_⟩
    simp only [run]
    rw [hanswer, hmap]
    exact h.flags.tableCall call
  | «open» flags made =>
    rw [note_made fun _ => rfl]
    exact h.insertMade hsafe made (wantsCloseExec flags)
  | socket type made =>
    rw [note_made fun _ => rfl]
    exact h.insertMade hsafe made (wantsCloseExec type)
  | accept sockfd made =>
    rw [note_made fun _ => rfl]
    exact h.doAccept hsafe sockfd 0 made
  | accept4 sockfd flags made =>
    rw [note_made fun _ => rfl]
    simp only [run, usysAccept4, requested, hsafe.2]
    split_ifs
    · exact h
    · have hkept := h.doAccept hsafe.1 sockfd (flags &&& kFlagNonblock) made
      rwa [wantsCloseExec_and_nonblock] at hkept
  | socketpair domain type protocol f g =>
    rw [note_made fun _ => rfl]
    simp only [run, usysSocketpair, requested]
    split_ifs
    · exact h
    · exact h
    · rw [← wantsCloseExec_and_not_type type]
      exact h.insertTwo hsafe f g _
  | pipe2 flags f g =>
    rw [note_made fun _ => rfl]
    simp only [run, usysPipe2, requested]
    split_ifs
    · exact h
    · exact h.insertTwo hsafe f g (wantsCloseExec flags)
  | eventfd2 flags f | epollCreate1 flags f | inotifyInit1 flags f =>
    rw [note_made fun _ => rfl]
    exact h.insertOne hsafe f (wantsCloseExec flags)
  | signalfd4 isSignalFd fd masksize flags f =>
    rw [note_made fun _ => rfl]
    exact h.signalfd4 hsafe.1 isSignalFd fd masksize hsafe.2 f
  | ioctl fd request other => exact h.ioctl fd request other
  | closeRange first last flags => exact h.closeRange hsafe
  | fork =>
    obtain ⟨hinv, hmap⟩ := h.inv.copy
    exact ⟨hinv, hmap ▸ h.flags⟩

theorem get_doCloseOnExec {fd : CInt} (hbound : t.get fd ≠ none) : t.doCloseOnExec.get fd = none ↔ asked fd.1 := by
  obtain ⟨hinv, hmap⟩ := h.inv.doCloseOnExec
  have hnonneg : 0 ≤ fd.1 := h.inv.nonneg_of_slot (h.inv.get_eq fd ▸ hbound)
  have hfd : ((fd.toSize : ℕ) : ℤ) = fd.1 := by
    rw [CInt.toSize_of_nonneg hnonneg]
    exact Int.toNat_of_nonneg hnonneg
  obtain ⟨⟨f, b⟩, hb⟩ := ne_none_iff_exists'.1 ((h.get_eq_none_iff fd).not.1 hbound)
  have hasked := h.flags fd.toSize f b hb
  rw [hinv.get_eq, ← binding_toMap_eq_none_iff, hmap, ← hfd, hasked]
  simp only [FdMap.doCloseOnExec, hb]
  cases b <;> simp

end FdHistory.Kept

def FdHistory.Sound (s : FdHistory) : Prop := Kept s.table s.asked

theorem FdHistory.sound_start : start.Sound := by
  refine ⟨inv_empty, fun i f b hi => ?_⟩
  rw [show start.table.toMap = FdMap.empty from toMap_empty] at hi
  exact absurd hi (some_ne_none _).symm

/-- In every history of calls that forward the requests of their callers, `DoCloseOnExec` unbinds a
bound descriptor exactly if the last request for it was close-on-exec. -/
theorem closeOnExec_iff_asked (calls : List FdCall)
    (h : Run.Admitted step (fun s call => call.Safe s.table) start calls)
    (fd : CInt) (hbound : (Run.exec step start calls).table.get fd ≠ none) :
    (Run.exec step start calls).table.doCloseOnExec.get fd = none ↔ (Run.exec step start calls).asked fd.1 = true := by
  have hsound : FdHistory.Sound (Run.exec step start calls) :=
    Run.invariant_exec (fun s call hs hsafe => FdHistory.Kept.step hs hsafe) sound_start h
  generalize Run.exec step start calls = s at hbound hsound
  exact FdHistory.Kept.get_doCloseOnExec hsound hbound

/-- A close-on-exec pipe and an event file, then the flag of the reading end is cleared. -/
def pipeRun : List FdCall :=
  [.pipe2 kFlagCloseExec 3 4, .eventfd2 0 5, .table (.fcntl stdin .F_SETFD 0), .fork]

theorem admitted_pipeRun : Run.Admitted step (fun s call => FdCall.Safe s.table call) start pipeRun := by
  refine ⟨?_, ?_, ?_, trivial, trivial⟩
  · exact ⟨⟨10, by decide⟩, ⟨11, by decide⟩, by decide, by decide, by decide, by decide⟩
  · exact ⟨⟨10, by decide⟩, ⟨11, by decide⟩, by decide, by decide, by decide, by decide⟩
  · exact .inr (.inr (.inl rfl))

theorem closeOnExec_iff_asked_pipeRun : (Run.exec step start pipeRun).table.get ⟨1, by decide⟩ = some 4 ∧
      (Run.exec step start pipeRun).table.doCloseOnExec.get ⟨1, by decide⟩ = none :=
  ⟨by decide +kernel, (closeOnExec_iff_asked pipeRun admitted_pipeRun ⟨1, by decide⟩
    (by decide +kernel)).2 (by decide +kernel)⟩

/-- A socket that was accepted close-on-exec, and a signal file that was made so, are still bound
after `DoCloseOnExec`. -/
theorem accept4_signalfd4_survive_exec : ∃ calls : List FdCall, ∃ s, Run.exec step start calls = s ∧
      s.asked 1 = true ∧ s.asked 2 = true ∧
      s.table.doCloseOnExec.get ⟨1, by decide⟩ = some 8 ∧
      s.table.doCloseOnExec.get ⟨2, by decide⟩ = some 9 :=
  ⟨[.socket 1 (.ok 7), .accept4 ⟨0, by decide⟩ kFlagCloseExec (.ok 8),
      .signalfd4 (fun _ => false) ⟨-1, by decide⟩ 8 kFlagCloseExec 9], _, rfl,
    by decide +kernel, by decide +kernel, by decide +kernel, by decide +kernel⟩

end Junction
