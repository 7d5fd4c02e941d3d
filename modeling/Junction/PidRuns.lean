import Junction.PidTable
import Junction.SignalNumbers

/-!
# Process identifiers over runs

The operations on processes keep the table exact, except in four cases: a process that joins its own group and is the
last to use it, or a group that nobody uses; a restored process, whose main thread is counted twice and whose group
and session need not have been acquired; and the creation of the first process when there is no memory for its map.
-/

namespace Junction.PidSystem
open Multiset ProcessIds PidTable.Exact Run
/-- The identifier is in use, or is acquired with the restored processes. -/
def Known (s : PidSystem) (procs : List ProcessIds) (pid : ℤ) : Prop :=
  pid ∈ s.inUse ∨ ∃ q ∈ procs, pid = q.pid ∨ pid ∈ q.tids

/-- The first process gets its memory map. A group that is joined is in use, also without the process that joins it.
A restored process has identifiers in range, its main thread has exited, and its group and its session are known. -/
def Accounted (s : PidSystem) : Event → Prop
  | .createInit mapped _ => mapped = true
  | .setpgid caller target pgid =>
    match s.procs[caller]?, s.procs[target]? with
    | some c, some p => p.isProcessGroupLeader = true ∨ namedGroup c pgid ∈ s.inUse.erase p.pgid
    | _, _ => True
  | .restore procs =>
    ∀ p ∈ procs, PidInRange p.pid ∧ (∀ tid ∈ p.tids, PidInRange tid ∧ tid ≠ p.pid) ∧
      s.Known procs p.pgid ∧ s.Known procs p.sid
  | _ => True

variable {s : PidSystem} {i : ℕ} {p : ProcessIds}

def Sound (s : PidSystem) : Prop := s.table.Exact (listUses s.procs)

theorem mem_listUses (h : s.procs[i]? = some p) {pid : ℤ} (hpid : pid ∈ p.uses) : pid ∈ listUses s.procs := by
  rw [listUses_of_getElem? h]
  exact mem_add.mpr (.inl hpid)

variable (hs : Sound s)
include hs

theorem sound_createInit (created : Bool) : Sound (s.createInit true created) := by
  unfold createInit
  rcases allocSession hs with ⟨e, t, heq, hexact⟩ | ⟨pid, t, heq, hexact⟩
  · rw [heq]
    exact hexact
  rw [heq]
  cases created with
  | false => exact hexact.releaseProcess
  | true =>
    have huses : (⟨pid, pid, pid, [pid]⟩ : ProcessIds).uses = pid ::ₘ pid ::ₘ pid ::ₘ 0 := by
      simp [uses]
    change t.Exact (listUses (s.procs ++ [⟨pid, pid, pid, [pid]⟩]))
    rw [listUses_append, huses]
    simpa using hexact

variable (hp : s.procs[i]? = some p)
include hp

theorem sound_vfork (created : Bool) : Sound (s.createProcessVfork p created) := by
  unfold createProcessVfork
  rcases allocProcess hs (mem_listUses hp p.pgid_mem_uses) (mem_listUses hp p.sid_mem_uses) with
    ⟨e, t, heq, hexact⟩ | ⟨pid, t, heq, hexact⟩
  · rw [heq]
    exact hexact
  rw [heq]
  have huses : (⟨pid, p.pgid, p.sid, if created then [pid] else []⟩ : ProcessIds).uses =
      pid ::ₘ p.pgid ::ₘ p.sid ::ₘ 0 := by
    cases created <;> simp [uses]
  change t.Exact (listUses (s.procs ++ [⟨pid, p.pgid, p.sid, if created then [pid] else []⟩]))
  rw [listUses_append, huses, cons_add, cons_add, cons_add, zero_add, cons_swap pid, cons_swap pid, cons_swap p.pgid]
  exact hexact

theorem sound_createThread (created exited : Bool) : Sound (s.createThread i p created exited) := by
  unfold createThread
  cases created with
  | false => exact hs
  | true =>
    rw [if_neg (by decide)]
    rcases allocTid hs with ⟨e, t, heq, hexact⟩ | ⟨tid, t, heq, hnew, hexact⟩
    · rw [heq]
      exact hexact
    rw [heq]
    cases exited with
    | true => exact hexact.releaseTid
    | false =>
      have hne : tid ≠ p.pid := fun h => hnew (h ▸ mem_listUses hp p.pid_mem_uses)
      change t.Exact (listUses (s.procs.set i _))
      rw [listUses_set hp, uses_append hne, cons_add, ← listUses_of_getElem? hp]
      exact hexact

theorem sound_threadExit (tid : ℤ) : Sound (s.threadExit i p tid) := by
  unfold threadExit
  by_cases hin : tid ∈ p.tids
  · rw [if_pos hin]
    have hexact : s.table.Exact (listUses s.procs) := hs
    rw [listUses_of_getElem? hp, uses_erase hin, add_assoc, ← listUses_set hp] at hexact
    by_cases hmain : tid ≠ p.pid
    · rw [if_pos hmain, singleton_add] at hexact
      rw [if_pos hmain]
      exact hexact.releaseTid
    rw [if_neg hmain, zero_add] at hexact
    rw [if_neg hmain]
    exact hexact
  · rw [if_neg hin]
    exact hs

theorem sound_reap : Sound (s.reap i p) := by
  unfold reap
  split_ifs with hgone
  · have hexact : s.table.Exact (listUses s.procs) := hs
    have huses : p.uses = p.pid ::ₘ p.pgid ::ₘ p.sid ::ₘ 0 := by
      simp [uses, hgone]
    rw [listUses_of_getElem? hp, huses, cons_add, cons_add, cons_add, zero_add] at hexact
    exact hexact.releaseProcess
  · exact hs

variable {procs : List ProcessIds}

omit hp in
omit hs in
theorem set_self (hp : procs[i]? = some p) : procs.set i p = procs := by
  obtain ⟨hlt, rfl⟩ := List.getElem?_eq_some_iff.mp hp
  exact List.set_getElem_self hlt

theorem sound_setsid : Sound (s.setsid i p) := by
  unfold setsid
  split_ifs with hsession
  · exact hs
  unfold becomeSessionLeader
  split_ifs with hleader
  · dsimp only
    rw [set_self hp]
    exact hs
  have hexact : s.table.Exact (listUses s.procs) := hs
  have hmem := mem_listUses hp p.pid_mem_uses
  have htwo := (hexact.inc hmem).inc (mem_cons_self p.pid _)
  rw [← PidTable.incRefCountPid_two] at htwo
  have hrest : p.pid ::ₘ p.pid ::ₘ listUses s.procs = p.sid ::ₘ p.pgid ::ₘ listUses
      (s.procs.set i { p with sid := p.pid, pgid := p.pid }) := by
    rw [listUses_of_getElem? hp, listUses_set hp, p.uses_eq, uses_eq]
    simp only [ownUses, ← singleton_add]
    abel
  rw [hrest] at htwo
  exact htwo.dec.dec

theorem sound_setpgid {pgid : ℤ}
    (hknown : p.isProcessGroupLeader ∨ pgid ∈ s.inUse.erase p.pgid) : Sound (s.setpgid i p pgid) := by
  unfold setpgid joinProcessGroup
  split_ifs with hleader
  · dsimp only
    rw [set_self hp]
    exact hs
  have hjoin : pgid ∈ (listUses s.procs).erase p.pgid := hknown.resolve_left hleader
  have hexact : s.table.Exact (listUses s.procs) := hs
  have hin := mem_listUses hp p.pgid_mem_uses
  rw [← cons_erase hin] at hexact
  have hjoined := hexact.dec.inc hjoin
  have hrest : pgid ::ₘ (listUses s.procs).erase p.pgid = listUses (s.procs.set i { p with pgid := pgid }) := by
    rw [listUses_of_getElem? hp, listUses_set hp, p.uses_eq, uses_eq, cons_add, erase_cons_head, ← cons_add]
    rfl
  rw [hrest] at hjoined
  exact hjoined

omit hp

omit hs in
theorem counts_restore {t : PidTable} {uses : Multiset ℤ} {bits : Set ℤ} (h : t.Counts uses bits)
    (hprocs : ∀ p ∈ procs, PidInRange p.pid ∧ ∀ tid ∈ p.tids, PidInRange tid ∧ tid ≠ p.pid) :
    (procs.foldl restoreOne t).Counts (listUses procs + uses)
      (bits ∪ {pid | ∃ p ∈ procs, pid = p.pid ∨ pid ∈ p.tids}) := by
  induction procs generalizing t uses bits with
  | nil => simpa [listUses] using h
  | cons p procs ih =>
    obtain ⟨hpid, htids⟩ := hprocs p List.mem_cons_self
    have hprocess : (t.acquirePid p.pid (some p.pgid) (some p.sid)).Counts (p.sid ::ₘ p.pgid ::ₘ p.pid ::ₘ uses)
        (insert p.pid bits) := (((h.acquire hpid).inc p.pid).inc p.pgid).inc p.sid
    have hone := hprocess.acquireTids fun tid htid => (htids tid htid).1
    have hall := ih hone fun q hq => hprocs q (List.mem_cons_of_mem p hq)
    have hfilter : p.tids.filter (· ≠ p.pid) = p.tids :=
      List.filter_eq_self.mpr fun tid htid => by simpa using (htids tid htid).2
    have huses : listUses procs + ((p.tids : Multiset ℤ) + p.sid ::ₘ p.pgid ::ₘ p.pid ::ₘ uses) =
        listUses (p :: procs) + uses := by
      unfold listUses
      rw [List.map_cons, List.sum_cons]
      unfold ProcessIds.uses
      rw [hfilter]
      simp only [← singleton_add]
      abel
    have hbits : insert p.pid bits ∪ {tid | tid ∈ p.tids} ∪ {pid | ∃ q ∈ procs, pid = q.pid ∨ pid ∈ q.tids} =
        bits ∪ {pid | ∃ q ∈ p :: procs, pid = q.pid ∨ pid ∈ q.tids} := by
      ext pid
      simp only [Set.mem_union, Set.mem_insert_iff, Set.mem_ofPred_eq, List.mem_cons, exists_eq_or_imp]
      rw [or_comm (a := pid = p.pid), or_assoc, or_assoc, or_assoc]
    rw [huses, hbits] at hall
    exact hall

theorem sound_restore (hguard : s.Accounted (.restore procs)) : Sound (s.step (.restore procs)) := by
  have hrange : ∀ p ∈ procs, PidInRange p.pid ∧ ∀ tid ∈ p.tids, PidInRange tid ∧ tid ≠ p.pid := fun p hp =>
    ⟨(hguard p hp).1, (hguard p hp).2.1⟩
  have hcounts := counts_restore hs hrange
  have huses : listUses procs + listUses s.procs = listUses (s.procs ++ procs) := by
    unfold listUses
    rw [List.map_append, List.sum_append, add_comm]
  -- What is used is marked, since groups and sessions are known.
  have hbits : ({pid | pid ∈ listUses s.procs} ∪ {pid | ∃ p ∈ procs, pid = p.pid ∨ pid ∈ p.tids}) =
      {pid | pid ∈ listUses (s.procs ++ procs)} := by
    ext pid
    rw [← huses]
    simp only [Set.mem_union, Set.mem_ofPred_eq, mem_add, mem_listUses_iff]
    constructor
    · rintro (hold | ⟨p, hp, hpid | htid⟩)
      · exact .inr hold
      · exact .inl ⟨p, hp, hpid ▸ p.pid_mem_uses⟩
      · exact .inl ⟨p, hp, mem_uses.mpr (.inr (.inr (.inr ⟨htid, ((hguard p hp).2.1 pid htid).2⟩)))⟩
    rintro (⟨p, hp, huse⟩ | hold)
    · obtain ⟨-, -, hpgid, hsid⟩ := hguard p hp
      rcases mem_uses.mp huse with rfl | rfl | rfl | htid
      · exact .inr ⟨p, hp, .inl rfl⟩
      · exact hpgid.imp_left mem_listUses_iff.mp
      · exact hsid.imp_left mem_listUses_iff.mp
      · exact .inr ⟨p, hp, .inr htid.1⟩
    · exact .inl hold
  rw [huses, hbits] at hcounts
  exact hcounts

omit hs

theorem sound_step (s : PidSystem) (e : Event) (hs : Sound s) (hguard : s.Accounted e) : Sound (s.step e) := by
  cases e with
  | createInit mapped created =>
    obtain rfl : mapped := hguard
    exact sound_createInit hs created
  | vfork parent created => exact holds_elim hs fun p hp => sound_vfork hs hp created
  | createThread proc created exited => exact holds_elim hs fun p hp => sound_createThread hs hp created exited
  | threadExit proc tid => exact holds_elim hs fun p hp => sound_threadExit hs hp tid
  | reap proc => exact holds_elim hs fun p hp => sound_reap hs hp
  | setsid proc => exact holds_elim hs fun p hp => sound_setsid hs hp
  | setpgid caller target pgid =>
    refine holds_elim hs fun c hc => holds_elim hs fun p hp => ?_
    simp only [Accounted, hc, hp] at hguard
    exact sound_setpgid hs hp hguard
  | restore procs => exact sound_restore hs hguard

theorem sound_empty : Sound {} where
  counted _ := rfl
  range _ h := absurd h (notMem_zero _)
  taken pid h := by
    have hclear : ({} : PidTable).taken pid = false := Words.test_replicate_zero _ _
    rw [hclear]
    exact ⟨nofun, fun h => absurd h (notMem_zero _)⟩
  released _ h := absurd h List.not_mem_nil

/-- The table is right about the uses of identifiers, and so is the generator. -/
structure Accurate (s : PidSystem) : Prop where
  counted : ∀ pid, s.table.refCount pid = s.inUse.count pid
  taken : ∀ pid, PidInRange pid → (s.table.taken pid = true ↔ 0 < s.inUse.count pid)
  range : ∀ pid ∈ s.inUse, PidInRange pid
  released : ∀ pid ∈ s.table.released, PidInRange pid
  fresh : ∀ id g, s.table.generator.generate = (some id, g) → (id : ℤ) ∉ s.inUse
  reusable : ∀ g, s.table.generator.generate = (none, g) → ∀ pid, PidInRange pid → pid ∈ s.inUse

theorem accurate_of_sound (hs : Sound s) : Accurate s := { hs with
  taken pid h := by
    rw [count_pos]
    exact hs.taken pid h
  fresh id g h := (generate hs h 0).1
  reusable g h := (generate_none hs h).2 }

instance (pid : ℤ) : Decidable (PidInRange pid) := inferInstanceAs (Decidable (_ ∧ _))

instance (s : PidSystem) (procs : List ProcessIds) (pid : ℤ) : Decidable (s.Known procs pid) :=
  inferInstanceAs (Decidable (_ ∨ _))

instance (s : PidSystem) (e : Event) : Decidable (s.Accounted e) := by
  unfold Accounted
  split
  all_goals first | infer_instance | split <;> infer_instance

/-- Process identifiers are accounted for exactly, in every run whose steps are `Accounted`. -/
theorem pids_accounted {es : List Event} (hes : Run.Admitted step Accounted {} es) : Accurate (exec step {} es) :=
  accurate_of_sound (invariant_exec sound_step sound_empty hes)

/-- Processes and threads come and go, one starts a session, one joins the group of another. -/
theorem pids_accounted_session : let es : List Event :=
      [.createInit true true, .vfork 0 true, .vfork 0 true, .createThread 1 true false, .createThread 1 true true,
        .setsid 1, .setpgid 2 2 2, .threadExit 1 4, .threadExit 1 2, .reap 1, .restore [⟨9, 9, 1, [10]⟩]]
    Run.Admitted step Accounted {} es ∧ Accurate (exec step {} es) :=
  ⟨by decide +kernel, pids_accounted (by decide +kernel)⟩

/-- A process leaves the group it is about to join; a group is joined that cannot be released; a restored main thread
is counted as a thread; a failed start keeps an identifier. -/
theorem pids_miscounted :
    let rejoined := exec step {}
      [.createInit true true, .vfork 0 true, .vfork 1 true, .setpgid 2 2 2, .threadExit 1 2, .reap 1, .setpgid 1 1 0]
    let outside := exec step {} [.createInit true true, .vfork 0 true, .setpgid 1 1 99999, .setpgid 1 1 1]
    let restored := exec step {} [.restore [⟨1, 1, 1, [1]⟩]]
    let unmapped := exec step {} [.createInit false true]
    (rejoined.inUse.count 2 = 1 ∧ rejoined.table.refCount 2 = 1 ∧ rejoined.table.taken 2 = false) ∧
      (99999 ∈ outside.table.released ∧ ¬ PidInRange 99999) ∧
      (restored.inUse.count 1 = 3 ∧ restored.table.refCount 1 = 4) ∧
      (unmapped.inUse.count 1 = 0 ∧ unmapped.table.refCount 1 = 3 ∧ unmapped.table.taken 1 = true) := by
  decide +kernel

end Junction.PidSystem

/-!
### Clones that fail

A new process stands in the lists of its parent and of all processes before its thread is made, and stays there if that
fails.
-/

namespace Junction
open Function

def CLONE_VM : BitVec 64 := 0x100
def CLONE_FS : BitVec 64 := 0x200
def CLONE_FILES : BitVec 64 := 0x400
def CLONE_SIGHAND : BitVec 64 := 0x800
def CLONE_VFORK : BitVec 64 := 0x4000
def CLONE_THREAD : BitVec 64 := 0x10000

def kThreadRequiredFlags : BitVec 64 := CLONE_VM ||| CLONE_FILES ||| CLONE_FS ||| CLONE_THREAD ||| CLONE_SIGHAND
def kVforkRequiredFlags : BitVec 64 := CLONE_VM ||| CLONE_VFORK
def kCheckFlags : BitVec 64 := kThreadRequiredFlags ||| kVforkRequiredFlags

def Error.ENOSYS : Error := ⟨38⟩

/-- The processes with their threads and the table of identifiers, and the children of the caller. -/
structure CloneState where
  system : PidSystem
  childProcs : List ℤ := []

namespace CloneState

/-- `DoClone` up to the start of the new thread, called by the process `p` at the given index. `created` says that
`thread_create` has memory for the thread, `exited` that the caller's process has exited. -/
def doClone (s : CloneState) (caller : ℕ) (p : ProcessIds) (flags : BitVec 64) (created exited : Bool) :
    Status ℤ × CloneState :=
  if flags &&& kCheckFlags = kVforkRequiredFlags then
    match s.system.table.allocPid (some p.pgid) (some p.sid) with
    | (.error e, t) => (.error e, { s with system := { s.system with table := t } })
    | (.ok pid, _) =>
      (if created then .ok pid else .error .ENOMEM,
        ⟨s.system.createProcessVfork p created, s.childProcs ++ [pid]⟩)
  else if flags &&& kCheckFlags = kThreadRequiredFlags then
    (if !created then .error .ENOMEM
      else
        match s.system.table.allocPid none none with
        | (.error e, _) => .error e
        | (.ok tid, _) => if exited then .error .EPERM else .ok tid,
      { s with system := s.system.createThread caller p created exited })
  else (.error .ENOSYS, s)

/-- Same children, same processes with the same threads, and the same identifiers in use as often. -/
structure Unchanged (s s' : CloneState) : Prop where
  childProcs : s'.childProcs = s.childProcs
  procs : s'.system.procs = s.system.procs
  refCount : s'.system.table.refCount = s.system.table.refCount
  taken : ∀ pid, PidInRange pid → s'.system.table.taken pid = s.system.table.taken pid

variable {s s' : CloneState} {uses : Multiset ℤ}

theorem Unchanged.of_exact (hs : s.system.table.Exact uses) (hs' : s'.system.table.Exact uses)
    (hchildren : s'.childProcs = s.childProcs) (hprocs : s'.system.procs = s.system.procs) : Unchanged s s' where
  childProcs := hchildren
  procs := hprocs
  refCount := funext fun pid => (hs'.counted pid).trans (hs.counted pid).symm
  taken pid hpid := Bool.eq_iff_iff.2 ((hs'.taken pid hpid).trans (hs.taken pid hpid).symm)

theorem generate_none_iff {t : PidTable} {g : UIDGenerator kMaxProcesses} {found : Option ℕ}
    (h : t.generator.generate = (found, g)) : found = none ↔ ∀ pid, PidInRange pid → t.taken pid := by
  cases found with
  | none =>
    refine ⟨fun _ pid hpid => (UIDGenerator.generate_none h).2 pid.toNat ?_ ?_, fun _ => rfl⟩
    all_goals
      obtain ⟨hpos, hle⟩ := hpid
      omega
  | some id =>
    obtain ⟨hpos, hle, hfree, -⟩ := UIDGenerator.generate_some h
    refine ⟨nofun, fun hall => ?_⟩
    have htaken : t.generator.taken id := hall id ⟨by exact_mod_cast hpos, by exact_mod_cast hle⟩
    rw [hfree] at htaken
    cases htaken

theorem unchanged_of_thread (hs : s.system.table.Exact uses) {caller : ℕ} {p : ProcessIds} {created exited : Bool}
    (hfails : created = false ∨ exited = true ∨ ∃ e t, s.system.table.allocPid none none = (.error e, t)) :
    Unchanged s { s with system := s.system.createThread caller p created exited } := by
  unfold PidSystem.createThread
  cases created with
  | false => exact .of_exact hs hs rfl rfl
  | true =>
    rw [if_neg (by decide)]
    rcases hs.allocTid with ⟨e, t, heq, hexact⟩ | ⟨tid, t, heq, -, hexact⟩
    · rw [heq]
      exact .of_exact hs hexact rfl rfl
    rw [heq]
    obtain rfl : exited = true := by simpa [heq] using hfails
    exact .of_exact hs hexact.releaseTid rfl rfl

/-- A clone that fails leaves everything as it was if and only if it is not a `vfork` that gets an identifier and no
thread. -/
theorem failed_clone_unchanged_iff (hs : s.system.table.Exact uses) (caller : ℕ) (p : ProcessIds) (flags : BitVec 64)
    (created exited : Bool) :
    (∀ e, (s.doClone caller p flags created exited).1 = .error e →
        Unchanged s (s.doClone caller p flags created exited).2) ↔
      (flags &&& kCheckFlags = kVforkRequiredFlags → created = false →
        ∀ pid, PidInRange pid → s.system.table.taken pid = true) := by
  unfold doClone
  by_cases hvfork : flags &&& kCheckFlags = kVforkRequiredFlags
  · rcases hgen : s.system.table.generator.generate with ⟨found, g⟩
    simp only [hvfork, if_true, forall_const, ← generate_none_iff hgen, PidTable.allocPid, hgen]
    cases found with
    | none =>
      have hexact := (hs.generate_none hgen).1
      exact ⟨fun _ _ => rfl, fun _ _ _ => .of_exact hs hexact rfl rfl⟩
    | some id =>
      cases created with
      | true => simp
      | false =>
        refine ⟨fun h => ?_, fun h => absurd (h rfl) nofun⟩
        have hchildren := (h .ENOMEM (by simp)).childProcs
        simp at hchildren
  simp only [hvfork, if_false, IsEmpty.forall_iff, iff_true]
  by_cases hthread : flags &&& kCheckFlags = kThreadRequiredFlags
  · simp only [hthread, if_true]
    refine fun e he => unchanged_of_thread hs ?_
    cases created with
    | false => exact .inl rfl
    | true =>
      rcases halloc : s.system.table.allocPid none none with ⟨_ | tid, t⟩
      · exact .inr (.inr ⟨_, _, rfl⟩)
      rw [halloc] at he
      cases exited with
      | false => cases he
      | true => exact .inr (.inl rfl)
  · simp only [hthread, if_false]
    exact fun _ _ => .of_exact hs hs rfl rfl

def single : CloneState := { system := PidSystem.createInit {} true true }

theorem failed_clone_unchanged_exited :
    Unchanged single (single.doClone 0 ⟨1, 1, 1, [1]⟩ kThreadRequiredFlags true true).2 :=
  (failed_clone_unchanged_iff (s := single) (PidSystem.sound_createInit PidSystem.sound_empty true) 0 _ _ true true).2
    (fun h => absurd h (by decide)) .EPERM (by decide +kernel)

/-- A `vfork` for which there is no thread. -/
theorem vfork_without_thread :
    let after := single.doClone 0 ⟨1, 1, 1, [1]⟩ kVforkRequiredFlags false false
    after.1 = .error .ENOMEM ∧ after.2.childProcs = [2] ∧ after.2.system.procs = [⟨1, 1, 1, [1]⟩, ⟨2, 1, 1, []⟩] ∧
      after.2.system.table.refCount 2 = 1 ∧ after.2.system.table.taken 2 = true := by
  decide +kernel

end CloneState

/-! ### What the calls on process groups report

`setpgid` answers zero when the target did not join the group and the error of a success when it did. `setsid` answers
zero to a process that has a session already. -/

open ProcessIds

/-- Whether `kill` and `waitpid` with the argument `tgid`, called by `c`, take `p` for one of the processes meant. -/
def ProcessIds.selects (c : ProcessIds) (tgid : ℤ) (p : ProcessIds) : Bool :=
  if tgid < -1 then p.pgid = -tgid
  else if tgid = -1 then true
  else if tgid = 0 then p.pgid = c.pgid
  else p.pid = tgid

namespace PidSystem
variable (s : PidSystem) (caller : ℕ) (c : ProcessIds) (pid pgid : ℤ)

/-- The process that `setpgid` is about: the caller, or what `Process::Find` finds. -/
def setpgidTarget : Option ℕ :=
  if pid = 0 ∨ pid = c.pid then some caller else s.procs.findIdx? fun p => p.pid = pid

/-- `usys_setpgid`. What `MakeCError` makes of a success is left open. -/
def usysSetpgid (stray : ℤ) : ℤ × PidSystem :=
  match s.setpgidTarget caller c pid with
  | none => (Error.ESRCH.toLong, s)
  | some target =>
    s.procs[target]?.elim (Error.ESRCH.toLong, s) fun p =>
      (match (p.joinProcessGroup s.table (namedGroup c pgid)).1 with
        | .ok _ => stray
        | .error _ => 0,
        s.setpgid target p (namedGroup c pgid))

/-- `usys_setsid`. -/
def usysSetsid : ℤ × PidSystem :=
  if c.isSessionLeader then (0, s)
  else if c.isProcessGroupLeader then (Error.EPERM.toLong, s)
  else (c.pid, s.setsid caller c)

/-- The answer tells whether the target is in the group that was asked for; groups are joined within a session; and the
leaders of groups stay where they are looked for. -/
structure SetpgidReports (target : Option ℕ) (r : ℤ × PidSystem) : Prop where
  joined : r.1 = 0 ↔ ∃ k ∈ target, ∃ p, r.2.procs[k]? = some p ∧ p.pgid = if pgid = 0 then p.pid else pgid
  failed : r.1 < 0 ↔ r.2 = s
  session : ∀ k ∈ target, ∀ p p', s.procs[k]? = some p → r.2.procs[k]? = some p' → p'.pgid ≠ p.pgid →
    ∃ q ∈ s.procs, q.sid = p.sid ∧ q.pgid = p'.pgid
  leaders : ∀ (k : ℕ) p, s.procs[k]? = some p → p.isProcessGroupLeader → 0 < p.pid →
    ∃ p', r.2.procs[k]? = some p' ∧ ∀ c : ProcessIds, c.selects (-p.pgid) p' = true

structure SetsidReports (r : ℤ × PidSystem) : Prop where
  leads : r.1 = c.pid ↔ ∃ p, r.2.procs[caller]? = some p ∧ p.sid = p.pid ∧ p.pgid = p.pid
  failed : r.1 = c.pid ∨ r.1 < 0 ∧ r.2 = s

variable {s caller c pid}

theorem selects_leader {p : ProcessIds} (hpos : 0 < p.pid) (hleader : p.isProcessGroupLeader) (c : ProcessIds) :
    c.selects (-p.pgid) p := by
  have hpgid : p.pgid = p.pid := by simpa [isProcessGroupLeader] using hleader
  unfold selects
  split_ifs
  · simp
  · rfl
  · omega
  · omega

variable (hc : s.procs[caller]? = some c)
include hc

theorem setpgidTarget_eq_none : s.setpgidTarget caller c pid = none ↔ pid ≠ 0 ∧ ∀ p ∈ s.procs, p.pid ≠ pid := by
  have hmem := List.mem_of_getElem? hc
  unfold setpgidTarget
  split_ifs with hself
  · refine ⟨nofun, fun ⟨hne, hall⟩ => absurd (hself.resolve_left hne).symm (hall c hmem)⟩
  · simp [not_or.1 hself]

theorem exists_of_target {k : ℕ} (hk : s.setpgidTarget caller c pid = some k) : ∃ p, s.procs[k]? = some p := by
  unfold setpgidTarget at hk
  split_ifs at hk
  · exact ⟨c, Option.some.inj hk ▸ hc⟩
  · obtain ⟨hlt, -⟩ := List.findIdx?_eq_some_iff_getElem.1 hk
    exact ⟨_, List.getElem?_eq_getElem hlt⟩

theorem setpgid_reports_iff :
    (∀ stray, SetpgidReports s pgid (s.setpgidTarget caller c pid) (s.usysSetpgid caller c pid pgid stray)) ↔
      pid ≠ 0 ∧ ∀ p ∈ s.procs, p.pid ≠ pid := by
  rw [← setpgidTarget_eq_none hc]
  unfold usysSetpgid
  cases htarget : s.setpgidTarget caller c pid with
  | none =>
    refine ⟨fun _ => rfl, fun _ _ => ⟨?_, ?_, by simp, fun k p hp hleader hpos => ?_⟩⟩
    · simp [Error.toLong, Error.ESRCH]
    · simp [Error.toLong, Error.ESRCH]
    · exact ⟨p, hp, selects_leader hpos hleader⟩
  | some target =>
    obtain ⟨p, hp⟩ := exists_of_target hc htarget
    refine ⟨fun h => ?_, by simp⟩
    simp only [hp, Option.elim_some, joinProcessGroup] at h
    have hzero := (h 0).failed
    have hminus := (h (-1)).failed
    -- a leader is refused with zero; any other process has the same new state whatever is answered
    split_ifs at hzero hminus with hleader
    · have hsame : s.setpgid target p (namedGroup c pgid) = s := by
        simp only [setpgid, joinProcessGroup, hleader, if_true]
        rw [set_self hp]
      simp [hsame] at hzero
    · dsimp only at hzero hminus
      exact absurd (hzero.2 (hminus.1 (by decide))) (by decide)

theorem setsid_reports_iff (hpos : 0 < c.pid) :
    SetsidReports s caller c (s.usysSetsid caller c) ↔ c.isSessionLeader = false := by
  unfold usysSetsid
  split_ifs with hsession hgroup
  · simp only [hsession, Bool.true_eq_false, iff_false]
    intro h
    have := h.failed
    simp only [Int.lt_irrefl, false_and, or_false] at this
    omega
  · have hne : c.sid ≠ c.pid := by simpa [isSessionLeader] using hsession
    have hneg : Error.EPERM.toLong < 0 := by decide
    refine iff_of_true ⟨?_, .inr ⟨hneg, rfl⟩⟩ (by simpa using hsession)
    simp only [hc, Option.some.injEq, exists_eq_left', hne, false_and, iff_false]
    omega
  refine iff_of_true ⟨iff_of_true rfl ?_, .inl rfl⟩ (by simpa using hsession)
  have hlt := (List.getElem?_eq_some_iff.1 hc).1
  exact ⟨{ c with sid := c.pid, pgid := c.pid },
    by simp [setsid, hsession, becomeSessionLeader, hgroup, hlt], rfl, rfl⟩

omit hc

/-- The calls of a process report what they have done if and only if `setpgid` names no process, and the caller of
`setsid` has no session of its own. -/
theorem group_calls_report_iff (hc : s.procs[caller]? = some c) (hpos : 0 < c.pid) :
    ((∀ stray, SetpgidReports s pgid (s.setpgidTarget caller c pid) (s.usysSetpgid caller c pid pgid stray)) ∧
        SetsidReports s caller c (s.usysSetsid caller c)) ↔
      (pid ≠ 0 ∧ ∀ p ∈ s.procs, p.pid ≠ pid) ∧ c.isSessionLeader = false :=
  and_congr (setpgid_reports_iff pgid hc) (setsid_reports_iff hc hpos)

def parentAndChild : PidSystem := { procs := [⟨1, 1, 1, [1]⟩, ⟨2, 1, 1, [2]⟩] }

theorem group_calls_report_child :
    SetsidReports parentAndChild 1 ⟨2, 1, 1, [2]⟩ (parentAndChild.usysSetsid 1 ⟨2, 1, 1, [2]⟩) :=
  ((@group_calls_report_iff _ _ _ 7 1 rfl (by decide)).2 (by decide)).2

/-- The leader of a group is told that it has joined another one, a child joins the group of its caller when it should
get its own, and a session leader gets zero from `setsid`. -/
theorem group_calls_misreport : (parentAndChild.usysSetpgid 0 ⟨1, 1, 1, [1]⟩ 0 2 (-1)).1 = 0 ∧
      (parentAndChild.usysSetpgid 0 ⟨1, 1, 1, [1]⟩ 0 2 (-1)).2.procs = parentAndChild.procs ∧
      (parentAndChild.usysSetpgid 0 ⟨1, 1, 1, [1]⟩ 2 0 0).2.procs = parentAndChild.procs ∧
      (parentAndChild.usysSetpgid 0 ⟨1, 1, 1, [1]⟩ 2 9 0).2.procs = [⟨1, 1, 1, [1]⟩, ⟨2, 9, 1, [2]⟩] ∧
      (parentAndChild.usysSetsid 0 ⟨1, 1, 1, [1]⟩).1 = 0 := by
  decide +kernel

end PidSystem
end Junction
