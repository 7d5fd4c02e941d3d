import Junction.Bitmap
import Junction.Library.Run

/-!
# Process identifiers

A generator hands out identifiers from a set of bits, from the last position on and then from the start. A table
counts the uses of each identifier: as the identifier of a process, of its group and of its session, and as the
identifier of a thread other than the main one. An identifier goes back to the generator when its count drops to zero.

The operations on processes and threads are modelled as far as they touch identifiers. Beside the table stands the
list of the identifiers that were given back.
-/

namespace Junction
open Function

/-- `UIDGenerator<N>`. The words cover the bits. -/
structure UIDGenerator (n : ℕ) where
  pos : ℕ := 0
  bits : List (BitVec 64) := List.replicate ((n + 7) / 8) 0
  covers : n ≤ bits.length * 64 := by simp only [List.length_replicate]; omega

namespace UIDGenerator
variable {n : ℕ}

variable (g : UIDGenerator n)

def acquireBit (bit : ℕ) : UIDGenerator n :=
  { g with
    bits := Words.set g.bits bit
    covers := by rw [Words.length_set]; exact g.covers }

def getNext : Option ℕ × UIDGenerator n :=
  match Words.findNext true n g.bits g.pos with
  | some next => (some (next + 1), { g.acquireBit next with pos := (next + 1) % n })
  | none => (none, g)

def generate (g : UIDGenerator n) : Option ℕ × UIDGenerator n :=
  match g.getNext with
  | (none, g) => if 0 < g.pos then ({ g with pos := 0 } : UIDGenerator n).getNext else (none, g)
  | (some id, g) => (some id, g)

def release (pos : ℕ) : UIDGenerator n :=
  { g with
    bits := Words.clear g.bits (subWord pos 1)
    covers := by rw [Words.length_clear]; exact g.covers }

def acquire (pos : ℕ) : UIDGenerator n := g.acquireBit (subWord pos 1)

def taken (id : ℕ) : Bool := Words.test g.bits (id - 1)

end UIDGenerator

def kMaxProcesses : ℕ := 32768

/-- A `pid_t` as a `size_t`. -/
def pidSize (pid : ℤ) : ℕ := (pid % 2 ^ 64).toNat

/-- The generator and the counts. An entry that is missing counts as zero. The list of the identifiers passed to
`Release` is kept beside them. -/
structure PidTable where
  generator : UIDGenerator kMaxProcesses := {}
  refCount : ℤ → ℕ := fun _ => 0
  released : List ℤ := []

namespace PidTable

/-- Counts stay far below `2 ^ 64`, but to decrement a missing one wraps. -/
def decRefCountPid (t : PidTable) (pid : ℤ) : PidTable :=
  let count := if t.refCount pid = 0 then 2 ^ 64 - 1 else t.refCount pid - 1
  if count = 0 then
    { generator := t.generator.release (pidSize pid)
      refCount := update t.refCount pid 0
      released := pid :: t.released }
  else { t with refCount := update t.refCount pid count }

def incRefCountPid (t : PidTable) (pid : ℤ) (incr : ℕ) : PidTable :=
  { t with refCount := update t.refCount pid (t.refCount pid + incr) }

def allocPid (t : PidTable) (pgid sid : Option ℤ) : Status ℤ × PidTable :=
  match t.generator.generate with
  | (none, g) => (.error .ENOSPC, { t with generator := g })
  | (some id, g) =>
    let t := { t with generator := g, refCount := update t.refCount id 1 }
    let t := pgid.elim t (t.incRefCountPid · 1)
    (.ok id, sid.elim t (t.incRefCountPid · 1))

def allocNewSession (t : PidTable) : Status ℤ × PidTable :=
  match t.generator.generate with
  | (none, g) => (.error .ENOSPC, { t with generator := g })
  | (some id, g) => (.ok id, { t with generator := g, refCount := update t.refCount id 3 })

def releasePid (t : PidTable) (pid : ℤ) (pgid sid : Option ℤ) : PidTable :=
  let t := t.decRefCountPid pid
  let t := pgid.elim t t.decRefCountPid
  sid.elim t t.decRefCountPid

def acquirePid (t : PidTable) (pid : ℤ) (pgid sid : Option ℤ) : PidTable :=
  let t := { t with generator := t.generator.acquire (pidSize pid) }
  let t := t.incRefCountPid pid 1
  let t := pgid.elim t (t.incRefCountPid · 1)
  sid.elim t (t.incRefCountPid · 1)

end PidTable

/-- The identifiers of a process that has not been destroyed, and of its threads. -/
structure ProcessIds where
  pid : ℤ
  pgid : ℤ
  sid : ℤ
  tids : List ℤ
deriving DecidableEq

namespace ProcessIds

def isSessionLeader (p : ProcessIds) : Bool := p.sid = p.pid
def isProcessGroupLeader (p : ProcessIds) : Bool := p.pgid = p.pid

def uses (p : ProcessIds) : Multiset ℤ :=
  p.pid ::ₘ p.pgid ::ₘ p.sid ::ₘ (p.tids.filter (· ≠ p.pid) : Multiset ℤ)

def becomeSessionLeader (p : ProcessIds) (t : PidTable) : Status ℤ × ProcessIds × PidTable :=
  if p.isProcessGroupLeader then (.error .EPERM, p, t)
  else
    let t := ((t.incRefCountPid p.pid 2).decRefCountPid p.sid).decRefCountPid p.pgid
    (.ok p.pid, { p with sid := p.pid, pgid := p.pid }, t)

def joinProcessGroup (p : ProcessIds) (t : PidTable) (pgid : ℤ) : Status Unit × ProcessIds × PidTable :=
  if p.isProcessGroupLeader then (.error .EPERM, p, t)
  else (.ok (), { p with pgid := pgid }, (t.decRefCountPid p.pgid).incRefCountPid pgid 1)

end ProcessIds

structure PidSystem where
  table : PidTable := {}
  procs : List ProcessIds := []

namespace PidSystem

def inUse (s : PidSystem) : Multiset ℤ := (s.procs.map ProcessIds.uses).sum

inductive Event where
  | createInit (mapped created : Bool)
  | vfork (parent : ℕ) (created : Bool)
  | createThread (proc : ℕ) (created exited : Bool)
  | threadExit (proc : ℕ) (tid : ℤ)
  | reap (proc : ℕ)
  | setsid (proc : ℕ)
  | setpgid (caller target : ℕ) (pgid : ℤ)
  | restore (procs : List ProcessIds)

/-- `CreateInit`: `mapped` says that the memory map is created, `created` that the thread is. -/
def createInit (s : PidSystem) (mapped created : Bool) : PidSystem :=
  match s.table.allocNewSession with
  | (.error _, t) => { s with table := t }
  | (.ok pid, t) =>
    if !mapped then { s with table := t }
    else if !created then { s with table := t.releasePid pid (some pid) (some pid) }
    else { table := t, procs := s.procs ++ [⟨pid, pid, pid, [pid]⟩] }

/-- `CreateProcessVfork` and `CreateThreadMain`. Without a thread the child stays in the parent's list. -/
def createProcessVfork (s : PidSystem) (parent : ProcessIds) (created : Bool) : PidSystem :=
  match s.table.allocPid (some parent.pgid) (some parent.sid) with
  | (.error _, t) => { s with table := t }
  | (.ok pid, t) =>
    { table := t, procs := s.procs ++ [⟨pid, parent.pgid, parent.sid, if created then [pid] else []⟩] }

/-- `CreateThread`: `created` says that there is memory for the thread, `exited` that the process has exited. -/
def createThread (s : PidSystem) (proc : ℕ) (p : ProcessIds) (created exited : Bool) : PidSystem :=
  if !created then s
  else
    match s.table.allocPid none none with
    | (.error _, t) => { s with table := t }
    | (.ok tid, t) =>
      if exited then { s with table := t.releasePid tid none none }
      else { table := t, procs := s.procs.set proc { p with tids := p.tids ++ [tid] } }

/-- `~Thread`. -/
def threadExit (s : PidSystem) (proc : ℕ) (p : ProcessIds) (tid : ℤ) : PidSystem :=
  if tid ∈ p.tids then
    { table := if tid ≠ p.pid then s.table.releasePid tid none none else s.table
      procs := s.procs.set proc { p with tids := p.tids.erase tid } }
  else s

/-- `~Process`, when its threads are gone and it has been reaped. -/
def reap (s : PidSystem) (proc : ℕ) (p : ProcessIds) : PidSystem :=
  if p.tids = [] then
    { table := s.table.releasePid p.pid (some p.pgid) (some p.sid), procs := s.procs.eraseIdx proc }
  else s

/-- `usys_setsid`. -/
def setsid (s : PidSystem) (proc : ℕ) (p : ProcessIds) : PidSystem :=
  if p.isSessionLeader then s
  else
    let (_, p, t) := p.becomeSessionLeader s.table
    { table := t, procs := s.procs.set proc p }

/-- The group that a call of `usys_setpgid` names. -/
def namedGroup (caller : ProcessIds) (pgid : ℤ) : ℤ := if pgid = 0 then caller.pgid else pgid

/-- `usys_setpgid`. -/
def setpgid (s : PidSystem) (target : ℕ) (p : ProcessIds) (pgid : ℤ) : PidSystem :=
  let (_, p, t) := p.joinProcessGroup s.table pgid
  { table := t, procs := s.procs.set target p }

def restoreOne (t : PidTable) (p : ProcessIds) : PidTable :=
  p.tids.foldl (fun t tid => t.acquirePid tid none none) (t.acquirePid p.pid (some p.pgid) (some p.sid))

def step (s : PidSystem) : Event → PidSystem
  | .createInit mapped created => s.createInit mapped created
  | .vfork parent created => s.procs[parent]?.elim s (s.createProcessVfork · created)
  | .createThread proc created exited => s.procs[proc]?.elim s (s.createThread proc · created exited)
  | .threadExit proc tid => s.procs[proc]?.elim s (s.threadExit proc · tid)
  | .reap proc => s.procs[proc]?.elim s (s.reap proc)
  | .setsid proc => s.procs[proc]?.elim s (s.setsid proc)
  | .setpgid caller target pgid =>
    s.procs[caller]?.elim s fun c => s.procs[target]?.elim s fun p => s.setpgid target p (namedGroup c pgid)
  | .restore procs => { table := procs.foldl restoreOne s.table, procs := s.procs ++ procs }

end PidSystem
end Junction

/-! ### The table counts a multiset of identifiers, and its bits are those of a set -/

namespace Junction
open Function Multiset Words

namespace UIDGenerator
variable {n : ℕ} {g g' : UIDGenerator n}

theorem word_lt (g : UIDGenerator n) {bit : ℕ} (h : bit < n) : bit / 64 < g.bits.length := by
  have hcovers := g.covers
  omega

variable {id other : ℕ}

theorem taken_acquireBit {bit : ℕ} (h : bit < n) (hother : 1 ≤ other) :
    (g.acquireBit bit).taken other = (g.taken other || decide (other = bit + 1)) := by
  have hsame : bit = other - 1 ↔ other = bit + 1 := by omega
  rw [← decide_eq_decide.2 hsame]
  exact test_set (g.word_lt h) (other - 1)

theorem bit_of_id (hn : n < 2 ^ 64) (h : 1 ≤ id ∧ id ≤ n) : subWord id 1 = id - 1 ∧ id - 1 < n :=
  ⟨subWord_of_le h.1 (by omega), by omega⟩

theorem taken_acquire (hn : n < 2 ^ 64) (h : 1 ≤ id ∧ id ≤ n) (hother : 1 ≤ other) :
    (g.acquire id).taken other = (g.taken other || decide (other = id)) := by
  obtain ⟨hbit, hlt⟩ := bit_of_id hn h
  have hsame : id - 1 + 1 = id := Nat.sub_add_cancel h.1
  have hacquire : g.acquire id = g.acquireBit (id - 1) := congrArg g.acquireBit hbit
  rw [hacquire, taken_acquireBit hlt hother, hsame]

theorem taken_release (hn : n < 2 ^ 64) (h : 1 ≤ id ∧ id ≤ n) (hother : 1 ≤ other) :
    (g.release id).taken other = (g.taken other && !decide (other = id)) := by
  obtain ⟨hbit, hlt⟩ := bit_of_id hn h
  have hsame : id - 1 = other - 1 ↔ other = id := by omega
  change test (clear g.bits (subWord id 1)) (other - 1) = _
  rw [hbit, ← decide_eq_decide.2 hsame]
  exact test_clear (g.word_lt hlt) (other - 1)

theorem getNext_some (h : g.getNext = (some id, g')) : 1 ≤ id ∧ id ≤ n ∧ g.taken id = false ∧
      ∀ other, 1 ≤ other → g'.taken other = (g.taken other || decide (other = id)) := by
  have hspec := findNext_spec true g.pos g.covers
  unfold getNext at h
  cases hfind : findNext true n g.bits g.pos with
  | none =>
    rw [hfind] at h
    cases h
  | some next =>
    rw [hfind] at h hspec
    obtain ⟨hid, hg⟩ := Prod.mk.inj h
    obtain rfl := Option.some.inj hid
    obtain ⟨-, hlt, hclear, -⟩ := hspec
    have hfree : test g.bits next = false := by simpa using hclear
    refine ⟨by omega, by omega, hfree, fun other hother => ?_⟩
    subst hg
    exact taken_acquireBit hlt hother

theorem getNext_none (h : g.getNext = (none, g')) : g' = g ∧ ∀ bit, g.pos ≤ bit → bit < n → test g.bits bit := by
  have hspec := findNext_spec true g.pos g.covers
  unfold getNext at h
  cases hfind : findNext true n g.bits g.pos with
  | none =>
    rw [hfind] at h hspec
    refine ⟨(Prod.mk.inj h).2.symm, fun bit hpos hlt => ?_⟩
    simpa using hspec bit hpos hlt
  | some next =>
    rw [hfind] at h
    cases h

theorem generate_some (h : g.generate = (some id, g')) : 1 ≤ id ∧ id ≤ n ∧ g.taken id = false ∧
      ∀ other, 1 ≤ other → g'.taken other = (g.taken other || decide (other = id)) := by
  unfold generate at h
  rcases hnext : g.getNext with ⟨found, g₁⟩
  rw [hnext] at h
  cases found with
  | some id' =>
    obtain ⟨hid, rfl⟩ := Prod.mk.inj h
    obtain rfl := Option.some.inj hid
    exact getNext_some hnext
  | none =>
    obtain ⟨rfl, -⟩ := getNext_none hnext
    dsimp only at h
    by_cases hpos : 0 < g₁.pos
    · rw [if_pos hpos] at h
      exact getNext_some (g := { g₁ with pos := 0 }) h
    · rw [if_neg hpos] at h
      cases h

theorem generate_none (h : g.generate = (none, g')) :
    (∀ id, g'.taken id = g.taken id) ∧ ∀ id, 1 ≤ id → id ≤ n → g.taken id := by
  unfold generate at h
  rcases hnext : g.getNext with ⟨found, g₁⟩
  rw [hnext] at h
  cases found with
  | some id' => cases h
  | none =>
    obtain ⟨rfl, hall⟩ := getNext_none hnext
    dsimp only at h
    by_cases hpos : 0 < g₁.pos
    · rw [if_pos hpos] at h
      obtain ⟨rfl, hall'⟩ := getNext_none h
      exact ⟨fun _ => rfl, fun id hid hle => hall' (id - 1) (Nat.zero_le _) (by omega)⟩
    rw [if_neg hpos] at h
    obtain ⟨-, rfl⟩ := Prod.mk.inj h
    exact ⟨fun _ => rfl, fun id hid hle => hall (id - 1) (by omega) (by omega)⟩

theorem getNext_pos (h : g.pos < n) : g.getNext.2.pos < n := by
  unfold getNext
  cases findNext true n g.bits g.pos with
  | none => exact h
  | some next => exact Nat.mod_lt _ (by omega)

theorem generate_pos (h : g.pos < n) : g.generate.2.pos < n := by
  have hnext := getNext_pos h
  unfold generate
  rcases hfound : g.getNext with ⟨_ | id, g₁⟩
  all_goals rw [hfound] at hnext
  · dsimp only
    split_ifs
    · exact getNext_pos (g := { g₁ with pos := 0 }) (by dsimp only; omega)
    · exact hnext
  · exact hnext

theorem covers_fresh (n : ℕ) : n ≤ (List.replicate ((n + 7) / 8) (0 : BitVec 64)).length * 64 := by
  rw [List.length_replicate]
  omega

inductive Call where
  | allocate
  | release (id : ℕ)
  | acquire (id : ℕ)

/-- The identifiers that are out stand beside the generator. -/
structure Owned (n : ℕ) where
  gen : UIDGenerator n
  out : Finset ℕ

namespace Owned
variable (o : Owned n)

def step : Call → Owned n
  | .allocate => ⟨o.gen.generate.2, o.gen.generate.1.elim o.out (insert · o.out)⟩
  | .release id => ⟨o.gen.release id, o.out.erase id⟩
  | .acquire id => ⟨o.gen.acquire id, insert id o.out⟩

def Legal : Call → Prop
  | .allocate => True
  | .release id => id ∈ o.out
  | .acquire id => 1 ≤ id ∧ id ≤ n

def fresh (pos : ℕ) : Owned n := ⟨⟨pos, List.replicate ((n + 7) / 8) 0, covers_fresh n⟩, ∅⟩

structure Sound : Prop where
  range : ∀ id ∈ o.out, 1 ≤ id ∧ id ≤ n
  taken : ∀ id, 1 ≤ id → (o.gen.taken id ↔ id ∈ o.out)

variable {o}

theorem Sound.step (hn : n < 2 ^ 64) {call : Call} (h : o.Sound) (hlegal : o.Legal call) : (o.step call).Sound := by
  cases call with
  | allocate =>
    unfold Owned.step
    rcases hgen : o.gen.generate with ⟨_ | id, g⟩
    · obtain ⟨hsame, -⟩ := generate_none hgen
      exact ⟨h.range, fun id hid => by rw [hsame]; exact h.taken id hid⟩
    obtain ⟨hpos, hle, -, htaken⟩ := generate_some hgen
    refine ⟨Finset.forall_mem_insert _ _ _ |>.2 ⟨⟨hpos, hle⟩, h.range⟩, fun other hother => ?_⟩
    simp [htaken other hother, h.taken other hother, or_comm]
  | release id =>
    refine ⟨fun other hother => h.range other (Finset.mem_of_mem_erase hother), fun other hother => ?_⟩
    simp [Owned.step, taken_release hn (h.range id hlegal) hother, h.taken other hother, and_comm]
  | acquire id =>
    refine ⟨Finset.forall_mem_insert _ _ _ |>.2 ⟨hlegal, h.range⟩, fun other hother => ?_⟩
    simp [Owned.step, taken_acquire hn hlegal hother, h.taken other hother, or_comm]

theorem Sound.generate (h : o.Sound) : (∀ id, o.gen.generate.1 = some id → 1 ≤ id ∧ id ≤ n ∧ id ∉ o.out) ∧
    (o.gen.generate.1 = none → ∀ id, 1 ≤ id → id ≤ n → id ∈ o.out) := by
  rcases hgen : o.gen.generate with ⟨_ | id, g⟩
  · exact ⟨nofun, fun _ id hpos hle => (h.taken id hpos).1 ((generate_none hgen).2 id hpos hle)⟩
  obtain ⟨hpos, hle, hfree, -⟩ := generate_some hgen
  refine ⟨fun _ hid => ?_, nofun⟩
  obtain rfl := Option.some.inj hid
  exact ⟨hpos, hle, fun hout => by simp [(h.taken id hpos).2 hout] at hfree⟩

-- The generator is taken apart first, so that the words of the bits are not compared.
theorem step_pos (o : Owned n) (call : Call) (h : o.gen.pos < n) : (o.step call).gen.pos < n := by
  obtain ⟨⟨pos, bits, covers⟩, out⟩ := o
  cases call with
  | allocate => exact generate_pos h
  | release id => exact h
  | acquire id => exact h

/-- An allocation after any calls, from any cursor. The cursor stays where the search may start. -/
theorem allocates (hn : n < 2 ^ 64) (pos : ℕ) (calls : List Call)
    (ha : Run.Admitted step Legal (fresh pos : Owned n) calls) : let o := Run.exec step (fresh pos : Owned n) calls
    (∀ id, o.gen.generate.1 = some id → 1 ≤ id ∧ id ≤ n ∧ id ∉ o.out) ∧
      (o.gen.generate.1 = none → ∀ id, 1 ≤ id → id ≤ n → id ∈ o.out) ∧ (pos < n → o.gen.pos < n) := by
  have hstart : Sound (fresh pos : Owned n) :=
    ⟨by simp [fresh], fun id _ => by simpa [fresh, UIDGenerator.taken] using test_replicate_zero _ (id - 1)⟩
  obtain ⟨hsome, hnone⟩ := (Run.invariant_exec (fun _ _ h hlegal => h.step hn hlegal) hstart ha).generate
  exact ⟨hsome, hnone, fun hpos => Run.invariant_run step_pos hpos calls⟩

theorem allocates_wrapped :
    let o := Run.exec step (fresh 2 : Owned 3) [.allocate, .acquire 1, .release 3]
    o.gen.generate.1 = some 2 ∧ 2 ∉ o.out ∧ o.gen.pos < 3 := by
  have hout : 3 ∈ (Run.exec step (fresh 2 : Owned 3) [.allocate, .acquire 1]).out := by decide +kernel
  have hmade := allocates (n := 3) (by decide) 2 [.allocate, .acquire 1, .release 3]
    ⟨trivial, ⟨by decide, by decide⟩, hout, trivial⟩
  have hid : (Run.exec step (fresh 2 : Owned 3) [.allocate, .acquire 1, .release 3]).gen.generate.1 =
      some 2 := by decide +kernel
  exact ⟨hid, (hmade.1 2 hid).2.2, hmade.2.2 (by decide)⟩

end Owned

end UIDGenerator

def PidInRange (pid : ℤ) : Prop := 1 ≤ pid ∧ pid ≤ kMaxProcesses

namespace PidTable

def taken (t : PidTable) (pid : ℤ) : Bool := t.generator.taken pid.toNat

/-- The table counts the uses, and its bits are those of the set. -/
structure Counts (t : PidTable) (uses : Multiset ℤ) (bits : Set ℤ) : Prop where
  counted : ∀ pid, t.refCount pid = uses.count pid
  range : ∀ pid ∈ bits, PidInRange pid
  taken : ∀ pid, PidInRange pid → (t.taken pid = true ↔ pid ∈ bits)
  released : ∀ pid ∈ t.released, PidInRange pid

def Exact (t : PidTable) (uses : Multiset ℤ) : Prop := t.Counts uses {pid | pid ∈ uses}

variable {t : PidTable} {uses : Multiset ℤ} {bits : Set ℤ} {pid : ℤ}

theorem pidSize_of_range (h : PidInRange pid) : (1 ≤ pidSize pid ∧ pidSize pid ≤ kMaxProcesses) ∧
    ∀ other, PidInRange other → 1 ≤ other.toNat ∧ (other.toNat = pidSize pid ↔ other = pid) := by
  obtain ⟨hpos, hle⟩ := h
  have hmax : (kMaxProcesses : ℤ) < 2 ^ 64 := by decide
  have hsize : pidSize pid = pid.toNat := by rw [pidSize, Int.emod_eq_of_lt (by omega) (by omega)]
  refine ⟨by omega, fun other hother => ?_⟩
  have hpos' := hother.1
  omega

theorem Counts.inc (h : t.Counts uses bits) (pid : ℤ) : (t.incRefCountPid pid 1).Counts (pid ::ₘ uses) bits := by
  refine { h with counted := fun other => ?_ }
  change update t.refCount pid (t.refCount pid + 1) other = _
  by_cases heq : other = pid
  · rw [heq, update_self, h.counted, count_cons_self]
  · rw [update_of_ne heq, h.counted, count_cons_of_ne heq]

theorem Counts.acquire (h : t.Counts uses bits) (hpid : PidInRange pid) :
    ({ t with generator := t.generator.acquire (pidSize pid) } : PidTable).Counts uses (insert pid bits) := by
  obtain ⟨hsize, hsame⟩ := pidSize_of_range hpid
  refine ⟨h.counted, fun other hother => ?_, fun other hother => ?_, h.released⟩
  · rcases hother with rfl | hother
    · exact hpid
    · exact h.range other hother
  obtain ⟨hone, hsame⟩ := hsame other hother
  change (t.generator.acquire (pidSize pid)).taken other.toNat ↔ _
  rw [UIDGenerator.taken_acquire (by decide) hsize hone, Bool.or_eq_true, decide_eq_true_eq, Set.mem_insert_iff, hsame,
    or_comm]
  exact or_congr_right (h.taken other hother)

theorem Exact.inc (h : t.Exact uses) (hpid : pid ∈ uses) : (t.incRefCountPid pid 1).Exact (pid ::ₘ uses) := by
  have hbits : {other | other ∈ pid ::ₘ uses} = {other | other ∈ uses} := by
    ext other
    simp only [mem_cons, Set.mem_ofPred_eq]
    exact or_iff_right_of_imp fun heq => heq ▸ hpid
  unfold Exact
  rw [hbits]
  exact Counts.inc h pid

theorem Exact.dec (h : t.Exact (pid ::ₘ uses)) : (t.decRefCountPid pid).Exact uses := by
  have hpid : PidInRange pid := h.range pid (mem_cons_self pid uses)
  have hcount : t.refCount pid = uses.count pid + 1 := by rw [h.counted, count_cons_self]
  have hother : ∀ other, other ≠ pid → t.refCount other = uses.count other := by
    intro other hne
    rw [h.counted, count_cons_of_ne hne]
  have hupdate : ∀ other, update t.refCount pid (uses.count pid) other = uses.count other := by
    intro other
    by_cases heq : other = pid
    · rw [heq, update_self]
    · rw [update_of_ne heq]
      exact hother other heq
  have hrange : ∀ other ∈ uses, PidInRange other := fun other hmem =>
    h.range other (mem_cons_of_mem hmem)
  have hnext : (if t.refCount pid = 0 then 2 ^ 64 - 1 else t.refCount pid - 1) = uses.count pid := by
    rw [hcount, if_neg (Nat.succ_ne_zero _), Nat.add_sub_cancel]
  unfold decRefCountPid
  rw [hnext]
  by_cases hlast : uses.count pid = 0
  · have hgone : pid ∉ uses := count_eq_zero.mp hlast
    obtain ⟨hsize, hsame⟩ := pidSize_of_range hpid
    rw [if_pos hlast]
    refine ⟨fun other => hlast ▸ hupdate other, hrange, fun other hin => ?_, fun other hin => ?_⟩
    · obtain ⟨hone, hsame⟩ := hsame other hin
      change (t.generator.release (pidSize pid)).taken other.toNat ↔ _
      rw [UIDGenerator.taken_release (by decide) hsize hone, Bool.and_eq_true, Bool.not_eq_true',
        decide_eq_false_iff_not, hsame]
      change t.taken other ∧ _ ↔ _
      rw [h.taken other hin, Set.mem_ofPred_eq, Set.mem_ofPred_eq, mem_cons]
      constructor
      · exact fun hmem => hmem.1.resolve_left hmem.2
      · exact fun hmem => ⟨.inr hmem, fun heq => hgone (heq ▸ hmem)⟩
    · rcases List.mem_cons.mp hin with rfl | hold
      · exact hpid
      · exact h.released other hold
  · have hmore : pid ∈ uses := count_ne_zero.mp hlast
    rw [if_neg hlast]
    refine ⟨hupdate, hrange, fun other hin => (h.taken other hin).trans ?_, h.released⟩
    simp only [Set.mem_ofPred_eq, mem_cons]
    exact or_iff_right_of_imp fun heq => heq ▸ hmore

theorem Exact.generate (h : t.Exact uses) {id : ℕ} {g : UIDGenerator kMaxProcesses}
    (hgen : t.generator.generate = (some id, g)) (k : ℕ) :
    (id : ℤ) ∉ uses ∧ ({ t with generator := g, refCount := update t.refCount id (k + 1) } : PidTable).Exact
      (replicate (k + 1) (id : ℤ) + uses) := by
  obtain ⟨hpos, hle, hfree, htaken⟩ := UIDGenerator.generate_some hgen
  have hrange : PidInRange id := ⟨by exact_mod_cast hpos, by exact_mod_cast hle⟩
  have hnot : (id : ℤ) ∉ uses := by
    intro hmem
    have hbit := (h.taken id hrange).mpr hmem
    unfold PidTable.taken at hbit
    rw [Int.toNat_natCast, hfree] at hbit
    cases hbit
  have hmem : ∀ other, other ∈ replicate (k + 1) (id : ℤ) + uses ↔ other = id ∨ other ∈ uses := by
    intro other
    rw [mem_add, mem_replicate]
    simp
  refine ⟨hnot, fun other => ?_, fun other hother => ?_, fun other hin => ?_, h.released⟩
  · dsimp only
    rw [count_add]
    by_cases heq : other = id
    · rw [heq, update_self, count_replicate_self, count_eq_zero.mpr hnot]
    · rw [update_of_ne heq, h.counted, count_replicate, if_neg (Ne.symm heq), zero_add]
  · rcases (hmem other).mp hother with rfl | hold
    · exact hrange
    · exact h.range other hold
  have hone : 1 ≤ other.toNat := by
    have hpos' := hin.1
    omega
  change g.taken other.toNat ↔ _
  rw [htaken _ hone, Bool.or_eq_true, decide_eq_true_eq, Set.mem_ofPred_eq, hmem, or_comm]
  refine or_congr ?_ (h.taken other hin)
  omega

theorem Exact.generate_none (h : t.Exact uses) {g : UIDGenerator kMaxProcesses}
    (hgen : t.generator.generate = (none, g)) :
    ({ t with generator := g } : PidTable).Exact uses ∧ ∀ pid, PidInRange pid → pid ∈ uses := by
  obtain ⟨hsame, hall⟩ := UIDGenerator.generate_none hgen
  refine ⟨{ h with taken := fun other hin => ?_ }, fun other hin => (h.taken other hin).mp ?_⟩
  · refine Iff.trans ?_ (h.taken other hin)
    change g.taken other.toNat ↔ t.generator.taken other.toNat
    rw [hsame]
  · obtain ⟨hpos, hle⟩ := hin
    exact hall other.toNat (by omega) (by omega)

end PidTable
end Junction

/-! ### The operations on the table and on a list of processes -/

namespace Junction
open Function List
namespace PidTable
variable {t : PidTable} {uses : Multiset ℤ} {bits : Set ℤ} {pid pgid sid : ℤ}

theorem incRefCountPid_two (t : PidTable) (pid : ℤ) :
    t.incRefCountPid pid 2 = (t.incRefCountPid pid 1).incRefCountPid pid 1 := by
  dsimp only [incRefCountPid]
  rw [update_self, update_idem]

theorem Exact.releaseTid (h : t.Exact (pid ::ₘ uses)) : (t.releasePid pid none none).Exact uses := h.dec

theorem Exact.releaseProcess (h : t.Exact (pid ::ₘ pgid ::ₘ sid ::ₘ uses)) :
    (t.releasePid pid (some pgid) (some sid)).Exact uses := h.dec.dec.dec

theorem Exact.allocTid (h : t.Exact uses) : (∃ e t', t.allocPid none none = (.error e, t') ∧ t'.Exact uses) ∨
    ∃ tid t', t.allocPid none none = (.ok tid, t') ∧ tid ∉ uses ∧ t'.Exact (tid ::ₘ uses) := by
  unfold allocPid
  rcases hgen : t.generator.generate with ⟨found, g⟩
  cases found with
  | none => exact .inl ⟨_, _, rfl, (h.generate_none hgen).1⟩
  | some id =>
    obtain ⟨hnot, hexact⟩ := h.generate hgen 0
    exact .inr ⟨id, _, rfl, hnot, by simpa using hexact⟩

theorem Exact.allocProcess (h : t.Exact uses) (hpgid : pgid ∈ uses) (hsid : sid ∈ uses) :
    (∃ e t', t.allocPid (some pgid) (some sid) = (.error e, t') ∧ t'.Exact uses) ∨
    ∃ pid t', t.allocPid (some pgid) (some sid) = (.ok pid, t') ∧ t'.Exact (sid ::ₘ pgid ::ₘ pid ::ₘ uses) := by
  unfold allocPid
  rcases hgen : t.generator.generate with ⟨found, g⟩
  cases found with
  | none => exact .inl ⟨_, _, rfl, (h.generate_none hgen).1⟩
  | some id =>
    have hexact : ({ t with generator := g, refCount := update t.refCount id 1 } : PidTable).Exact
        ((id : ℤ) ::ₘ uses) := by simpa using (h.generate hgen 0).2
    refine .inr ⟨id, _, rfl, ?_⟩
    exact (hexact.inc (Multiset.mem_cons_of_mem hpgid)).inc (Multiset.mem_cons_of_mem (Multiset.mem_cons_of_mem hsid))

theorem Exact.allocSession (h : t.Exact uses) : (∃ e t', t.allocNewSession = (.error e, t') ∧ t'.Exact uses) ∨
    ∃ pid t', t.allocNewSession = (.ok pid, t') ∧ t'.Exact (pid ::ₘ pid ::ₘ pid ::ₘ uses) := by
  unfold allocNewSession
  rcases hgen : t.generator.generate with ⟨found, g⟩
  cases found with
  | none => exact .inl ⟨_, _, rfl, (h.generate_none hgen).1⟩
  | some id =>
    have hexact := (h.generate hgen 2).2
    refine .inr ⟨id, _, rfl, ?_⟩
    simpa [Multiset.replicate_succ] using hexact

theorem Counts.acquireTids (h : t.Counts uses bits) {tids : List ℤ} (htids : ∀ tid ∈ tids, PidInRange tid) :
    (tids.foldl (fun t tid => t.acquirePid tid none none) t).Counts ((tids : Multiset ℤ) + uses)
      (bits ∪ {tid | tid ∈ tids}) := by
  induction tids generalizing t uses bits with
  | nil => simpa using h
  | cons tid tids ih =>
    have hnext := ih ((h.acquire (htids tid mem_cons_self)).inc tid)
      (fun other hother => htids other (mem_cons_of_mem tid hother))
    have huses : (tids : Multiset ℤ) + tid ::ₘ uses = ((tid :: tids : List ℤ) : Multiset ℤ) + uses := by
      rw [Multiset.add_cons, ← Multiset.cons_coe, Multiset.cons_add]
    have hbits : insert tid bits ∪ {other | other ∈ tids} = bits ∪ {other | other ∈ tid :: tids} := by
      ext other
      simp only [Set.mem_union, Set.mem_insert_iff, Set.mem_ofPred_eq, mem_cons]
      tauto
    rw [← huses, ← hbits]
    exact hnext

end PidTable

namespace PidSystem

variable {i : ℕ} {p : ProcessIds}

def listUses (procs : List ProcessIds) : Multiset ℤ := (procs.map ProcessIds.uses).sum

variable {procs : List ProcessIds}

theorem mem_listUses_iff {pid : ℤ} : pid ∈ listUses procs ↔ ∃ p ∈ procs, pid ∈ p.uses := by
  induction procs with
  | nil => simp [listUses]
  | cons p procs ih =>
    unfold listUses at ih ⊢
    rw [map_cons, sum_cons, Multiset.mem_add, ih]
    simp

theorem listUses_append (procs : List ProcessIds) (p : ProcessIds) :
    listUses (procs ++ [p]) = p.uses + listUses procs := by
  simp [listUses, add_comm]

theorem listUses_of_getElem? (h : procs[i]? = some p) : listUses procs = p.uses + listUses (procs.eraseIdx i) := by
  obtain ⟨hi, rfl⟩ := List.getElem?_eq_some_iff.1 h
  exact ((getElem_cons_eraseIdx_perm hi).map ProcessIds.uses).sum_eq.symm

theorem listUses_set (h : procs[i]? = some p) (p' : ProcessIds) :
    listUses (procs.set i p') = p'.uses + listUses (procs.eraseIdx i) :=
  ((set_perm_cons_eraseIdx (List.getElem?_eq_some_iff.1 h).1 p').map ProcessIds.uses).sum_eq

end PidSystem

namespace ProcessIds

/-- The uses of a process apart from its group and its session. -/
def ownUses (p : ProcessIds) : Multiset ℤ := p.pid ::ₘ (p.tids.filter (· ≠ p.pid) : List ℤ)

theorem uses_eq (p : ProcessIds) : p.uses = p.pgid ::ₘ p.sid ::ₘ p.ownUses := by
  unfold uses ownUses
  rw [Multiset.cons_swap p.pid, Multiset.cons_swap p.pid]

theorem pid_mem_uses (p : ProcessIds) : p.pid ∈ p.uses := Multiset.mem_cons_self ..

theorem pgid_mem_uses (p : ProcessIds) : p.pgid ∈ p.uses := Multiset.mem_cons_of_mem (Multiset.mem_cons_self ..)

theorem sid_mem_uses (p : ProcessIds) : p.sid ∈ p.uses :=
  Multiset.mem_cons_of_mem (Multiset.mem_cons_of_mem (Multiset.mem_cons_self ..))

variable {p : ProcessIds}

theorem mem_uses {pid : ℤ} : pid ∈ p.uses ↔ pid = p.pid ∨ pid = p.pgid ∨ pid = p.sid ∨ pid ∈ p.tids ∧ pid ≠ p.pid := by
  simp [uses]

theorem uses_erase {tid : ℤ} (h : tid ∈ p.tids) :
    p.uses = (if tid ≠ p.pid then {tid} else 0) + ({ p with tids := p.tids.erase tid } : ProcessIds).uses := by
  have hsplit : ((p.tids.filter (· ≠ p.pid) : List ℤ) : Multiset ℤ) =
      (if tid ≠ p.pid then {tid} else 0) + ((p.tids.erase tid).filter (· ≠ p.pid) : List ℤ) := by
    have hcons : (p.tids : Multiset ℤ) = tid ::ₘ (p.tids.erase tid : List ℤ) :=
      (Multiset.cons_erase (Multiset.mem_coe.mpr h)).symm
    rw [← Multiset.filter_coe, ← Multiset.filter_coe, hcons]
    by_cases hmain : tid ≠ p.pid
    · rw [Multiset.filter_cons_of_pos (p := (· ≠ p.pid)) _ hmain, if_pos hmain, Multiset.singleton_add]
    · rw [Multiset.filter_cons_of_neg (p := (· ≠ p.pid)) _ hmain, if_neg hmain, zero_add]
  unfold uses
  rw [hsplit, Multiset.add_cons, Multiset.add_cons, Multiset.add_cons]

theorem uses_append {tid : ℤ} (h : tid ≠ p.pid) :
    ({ p with tids := p.tids ++ [tid] } : ProcessIds).uses = tid ::ₘ p.uses := by
  have hfilter : (p.tids ++ [tid]).filter (· ≠ p.pid) = p.tids.filter (· ≠ p.pid) ++ [tid] := by
    rw [filter_append]
    simp [h]
  have hcoe : ((p.tids.filter (· ≠ p.pid) ++ [tid] : List ℤ) : Multiset ℤ) =
      tid ::ₘ (p.tids.filter (· ≠ p.pid) : List ℤ) := by
    rw [← Multiset.coe_add, Multiset.coe_singleton, add_comm, Multiset.singleton_add]
  unfold uses
  rw [hfilter, hcoe, Multiset.cons_swap p.sid, Multiset.cons_swap p.pgid, Multiset.cons_swap p.pid]

end ProcessIds

end Junction
