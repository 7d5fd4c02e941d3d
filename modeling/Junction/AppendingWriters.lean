import Junction.MemInode

/-!
# Writers that append to one file

A description that is opened with `O_APPEND` starts at the end of the file, and from then on it moves by its own writes
only. A write does not look at the flag, so it goes where the end was when the description last saw it. The bytes of all
writes stay in the file exactly when every write finds its description at the end.
-/

namespace Junction
open Slice List Nat Run

/-- A file, the offsets of its open descriptions, and what the writes so far reported as written. -/
structure AppendFile where
  ino : MemInode
  offs : List ℕ
  written : List (List UInt8)

inductive AppendCall
  | openAppend
  | write (d : ℕ) (data : List UInt8)

namespace AppendFile

variable (s : AppendFile)

def content : List UInt8 := slice s.ino.buf 0 s.ino.size

/-- `usys_open` with `O_APPEND` seeks to the end once. `usys_write` writes at the offset of the description. -/
def step (s : AppendFile) : AppendCall → FileAnswer × AppendFile
  | .openAppend => (.done, { s with offs := s.offs ++ [s.ino.size] })
  | .write d data =>
    match s.offs[d]? with
    | none => (.failed .EBADF, s)
    | some off =>
      match s.ino.write data off with
      | (.wrote n off', ino) => (.wrote n off', ⟨ino, s.offs.set d off', s.written ++ [data.take n]⟩)
      | (answer, ino) => (answer, { s with ino := ino })

/-- No other description has written since this one was opened or last written to. Nothing is asked of a write that has
nothing to write or no room. -/
def AtEnd (s : AppendFile) : AppendCall → Prop
  | .openAppend => True
  | .write d data => ∀ off, s.offs[d]? = some off → off < kMaxSizeBytes → data ≠ [] → off = s.ino.size

/-- The file is what was there at the start, followed by all that was reported as written, in some order. -/
def KeepsAll (s : AppendFile) (start : List UInt8) : Prop :=
  ∃ order : List (List UInt8), order.Perm s.written ∧ s.content = start ++ order.flatten

def Within : Prop := ∀ off ∈ s.offs, off ≤ s.ino.size

def total : ℕ := s.written.flatten.length

theorem next_write_cases (d : ℕ) (data : List UInt8) :
    (next step s (.write d data) = s ∧ ∀ off, s.offs[d]? = some off → kMaxSizeBytes ≤ off) ∨
    ∃ off k, s.offs[d]? = some off ∧ off < kMaxSizeBytes ∧ k ≤ data.length ∧ (data ≠ [] → 0 < k) ∧
      next step s (.write d data) =
        ⟨⟨max s.ino.size (off + k), store s.ino.buf off (data.take k)⟩, s.offs.set d (off + k),
          s.written ++ [data.take k]⟩ := by
  cases hoff : s.offs[d]? with
  | none => exact .inl ⟨by simp only [Run.next, step, hoff], nofun⟩
  | some off =>
    by_cases hroom : off < kMaxSizeBytes
    · refine .inr ⟨off, min data.length (kMaxSizeBytes - off), rfl, hroom, min_le_left _ _, fun hne => ?_, ?_⟩
      · have hpos := length_pos_iff.mpr hne
        omega
      · simp [Run.next, step, hoff, (MemInode.write_eq hroom rfl : s.ino.write data off = _)]
    have hfull : s.ino.write data off = (.failed .ENOSPC, s.ino) := if_pos (not_lt.mp hroom)
    refine .inl ⟨?_, fun off' hoff' => ?_⟩
    · simp [Run.next, step, hoff, hfull]
    · obtain rfl := Option.some.inj hoff'
      exact not_lt.mp hroom

variable {s : AppendFile}

variable (hs : s.Within)
include hs

theorem growth_step (call : AppendCall) : (next step s call).Within ∧
      (next step s call).ino.size + s.total ≤ s.ino.size + (next step s call).total ∧
      (¬s.AtEnd call → (next step s call).ino.size + s.total < s.ino.size + (next step s call).total) := by
  cases call with
  | openAppend =>
    refine ⟨fun off hoff => ?_, le_rfl, fun hnot => absurd trivial hnot⟩
    rcases mem_append.mp hoff with hold | hnew
    · exact hs off hold
    · exact (mem_singleton.mp hnew).le
  | write d data =>
    rcases s.next_write_cases d data with ⟨hsame, hfull⟩ | ⟨off, k, hoff, hroom, hk, hpos, hnext⟩
    · rw [hsame]
      refine ⟨hs, le_rfl, fun hnot => absurd (fun off hoff hroom => ?_) hnot⟩
      exact absurd hroom (not_lt.mpr (hfull off hoff))
    have hle := hs off (mem_of_getElem? hoff)
    have htotal : (s.written ++ [data.take k]).flatten.length = s.written.flatten.length + k := by
      rw [flatten_append, length_append, flatten_singleton, length_take, min_eq_left hk]
    rw [hnext]
    dsimp only [total]
    rw [htotal]
    refine ⟨fun off' hoff' => ?_, by omega, fun hnot => ?_⟩
    · rcases mem_or_eq_of_mem_set hoff' with hold | rfl
      · exact (hs off' hold).trans (le_max_left _ _)
      · exact le_max_right _ _
    have hne : data ≠ [] ∧ off ≠ s.ino.size := by
      constructor
      · intro hnil
        exact hnot fun _ _ _ hdata => absurd hnil hdata
      intro hend
      refine hnot fun off' hoff' _ _ => ?_
      rw [hoff] at hoff'
      exact (Option.some.inj hoff').symm.trans hend
    have hgrow := hpos hne.1
    omega

theorem content_step (call : AppendCall) (hend : s.AtEnd call) {start : List UInt8}
    (hcontent : s.content = start ++ s.written.flatten) :
    (next step s call).content = start ++ (next step s call).written.flatten := by
  cases call with
  | openAppend => exact hcontent
  | write d data =>
    rcases s.next_write_cases d data with ⟨hsame, -⟩ | ⟨off, k, hoff, hroom, hk, hpos, hnext⟩
    · rw [hsame]
      exact hcontent
    have hle := hs off (mem_of_getElem? hoff)
    have hlen : (data.take k).length = k := by rw [length_take, min_eq_left hk]
    rw [hnext]
    rw [flatten_append, flatten_singleton, ← append_assoc, ← hcontent]
    unfold content
    by_cases hdata : data = []
    · subst hdata
      obtain rfl : k = 0 := le_zero.mp hk
      rw [max_eq_left (by omega), take_nil, append_nil]
      exact slice_congr fun i _ _ => by simp [store]
    obtain rfl := hend off hoff hroom hdata
    have hmid := slice_store s.ino.buf s.ino.size (data.take k)
    rw [hlen] at hmid
    rw [max_eq_right (le_add_right _ _), slice_add, zero_add, hmid]
    congr 1
    exact slice_congr fun i _ hi => store_of_lt _ (by omega)

theorem growth_exec (calls : List AppendCall) : (exec (next step) s calls).ino.size + s.total ≤
        s.ino.size + (exec (next step) s calls).total ∧
      (¬Run.Admitted (next step) AtEnd s calls → (exec (next step) s calls).ino.size + s.total <
          s.ino.size + (exec (next step) s calls).total) := by
  induction calls generalizing s with
  | nil => exact ⟨le_rfl, fun hnot => absurd trivial hnot⟩
  | cons call calls ih =>
    obtain ⟨hwithin, hle, hlt⟩ := growth_step hs call
    obtain ⟨hrest, hstrict⟩ := ih hwithin
    rw [exec_cons]
    refine ⟨by omega, fun hnot => ?_⟩
    by_cases hend : s.AtEnd call
    · have hlater := hstrict fun hadmitted => hnot ⟨hend, hadmitted⟩
      omega
    · have hnow := hlt hend
      omega

theorem content_exec {start : List UInt8} (hcontent : s.content = start ++ s.written.flatten) {calls : List AppendCall}
    (hend : Run.Admitted (next step) AtEnd s calls) : (exec (next step) s calls).content =
      start ++ (exec (next step) s calls).written.flatten := by
  have hstep : ∀ (s : AppendFile) (call : AppendCall),
      s.Within ∧ s.content = start ++ s.written.flatten → s.AtEnd call → (next step s call).Within ∧
          (next step s call).content = start ++ (next step s call).written.flatten :=
    fun s call hs hend => ⟨(growth_step hs.1 call).1, content_step hs.1 call hend hs.2⟩
  exact (invariant_exec hstep ⟨hs, hcontent⟩ hend).2

end AppendFile

/-- All that was reported as written is in the file behind what was there at the start, in some order, exactly when every
write was made at the end of the file. -/
theorem appends_kept_iff (ino : MemInode) (calls : List AppendCall) :
    (exec (next AppendFile.step) ⟨ino, [], []⟩ calls).KeepsAll (slice ino.buf 0 ino.size) ↔
      Run.Admitted (next AppendFile.step) AppendFile.AtEnd ⟨ino, [], []⟩ calls := by
  have hwithin : AppendFile.Within ⟨ino, [], []⟩ := by
    intro off hoff
    cases hoff
  constructor
  · rintro ⟨order, hperm, hcontent⟩
    by_contra hnot
    have hlost := (AppendFile.growth_exec hwithin calls).2 hnot
    have hlen := congrArg length hcontent
    rw [AppendFile.content, length_slice, length_append, length_slice, hperm.flatten.length_eq] at hlen
    have hzero : AppendFile.total ⟨ino, [], []⟩ = 0 := rfl
    rw [hzero, AppendFile.total] at hlost
    dsimp only at hlost
    omega
  · intro hend
    refine ⟨_, List.Perm.refl _, AppendFile.content_exec hwithin ?_ hend⟩
    exact (append_nil _).symm

/-- Two descriptions of an empty file write one byte each. The second write replaces the byte of the first. -/
theorem append_overwrites :
    let s := exec (next AppendFile.step) ⟨⟨0, fun _ => 0⟩, [], []⟩
      [.openAppend, .openAppend, .write 0 [1], .write 1 [2]]
    s.written = [[1], [2]] ∧ s.content = [2] ∧ ¬s.KeepsAll [] := by
  intro s
  have hwritten : s.written = [[1], [2]] := by decide
  have hcontent : s.content = [2] := by decide
  refine ⟨hwritten, hcontent, ?_⟩
  rintro ⟨order, hperm, heq⟩
  have hlen := congrArg length heq
  rw [hcontent, nil_append, hperm.flatten.length_eq, hwritten] at hlen
  exact absurd hlen (by decide)

end Junction
