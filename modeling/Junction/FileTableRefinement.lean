import Junction.FileTable
import Junction.Library.Run

/-!
# The file table refines the descriptor map

Every operation keeps the invariant of the table and acts on the map that the table stands for as the
operation of the map. `InsertAt` does so at a descriptor that is not negative and whose successor is
an `int`, and only where the new binding asks for the flag or the old one does not have it: a flag
that is set stays set. `Insert` does so where an unbound `int` is left from the lowest number on.
The system calls and `fork` follow, and with them every run of a group of processes.
-/

namespace Junction.FileTable
open List FdMap CInt Option

/-- Some `int` from `lowest` on is unbound. -/
def FreeFrom (t : FileTable) (lowest : ℕ) : Prop := ∃ n : CInt, lowest ≤ n.1 ∧ t.get n = none

/-- A descriptor that `InsertAt` can bind with just the given flag. -/
def Replaceable (t : FileTable) (fd : CInt) (cloexec : Bool) : Prop :=
  0 ≤ fd.1 ∧ fd.1 < 2 ^ 31 - 1 ∧
    (cloexec = true ∨ t.get fd = none ∨ t.testCloseOnExec fd = false)

namespace Inv
variable {t : FileTable} (h : t.Inv)
include h

theorem insert_slot (lowest : ℕ) :
    ∃ i, lowest ≤ i ∧ t.farr.slot i = none ∧ (∀ j, lowest ≤ j → j < i → t.farr.slot j ≠ none) ∧
      (t.findSlot lowest = some i ∧ i < t.farr.len ∨ t.findSlot lowest = none ∧ i = max lowest t.farr.len) := by
  cases hfind : t.findSlot lowest with
  | some i =>
    obtain ⟨hi, hmem, hbefore⟩ := find?_range'_eq_some.1 hfind
    rw [mem_range'_1] at hmem
    refine ⟨i, hmem.1, by simpa using hi, fun j hlo hlt => ?_, .inl ⟨rfl, by omega⟩⟩
    simpa [isSome_iff_ne_none] using hbefore j hlo hlt
  | none =>
    have hall := find?_eq_none.1 hfind
    refine ⟨max lowest t.farr.len, le_max_left _ _, h.slot_above _ (le_max_right _ _),
      fun j hlo hlt => ?_, .inr ⟨rfl, rfl⟩⟩
    have hmem : j ∈ range' lowest (t.farr.len - lowest) := by
      rw [mem_range'_1]
      omega
    simpa using hall j hmem

theorem insert (f : FileRef) (cloexec : Bool) {lowest : ℕ} (hfree : t.FreeFrom lowest) :
    (t.insert f cloexec lowest).1 = (t.toMap.insert f cloexec lowest).1 ∧
      (t.insert f cloexec lowest).2.Inv ∧
      (t.insert f cloexec lowest).2.toMap = (t.toMap.insert f cloexec lowest).2 := by
  obtain ⟨i, hlo, hnone, hbefore, hcase⟩ := h.insert_slot lowest
  have hleast : t.toMap.leastFree lowest = i := FdMap.leastFree_eq hlo ((binding_toMap_eq_none_iff t i).2 hnone)
      fun j hj hlt => (binding_toMap_eq_none_iff t j).not.2 (hbefore j hj hlt)
  have hint : i < 2 ^ 31 := by
    obtain ⟨n, hn, hget⟩ := hfree
    have hnat := toSize_of_nonneg (by omega : 0 ≤ n.1)
    rw [h.get_eq] at hget
    by_contra hge
    exact hbefore n.toSize (by omega) (by omega) hget
  have hwrap : (wrap i).1 = i := wrap_of_mem (by omega) (by omega)
  simp only [FdMap.insert, hleast, FileTable.insert]
  rcases hcase with ⟨hfind, hlen⟩ | ⟨hfind, hi⟩
  · simp only [hfind]
    exact ⟨hwrap, h.put hlen f (.inr (h.flag_clear hnone))⟩
  simp only [hfind, ← hi]
  have hadd : addWord i 1 = i + 1 := addWord_of_lt (by omega)
  rw [hadd]
  obtain ⟨hinv, hmap, hlen⟩ := h.resize (by omega : t.farr.len ≤ i + 1) (by omega)
  have hnone' : (t.resize (i + 1)).farr.slot i = none := by
    rw [← binding_toMap_eq_none_iff, hmap, binding_toMap_eq_none_iff]
    exact hnone
  have hput := hinv.put (by omega : i < (t.resize (i + 1)).farr.len) f (.inr (hinv.flag_clear hnone') : cloexec ∨ _)
  rw [hmap] at hput
  exact ⟨hwrap, hput⟩

variable {fd : CInt}

theorem insertAt (f : FileRef) {cloexec : Bool} (hfd : t.Replaceable fd cloexec) : (t.insertAt fd f cloexec).Inv ∧
      (t.insertAt fd f cloexec).toMap = t.toMap.insertAt fd f cloexec := by
  obtain ⟨hnonneg, hmax, hflag⟩ := hfd
  have hsize := toSize_of_nonneg hnonneg
  have hclear : cloexec ∨ t.closeOnExec.test fd.toSize = false := by
    rcases hflag with hset | hnone | hclear
    · exact .inl hset
    · exact .inr (h.flag_clear (h.get_eq fd ▸ hnone))
    · exact .inr hclear
  have hspec : t.toMap.insertAt fd f cloexec = t.toMap.set fd.toSize (some (f, cloexec)) := by
    rw [FdMap.insertAt, if_neg (by omega), hsize]
  rw [hspec]
  unfold FileTable.insertAt
  split_ifs with hlen
  · have hwrap : (wrap (fd.1 + 1)).1 = fd.1 + 1 := wrap_of_mem (by omega) (by omega)
    have harg : (wrap (fd.1 + 1)).toSize = fd.toSize + 1 := by
      rw [toSize_of_nonneg (by omega), hwrap, hsize]
      omega
    rw [harg]
    obtain ⟨hinv, hmap, hlen'⟩ := h.resize (by omega : t.farr.len ≤ fd.toSize + 1) (by omega)
    have hnone : (t.resize (fd.toSize + 1)).farr.slot fd.toSize = none := by
      rw [← binding_toMap_eq_none_iff, hmap, binding_toMap_eq_none_iff]
      exact h.slot_above _ hlen
    have hput := hinv.put (by omega : fd.toSize < (t.resize (fd.toSize + 1)).farr.len) f
      (.inr (hinv.flag_clear hnone) : cloexec ∨ _)
    rwa [hmap] at hput
  · exact h.put (by omega) f hclear

variable {i : ℕ}

theorem close (hi : t.farr.slot i ≠ none) : (t.close i).Inv ∧ (t.close i).toMap = t.toMap.set i none := by
  have hlen := h.lt_len hi
  have hslot : ∀ j, (t.close i).farr.slot j = if j = i then none else t.farr.slot j := FileArray.slot_setSlot_none i
  have htest : ∀ j, (t.close i).closeOnExec.test j = if j = i then false
      else t.closeOnExec.test j := by
    intro j
    rw [show (t.close i).closeOnExec.test j = _ from DynamicBitmap.test_clear (h.lt_size hlen) j]
    by_cases hj : j = i
    · simp [hj]
    · simp [hj, Ne.symm hj]
  refine ⟨⟨h.len_le_cap, (length_set ..).trans h.files_length, h.cap_le_size, h.len_le,
    fun j hj => ?_, fun j hj => ?_⟩, ?_⟩
  · rw [hslot]
    split_ifs
    · rfl
    · exact h.slot_above j hj
  · rw [htest] at hj
    rw [hslot]
    split_ifs at hj ⊢
    exact h.flag_bound j hj
  ext j : 1
  rw [binding_toMap, binding_set, hslot, htest]
  split_ifs <;> rfl

theorem nonneg_of_slot (hfd : t.farr.slot fd.toSize ≠ none) : 0 ≤ fd.1 := by
  by_contra hneg
  exact hfd (h.slot_of_neg (by omega))

theorem remove (fd : CInt) : (t.remove fd).1 = (t.toMap.remove fd).1 ∧ (t.remove fd).2.Inv ∧
      (t.remove fd).2.toMap = (t.toMap.remove fd).2 := by
  unfold FileTable.remove FdMap.remove
  rw [h.lookup_toMap]
  cases hfile : t.farr.slot fd.toSize with
  | none =>
    simp only [isNone_none, if_true, ite_self, map_none]
    exact ⟨trivial, h, trivial⟩
  | some f =>
    have hne : t.farr.slot fd.toSize ≠ none := by simp [hfile]
    have hlen : ¬t.farr.len ≤ fd.toSize := Nat.not_le.2 (h.lt_len hne)
    have hnonneg := h.nonneg_of_slot hne
    rw [if_neg hlen]
    simp only [isNone_some, Bool.false_eq_true, if_false, map_some, ← toSize_of_nonneg hnonneg]
    exact ⟨trivial, h.close hne⟩

theorem setBit (hi : t.farr.slot i ≠ none) {b : DynamicBitmap} {flag : Bool}
    (hsize : b.size = t.closeOnExec.size) (htest : ∀ j, b.test j = if j = i then flag else t.closeOnExec.test j) :
    (⟨t.farr, b⟩ : FileTable).Inv ∧ (⟨t.farr, b⟩ : FileTable).toMap = t.toMap.flagAt i flag := by
  refine ⟨{ h with cap_le_size := hsize ▸ h.cap_le_size, flag_bound := fun j hj => ?_ }, ?_⟩
  · by_cases hji : j = i
    · exact hji ▸ hi
    · exact h.flag_bound j (by simpa [htest, hji] using hj)
  ext j : 1
  simp only [binding_toMap, flagAt, htest]
  split_ifs with hj
  · cases t.farr.slot j <;> rfl
  · rfl

theorem flag_set (hi : t.farr.slot i ≠ none) : (⟨t.farr, t.closeOnExec.set i⟩ : FileTable).Inv ∧
      (⟨t.farr, t.closeOnExec.set i⟩ : FileTable).toMap = t.toMap.flagAt i true := by
  refine h.setBit hi rfl fun j => ?_
  rw [DynamicBitmap.test_set (h.lt_size (h.lt_len hi))]
  by_cases hj : j = i
  · simp [hj]
  · simp [hj, Ne.symm hj]

variable {f : FileRef}

theorem setCloseOnExec (hf : t.get fd = some f) :
    (t.setCloseOnExec fd).Inv ∧ (t.setCloseOnExec fd).toMap = t.toMap.setFlag fd true := by
  have hne : t.farr.slot fd.toSize ≠ none := by simp [← h.get_eq, hf]
  have hnonneg := h.nonneg_of_slot hne
  rw [setFlag, if_neg (by omega), ← toSize_of_nonneg hnonneg]
  exact h.flag_set hne

theorem clearCloseOnExec (hf : t.get fd = some f) :
    (t.clearCloseOnExec fd).Inv ∧ (t.clearCloseOnExec fd).toMap = t.toMap.setFlag fd false := by
  have hne : t.farr.slot fd.toSize ≠ none := by simp [← h.get_eq, hf]
  have hnonneg := h.nonneg_of_slot hne
  rw [setFlag, if_neg (by omega), ← toSize_of_nonneg hnonneg]
  refine h.setBit hne rfl fun j => ?_
  rw [DynamicBitmap.test_clear (h.lt_size (h.lt_len hne))]
  by_cases hj : j = fd.toSize
  · simp [hj]
  · simp [hj, Ne.symm hj]

theorem foldl_flagIfBound (is : List ℕ) : (is.foldl flagIfBound t).Inv ∧ ∀ j, (is.foldl flagIfBound t).toMap.binding j =
      if j ∈ is then (t.toMap.binding j).map fun b => (b.1, true) else t.toMap.binding j := by
  induction is generalizing t with
  | nil => exact ⟨h, fun j => rfl⟩
  | cons i is ih =>
    have hstep : (t.flagIfBound i).Inv ∧ (t.flagIfBound i).toMap = t.toMap.flagAt i true := by
      unfold flagIfBound
      cases hi : t.farr.slot i with
      | none =>
        refine ⟨h, ext fun j => ?_⟩
        simp only [flagAt, isNone_none, if_true]
        split_ifs with hj
        · rw [hj, (binding_toMap_eq_none_iff t i).2 hi]
          rfl
        · rfl
      | some f => exact h.flag_set (by simp [hi])
    obtain ⟨hinv, hmap⟩ := ih hstep.1
    refine ⟨hinv, fun j => (hmap j).trans ?_⟩
    simp only [hstep.2, flagAt, mem_cons]
    by_cases hji : j = i
    · subst hji
      cases t.toMap.binding j <;> simp
    · simp [hji]

theorem foldl_closeIfBound (is : List ℕ) :
    (is.foldl closeIfBound t).Inv ∧ ∀ j, (is.foldl closeIfBound t).toMap.binding j =
      if j ∈ is then none else t.toMap.binding j := by
  induction is generalizing t with
  | nil => exact ⟨h, fun j => rfl⟩
  | cons i is ih =>
    have hstep : (t.closeIfBound i).Inv ∧ (t.closeIfBound i).toMap = t.toMap.set i none := by
      unfold closeIfBound
      cases hi : t.farr.slot i with
      | none =>
        refine ⟨h, ext fun j => ?_⟩
        simp only [binding_set, isNone_none, if_true]
        split_ifs with hj
        · rw [hj, (binding_toMap_eq_none_iff t i).2 hi]
        · rfl
      | some f => exact h.close (by simp [hi])
    obtain ⟨hinv, hmap⟩ := ih hstep.1
    refine ⟨hinv, fun j => (hmap j).trans ?_⟩
    simp only [hstep.2, binding_set, mem_cons]
    by_cases hji : j = i <;> simp [hji]

/-- Without a slot in use the unsigned `len - 1` of the source wraps. -/
theorem setCloseOnExecRange (low high : ℕ) (hlen : t.farr.len ≠ 0) :
    (t.setCloseOnExecRange low high).Inv ∧ ∀ j, (t.setCloseOnExecRange low high).toMap.binding j =
      if low ≤ j ∧ j ≤ high then (t.toMap.binding j).map fun b => (b.1, true)
      else t.toMap.binding j := by
  have hmax := h.len_le
  have hpred : subWord t.farr.len 1 = t.farr.len - 1 := subWord_of_le (by omega) (by omega)
  simp only [FileTable.setCloseOnExecRange, hpred]
  obtain ⟨hinv, hbinding⟩ := h.foldl_flagIfBound (range' low (min high (t.farr.len - 1) + 1 - low))
  refine ⟨hinv, fun j => (hbinding j).trans ?_⟩
  by_cases hj : j < t.farr.len
  · refine if_congr ?_ rfl rfl
    rw [mem_range'_1]
    omega
  · rw [(binding_toMap_eq_none_iff t j).2 (h.slot_above j (by omega))]
    split_ifs <;> rfl

/-- From the number of slots in use on, `RemoveRange` reserves a negative size. -/
theorem removeRange {low high : CInt} (hlow : 0 ≤ low.1) (hle : low.1 ≤ high.1) (hlen : low.1 ≤ (wrap t.farr.len).1) :
    ∃ t', t.removeRange low high = some t' ∧ t'.Inv ∧ ∀ j : ℕ, t'.toMap.binding j =
        if low.1 ≤ j ∧ (j : ℤ) ≤ high.1 then none else t.toMap.binding j := by
  have hmax := h.len_le
  have hwrap : (wrap t.farr.len).1 = t.farr.len := by
    by_cases hfull : t.farr.len = 2 ^ 31
    · rw [hfull] at hlen
      have : (wrap ((2 ^ 31 : ℕ) : ℤ)).1 < 0 := by decide
      omega
    · exact wrap_of_mem (by omega) (by omega)
  simp only [FileTable.removeRange, hwrap]
  rw [if_neg (by omega)]
  obtain ⟨hinv, hbinding⟩ := h.foldl_closeIfBound (range' low.1.toNat (min high.1 (t.farr.len - 1) - low.1 + 1).toNat)
  refine ⟨_, rfl, hinv, fun j => (hbinding j).trans ?_⟩
  by_cases hj : j < t.farr.len
  · refine if_congr ?_ rfl rfl
    rw [mem_range'_1]
    omega
  · rw [(binding_toMap_eq_none_iff t j).2 (h.slot_above j (by omega))]
    split_ifs <;> rfl

theorem doCloseOnExec : t.doCloseOnExec.Inv ∧ t.doCloseOnExec.toMap = t.toMap.doCloseOnExec := by
  obtain ⟨hlen, hcap, hfiles⟩ := FileArray.foldl_setSlot_none_fields t.closeOnExec.forEachSetBit
  have hslot : ∀ j, t.doCloseOnExec.farr.slot j =
      if t.closeOnExec.test j then none else t.farr.slot j := by
    intro j
    have hmem : j ∈ t.closeOnExec.forEachSetBit ↔ t.closeOnExec.test j := by
      rw [DynamicBitmap.mem_forEachSetBit]
      exact ⟨And.right, fun hj => ⟨h.lt_size (h.lt_len (h.flag_bound j hj)), hj⟩⟩
    simp [FileTable.doCloseOnExec, FileArray.slot_foldl_setSlot_none, hmem]
  have htest : ∀ j, t.doCloseOnExec.closeOnExec.test j = false := DynamicBitmap.test_clearAll t.closeOnExec
  refine ⟨⟨?_, ?_, ?_, ?_, fun j hj => ?_, fun j hj => ?_⟩, ?_⟩
  · exact hlen.le.trans (h.len_le_cap.trans hcap.ge)
  · exact hfiles.trans (h.files_length.trans hcap.symm)
  · exact hcap.le.trans h.cap_le_size
  · exact hlen.le.trans h.len_le
  · rw [hslot]
    split_ifs
    · rfl
    · exact h.slot_above j (hlen.symm.le.trans hj)
  · rw [htest] at hj
    exact absurd hj (by decide)
  ext j : 1
  simp only [FdMap.doCloseOnExec, binding_toMap, hslot, htest]
  cases hset : t.closeOnExec.test j with
  | true | false => cases t.farr.slot j <;> rfl

theorem copy : t.copy.Inv ∧ t.copy.toMap = t.toMap := by
  have hcap := h.len_le_cap
  have hfiles := h.files_length
  have hslot : ∀ j, t.copy.farr.slot j = t.farr.slot j := by
    intro j
    rw [show t.copy.farr.slot j = _ from FileArray.slot_copy (by omega) t.farr.len j]
    split_ifs with hj
    · rfl
    · exact (h.slot_above j (by omega)).symm
  refine ⟨⟨le_refl _, ?_, ?_, h.len_le, fun j hj => ?_, fun j hj => ?_⟩, ?_⟩
  · simp only [FileTable.copy, FileArray.copy, length_append, length_take, length_replicate]
    omega
  · exact hcap.trans h.cap_le_size
  · rw [hslot]
    exact h.slot_above j hj
  · rw [hslot]
    exact h.flag_bound j hj
  ext j : 1
  simp only [binding_toMap, hslot]
  rfl

theorem get_toMap (fd : CInt) : DescriptorTable.get t.toMap fd = t.get fd := by
  change (t.toMap.lookup fd).map Prod.fst = t.get fd
  rw [h.lookup_toMap, h.get_eq]
  cases t.farr.slot fd.toSize <;> rfl

theorem testCloseOnExec_toMap (hf : t.get fd = some f) :
    DescriptorTable.testCloseOnExec t.toMap fd = t.testCloseOnExec fd := by
  change ((t.toMap.lookup fd).map Prod.snd).getD false = t.closeOnExec.test fd.toSize
  rw [h.lookup_toMap, ← h.get_eq, hf]
  rfl

end Inv

/-!
### Ranges of descriptors

The room that `RemoveRange` reserves is negative for a range that starts more than one slot above the last one in use.
`SetCloseOnExecRange` computes the last slot in use without a sign.
-/

open List

/-- The slots that the loop of `SetCloseOnExecRange` reads. -/
def flagReads (t : FileTable) (low high : ℕ) : List ℕ :=
  range' low (min high (subWord t.farr.len 1) + 1 - low)

/-- The bound descriptors of the range are closed and their flags cleared. All others stay as they are. -/
def RemovesExactly (t : FileTable) (first last : CInt) : Prop :=
  ∃ t', t.removeRange first last = some t' ∧
    (∀ j : ℕ, t'.toMap.binding j = if first.1 ≤ j ∧ (j : ℤ) ≤ last.1 then none else t.toMap.binding j) ∧
    ∀ j : ℕ, first.1 ≤ j → (j : ℤ) ≤ last.1 → t'.closeOnExec.test j = false

/-- The bound descriptors of the range are flagged. All others stay as they are, and so does every file. -/
def FlagsExactly (t : FileTable) (first last : CInt) : Prop :=
  (∀ i ∈ t.flagReads first.toSize last.toSize, i < t.farr.cap) ∧
    ∀ j : ℕ, (t.setCloseOnExecRange first.toSize last.toSize).toMap.binding j =
      if first.1 ≤ j ∧ (j : ℤ) ≤ last.1 then (t.toMap.binding j).map fun b => (b.1, true) else t.toMap.binding j

namespace Inv
variable {t : FileTable} (h : t.Inv) {first last : CInt}
include h

theorem removesExactly_iff (hfirst : 0 ≤ first.1) (hle : first.1 ≤ last.1) :
    t.RemovesExactly first last ↔ first.1 ≤ (CInt.wrap t.farr.len).1 := by
  constructor
  · rintro ⟨t', hremove, -⟩
    by_contra hlt
    have hnone : t.removeRange first last = none := by
      dsimp only [FileTable.removeRange]
      rw [if_pos (by omega)]
    rw [hnone] at hremove
    cases hremove
  · intro hlen
    obtain ⟨t', hremove, hinv, hbinding⟩ := h.removeRange hfirst hle hlen
    refine ⟨t', hremove, hbinding, fun j hlo hhi => hinv.flag_clear ?_⟩
    rw [← binding_toMap_eq_none_iff, hbinding, if_pos ⟨hlo, hhi⟩]

theorem binding_setCloseOnExecRange_of_empty (hlen : t.farr.len = 0) (low high j : ℕ) :
    (t.setCloseOnExecRange low high).toMap.binding j = none := by
  have hnone : t.toMap.binding j = none := (binding_toMap_eq_none_iff t j).mpr (h.slot_above j (by omega))
  obtain ⟨-, hbinding⟩ := h.foldl_flagIfBound (range' low (min high (subWord t.farr.len 1) + 1 - low))
  refine (hbinding j).trans ?_
  rw [hnone]
  exact ite_self none

theorem flagsExactly_iff (hfirst : 0 ≤ first.1) (hle : first.1 ≤ last.1) :
    t.FlagsExactly first last ↔ (t.farr.len = 0 → last.1 < t.farr.cap) := by
  have hlow := CInt.toSize_of_nonneg hfirst
  have hhigh := CInt.toSize_of_nonneg (hfirst.trans hle)
  have hmax := h.len_le
  have hcap := h.len_le_cap
  by_cases hlen : t.farr.len = 0
  · -- the unsigned predecessor of zero is above every `int`
    have hwrap : subWord t.farr.len 1 = 2 ^ 64 - 1 := by
      rw [hlen]
      rfl
    have hreads : t.flagReads first.toSize last.toSize = range' first.toSize (last.toSize + 1 - first.toSize) := by
      have hint := last.2
      rw [flagReads, hwrap, min_eq_left (by omega)]
    constructor
    · rintro ⟨hin, -⟩ -
      have hlast := hin last.toSize (by rw [hreads, mem_range'_1]; omega)
      omega
    intro hlast
    refine ⟨fun i hi => ?_, fun j => ?_⟩
    · rw [hreads, mem_range'_1] at hi
      have hbound := hlast hlen
      omega
    rw [h.binding_setCloseOnExecRange_of_empty hlen,
      (binding_toMap_eq_none_iff t j).mpr (h.slot_above j (by omega))]
    exact (ite_self none).symm
  · refine iff_of_true ⟨fun i hi => ?_, fun j => ?_⟩ fun hzero => absurd hzero hlen
    · have hpred : subWord t.farr.len 1 = t.farr.len - 1 := subWord_of_le (by omega) (by omega)
      rw [flagReads, hpred, mem_range'_1] at hi
      omega
    obtain ⟨-, hbinding⟩ := h.setCloseOnExecRange first.toSize last.toSize hlen
    rw [hbinding]
    exact if_congr (by omega) rfl rfl

end Inv

/-- Ranges of descriptors are closed and flagged exactly, if they start at most one slot above the last one in use, and if
a table without a slot in use has slots for the whole range. -/
theorem closeRange_exact_iff (t : FileTable) (first last : CInt) (h : t.Inv) (hfirst : 0 ≤ first.1)
    (hle : first.1 ≤ last.1) : t.RemovesExactly first last ∧ t.FlagsExactly first last ↔
      first.1 ≤ (CInt.wrap t.farr.len).1 ∧ (t.farr.len = 0 → last.1 < t.farr.cap) := by
  rw [h.removesExactly_iff hfirst hle, h.flagsExactly_iff hfirst hle]

def oneFile : FileTable := (empty.insert 7 true 0).2

theorem inv_oneFile : oneFile.Inv := (inv_empty.insert 7 true ⟨⟨0, by decide⟩, by decide, by decide⟩).2.1

theorem closeRange_exact_oneFile :
    oneFile.RemovesExactly ⟨0, by decide⟩ ⟨5, by decide⟩ ∧ oneFile.FlagsExactly ⟨0, by decide⟩ ⟨5, by decide⟩ :=
  (closeRange_exact_iff oneFile ⟨0, by decide⟩ ⟨5, by decide⟩ inv_oneFile (by decide) (by decide)).mpr
    ⟨by decide, fun hzero => absurd hzero (by decide)⟩

theorem closeRange_throws : oneFile.Inv ∧ oneFile.removeRange ⟨2, by decide⟩ ⟨5, by decide⟩ = none ∧
    ¬oneFile.RemovesExactly ⟨2, by decide⟩ ⟨5, by decide⟩ := by
  have hnone : oneFile.removeRange ⟨2, by decide⟩ ⟨5, by decide⟩ = none := rfl
  refine ⟨inv_oneFile, hnone, ?_⟩
  rintro ⟨t', hremove, -⟩
  rw [hnone] at hremove
  cases hremove

end Junction.FileTable

/-! ### Runs of descriptor system calls answer as on descriptor maps -/

namespace Junction
open FileTable List Option Run

/-- The table can do what the map does: a call that duplicates into a given descriptor finds it
replaceable, and a call that binds a new one finds an unbound `int`. -/
def TableCall.Safe (t : FileTable) : TableCall → Prop
  | .dup oldfd => t.get oldfd = none ∨ t.FreeFrom 0
  | .dup2 oldfd newfd => oldfd = newfd ∨ t.get oldfd = none ∨ t.Replaceable newfd false
  | .dup3 oldfd newfd flags =>
    oldfd = newfd ∨ t.get oldfd = none ∨ t.Replaceable newfd (wantsCloseExec flags)
  | .fcntl fd cmd arg =>
    t.get fd = none ∨ cmd = .F_GETFD ∨ cmd = .F_SETFD ∨ t.FreeFrom arg.toNat
  | .insert _ _ lowest => t.FreeFrom lowest.toNat
  | .close _ | .doCloseOnExec => True

def ProcessCall.Safe (ts : List FileTable) : ProcessCall → Prop
  | .on p call => ∀ t, ts[p]? = some t → call.Safe t
  | .fork _ => True

/-- A call on a table answers as on its map, and leaves a table of the resulting map. -/
def Agrees (r : ℤ × FileTable) (r' : ℤ × FdMap) : Prop :=
  r.1 = r'.1 ∧ r.2.Inv ∧ r.2.toMap = r'.2

section Calls
variable {t : FileTable} (h : t.Inv)
include h

theorem usysDup_agrees {oldfd : CInt} (hsafe : t.get oldfd = none ∨ t.FreeFrom 0) :
    Agrees (usysDup t oldfd) (usysDup t.toMap oldfd) := by
  unfold usysDup
  rw [h.get_toMap, show DescriptorTable.get t oldfd = t.get oldfd from rfl]
  cases hget : t.get oldfd with
  | none => exact ⟨rfl, h, rfl⟩
  | some f => exact h.insert f false (hsafe.resolve_left (by simp [hget]))

theorem usysDup2_agrees {oldfd newfd : CInt} (hsafe : oldfd = newfd ∨ t.get oldfd = none ∨ t.Replaceable newfd false) :
    Agrees (usysDup2 t oldfd newfd) (usysDup2 t.toMap oldfd newfd) := by
  unfold usysDup2
  rw [h.get_toMap, show DescriptorTable.get t oldfd = t.get oldfd from rfl]
  split_ifs with heq
  · exact ⟨rfl, h, rfl⟩
  cases hget : t.get oldfd with
  | none => exact ⟨rfl, h, rfl⟩
  | some f => exact ⟨rfl, h.insertAt f ((hsafe.resolve_left heq).resolve_left (by simp [hget]))⟩

theorem usysDup3_agrees {oldfd newfd : CInt} {flags : BitVec 32}
    (hsafe : oldfd = newfd ∨ t.get oldfd = none ∨ t.Replaceable newfd (wantsCloseExec flags)) :
    Agrees (usysDup3 t oldfd newfd flags) (usysDup3 t.toMap oldfd newfd flags) := by
  unfold usysDup3
  rw [h.get_toMap, show DescriptorTable.get t oldfd = t.get oldfd from rfl]
  split_ifs with heq
  · exact ⟨rfl, h, rfl⟩
  cases hget : t.get oldfd with
  | none => exact ⟨rfl, h, rfl⟩
  | some f => exact ⟨rfl, h.insertAt f ((hsafe.resolve_left heq).resolve_left (by simp [hget]))⟩

theorem usysClose_agrees (fd : CInt) : Agrees (usysClose t fd) (usysClose t.toMap fd) := by
  obtain ⟨hanswer, hinv, hmap⟩ := h.remove fd
  exact ⟨congrArg (fun removed => if !removed then Error.EBADF.toLong else 0) hanswer, hinv, hmap⟩

theorem usysFcntl_agrees {fd : CInt} {cmd : FcntlCmd} {arg : BitVec 64}
    (hsafe : t.get fd = none ∨ cmd = .F_GETFD ∨ cmd = .F_SETFD ∨ t.FreeFrom arg.toNat) :
    Agrees (usysFcntl t fd cmd arg) (usysFcntl t.toMap fd cmd arg) := by
  unfold usysFcntl
  rw [h.get_toMap, show DescriptorTable.get t fd = t.get fd from rfl]
  cases hget : t.get fd with
  | none => exact ⟨rfl, h, rfl⟩
  | some f =>
    have hcmd := hsafe.resolve_left (by simp [hget])
    cases cmd with
    | F_DUPFD => exact h.insert f false (by simpa using hcmd)
    | F_DUPFD_CLOEXEC => exact h.insert f true (by simpa using hcmd)
    | F_GETFD =>
      refine ⟨?_, h, rfl⟩
      simp only [h.testCloseOnExec_toMap hget]
      rfl
    | F_SETFD =>
      simp only
      split_ifs
      · exact ⟨rfl, h.setCloseOnExec hget⟩
      · exact ⟨rfl, h.clearCloseOnExec hget⟩
      · exact ⟨rfl, h, rfl⟩

theorem tableCall_agrees {call : TableCall} (hsafe : call.Safe t) : Agrees (call.run t) (call.run t.toMap) := by
  cases call with
  | dup oldfd => exact usysDup_agrees h hsafe
  | dup2 oldfd newfd => exact usysDup2_agrees h hsafe
  | dup3 oldfd newfd flags => exact usysDup3_agrees h hsafe
  | fcntl fd cmd arg => exact usysFcntl_agrees h hsafe
  | close fd => exact usysClose_agrees h fd
  | insert f cloexec lowest => exact h.insert f cloexec hsafe
  | doCloseOnExec => exact ⟨rfl, h.doCloseOnExec⟩

end Calls

def StandFor (ts : List FileTable) (ms : List FdMap) : Prop :=
  (∀ t ∈ ts, t.Inv) ∧ ts.map toMap = ms

theorem processStep_simulates (ts : List FileTable) (ms : List FdMap) (call : ProcessCall)
    (h : StandFor ts ms) (hsafe : call.Safe ts) : (processStep ts call).1 = (processStep ms call).1 ∧
      StandFor (processStep ts call).2 (processStep ms call).2 := by
  obtain ⟨hinv, rfl⟩ := h
  cases call with
  | on p call =>
    simp only [processStep, getElem?_map]
    cases hp : ts[p]? with
    | none => exact ⟨rfl, hinv, rfl⟩
    | some t =>
      obtain ⟨hanswer, hinv', hmap⟩ := tableCall_agrees (hinv t (mem_of_getElem? hp)) (hsafe t hp)
      refine ⟨hanswer, fun t' ht' => ?_, ?_⟩
      · rcases mem_or_eq_of_mem_set ht' with hold | rfl
        · exact hinv t' hold
        · exact hinv'
      · simp [map_some, map_set, hmap]
  | fork p =>
    simp only [processStep, getElem?_map]
    cases hp : ts[p]? with
    | none => exact ⟨rfl, hinv, rfl⟩
    | some t =>
      obtain ⟨hinv', hmap⟩ := (hinv t (mem_of_getElem? hp)).copy
      refine ⟨rfl, fun t' ht' => ?_, ?_⟩
      · rcases mem_append.1 ht' with hold | hnew
        · exact hinv t' hold
        · rw [mem_singleton.1 hnew]
          exact hinv'
      · simp only [map_some, map_append, map_cons, map_nil]
        exact congrArg (ts.map toMap ++ [·]) hmap

/-- Starting with one process and an empty table, all answers are those of descriptor maps, and the
tables stand for these maps. -/
theorem fileTable_refines_fdMap (calls : List ProcessCall)
    (h : Run.Admitted (next processStep) (fun ts call => call.Safe ts) [empty] calls) :
    answers processStep [empty] calls = answers processStep [FdMap.empty] calls ∧
      (exec (next processStep) [empty] calls).map toMap =
        exec (next processStep) [FdMap.empty] calls := by
  have hstart : StandFor [empty] [FdMap.empty] := by
    refine ⟨fun t ht => ?_, ?_⟩
    · rw [mem_singleton.1 ht]
      exact inv_empty
    · rw [map_singleton, toMap_empty]
  obtain ⟨hanswers, -, hmap⟩ := answers_eq_of_simulation processStep_simulates hstart h
  exact ⟨hanswers, hmap⟩

def stdin : CInt := ⟨0, by decide⟩

/-- A process opens two files, the second one close-on-exec, duplicates the first and forks; the
child then runs `exec` and looks for the second. -/
def forkRun : List ProcessCall :=
  [.on 0 (.insert 7 false 0), .on 0 (.insert 8 true 0), .on 0 (.dup2 stdin ⟨2, by decide⟩),
    .fork 0, .on 1 .doCloseOnExec, .on 1 (.fcntl ⟨1, by decide⟩ .F_GETFD 0)]

theorem admitted_forkRun : Run.Admitted (next processStep) (fun ts call => ProcessCall.Safe ts call)
      [empty] forkRun := by
  refine ⟨fun t ht => ?_, fun t ht => ?_, fun t ht => ?_, trivial, fun t _ => trivial, fun t _ => ?_, trivial⟩
  · obtain rfl := some.inj ht
    exact ⟨⟨5, by decide⟩, by decide, by decide⟩
  · obtain rfl := some.inj ht
    exact ⟨⟨5, by decide⟩, by decide, by decide⟩
  · obtain rfl := some.inj ht
    exact .inr (.inr ⟨by decide, by decide, .inr (.inl (by decide))⟩)
  · exact .inr (.inl rfl)

theorem fileTable_refines_fdMap_forkRun : answers processStep [FdMap.empty] forkRun = [0, 1, 2, 0, 0, -9] := by
  rw [← (fileTable_refines_fdMap forkRun admitted_forkRun).1]
  decide +kernel

theorem FdMap.leastFree_empty : FdMap.empty.leastFree 0 = 0 :=
  leastFree_eq (Nat.le_refl 0) rfl fun j _ hj => absurd hj (Nat.not_lt_zero j)

theorem FdMap.leastFree_one (b : FileRef × Bool) : (FdMap.empty.set 0 (some b)).leastFree 0 = 1 := by
  refine leastFree_eq (Nat.zero_le 1) rfl fun j _ hj => ?_
  rw [Nat.lt_one_iff.1 hj]
  exact some_ne_none b

/-- Two calls after which the table is no longer the map: `dup2` onto a descriptor with a set flag
keeps the flag, and `dup2` onto a negative number unbinds every descriptor. -/
theorem dup2_not_map : (answers processStep [empty] [.on 0 (.insert 7 false 0), .on 0 (.insert 8 true 0),
          .on 0 (.dup2 ⟨0, by decide⟩ ⟨1, by decide⟩), .on 0 (.fcntl ⟨1, by decide⟩ .F_GETFD 0)] =
          [0, 1, 1, 1] ∧
      answers processStep [FdMap.empty] [.on 0 (.insert 7 false 0), .on 0 (.insert 8 true 0),
          .on 0 (.dup2 ⟨0, by decide⟩ ⟨1, by decide⟩), .on 0 (.fcntl ⟨1, by decide⟩ .F_GETFD 0)] =
          [0, 1, 1, 0]) ∧ (answers processStep [empty]
        [.on 0 (.insert 7 false 0), .on 0 (.dup2 ⟨0, by decide⟩ ⟨-1, by decide⟩),
          .on 0 (.fcntl ⟨0, by decide⟩ .F_GETFD 0)] = [0, -1, -9] ∧
      answers processStep [FdMap.empty] [.on 0 (.insert 7 false 0), .on 0 (.dup2 ⟨0, by decide⟩ ⟨-1, by decide⟩),
          .on 0 (.fcntl ⟨0, by decide⟩ .F_GETFD 0)] = [0, -1, 0]) := by
  have hzero : (0 : BitVec 64).toNat = 0 := rfl
  refine ⟨⟨by decide +kernel, ?_⟩, ⟨by decide +kernel, ?_⟩⟩
  · simp only [answers, processStep, TableCall.run, DescriptorTable.insert, FdMap.insert,
      hzero, getElem?_cons_zero, set_cons_zero, FdMap.leastFree_empty,
      FdMap.leastFree_one]
    rfl
  simp only [answers, processStep, TableCall.run, DescriptorTable.insert, FdMap.insert,
    hzero, getElem?_cons_zero, set_cons_zero, FdMap.leastFree_empty]
  rfl

end Junction
