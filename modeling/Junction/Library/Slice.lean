import Mathlib

/-!
# Slices of a memory

A memory is a function from positions to cells. A slice reads a list of cells from a position on; a
store writes one. Slices concatenate, a store is read back by the slice at its place, and slices
elsewhere do not see it.
-/

namespace Slice
open List
variable {α : Type*}

def slice (mem : ℕ → α) (start len : ℕ) : List α := (List.range len).map fun i => mem (start + i)

def store (mem : ℕ → α) (start : ℕ) (data : List α) : ℕ → α := fun i =>
  if start ≤ i then (data[i - start]?).getD (mem i) else mem i

/-- The cells from `start` up to `stop` take one value. -/
def fill (mem : ℕ → α) (start stop : ℕ) (v : α) : ℕ → α := fun i =>
  if start ≤ i ∧ i < stop then v else mem i

variable {mem mem' : ℕ → α}

@[simp] theorem length_slice (mem : ℕ → α) (start len : ℕ) : (slice mem start len).length = len := by
  simp [slice]

theorem slice_congr {start len : ℕ} (h : ∀ i, start ≤ i → i < start + len → mem i = mem' i) :
    slice mem start len = slice mem' start len := by
  refine map_congr_left fun i hi => h _ (Nat.le_add_right _ _) ?_
  have := mem_range.1 hi
  omega

theorem slice_add (mem : ℕ → α) (start m n : ℕ) :
    slice mem start (m + n) = slice mem start m ++ slice mem (start + m) n := by
  simp only [slice, range_add, map_append, map_map]
  congr 1
  refine map_congr_left fun i _ => ?_
  simp [Nat.add_assoc]

theorem take_slice (mem : ℕ → α) (start m n : ℕ) : (slice mem start n).take m = slice mem start (min m n) := by
  by_cases h : m ≤ n
  · obtain ⟨k, rfl⟩ := Nat.exists_eq_add_of_le h
    rw [slice_add, take_left' (length_slice ..), Nat.min_eq_left h]
  · rw [take_of_length_le (by simp; omega), Nat.min_eq_right (by omega)]

theorem drop_slice (mem : ℕ → α) (start m n : ℕ) : (slice mem start n).drop m = slice mem (start + m) (n - m) := by
  by_cases h : m ≤ n
  · obtain ⟨k, rfl⟩ := Nat.exists_eq_add_of_le h
    rw [slice_add, drop_left' (length_slice ..), Nat.add_sub_cancel_left]
  · rw [drop_eq_nil_of_le (by simp; omega), Nat.sub_eq_zero_of_le (by omega)]
    rfl

theorem slice_eq_replicate {start len : ℕ} {v : α} (h : ∀ i, start ≤ i → i < start + len → mem i = v) :
    slice mem start len = replicate len v := by
  have hconst : slice mem start len = slice (fun _ => v) start len := slice_congr h
  rw [hconst]
  simp [slice]

theorem store_of_lt {start i : ℕ} (data : List α) (h : i < start) : store mem start data i = mem i := if_neg (by omega)

theorem store_of_ge {start i : ℕ} {data : List α} (h : start + data.length ≤ i) : store mem start data i = mem i := by
  rw [store, if_pos (by omega), getElem?_eq_none (by omega)]
  rfl

theorem store_append (mem : ℕ → α) (start : ℕ) (data more : List α) :
    store (store mem start data) (start + data.length) more = store mem start (data ++ more) := by
  funext i
  grind [store]

theorem slice_store (mem : ℕ → α) (start : ℕ) (data : List α) :
    slice (store mem start data) start data.length = data := by
  refine ext_getElem (by simp) fun i hi hi' => ?_
  simp [slice, store, hi']

end Slice
