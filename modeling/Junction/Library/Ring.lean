import Mathlib

/-!
# Windows of a ring

A ring holds the value of every index at a position modulo its size. Indices that lie within one round have
different positions. Consecutive positions are one run, or two if they pass the end of the ring.
-/

namespace Ring
open List Nat
variable {α : Type*} {size start i j m n : ℕ} {buf buf' : ℕ → α}

/-- The positions of `n` indices from `start` on. -/
def cells (size start n : ℕ) : List ℕ := (List.range n).map fun j => (start + j) % size

/-- What the ring holds for `n` indices from `start` on. -/
def window (size : ℕ) (buf : ℕ → α) (start n : ℕ) : List α :=
  (List.range n).map fun j => buf ((start + j) % size)

@[simp] theorem length_cells : (cells size start n).length = n := by simp [cells]

@[simp] theorem length_window : (window size buf start n).length = n := by simp [window]

theorem cell_ne (hi : i < size) (hj : j < size) (hij : i ≠ j) : (start + i) % size ≠ (start + j) % size := by
  intro heq
  have hmod : i ≡ j [MOD size] := Nat.ModEq.add_left_cancel' start heq
  exact hij (hmod.eq_of_lt_of_lt hi hj)

theorem window_add (m n : ℕ) :
    window size buf start (m + n) = window size buf start m ++ window size buf (start + m) n := by
  simp [window, range_add, Function.comp_def, add_assoc]

theorem window_start {start' : ℕ} (h : start' % size = start % size) :
    window size buf start' n = window size buf start n :=
  map_congr_left fun j _ => by rw [add_mod, h, ← add_mod]

theorem take_cells : (cells size start n).take m = cells size start (min m n) := by
  simp [cells, ← map_take, take_range]

theorem cells_eq_range (hn : n ≤ size - start % size) : cells size start n = range' (start % size) n := by
  rw [cells, range'_eq_map_range]
  refine map_congr_left fun j hj => ?_
  have hj := mem_range.1 hj
  rw [add_mod, mod_eq_of_lt (a := j) (by omega), mod_eq_of_lt (by omega)]

theorem cells_eq_append (hpos : 0 < size) (hend : size - start % size < n) (hn : n ≤ size) :
    cells size start n = range' (start % size) (size - start % size) ++ range' 0 (n - (size - start % size)) := by
  have hlt := mod_lt start hpos
  have hsplit : cells size start n = cells size start (size - start % size) ++
      cells size (start + (size - start % size)) (n - (size - start % size)) := by
    conv_lhs => rw [← add_sub_of_le hend.le]
    simp [cells, range_add, Function.comp_def, add_assoc]
  have hsum : start + (size - start % size) = size * (start / size + 1) := by
    have := div_add_mod start size
    rw [mul_add]
    omega
  have hzero : (start + (size - start % size)) % size = 0 := by
    rw [hsum, mul_mod_right]
  rw [hsplit, cells_eq_range (le_refl _), cells_eq_range (by omega), hzero]

end Ring
