import Junction.Base
import Junction.Library.Ring

/-!
# Free-running indices of a ring

Both channels count what went in and out in 64-bit indices that run free and wrap around. The size is a
power of two, so that the low bits of an index are its position. A copy that passes the end of the ring
is made in two segments.
-/

namespace Junction
open BitVec

structure RingSize where
  size : BitVec 64
  isPow : ∃ k < 64, size.toNat = 2 ^ k

namespace RingSize

/-- `std::bit_ceil(std::max(size, size_t{1}))`. -/
def ofRequest (request : ℕ) (h : request ≤ 2 ^ 63) : RingSize where
  size := BitVec.ofNat 64 (bitCeil (max request 1))
  isPow := by
    have hmax : max request 1 ≤ 2 ^ 63 := max_le h (Nat.one_le_two_pow)
    obtain ⟨_, k, hk, heq⟩ := bitCeil_spec hmax (Nat.le_refl 63)
    refine ⟨k, by omega, ?_⟩
    rw [heq, BitVec.toNat_ofNat, Nat.mod_eq_of_lt (Nat.pow_lt_pow_right (by decide) (by omega))]

variable (r : RingSize)

def mask : BitVec 64 := r.size - 1

def slot (index : BitVec 64) : ℕ := (index &&& r.mask).toNat

def nToEnd (index : BitVec 64) : ℕ := (r.size - (index &&& r.mask)).toNat

/-- The positions of `n` indices, as the one or two segments of a copy. -/
def segments (index : BitVec 64) (n : ℕ) : List (List ℕ) :=
  if n > r.nToEnd index then
    [List.range' (r.slot index) (r.nToEnd index), List.range' 0 (n - r.nToEnd index)]
  else [List.range' (r.slot index) n]

theorem size_pos : 0 < r.size.toNat := by
  obtain ⟨k, _, hk⟩ := r.isPow
  rw [hk]
  exact Nat.two_pow_pos k

theorem size_dvd : r.size.toNat ∣ 2 ^ 64 := by
  obtain ⟨k, hlt, hk⟩ := r.isPow
  rw [hk]
  exact Nat.pow_dvd_pow 2 hlt.le

variable (index : BitVec 64)

theorem slot_eq : r.slot index = index.toNat % r.size.toNat := by
  have hmask : r.mask.toNat = r.size.toNat - 1 := by
    exact toNat_sub_of_le r.size_pos
  obtain ⟨k, _, hk⟩ := r.isPow
  rw [slot, toNat_and, hmask, hk, Nat.and_two_pow_sub_one_eq_mod]

theorem nToEnd_eq : r.nToEnd index = r.size.toNat - r.slot index := by
  have hlt := Nat.mod_lt index.toNat r.size_pos
  rw [← slot_eq] at hlt
  exact toNat_sub_of_le hlt.le

theorem flatten_segments {index : BitVec 64} {n : ℕ} (hn : n ≤ r.size.toNat) :
    (r.segments index n).flatten = Ring.cells r.size.toNat index.toNat n := by
  unfold segments
  rw [nToEnd_eq, slot_eq]
  split_ifs with hend
  · simp [Ring.cells_eq_append r.size_pos hend hn]
  · simp [Ring.cells_eq_range (not_lt.1 hend)]

theorem add_mod (n : ℕ) : (index + BitVec.ofNat 64 n).toNat % r.size.toNat = (index.toNat + n) % r.size.toNat := by
  rw [toNat_add, toNat_ofNat, Nat.add_mod_mod, Nat.mod_mod_of_dvd _ r.size_dvd]

theorem cell_ahead (i o : BitVec 64) (j : ℕ) :
    (i.toNat + j) % r.size.toNat = (o.toNat + ((i - o).toNat + j)) % r.size.toNat := by
  have hsum : (o + (i - o)).toNat % r.size.toNat = (o.toNat + (i - o).toNat) % r.size.toNat := by
    rw [toNat_add, Nat.mod_mod_of_dvd _ r.size_dvd]
  have hback : o + (i - o) = i := by
    rw [BitVec.add_comm, BitVec.sub_add_cancel]
  rw [hback] at hsum
  rw [← Nat.add_assoc, Nat.add_mod, hsum, ← Nat.add_mod]

end RingSize
end Junction
