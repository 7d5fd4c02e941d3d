import Mathlib

/-!
# Error codes, machine integers and page alignment

Addresses and lengths are natural numbers below `2 ^ 64`. Every operation of the source that can
leave that range is written with its wrap-around; comparisons and stores need none. An `int` is an
integer that carries its range.
-/

namespace Junction

structure Error where
  code : ℕ
  deriving DecidableEq, Repr

abbrev Status (α : Type*) := Except Error α

abbrev FileRef := ℕ

inductive UnixSocketAddressType
  | Unnamed
  | Pathname
  | Abstract
  deriving DecidableEq

structure UnixSocketAddr where
  type : UnixSocketAddressType
  name : String
  deriving DecidableEq

instance : Inhabited UnixSocketAddr := ⟨⟨.Unnamed, ""⟩⟩

namespace Error

def EPERM : Error := ⟨1⟩
def ENOENT : Error := ⟨2⟩
def EINTR : Error := ⟨4⟩
def EBADF : Error := ⟨9⟩
def ECHILD : Error := ⟨10⟩
def EAGAIN : Error := ⟨11⟩
def ENOMEM : Error := ⟨12⟩
def EEXIST : Error := ⟨17⟩
def EXDEV : Error := ⟨18⟩
def ENOTDIR : Error := ⟨20⟩
def EISDIR : Error := ⟨21⟩
def EINVAL : Error := ⟨22⟩
def ENOSPC : Error := ⟨28⟩
def EPIPE : Error := ⟨32⟩
def ENOTEMPTY : Error := ⟨39⟩
def ELOOP : Error := ⟨40⟩
def ENODATA : Error := ⟨61⟩
def EADDRINUSE : Error := ⟨98⟩
def EISCONN : Error := ⟨106⟩
def ENOTCONN : Error := ⟨107⟩
def ETIMEDOUT : Error := ⟨110⟩
def ECONNREFUSED : Error := ⟨111⟩
def ESTALE : Error := ⟨116⟩
def ERESTARTSYS : Error := ⟨512⟩
def EUNEXPECTEDEOF : Error := ⟨515⟩

def toLong (e : Error) : ℤ := -(e.code : ℤ)

end Error

def addWord (a b : ℕ) : ℕ := (a + b) % 2 ^ 64

def subWord (a b : ℕ) : ℕ := (a + (2 ^ 64 - b % 2 ^ 64)) % 2 ^ 64

variable {a b : ℕ}

theorem addWord_of_lt (h : a + b < 2 ^ 64) : addWord a b = a + b := Nat.mod_eq_of_lt h

theorem subWord_of_le (h : b ≤ a) (ha : a < 2 ^ 64) : subWord a b = a - b := by
  unfold subWord
  omega

theorem subWord_of_lt (h : a < b) (hb : b < 2 ^ 64) : subWord a b = a + 2 ^ 64 - b := by
  unfold subWord
  omega

/-- A 32-bit `int`. -/
abbrev CInt := { n : ℤ // -2 ^ 31 ≤ n ∧ n < 2 ^ 31 }

namespace CInt

/-- The conversion of an integer to `int`, which keeps the low 32 bits. -/
def wrap (n : ℤ) : CInt := ⟨n.bmod (2 ^ 32), by
  have := Int.le_bmod (x := n) (m := 2 ^ 32) (by decide)
  have := Int.bmod_lt (x := n) (m := 2 ^ 32) (by decide)
  omega⟩

/-- The conversion of an `int` to `size_t`. -/
def toSize (n : CInt) : ℕ := (n.1 % 2 ^ 64).toNat

variable {n : CInt}

theorem toSize_of_nonneg (h : 0 ≤ n.1) : n.toSize = n.1.toNat := by
  have := n.2
  unfold toSize
  omega

theorem le_toSize_of_neg (h : n.1 < 0) : 2 ^ 63 ≤ n.toSize := by
  have := n.2
  unfold toSize
  omega

theorem wrap_of_mem {n : ℤ} (hlo : -2 ^ 31 ≤ n) (hhi : n < 2 ^ 31) : (wrap n).1 = n :=
  Int.bmod_eq_of_le (by omega) (by omega)

end CInt

/-- `std::bit_ceil`, whose result wraps to zero where it is not representable. -/
def bitCeil (n : ℕ) : ℕ := (if n ≤ 1 then 1 else 2 ^ (Nat.log2 (n - 1) + 1)) % 2 ^ 64

theorem bitCeil_spec {n k : ℕ} (h : n ≤ 2 ^ k) (hk : k ≤ 63) : n ≤ bitCeil n ∧ ∃ j ≤ k, bitCeil n = 2 ^ j := by
  unfold bitCeil
  split_ifs with h1
  · exact ⟨by omega, 0, by omega, by decide⟩
  have hlog : Nat.log2 (n - 1) < k := (Nat.log2_lt (by omega)).2 (by omega)
  have hlt : 2 ^ (Nat.log2 (n - 1) + 1) < 2 ^ 64 := Nat.pow_lt_pow_right (by decide) (by omega)
  have hself : n - 1 < 2 ^ (Nat.log2 (n - 1) + 1) := Nat.lt_log2_self
  rw [Nat.mod_eq_of_lt hlt]
  exact ⟨by omega, _, by omega, rfl⟩

def kPageSize : ℕ := 4096

/-- `AlignUp(addr, kPageSize)`: masking with `~(align - 1)` rounds down to the power of two. -/
def pageAlign (addr : ℕ) : ℕ := addWord addr (kPageSize - 1) / kPageSize * kPageSize

def isPageAligned (addr : ℕ) : Bool := pageAlign addr == addr

variable {addr : ℕ}

theorem pageAlign_eq (h : addr + 4095 < 2 ^ 64) : pageAlign addr = (addr + 4095) / 4096 * 4096 := by
  simp only [pageAlign, addWord, kPageSize]
  omega

theorem pageAlign_dvd (addr : ℕ) : 4096 ∣ pageAlign addr := ⟨_, Nat.mul_comm _ _⟩

theorem pageAlign_lt (addr : ℕ) : pageAlign addr < 2 ^ 64 := by
  simp only [pageAlign, addWord, kPageSize]
  omega

theorem isPageAligned_iff (h : addr < 2 ^ 64) : isPageAligned addr ↔ 4096 ∣ addr := by
  simp only [isPageAligned, pageAlign, addWord, kPageSize, beq_iff_eq]
  omega

theorem pageAlign_of_dvd (hd : 4096 ∣ addr) (h : addr < 2 ^ 64) : pageAlign addr = addr := by
  simpa [isPageAligned] using (isPageAligned_iff h).2 hd

theorem pageAlign_le {bound : ℕ} (h : addr ≤ bound) (hd : 4096 ∣ bound)
    (hlt : bound < 2 ^ 64) : addr ≤ pageAlign addr ∧ pageAlign addr ≤ bound := by
  rw [pageAlign_eq (by omega)]
  omega

end Junction
