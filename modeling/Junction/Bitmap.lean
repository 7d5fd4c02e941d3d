import Junction.Base

/-!
# Bitmaps over 64-bit words

A bitmap is a vector of words and a number of bits. The vector is longer than the bits need: the
constructor allocates one word per bit and `resize` one word per eight bits. The scan for the next
bit looks at whole words, masks off the bits below its start in the first one, and gives up when the
bit that it finds is not below the size.
-/

namespace Junction
open List Nat

def kBitsPerLong : ℕ := 64

variable {pos : ℕ}

namespace Words

def getIdx (pos : ℕ) : ℕ := pos / kBitsPerLong

def getShift (pos : ℕ) : ℕ := pos % kBitsPerLong

variable (bits : List (BitVec 64))

def test (pos : ℕ) : Bool :=
  (bits.getD (getIdx pos) 0 &&& 1#64 <<< getShift pos) != 0

def set (pos : ℕ) : List (BitVec 64) :=
  bits.modify (getIdx pos) (· ||| 1#64 <<< getShift pos)

def clear (pos : ℕ) : List (BitVec 64) :=
  bits.modify (getIdx pos) (· &&& ~~~(1#64 <<< getShift pos))

def resize (n : ℕ) : List (BitVec 64) :=
  bits.take n ++ replicate (n - bits.length) 0

/-- `__builtin_ffsl`: one plus the index of the least significant set bit, or zero. -/
def ffsl (val : BitVec 64) : ℕ :=
  match (range 64).find? (val.getLsbD ·) with
  | some i => i + 1
  | none => 0

/-- The loop of `find_next<Invert>` from bit `i` on, over the words that are left. -/
def findNextLoop (invert : Bool) (size : ℕ) : ℕ → BitVec 64 → List (BitVec 64) → Option ℕ
  | _, _, [] => none
  | i, mask, w :: ws =>
    if i < size then
      let val := ffsl ((if invert then ~~~w else w) &&& mask)
      if val = 0 then findNextLoop invert size (i + kBitsPerLong) (BitVec.allOnes 64) ws
      else
        let ret := i + val - 1
        if size ≤ ret then none else some ret
    else none

def findNext (invert : Bool) (size : ℕ) (bits : List (BitVec 64)) (pos : ℕ) : Option ℕ :=
  findNextLoop invert size (getIdx pos * kBitsPerLong) (~~~(1#64 <<< getShift pos - 1))
    (bits.drop (getIdx pos))

theorem test_eq_getLsbD (pos : ℕ) : test bits pos = (bits.getD (pos / 64) 0).getLsbD (pos % 64) := by
  have hlt : pos % 64 < 64 := mod_lt _ (by decide)
  have hbit : ∀ w : BitVec 64, (w &&& 1#64 <<< (pos % 64)) =
      if w.getLsbD (pos % 64) then BitVec.twoPow 64 (pos % 64) else 0 := by
    intro w
    rw [← BitVec.twoPow_eq]
    exact BitVec.and_twoPow w (pos % 64)
  simp only [test, getIdx, getShift, kBitsPerLong, hbit]
  cases (bits.getD (pos / 64) 0).getLsbD (pos % 64) with
  | false => simp
  | true =>
    have hne : BitVec.twoPow 64 (pos % 64) ≠ 0 := by
      intro h
      have := congrArg (fun w => w.getLsbD (pos % 64)) h
      simp [hlt] at this
    simpa using hne

@[simp] theorem length_set (pos : ℕ) :
    (set bits pos).length = bits.length := length_modify ..

@[simp] theorem length_clear (pos : ℕ) :
    (clear bits pos).length = bits.length := length_modify ..

@[simp] theorem length_resize (n : ℕ) : (resize bits n).length = n := by
  simp only [resize, length_append, length_take, length_replicate]
  omega

variable {bits : List (BitVec 64)} {k : ℕ}

theorem getD_modify (f : BitVec 64 → BitVec 64) (j : ℕ) (hk : k < bits.length) :
    (bits.modify k f).getD j 0 = if k = j then f (bits.getD j 0) else bits.getD j 0 := by
  by_cases h : k = j
  · subst h
    simp [hk]
  · simp [h]

theorem test_modify {f : BitVec 64 → BitVec 64} (op : Bool → Bool → Bool) (h : pos / 64 < bits.length)
    (hop : ∀ w j, j < 64 → (f w).getLsbD j = op (w.getLsbD j) (decide (pos % 64 = j)))
    (hid : ∀ bit, op bit false = bit) (q : ℕ) :
    test (bits.modify (pos / 64) f) q = op (test bits q) (decide (pos = q)) := by
  simp only [test_eq_getLsbD, getD_modify _ _ h]
  by_cases hw : pos / 64 = q / 64
  · have hq : pos % 64 = q % 64 ↔ pos = q := by omega
    rw [if_pos hw, hop _ _ (mod_lt _ (by decide)), decide_eq_decide.2 hq]
  · have hq : pos ≠ q := fun h' => hw (congrArg (· / 64) h')
    simp [hw, hq, hid]

theorem test_set (h : pos / 64 < bits.length) (q : ℕ) : test (set bits pos) q = (test bits q || decide (pos = q)) := by
  refine test_modify or h (fun w j hj => ?_) Bool.or_false q
  change (w ||| 1#64 <<< (pos % 64)).getLsbD j = _
  rw [BitVec.getLsbD_or, ← BitVec.twoPow_eq, BitVec.getLsbD_twoPow]
  simp [mod_lt]

theorem test_clear (h : pos / 64 < bits.length) (q : ℕ) :
    test (clear bits pos) q = (test bits q && !decide (pos = q)) := by
  refine test_modify (fun bit hit => bit && !hit) h (fun w j hj => ?_) Bool.and_true q
  change (w &&& ~~~(1#64 <<< (pos % 64))).getLsbD j = _
  rw [BitVec.getLsbD_and, BitVec.getLsbD_not, ← BitVec.twoPow_eq, BitVec.getLsbD_twoPow]
  simp [mod_lt, hj]

theorem test_resize (bits : List (BitVec 64)) (n q : ℕ) :
    test (resize bits n) q = (test bits q && decide (q / 64 < n)) := by
  simp only [test_eq_getLsbD, getD_eq_getElem?_getD, resize]
  by_cases hn : q / 64 < n
  · by_cases hb : q / 64 < bits.length
    · rw [getElem?_append_left (by simp; omega), getElem?_take_of_lt hn]
      simp [hn]
    · rw [getElem?_append_right (by simp; omega), getElem?_eq_none (by omega : _ ≤ q / 64), getElem?_replicate]
      split_ifs <;> simp
  · rw [getElem?_eq_none (by simp; omega)]
    simp [hn]

theorem test_replicate_zero (n q : ℕ) : test (replicate n 0) q = false := by
  rw [test_eq_getLsbD, getD_eq_getElem?_getD, getElem?_replicate]
  split_ifs <;> simp

theorem ffsl_eq_zero_iff (val : BitVec 64) : ffsl val = 0 ↔ ∀ j < 64, val.getLsbD j = false := by
  unfold ffsl
  cases h : (range 64).find? (val.getLsbD ·) with
  | none => simpa using h
  | some i =>
    have hi := find?_some h
    have hm := mem_of_find?_eq_some h
    simp only [Nat.add_eq_zero_iff, one_ne_zero, and_false, false_iff, not_forall]
    exact ⟨i, mem_range.1 hm, by simpa using hi⟩

theorem ffsl_spec {val : BitVec 64} (h : ffsl val = k + 1) :
    k < 64 ∧ val.getLsbD k ∧ ∀ j < k, val.getLsbD j = false := by
  unfold ffsl at h
  cases hf : (range 64).find? (val.getLsbD ·) with
  | none => simp [hf] at h
  | some i =>
    simp only [hf, add_right_cancel_iff] at h
    subst h
    obtain ⟨hi, hm, hbefore⟩ := find?_range_eq_some.1 hf
    exact ⟨mem_range.1 hm, hi, fun j hj => by simpa using hbefore j hj⟩

theorem getLsbD_mask {shift j : ℕ} (hs : shift < 64) (hj : j < 64) :
    (~~~(1#64 <<< shift - 1)).getLsbD j = decide (shift ≤ j) := by
  have hpow : 1#64 <<< shift - 1 = BitVec.ofNat 64 (2 ^ shift - 1) := by
    have hlt : 2 ^ shift < 2 ^ 64 := Nat.pow_lt_pow_right (by decide) hs
    have hpos : 0 < 2 ^ shift := Nat.two_pow_pos shift
    apply BitVec.eq_of_toNat_eq
    have hone : (1 : BitVec 64).toNat = 1 := rfl
    simp only [BitVec.toNat_sub, BitVec.toNat_shiftLeft, BitVec.toNat_ofNat, shiftLeft_eq, hone,
      one_mod_two_pow_eq_one.2 (by decide : 0 < 64), one_mul]
    omega
  rw [hpow, BitVec.getLsbD_not, BitVec.getLsbD_ofNat, testBit_two_pow_sub_one]
  simp [hj, decide_true, Bool.true_and, ← decide_not, not_lt]

/-- What the scan answers: the first position from `pos` on, below the size, with the wanted bit. -/
def IsNext (wanted : ℕ → Bool) (size pos : ℕ) : Option ℕ → Prop
  | some r => pos ≤ r ∧ r < size ∧ wanted r = true ∧ ∀ j, pos ≤ j → j < r → wanted j = false
  | none => ∀ j, pos ≤ j → j < size → wanted j = false

variable {wanted : ℕ → Bool} {size : ℕ} {r : Option ℕ}

theorem IsNext.extend {pos' : ℕ} (h : IsNext wanted size pos' r) (hle : pos ≤ pos')
    (hskip : ∀ j, pos ≤ j → j < pos' → wanted j = false) : IsNext wanted size pos r := by
  cases r with
  | none =>
    intro j hj hlt
    by_cases hj' : j < pos'
    · exact hskip j hj hj'
    · exact h j (by omega) hlt
  | some r =>
    obtain ⟨h₁, h₂, h₃, h₄⟩ := h
    refine ⟨by omega, h₂, h₃, fun j hj hlt => ?_⟩
    by_cases hj' : j < pos'
    · exact hskip j hj hj'
    · exact h₄ j (by omega) hlt

theorem IsNext.congr {wanted' : ℕ → Bool}
    (h : IsNext wanted size pos r) (heq : ∀ q, pos ≤ q → wanted q = wanted' q) : IsNext wanted' size pos r := by
  cases r with
  | none => exact fun j hj hlt => heq j hj ▸ h j hj hlt
  | some r =>
    obtain ⟨h₁, h₂, h₃, h₄⟩ := h
    exact ⟨h₁, h₂, heq r h₁ ▸ h₃, fun j hj hlt => heq j hj ▸ h₄ j hj hlt⟩

theorem IsNext.filter_eq (h : IsNext wanted size pos r) : (range' pos (size - pos)).filter wanted =
    r.elim [] fun idx => idx :: (range' (idx + 1) (size - (idx + 1))).filter wanted := by
  cases r with
  | none =>
    refine filter_eq_nil_iff.2 fun j hj => ?_
    obtain ⟨hle, hlt⟩ := mem_range'_1.1 hj
    simp [h j hle (by omega)]
  | some idx =>
    obtain ⟨hle, hlt, hset, hbefore⟩ := h
    have hsplit : range' pos (size - pos) = range' pos (idx - pos) ++ idx :: range' (idx + 1) (size - (idx + 1)) := by
      have happend := range'_append_1 (s := pos) (m := idx - pos) (n := size - (idx + 1) + 1)
      rw [show pos + (idx - pos) = idx by omega, range'_succ] at happend
      rw [happend]
      congr 1
      omega
    have hnone : (range' pos (idx - pos)).filter wanted = [] := by
      refine filter_eq_nil_iff.2 fun j hj => ?_
      obtain ⟨hle', hlt'⟩ := mem_range'_1.1 hj
      simp [hbefore j hle' (by omega)]
    simp [hsplit, hnone, hset]

/-- The wanted bits of a word list that starts at bit `base`. -/
def wantedFrom (invert : Bool) (base : ℕ) (ws : List (BitVec 64)) (q : ℕ) : Bool :=
  test ws (q - base) != invert

theorem findNextLoop_spec (invert : Bool) (size : ℕ) (ws : List (BitVec 64)) (k shift : ℕ)
    (mask : BitVec 64) (hs : shift < 64) (hmask : ∀ j < 64, mask.getLsbD j = decide (shift ≤ j))
    (hcover : size ≤ (k + ws.length) * 64) : IsNext (wantedFrom invert (k * 64) ws) size (k * 64 + shift)
      (findNextLoop invert size (k * 64) mask ws) := by
  induction ws generalizing k shift mask with
  | nil =>
    intro j hj hlt
    simp only [length_nil] at hcover
    omega
  | cons w ws ih =>
    have hword : ∀ j < 64, ((if invert then ~~~w else w) &&& mask).getLsbD j =
        (wantedFrom invert (k * 64) (w :: ws) (k * 64 + j) && decide (shift ≤ j)) := by
      intro j hj
      have hdiv : j / 64 = 0 := div_eq_of_lt hj
      have hmod : j % 64 = j := mod_eq_of_lt hj
      rw [BitVec.getLsbD_and, hmask j hj]
      simp only [wantedFrom, Nat.add_sub_cancel_left, test_eq_getLsbD, hdiv, hmod, getD_cons_zero]
      cases invert <;> simp [hj]
    have hclear : ∀ n ≤ 64, (∀ j < n, ((if invert then ~~~w else w) &&& mask).getLsbD j = false) → ∀ j,
        k * 64 + shift ≤ j → j < k * 64 + n → wantedFrom invert (k * 64) (w :: ws) j = false := by
      intro n hle hn j hj hlt
      have := hn (j - k * 64) (by omega)
      rw [hword _ (by omega), show k * 64 + (j - k * 64) = j by omega] at this
      simpa [show shift ≤ j - k * 64 by omega] using this
    simp only [findNextLoop]
    by_cases hi : k * 64 < size
    · rw [if_pos hi]
      cases hval : ffsl ((if invert then ~~~w else w) &&& mask) with
      | zero =>
        rw [ffsl_eq_zero_iff] at hval
        have hnext := ih (k + 1) 0 (BitVec.allOnes 64) (by decide)
          (fun j hj => by rw [BitVec.getLsbD_allOnes]; simp [hj]) (by
          simp only [length_cons] at hcover
          omega)
        have hshift : ∀ q, (k + 1) * 64 ≤ q →
            wantedFrom invert ((k + 1) * 64) ws q = wantedFrom invert (k * 64) (w :: ws) q := by
          intro q hq
          have hdiv : (q - k * 64) / 64 = (q - (k + 1) * 64) / 64 + 1 := by omega
          have hmod : (q - k * 64) % 64 = (q - (k + 1) * 64) % 64 := by omega
          simp [wantedFrom, test_eq_getLsbD, hdiv, hmod]
        have hidx : k * 64 + kBitsPerLong = (k + 1) * 64 := by
          simp only [kBitsPerLong]
          omega
        simp only [hidx, if_true]
        exact (hnext.congr hshift).extend (by omega) fun j hj hlt => hclear 64 le_rfl hval j hj (by omega)
      | succ n =>
        obtain ⟨hn, hset, hbelow⟩ := ffsl_spec hval
        rw [hword n hn, Bool.and_eq_true, decide_eq_true_eq] at hset
        have hfirst := hclear n hn.le hbelow
        simp only [Nat.add_eq_zero_iff, one_ne_zero, and_false, if_false,
          show k * 64 + (n + 1) - 1 = k * 64 + n by omega]
        split_ifs with hge
        · exact fun j hj hlt => hfirst j hj (by omega)
        · exact ⟨by omega, by omega, hset.1, hfirst⟩
    · rw [if_neg hi]
      exact fun j hj hlt => by omega

theorem findNext_spec (invert : Bool) (pos : ℕ) (hcover : size ≤ bits.length * 64) :
    IsNext (fun q => test bits q != invert) size pos (findNext invert size bits pos) := by
  have hpos : pos / 64 * 64 + pos % 64 = pos := by omega
  have hspec := findNextLoop_spec invert size (bits.drop (pos / 64)) (pos / 64) (pos % 64)
    (~~~(1#64 <<< (pos % 64) - 1)) (mod_lt _ (by decide))
    (fun j hj => getLsbD_mask (mod_lt _ (by decide)) hj) (by
      rw [length_drop]
      omega)
  have hbits : ∀ q, pos ≤ q → wantedFrom invert (pos / 64 * 64) (bits.drop (pos / 64)) q = (test bits q != invert) := by
    intro q hq
    have hdiv : (q - pos / 64 * 64) / 64 + pos / 64 = q / 64 := by omega
    have hmod : (q - pos / 64 * 64) % 64 = q % 64 := by omega
    simp [wantedFrom, test_eq_getLsbD, getD_eq_getElem?_getD, getElem?_drop, hmod, add_comm (pos / 64), hdiv]
  rw [hpos] at hspec
  exact hspec.congr hbits

end Words

structure DynamicBitmap where
  size : ℕ
  bits : List (BitVec 64)
  covered : size ≤ bits.length * 64

namespace DynamicBitmap

def ofSize (n : ℕ) : DynamicBitmap :=
  ⟨n, replicate n 0, by rw [length_replicate]; omega⟩

def test (b : DynamicBitmap) (pos : ℕ) : Bool := Words.test b.bits pos

/-- `bits_.resize(DivideUp(n, sizeof(unsigned long)))`. -/
def resize (b : DynamicBitmap) (n : ℕ) : DynamicBitmap :=
  ⟨n, Words.resize b.bits ((n + 7) / 8), by rw [Words.length_resize]; omega⟩

def set (b : DynamicBitmap) (pos : ℕ) : DynamicBitmap :=
  ⟨b.size, Words.set b.bits pos, by rw [Words.length_set]; exact b.covered⟩

def clear (b : DynamicBitmap) (pos : ℕ) : DynamicBitmap :=
  ⟨b.size, Words.clear b.bits pos, by rw [Words.length_clear]; exact b.covered⟩

/-- `clear()`: every word becomes zero. -/
def clearAll (b : DynamicBitmap) : DynamicBitmap :=
  ⟨b.size, replicate b.bits.length 0, by rw [length_replicate]; exact b.covered⟩

def findNextSet (b : DynamicBitmap) (pos : ℕ) : Option ℕ := Words.findNext false b.size b.bits pos

/-- The positions that `for_each_set_bit` visits, in order. Each visited position is larger than the
one before it, so `size` rounds are enough. -/
def forEachLoop (b : DynamicBitmap) : ℕ → Option ℕ → List ℕ
  | rounds + 1, some idx => idx :: forEachLoop b rounds (b.findNextSet (idx + 1))
  | _, _ => []

def forEachSetBit (b : DynamicBitmap) : List ℕ := forEachLoop b b.size (b.findNextSet 0)

@[simp] theorem test_ofSize (n q : ℕ) : (ofSize n).test q = false := Words.test_replicate_zero n q

@[simp] theorem test_clearAll (b : DynamicBitmap) (q : ℕ) : b.clearAll.test q = false :=
  Words.test_replicate_zero _ q

variable {b : DynamicBitmap}

theorem word_lt (h : pos < b.size) : pos / 64 < b.bits.length := by
  have := b.covered
  omega

theorem test_set (h : pos < b.size) (q : ℕ) :
    (b.set pos).test q = (b.test q || decide (pos = q)) := Words.test_set (word_lt h) q

theorem test_clear (h : pos < b.size) (q : ℕ) :
    (b.clear pos).test q = (b.test q && !decide (pos = q)) := Words.test_clear (word_lt h) q

theorem test_resize {n q : ℕ} (h : b.test q → q < n) : (b.resize n).test q = b.test q := by
  have hres := Words.test_resize b.bits ((n + 7) / 8) q
  change (b.resize n).test q = (b.test q && decide (q / 64 < (n + 7) / 8)) at hres
  rw [hres]
  cases hq : b.test q with
  | false => rfl
  | true =>
    have := h hq
    simp only [Bool.true_and, decide_eq_true_eq]
    omega

theorem isNext (b : DynamicBitmap) (invert : Bool) (pos : ℕ) :
    Words.IsNext (b.test · != invert) b.size pos (Words.findNext invert b.size b.bits pos) :=
  Words.findNext_spec invert pos b.covered

theorem forEachLoop_eq_filter (b : DynamicBitmap) (rounds pos : ℕ) (h : b.size ≤ pos + rounds) :
    forEachLoop b rounds (b.findNextSet pos) = (range' pos (b.size - pos)).filter (b.test · != false) := by
  induction rounds generalizing pos with
  | zero =>
    rw [show b.size - pos = 0 by omega]
    rfl
  | succ rounds ih =>
    have hspec := b.isNext false pos
    rw [hspec.filter_eq, findNextSet]
    cases hn : Words.findNext false b.size b.bits pos with
    | none => rfl
    | some idx =>
      rw [hn] at hspec
      exact congrArg (idx :: ·) (ih (idx + 1) (by have := hspec.1; omega))

theorem mem_forEachSetBit (b : DynamicBitmap) (q : ℕ) : q ∈ b.forEachSetBit ↔ q < b.size ∧ b.test q := by
  rw [forEachSetBit, forEachLoop_eq_filter b b.size 0 (by omega)]
  simp

/-- `for_each_set_bit`, and `for_each_clear_bit` if `invert`, from the search at `pos` on: the positions of the calls,
and whether each `assert(pos < size)` holds. Nothing if the rounds do not suffice. -/
def forEach (b : DynamicBitmap) (invert : Bool) : ℕ → ℕ → Option (List ℕ × Bool)
  | 0, _ => none
  | rounds + 1, pos =>
    match Words.findNext invert b.size b.bits pos with
    | none => some ([], pos < b.size)
    | some idx => (b.forEach invert rounds (idx + 1)).map fun (calls, ok) => (idx :: calls, pos < b.size && ok)

theorem forEach_eq (b : DynamicBitmap) (invert : Bool) (rounds pos : ℕ) (h : b.size < pos + rounds)
    (hpos : pos ≤ b.size) : b.forEach invert rounds pos = some ((range' pos (b.size - pos)).filter (b.test · != invert),
      pos < b.size && b.test (b.size - 1) == invert) := by
  induction rounds generalizing pos with
  | zero => omega
  | succ rounds ih =>
    have hspec := b.isNext invert pos
    rw [hspec.filter_eq, forEach]
    cases hn : Words.findNext invert b.size b.bits pos with
    | none =>
      rw [hn] at hspec
      by_cases hlt : pos < b.size
      · have hlast := hspec (b.size - 1) (by omega) (by omega)
        simp_all
      · simp [hlt]
    | some idx =>
      rw [hn] at hspec
      obtain ⟨hle, hlt, hset, -⟩ := hspec
      have hfrom : pos < b.size := by omega
      simp only [ih (idx + 1) (by omega) (by omega), Option.map_some, hfrom]
      by_cases hlast : idx + 1 < b.size
      · simp [hlast]
      · have hidx : b.size - 1 = idx := by omega
        simp_all

/-- `bitmap<N>` has the words and the functions of a bitmap whose size is always `N`. -/
def ofStatic (n : ℕ) : DynamicBitmap :=
  ⟨n, replicate ((n + 7) / 8) 0, by rw [length_replicate]; omega⟩

theorem test_resize_resize (b : DynamicBitmap) {m k i : ℕ} (h : i < k) :
    ((b.resize m).resize k).test i = (b.test i && decide (i / 64 < (m + 7) / 8)) := by
  have hk : i / 64 < (k + 7) / 8 := by omega
  have hres := Words.test_resize (b.resize m).bits ((k + 7) / 8) i
  rw [decide_eq_true hk, Bool.and_true] at hres
  exact hres.trans (Words.test_resize b.bits ((m + 7) / 8) i)

/-- The calls are always the right ones. The asserts hold if there is a last bit and it is not one to call for. Of the
bits that a bitmap has again after it shrank, those in the words that it kept are as they were. -/
theorem forEach_resize_iff (b : DynamicBitmap) (invert : Bool) (m k : ℕ) :
    (∃ rounds ok, b.forEach invert rounds 0 = some ((range b.size).filter (b.test · != invert), ok) ∧
      (ok = true ↔ 0 < b.size ∧ b.test (b.size - 1) = invert)) ∧
    ((∀ i, m ≤ i → i < k → ((b.resize m).resize k).test i = false) ↔
      ∀ i, m ≤ i → i < k → i / 64 < (m + 7) / 8 → b.test i = false) := by
  constructor
  · have hrun := b.forEach_eq invert (b.size + 1) 0 (by omega) (Nat.zero_le _)
    rw [Nat.sub_zero, ← range_eq_range'] at hrun
    exact ⟨_, _, hrun, by simp⟩
  refine forall_congr' fun i => imp_congr_right fun _ => imp_congr_right fun hk => ?_
  rw [test_resize_resize b hk]
  by_cases hword : i / 64 < (m + 7) / 8 <;> simp [hword]

/-- The last bit is set, there is no bit, and a bit that was dropped comes back. -/
theorem last_bit_asserts : ((ofStatic 1).set 0).forEach false 2 0 = some ([0], false) ∧
    (ofSize 0).forEach true 1 0 = some ([], false) ∧ (((ofSize 64).set 63).resize 8 |>.resize 64).test 63 = true := by
  decide +kernel

end DynamicBitmap
end Junction
