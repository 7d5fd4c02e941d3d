import Junction.Library.Slice

/-!
# Logs of stores

A program that fills a memory is seen as the list of its stores. When no two of them overlap, each one can be read back
from the memory at the end, in whatever order they were made. Integers are stored with their low byte first, and a
string ends with a zero byte.
-/

namespace ByteStores
open Slice List Nat

structure Store (α : Type*) where
  addr : ℕ
  data : List α

variable {lo hi mid : ℕ}

namespace Store
variable {α : Type*}

def stop (s : Store α) : ℕ := s.addr + s.data.length

def Apart (s t : Store α) : Prop := s.stop ≤ t.addr ∨ t.stop ≤ s.addr

def Within (lo hi : ℕ) (s : Store α) : Prop := lo ≤ s.addr ∧ s.stop ≤ hi

def Holds (mem : ℕ → α) (s : Store α) : Prop := slice mem s.addr s.data.length = s.data

variable {t : Store α}

theorem Apart.symm {s : Store α} (h : s.Apart t) : t.Apart s := Or.symm h

theorem Within.mono {lo' hi' : ℕ} {s : Store α} (h : s.Within lo hi) (hlo : lo' ≤ lo) (hhi : hi ≤ hi') :
    s.Within lo' hi' := ⟨hlo.trans h.1, h.2.trans hhi⟩

theorem Within.apart {s : Store α} (hs : s.Within lo mid) (ht : t.Within mid hi) : s.Apart t := .inl (hs.2.trans ht.1)

theorem Holds.store {mem : ℕ → α} {s : Store α} (h : s.Holds mem) (hst : s.Apart t) :
    s.Holds (store mem t.addr t.data) := by
  have hsame : slice (Slice.store mem t.addr t.data) s.addr s.data.length = slice mem s.addr s.data.length := by
    apply slice_congr
    intro i hlo hhi
    rcases hst with hle | hle
    · exact store_of_lt _ (hhi.trans_le hle)
    · exact store_of_ge (hle.trans hlo)
  rw [Holds, hsame]
  exact h

end Store

section Log
variable {α : Type*} {mem : ℕ → α} {log : List (Store α)} {s : Store α}

def replay (mem : ℕ → α) (log : List (Store α)) : ℕ → α := log.foldl (fun mem s => store mem s.addr s.data) mem

theorem holds_replay_of_apart (h : s.Holds mem) (hlog : ∀ t ∈ log, s.Apart t) : s.Holds (replay mem log) := by
  induction log generalizing mem with
  | nil => exact h
  | cons t log ih =>
    obtain ⟨ht, hlog⟩ := forall_mem_cons.mp hlog
    exact ih (h.store ht) hlog

theorem holds_replay (h : log.Pairwise Store.Apart) : ∀ s ∈ log, s.Holds (replay mem log) := by
  induction log generalizing mem with
  | nil => nofun
  | cons t log ih =>
    obtain ⟨ht, hlog⟩ := pairwise_cons.mp h
    refine forall_mem_cons.mpr ⟨?_, ih hlog⟩
    have hstored : t.Holds (store mem t.addr t.data) := slice_store mem t.addr t.data
    rw [replay, foldl_cons]
    exact holds_replay_of_apart hstored ht

theorem pairwise_append_of_within {log' : List (Store α)} (h : log.Pairwise Store.Apart)
    (h' : log'.Pairwise Store.Apart) (hlo : ∀ s ∈ log, s.Within lo mid) (hhi : ∀ s ∈ log', s.Within mid hi) :
    (log ++ log').Pairwise Store.Apart :=
  pairwise_append.mpr ⟨h, h', fun s hs t ht => (hlo s hs).apart (hhi t ht)⟩

end Log

/-! ### Integers -/

def bytesOf : ℕ → ℕ → List UInt8
  | 0, _ => []
  | width + 1, n => UInt8.ofNat n :: bytesOf width (n / 256)

def ofBytes : List UInt8 → ℕ
  | [] => 0
  | b :: bytes => b.toNat + 256 * ofBytes bytes

@[simp] theorem length_bytesOf (width n : ℕ) : (bytesOf width n).length = width := by
  induction width generalizing n with
  | zero => rfl
  | succ width ih => rw [bytesOf, length_cons, ih]

theorem ofBytes_bytesOf (width n : ℕ) : ofBytes (bytesOf width n) = n % 256 ^ width := by
  induction width generalizing n with
  | zero => rw [bytesOf, ofBytes, pow_zero, mod_one]
  | succ width ih =>
    have hbyte : (UInt8.ofNat n).toNat = n % 256 := rfl
    rw [bytesOf, ofBytes, ih, hbyte, pow_succ, mul_comm (256 ^ width), mod_mul]

def readWord (mem : ℕ → UInt8) (a : ℕ) : ℕ := ofBytes (slice mem a 8)

def readWords (mem : ℕ → UInt8) (a n : ℕ) : List ℕ := (List.range n).map fun i => readWord mem (a + 8 * i)

def wordStore (a w : ℕ) : Store UInt8 := ⟨a, bytesOf 8 w⟩

def wordStores : ℕ → List ℕ → List (Store UInt8)
  | _, [] => []
  | a, w :: ws => wordStore a w :: wordStores (a + 8) ws

theorem wordStores_append (a : ℕ) (ws ws' : List ℕ) :
    wordStores a (ws ++ ws') = wordStores a ws ++ wordStores (a + 8 * ws.length) ws' := by
  induction ws generalizing a with
  | nil => rfl
  | cons w ws ih =>
    have hnext : a + 8 * (w :: ws).length = a + 8 + 8 * ws.length := by
      rw [length_cons]
      omega
    rw [cons_append, wordStores, ih, wordStores, cons_append, hnext]

variable {a : ℕ} {ws : List ℕ}

theorem within_wordStores {s : Store UInt8} (h : s ∈ wordStores a ws) : s.Within a (a + 8 * ws.length) := by
  induction ws generalizing a with
  | nil => cases h
  | cons w ws ih =>
    rw [length_cons]
    rcases mem_cons.mp h with rfl | h
    · have hstop : (wordStore a w).stop = a + 8 := congrArg (a + ·) (length_bytesOf 8 w)
      exact ⟨le_rfl, by omega⟩
    · exact (ih h).mono (by omega) (by omega)

theorem pairwise_wordStores (a : ℕ) (ws : List ℕ) : (wordStores a ws).Pairwise Store.Apart := by
  induction ws generalizing a with
  | nil => exact List.Pairwise.nil
  | cons w ws ih =>
    refine pairwise_cons.mpr ⟨fun s hs => ?_, ih (a + 8)⟩
    have hstop : (wordStore a w).stop = a + 8 := congrArg (a + ·) (length_bytesOf 8 w)
    exact .inl (hstop.trans_le (within_wordStores hs).1)

theorem readWords_add (mem : ℕ → UInt8) (a m n : ℕ) :
    readWords mem a (m + n) = readWords mem a m ++ readWords mem (a + 8 * m) n := by
  simp only [readWords, range_add, map_append, map_map]
  congr 1
  apply map_congr_left
  intro i _
  simp [Function.comp_apply, mul_add, add_assoc]

theorem readWords_of_holds {mem : ℕ → UInt8} (hws : ∀ w ∈ ws, w < 2 ^ 64)
    (h : ∀ s ∈ wordStores a ws, s.Holds mem) : readWords mem a ws.length = ws := by
  induction ws generalizing a with
  | nil => rfl
  | cons w ws ih =>
    obtain ⟨hw, hws⟩ := forall_mem_cons.mp hws
    obtain ⟨hs, hrest⟩ := forall_mem_cons.mp h
    have hread : readWord mem a = w := by
      have hslice : slice mem a 8 = bytesOf 8 w := by simpa [Store.Holds, wordStore] using hs
      rw [readWord, hslice, ofBytes_bytesOf]
      exact mod_eq_of_lt hw
    have hone : readWords mem a 1 = [w] := by simp [readWords, hread]
    rw [length_cons, add_comm, readWords_add, hone, ih hws hrest, singleton_append]

/-! ### Strings -/

/-- The string at an address, if it ends within `n` bytes. -/
def readString (mem : ℕ → UInt8) (a : ℕ) : ℕ → Option (List UInt8)
  | 0 => none
  | n + 1 => if mem a = 0 then some [] else (readString mem (a + 1) n).map (mem a :: ·)

def stringStores (a : ℕ) (str : List UInt8) : List (Store UInt8) := [⟨a, str⟩, ⟨a + str.length, [0]⟩]

variable {n : ℕ} {str : List UInt8}

theorem readString_of_slice {mem : ℕ → UInt8} (hnul : 0 ∉ str) (hn : str.length < n)
    (hstr : slice mem a str.length = str) (hend : mem (a + str.length) = 0) : readString mem a n = some str := by
  induction str generalizing a n with
  | nil =>
    cases n with
    | zero => cases hn
    | succ n => exact if_pos hend
  | cons b str ih =>
    cases n with
    | zero => cases hn
    | succ n =>
      rw [length_cons, add_comm str.length 1, slice_add] at hstr
      have hb : mem a = b := by simpa [slice] using congrArg (head? ·) hstr
      have hrest : slice mem (a + 1) str.length = str := by simpa [slice] using congrArg tail hstr
      have hnb : mem a ≠ 0 := by
        rintro hzero
        exact hnul (mem_cons.mpr (.inl (hzero.symm.trans hb)))
      have hends : mem (a + 1 + str.length) = 0 := by
        rw [← hend, length_cons, add_right_comm, add_assoc]
      rw [readString, if_neg hnb, ih (fun hmem => hnul (mem_cons_of_mem b hmem)) (lt_of_succ_lt_succ hn)
        hrest hends, hb, Option.map_some]

theorem readString_of_holds {mem : ℕ → UInt8} (hnul : 0 ∉ str) (hn : str.length < n)
    (h : ∀ s ∈ stringStores a str, s.Holds mem) : readString mem a n = some str := by
  obtain ⟨hstr, hrest⟩ := forall_mem_cons.mp h
  have hend : mem (a + str.length) = 0 := by
    simpa [Store.Holds, slice] using hrest _ mem_cons_self
  exact readString_of_slice hnul hn hstr hend

end ByteStores

/-!
### Packed records

A record is a sequence of integers of given widths with nothing between them, and a table a sequence of records of one
size.
-/

namespace Records
open ByteStores List

def encode (fields : List (ℕ × ℕ)) : List UInt8 := fields.flatMap fun f => bytesOf f.1 f.2

def decode : List ℕ → List UInt8 → List ℕ
  | [], _ => []
  | width :: widths, bytes => ofBytes (bytes.take width) :: decode widths (bytes.drop width)

theorem length_encode (fields : List (ℕ × ℕ)) : (encode fields).length = (fields.map Prod.fst).sum := by
  induction fields with
  | nil => rfl
  | cons f fields ih =>
    have hcons : encode (f :: fields) = bytesOf f.1 f.2 ++ encode fields := flatMap_cons
    rw [hcons, length_append, length_bytesOf, ih, map_cons, sum_cons]

theorem decode_encode (fields : List (ℕ × ℕ)) (rest : List UInt8) :
    decode (fields.map Prod.fst) (encode fields ++ rest) = fields.map fun f => f.2 % 256 ^ f.1 := by
  induction fields with
  | nil => rfl
  | cons f fields ih =>
    have hcons : encode (f :: fields) = bytesOf f.1 f.2 ++ encode fields := flatMap_cons
    have hlen : (bytesOf f.1 f.2).length = f.1 := length_bytesOf f.1 f.2
    rw [hcons, append_assoc, map_cons, map_cons, decode, take_left' hlen, drop_left' hlen, ih, ofBytes_bytesOf]

theorem decode_encode_of_fits {fields : List (ℕ × ℕ)} (h : ∀ f ∈ fields, f.2 < 256 ^ f.1) (rest : List UInt8) :
    decode (fields.map Prod.fst) (encode fields ++ rest) = fields.map Prod.snd := by
  rw [decode_encode]
  exact map_congr_left fun f hf => Nat.mod_eq_of_lt (h f hf)

/-! ### Tables -/

section Tables
variable {α : Type*} (size : ℕ) (item : List UInt8 → α)

def decodeTable : ℕ → List UInt8 → List α
  | 0, _ => []
  | n + 1, bytes => item bytes :: decodeTable n (bytes.drop size)

variable {size item} {write : α → List UInt8} {items : List α}

theorem length_table (hsize : ∀ x ∈ items, (write x).length = size) :
    (items.flatMap write).length = size * items.length := by
  induction items with
  | nil => rfl
  | cons x items ih =>
    obtain ⟨hx, hrest⟩ := forall_mem_cons.mp hsize
    rw [flatMap_cons, length_append, hx, ih hrest, length_cons, Nat.mul_succ, Nat.add_comm]

theorem decodeTable_append {rest : List UInt8} (hsize : ∀ x ∈ items, (write x).length = size)
    (hitem : ∀ x ∈ items, ∀ rest, item (write x ++ rest) = x) (n : ℕ) :
    decodeTable size item (items.length + n) (items.flatMap write ++ rest) = items ++ decodeTable size item n rest := by
  induction items with
  | nil => rw [length_nil, Nat.zero_add, flatMap_nil, nil_append, nil_append]
  | cons x items ih =>
    obtain ⟨hx, hrest⟩ := forall_mem_cons.mp hsize
    obtain ⟨hread, hitems⟩ := forall_mem_cons.mp hitem
    rw [length_cons, Nat.add_right_comm, flatMap_cons, append_assoc, decodeTable, hread,
      drop_left' hx, ih hrest hitems, cons_append]

end Tables

end Records
