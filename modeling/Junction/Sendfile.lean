import Junction.Base

/-!
# Copying between descriptors

`usys_sendfile` reads into a zeroed buffer of `count` bytes and writes all of the buffer, however little was read. The
read has moved the position of the input by then, and nothing moves it back.
-/

namespace Junction
open List

/-- A call, as the files answer it. Reads of the input may leave the position alone, as those of a pipe do, and the
output moves that position too if both descriptors are one open file and no `offset` is given. -/
structure Sendfile where
  usable : Bool
  moves : Bool
  shared : Bool
  pos : ℕ
  count : ℕ
  read : Status (List UInt8)
  write : List UInt8 → Status ℕ

/-- What the call returns, the position of the input after it and the bytes that the output took. -/
structure Sent where
  answer : Status ℕ
  pos : ℕ
  written : List UInt8

namespace Sendfile
variable (c : Sendfile) (input : List UInt8)

def buf (data : List UInt8) : List UInt8 := data ++ replicate (c.count - data.length) 0

def advance (pos n : ℕ) : ℕ := if c.moves then pos + n else pos

def usysSendfile : Sent :=
  if !c.usable then ⟨.error .EBADF, c.pos, []⟩
  else match c.read with
    | .error e => ⟨.error e, c.pos, []⟩
    | .ok data =>
      let off := c.advance c.pos data.length
      match c.write (c.buf data) with
      | .error e => ⟨.error e, off, []⟩
      | .ok n => ⟨.ok n, if c.shared then c.advance off n else off, (c.buf data).take n⟩

/-- `input` holds the bytes from the position on. -/
def Conserves : Prop :=
  match c.usysSendfile.answer with
  | .ok n => c.usysSendfile.written.length = n ∧ c.usysSendfile.written = input.take n ∧
      c.usysSendfile.pos = c.pos + n ∧ (input = [] → n = 0)
  | .error _ => c.usysSendfile.pos = c.pos

/-- After a read of `data` the output takes just these bytes and they move the position once, or it takes nothing and
the position has not moved. -/
def Matched (data : List UInt8) : Prop :=
  match c.write (c.buf data) with
  | .ok n => data <+: input ∧ n = data.length ∧ c.moves = true ∧ c.shared = false ∨ n = 0 ∧ (data = [] ∨ c.moves = false)
  | .error _ => data = [] ∨ c.moves = false

variable {c input}

/-- The hypotheses say that only the end of the input gives no bytes and that no file takes more than it is given. -/
theorem conserves_iff (hend : c.read = .ok [] → c.count = 0 ∨ input = [])
    (hwrite : ∀ data n, c.write data = .ok n → n ≤ data.length) :
    c.Conserves input ↔ (c.usable = true → ∀ data, c.read = .ok data → c.Matched input data) := by
  unfold Conserves usysSendfile Matched
  cases husable : c.usable with
  | false => simp
  | true =>
    cases hread : c.read with
    | error e => simp
    | ok data =>
      simp only [Bool.not_true, Bool.false_eq_true, if_false, forall_const, Except.ok.injEq, forall_eq', advance]
      cases hout : c.write (c.buf data) with
      | error e => cases c.moves <;> simp
      | ok n =>
        have hlen : ((c.buf data).take n).length = n := by simpa using hwrite _ _ hout
        have hdata : (c.buf data).take data.length = data := by simp [buf]
        simp only [hlen]
        cases hmoves : c.moves with
        | false => cases n <;> simp
        | true =>
          cases hshared : c.shared with
          | false =>
            constructor
            · rintro ⟨-, hbytes, hpos, -⟩
              obtain rfl : data.length = n := by simpa using hpos
              exact .inl ⟨hdata ▸ hbytes ▸ take_prefix _ _, rfl, rfl, rfl⟩
            rintro (⟨⟨rest, rfl⟩, rfl, -⟩ | ⟨rfl, rfl | h⟩)
            · simp +contextual [hdata]
            · simp
            · cases h
          | true =>
            have hnone : data = [] → input = [] ∨ n = 0 := by
              rintro rfl
              refine (hend hread).symm.imp_right fun hcount => ?_
              simpa [buf, hcount] using hwrite _ _ hout
            constructor
            · rintro ⟨-, -, hpos, hzero⟩
              obtain rfl : data = [] := by simpa using hpos
              exact .inr ⟨(hnone rfl).elim hzero id, .inl rfl⟩
            rintro (⟨-, -, -, h⟩ | ⟨rfl, rfl | h⟩)
            · cases h
            · simp
            · cases h

theorem conserves_whole : Conserves ⟨true, true, false, 5, 2, .ok [7, 8], fun buf => .ok buf.length⟩ [7, 8, 9] :=
  (conserves_iff (by simp) (by simp)).2 fun _ data hdata => by
    cases hdata
    simp [Matched, buf]

/-- Two bytes are asked for and the input has one. -/
theorem sendfile_padded : let c : Sendfile := ⟨true, true, false, 5, 2, .ok [7], fun buf => .ok buf.length⟩
    c.usysSendfile = ⟨.ok 2, 6, [7, 0]⟩ ∧ ¬ c.Conserves [7] := by
  refine ⟨rfl, ?_⟩
  rintro ⟨-, -, h, -⟩
  cases h

end Sendfile
end Junction
