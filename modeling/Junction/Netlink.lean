import Junction.Base
import Junction.Library.Run

/-!
# Netlink replies

`ReadvFrom` returns the result of its last read, not the sum of all, and a response that does not fit in the channel is
written in part. The channel is the list of its bytes, as its calls that run alone leave it.
-/

namespace Junction
open List

/-- Beside the channel stand the responses that fitted and the bytes that callers were told of. -/
structure Netlink where
  data : List UInt8
  responses : List UInt8
  delivered : List UInt8

inductive NetlinkCall
  | query (response : List UInt8)
  /-- `recvfrom` has one buffer. -/
  | recv (rooms : List ℕ)

namespace Netlink

/-- The result, the bytes in the buffers, and what stays in the channel. -/
def readvFrom : List ℕ → Status ℕ → List UInt8 → Status ℕ × List UInt8 × List UInt8
  | [], ret, data => (ret, [], data)
  | room :: rooms, _, data =>
    if min room data.length = 0 then (.error .EAGAIN, [], data)
    else
      let r := readvFrom rooms (.ok (min room data.length)) (data.drop room)
      (r.1, data.take room ++ r.2.1, r.2.2)

variable (s : Netlink)

def step : NetlinkCall → Netlink
  | .query response =>
    { s with
      data := s.data ++ response.take (kPageSize - s.data.length)
      responses := if response.length ≤ kPageSize - s.data.length then s.responses ++ response else s.responses }
  | .recv rooms =>
    let r := readvFrom rooms (.ok 0) s.data
    { s with data := r.2.2, delivered := s.delivered ++ r.2.1.take (r.1.toOption.getD 0) }

/-- The response fits or finds no room at all; there is one buffer, or nothing is read into the first. -/
def Whole : NetlinkCall → Prop
  | .query response => response.length ≤ kPageSize - s.data.length ∨ kPageSize ≤ s.data.length
  | .recv rooms => rooms.length ≤ 1 ∨ s.data = [] ∨ rooms.head? = some 0

def Streamed : Prop := s.delivered ++ s.data = s.responses

variable {s}

theorem readvFrom_append (rooms : List ℕ) (ret : Status ℕ) (data : List UInt8) :
    (readvFrom rooms ret data).2.1 ++ (readvFrom rooms ret data).2.2 = data := by
  induction rooms generalizing ret data with
  | nil => rfl
  | cons room rooms ih =>
    unfold readvFrom
    split_ifs
    · rfl
    · rw [append_assoc, ih, take_append_drop]

theorem reported_of_whole {rooms : List ℕ} (h : s.Whole (.recv rooms)) :
    (readvFrom rooms (.ok 0) s.data).1.toOption.getD 0 = (readvFrom rooms (.ok 0) s.data).2.1.length := by
  match rooms with
  | [] => rfl
  | room :: rooms =>
    unfold readvFrom
    split_ifs with hnone
    · rfl
    · obtain rfl : rooms = [] := by simp_all [Whole]
      simp [readvFrom, Except.toOption]

theorem Streamed.step {call : NetlinkCall} (h : s.Streamed) (hcall : s.Whole call) : (s.step call).Streamed := by
  unfold Streamed at h ⊢
  cases call with
  | query response =>
    dsimp only [Netlink.step]
    split_ifs with hfits
    · rw [take_of_length_le hfits, ← append_assoc, h]
    · simp [Nat.sub_eq_zero_of_le (hcall.resolve_left hfits), h]
  | recv rooms =>
    simp only [Netlink.step, reported_of_whole hcall, take_length, append_assoc, readvFrom_append, h]

def after (calls : List NetlinkCall) : Netlink := Run.exec step ⟨[], [], []⟩ calls

end Netlink
end Junction
