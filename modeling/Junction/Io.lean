import Mathlib

/-!
# Vectored copies

`GenericCopyv` walks over two lists of spans and copies as much as both current spans hold. The model
gives the single copies in order, each as a pair of a source and a destination cell.
-/

namespace Junction
open List
variable {α β : Type*}

/-- An empty span is replaced by the next one, if there is one. -/
def refill (span : List α) (spans : List (List α)) : Option (List α × List (List α)) :=
  if span.length ≠ 0 then some (span, spans)
  else
    match spans with
    | [] => none
    | span :: spans => some (span, spans)

variable {span span' : List α} {spans spans' : List (List α)}

theorem refill_eq_some (h : refill span spans = some (span', spans')) :
    0 < span.length ∧ span' = span ∧ spans' = spans ∨ span = [] ∧ spans = span' :: spans' := by
  unfold refill at h
  split_ifs at h with hlen
  · cases h
    exact .inl ⟨Nat.pos_of_ne_zero hlen, rfl, rfl⟩
  cases spans with
  | nil => cases h
  | cons span spans =>
    cases h
    exact .inr ⟨eq_nil_of_length_eq_zero (not_not.1 hlen), rfl⟩

theorem refill_eq_none (h : refill span spans = none) : span = [] ∧ spans = [] := by
  unfold refill at h
  split_ifs at h with hlen
  cases spans with
  | nil => exact ⟨eq_nil_of_length_eq_zero (not_not.1 hlen), rfl⟩
  | cons span spans => cases h

set_option linter.unusedVariables false in
def genericCopyvLoop (src : List α) (srcv : List (List α)) (dst : List β) (dstv : List (List β)) :
    List (α × β) :=
  match hsrc : refill src srcv with
  | none => []
  | some (src', srcv') =>
    match hdst : refill dst dstv with
    | none => []
    | some (dst', dstv') =>
      let toCopy := min src'.length dst'.length
      (src'.take toCopy).zip (dst'.take toCopy) ++
        genericCopyvLoop (src'.drop toCopy) srcv' (dst'.drop toCopy) dstv'
termination_by (srcv.length + dstv.length, src.length + dst.length)
decreasing_by
  rcases refill_eq_some hsrc with ⟨hs, rfl, rfl⟩ | ⟨rfl, rfl⟩ <;>
    rcases refill_eq_some hdst with ⟨hd, rfl, rfl⟩ | ⟨rfl, rfl⟩
  · exact Prod.Lex.right _ (by simp only [List.length_drop]; omega)
  · exact Prod.Lex.left _ _ (by simp)
  · exact Prod.Lex.left _ _ (by simp)
  · exact Prod.Lex.left _ _ (by simp; omega)

def genericCopyv (srcv : List (List α)) (dstv : List (List β)) : List (α × β) :=
  genericCopyvLoop [] srcv [] dstv

theorem refill_flatten
    (h : refill span spans = some (span', spans')) : span ++ spans.flatten = span' ++ spans'.flatten := by
  rcases refill_eq_some h with ⟨_, rfl, rfl⟩ | ⟨rfl, rfl⟩ <;> rfl

theorem zip_append_append {n : ℕ} {a : List α} {b : List β} (ha : n ≤ a.length) (hb : n ≤ b.length)
    (s : List α) (t : List β) : (a ++ s).zip (b ++ t) =
      (a.take n).zip (b.take n) ++ (a.drop n ++ s).zip (b.drop n ++ t) := by
  calc
    (a ++ s).zip (b ++ t) = (a.take n ++ (a.drop n ++ s)).zip (b.take n ++ (b.drop n ++ t)) := by
      simp [← append_assoc, take_append_drop]
    _ = _ := zip_append (by rw [length_take_of_le ha, length_take_of_le hb])

theorem genericCopyvLoop_eq (src : List α) (srcv : List (List α)) (dst : List β) (dstv : List (List β)) :
    genericCopyvLoop src srcv dst dstv = (src ++ srcv.flatten).zip (dst ++ dstv.flatten) := by
  induction src, srcv, dst, dstv using genericCopyvLoop.induct with
  | case1 src srcv dst dstv hsrc =>
    obtain ⟨rfl, rfl⟩ := refill_eq_none hsrc
    rw [genericCopyvLoop]
    rfl
  | case2 src srcv dst dstv src' srcv' hsrc hdst =>
    obtain ⟨rfl, rfl⟩ := refill_eq_none hdst
    rw [genericCopyvLoop]
    simp only [flatten_nil, append_nil, zip_nil_right]
    split <;> rfl
  | case3 src srcv dst dstv src' srcv' hsrc dst' dstv' hdst toCopy ih =>
    rw [genericCopyvLoop, refill_flatten hsrc, refill_flatten hdst,
      zip_append_append (Nat.min_le_left src'.length dst'.length) (Nat.min_le_right _ _), ← ih]
    split
    · rename_i h
      rw [hsrc] at h
      cases h
    rename_i h
    rw [hsrc] at h
    cases h
    split
    · rename_i h
      rw [hdst] at h
      cases h
    rename_i h
    rw [hdst] at h
    cases h
    rfl

theorem genericCopyv_eq (srcv : List (List α)) (dstv : List (List β)) :
    genericCopyv srcv dstv = srcv.flatten.zip dstv.flatten := by
  simp [genericCopyv, genericCopyvLoop_eq]

/-- The cells of a vector of buffers of the given lengths, numbered throughout. -/
def cellsOf : ℕ → List ℕ → List (List ℕ)
  | _, [] => []
  | first, len :: lens => List.range' first len :: cellsOf (first + len) lens

theorem length_flatten_cellsOf (first : ℕ) (iov : List ℕ) : (cellsOf first iov).flatten.length = iov.sum := by
  induction iov generalizing first with
  | nil => rfl
  | cons len iov ih => simp [cellsOf, ih]

end Junction
