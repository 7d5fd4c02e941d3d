import Mathlib

/-!
# Ordered lists of labelled half-open intervals

A piece spans a half-open range of natural numbers and labels each number of the range with a
value. A list of pieces is read as the partial function sending a number to the label that the
piece around it gives. On lists whose pieces are ordered and disjoint the function does not depend
on the search order, so `value` can be reasoned about through the order-free relation `Maps`.
-/

/-- Types whose elements span a half-open range of natural numbers. -/
class HalfOpen (T : Type*) where
  getStart : T → ℕ
  getEnd : T → ℕ

namespace IntervalCover
open HalfOpen List
variable {S T α β : Type*} [HalfOpen T]

def Contains (t : T) (a : ℕ) : Prop := getStart t ≤ a ∧ a < getEnd t

instance (t : T) (a : ℕ) : Decidable (Contains t a) := inferInstanceAs (Decidable (_ ∧ _))

/-- Every piece ends at or before the start of every later one. -/
def Separated (l : List T) : Prop := l.Pairwise (fun x y => getEnd x ≤ getStart y)

instance (l : List T) : Decidable (Separated l) :=
  inferInstanceAs (Decidable (l.Pairwise (fun x y => getEnd x ≤ getStart y)))

def value (label : T → ℕ → α) (l : List T) (a : ℕ) : Option α :=
  (l.find? (fun t => decide (Contains t a))).map (fun t => label t a)

def Maps (label : T → ℕ → α) (l : List T) (a : ℕ) (v : α) : Prop :=
  ∃ t ∈ l, Contains t a ∧ label t a = v

variable {label : T → ℕ → α} {l m : List T} {t : T} {a : ℕ} {v : α}

@[simp] theorem maps_nil : ¬ Maps label [] a v := by simp [Maps]

@[simp] theorem maps_cons : Maps label (t :: l) a v ↔ (Contains t a ∧ label t a = v) ∨ Maps label l a v := by
  simp [Maps]

@[simp] theorem maps_append : Maps label (l ++ m) a v ↔ Maps label l a v ∨ Maps label m a v := by
  simp [Maps, mem_append, or_and_right, exists_or]

@[simp] theorem maps_reverse : Maps label l.reverse a v ↔ Maps label l a v := by
  simp [Maps]

theorem separated_cons : Separated (t :: l) ↔ (∀ y ∈ l, getEnd t ≤ getStart y) ∧ Separated l := pairwise_cons

theorem Separated.unique (h : Separated l) {x y : T} (hx : x ∈ l) (hy : y ∈ l)
    (hxa : Contains x a) (hya : Contains y a) : x = y := by
  induction l with
  | nil => cases hx
  | cons t l ih =>
    obtain ⟨ht, hl⟩ := separated_cons.1 h
    rcases mem_cons.1 hx with hxt | hxl <;> rcases mem_cons.1 hy with hyt | hyl
    · rw [hxt, hyt]
    · have hxy := ht y hyl
      subst hxt
      simp only [Contains] at hxa hya
      omega
    · have hyx := ht x hxl
      subst hyt
      simp only [Contains] at hxa hya
      omega
    · exact ih hl hxl hyl

theorem value_eq_some_iff (h : Separated l) : value label l a = some v ↔ Maps label l a v := by
  simp only [value, Option.map_eq_some_iff]
  constructor
  · rintro ⟨t, ht, rfl⟩
    exact ⟨t, mem_of_find?_eq_some ht, by simpa using find?_some ht, rfl⟩
  rintro ⟨t, ht, hta, hv⟩
  cases hf : l.find? (fun t => decide (Contains t a)) with
  | none => exact absurd hta (by simpa using find?_eq_none.1 hf t ht)
  | some x =>
    have hx : Contains x a := by simpa using find?_some hf
    exact ⟨x, rfl, by rw [h.unique (mem_of_find?_eq_some hf) ht hx hta, hv]⟩

end IntervalCover
