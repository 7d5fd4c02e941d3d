import Mathlib

/-!
# Tables of weak references

Objects have numbers in the order in which they are made. A table maps names to objects and does not keep
them alive: an entry whose object has expired counts as free. The list `bound` says under which names an
object was ever entered, and no operation depends on it. If a name is erased only when no live object was
entered under it, the table finds exactly the live objects, each under the names that it was entered under.
-/

structure WeakTable (ν : Type*) where
  next : ℕ
  live : ℕ → Bool
  entry : ν → Option ℕ
  bound : List (ν × ℕ)

namespace WeakTable
open Function
variable {ν : Type*} {t t' : WeakTable ν}

def empty : WeakTable ν := ⟨0, fun _ => false, fun _ => none, []⟩

def find (t : WeakTable ν) (n : ν) : Option ℕ := (t.entry n).filter t.live

def make (t : WeakTable ν) : WeakTable ν :=
  { t with next := t.next + 1, live := update t.live t.next true }

def expire (t : WeakTable ν) (k : ℕ) : WeakTable ν := { t with live := update t.live k false }

section Names
variable [DecidableEq ν]

def enter (t : WeakTable ν) (n : ν) (k : ℕ) : WeakTable ν :=
  { t with entry := update t.entry n (some k), bound := (n, k) :: t.bound }

def erase (t : WeakTable ν) (n : ν) : WeakTable ν := { t with entry := update t.entry n none }

def Unclaimed (t : WeakTable ν) (n : ν) : Prop := ∀ e ∈ t.bound, e.1 = n → t.live e.2 = false

instance (t : WeakTable ν) (n : ν) : Decidable (t.Unclaimed n) :=
  inferInstanceAs (Decidable (∀ e ∈ t.bound, e.1 = n → t.live e.2 = false))

/-- What a user may do: names are entered for live objects where the table finds none, and erased where no
live object was entered. -/
inductive Step : WeakTable ν → WeakTable ν → Prop
  | make (t : WeakTable ν) : Step t t.make
  | expire (t : WeakTable ν) (k : ℕ) : Step t (t.expire k)
  | enter (t : WeakTable ν) (n : ν) (k : ℕ) (hlive : t.live k = true) (hfree : t.find n = none) :
      Step t (t.enter n k)
  | erase (t : WeakTable ν) (n : ν) (hunclaimed : t.Unclaimed n) : Step t (t.erase n)

end Names

/-- The entries of live objects are the names under which they were entered. -/
structure Exact (t : WeakTable ν) : Prop where
  live_lt : ∀ k, t.live k = true → k < t.next
  entry_lt : ∀ n k, t.entry n = some k → k < t.next
  bound_lt : ∀ n k, (n, k) ∈ t.bound → k < t.next
  entry_iff : ∀ n k, t.live k = true → (t.entry n = some k ↔ (n, k) ∈ t.bound)

namespace Exact

theorem empty : Exact (empty : WeakTable ν) where
  live_lt _ := nofun
  entry_lt _ _ := nofun
  bound_lt _ _ := nofun
  entry_iff _ _ := nofun

variable (h : Exact t)
include h

theorem find_iff (n : ν) (k : ℕ) : t.find n = some k ↔ t.live k ∧ (n, k) ∈ t.bound := by
  rw [find, Option.filter_eq_some_iff, and_comm]
  exact and_congr_right fun hlive => h.entry_iff n k hlive

theorem make : Exact t.make where
  live_lt k hk := by
    change update t.live t.next true k = true at hk
    rw [update_apply] at hk
    split_ifs at hk with hnew
    · exact hnew ▸ Nat.lt_succ_self _
    · exact (h.live_lt k hk).trans (Nat.lt_succ_self _)
  entry_lt n k hk := (h.entry_lt n k hk).trans (Nat.lt_succ_self _)
  bound_lt n k hk := (h.bound_lt n k hk).trans (Nat.lt_succ_self _)
  entry_iff n k hk := by
    change update t.live t.next true k = true at hk
    rw [update_apply] at hk
    split_ifs at hk with hnew
    · subst hnew
      exact ⟨fun he => absurd (h.entry_lt n _ he) (lt_irrefl _), fun hb => absurd (h.bound_lt n _ hb) (lt_irrefl _)⟩
    · exact h.entry_iff n k hk

theorem expire (k : ℕ) : Exact (t.expire k) := by
  have hlive : ∀ j, (t.expire k).live j → t.live j := by
    intro j hj
    change update t.live k false j = true at hj
    rw [update_apply] at hj
    split_ifs at hj
    exact hj
  exact ⟨fun j hj => h.live_lt j (hlive j hj), h.entry_lt, h.bound_lt, fun n j hj => h.entry_iff n j (hlive j hj)⟩

section Names
variable [DecidableEq ν]

theorem enter {n : ν} {k : ℕ} (hlive : t.live k) (hfree : t.find n = none) : Exact (t.enter n k) where
  live_lt := h.live_lt
  entry_lt m j hj := by
    change update t.entry n (some k) m = some j at hj
    rw [update_apply] at hj
    split_ifs at hj
    · exact Option.some.inj hj ▸ h.live_lt k hlive
    · exact h.entry_lt m j hj
  bound_lt m j hj := by
    rcases List.mem_cons.1 hj with heq | hmem
    · cases heq
      exact h.live_lt k hlive
    · exact h.bound_lt m j hmem
  entry_iff m j hj := by
    change update t.entry n (some k) m = some j ↔ (m, j) ∈ (n, k) :: t.bound
    rw [update_apply, List.mem_cons, Prod.mk.injEq]
    split_ifs with hname
    · subst hname
      have hother : (m, j) ∉ t.bound := by
        intro hmem
        exact Option.filter_eq_none_iff.1 hfree j ((h.entry_iff m j hj).2 hmem) hj
      simp [hother, eq_comm]
    · simp [hname, h.entry_iff m j hj]

theorem erase {n : ν} (hunclaimed : t.Unclaimed n) : Exact (t.erase n) := { h with
  entry_lt m j hj := by
    change update t.entry n none m = some j at hj
    rw [update_apply] at hj
    split_ifs at hj
    exact h.entry_lt m j hj
  entry_iff m j hj := by
    change t.live j = true at hj
    change update t.entry n none m = some j ↔ (m, j) ∈ t.bound
    rw [update_apply]
    split_ifs with hname
    · refine iff_of_false nofun fun hmem => ?_
      have hdead := hunclaimed (m, j) hmem hname
      rw [hdead] at hj
      cases hj
    · exact h.entry_iff m j hj }

theorem step (hstep : Step t t') : Exact t' := by
  cases hstep with
  | make => exact h.make
  | expire k => exact h.expire k
  | enter n k hlive hfree => exact h.enter hlive hfree
  | erase n hunclaimed => exact h.erase hunclaimed

theorem steps (hsteps : Relation.ReflTransGen Step t t') : Exact t' := by
  induction hsteps with
  | refl => exact h
  | tail _ hlast ih => exact ih.step hlast

end Names
end Exact
end WeakTable
