import Mathlib

/-!
# Reader-writer locks

The owners of a reader-writer lock: one thread that owns it exclusively, or a finite set of threads that share it.
The lock is free if the set is empty. It is counted as `-1` for an exclusive owner and as the number of owners
otherwise.
-/

inductive LockMode where
  | exclusive
  | shared
deriving DecidableEq

inductive LockOwners (τ : Type*) where
  | exclusive (owner : τ)
  | shared (owners : Finset τ)

namespace LockOwners
open Finset
variable {τ : Type*}

def Owns : LockOwners τ → LockMode → τ → Prop
  | .exclusive owner, .exclusive, th => th = owner
  | .shared owners, .shared, th => th ∈ owners
  | _, _, _ => False

def count : LockOwners τ → ℤ
  | .exclusive _ => -1
  | .shared owners => owners.card

def Admits : LockOwners τ → LockMode → Prop
  | .shared owners, .exclusive => owners = ∅
  | .shared _, .shared => True
  | .exclusive _, _ => False

variable {mode : LockMode}

@[simp] theorem owns_exclusive {owner th : τ} : (exclusive owner).Owns mode th ↔ mode = .exclusive ∧ th = owner := by
  cases mode <;> simp [Owns]

variable {th : τ}

@[simp] theorem owns_shared {owners : Finset τ} : (shared owners).Owns mode th ↔ mode = .shared ∧ th ∈ owners := by
  cases mode <;> simp [Owns]

variable {a : LockOwners τ}

theorem count_of_owns_exclusive (h : a.Owns .exclusive th) : a = .exclusive th := by
  cases a with
  | exclusive owner => rw [(owns_exclusive.mp h).2]
  | shared owners => cases (owns_shared.mp h).1

theorem admits_exclusive_iff : a.Admits .exclusive ↔ a.count = 0 := by
  cases a with
  | exclusive | shared => simp [Admits, count]

theorem admits_shared_iff : a.Admits .shared ↔ 0 ≤ a.count := by
  cases a with
  | exclusive | shared => simp [Admits, count]

theorem not_owns_of_count_zero (h : a.count = 0) (mode : LockMode) (th : τ) : ¬ a.Owns mode th := by
  cases a with
  | exclusive owner => cases h
  | shared owners =>
    have hempty : owners = ∅ := by simpa [count] using h
    simp [hempty]

variable [DecidableEq τ]

def grant (a : LockOwners τ) (mode : LockMode) (th : τ) : LockOwners τ :=
  match mode, a with
  | .shared, .shared owners => .shared (insert th owners)
  | .shared, .exclusive owner => .exclusive owner
  | .exclusive, _ => .exclusive th

def leave (a : LockOwners τ) (th : τ) : LockOwners τ :=
  match a with
  | .exclusive owner => if owner = th then .shared ∅ else .exclusive owner
  | .shared owners => .shared (owners.erase th)

def grantAll (a : LockOwners τ) (mode : LockMode) (ths : List τ) : LockOwners τ :=
  ths.foldl (fun a th => a.grant mode th) a

theorem owns_grant (hadmits : a.Admits mode) {th u : τ} {mode' : LockMode} :
    (a.grant mode th).Owns mode' u ↔ a.Owns mode' u ∨ (mode' = mode ∧ u = th) := by
  cases a with
  | exclusive owner => exact hadmits.elim
  | shared owners =>
    cases mode with
    | exclusive =>
      have hempty : owners = ∅ := hadmits
      simp [grant, hempty]
    | shared =>
      simp only [grant, owns_shared, mem_insert]
      tauto

theorem count_grant_shared (hadmits : a.Admits .shared)
    (hnew : ¬ a.Owns .shared th) : (a.grant .shared th).count = a.count + 1 := by
  cases a with
  | exclusive owner => exact hadmits.elim
  | shared owners =>
    have hmem : th ∉ owners := fun h => hnew (owns_shared.mpr ⟨rfl, h⟩)
    simp [grant, count, card_insert_of_notMem hmem]

theorem owns_leave {th u : τ} : (a.leave th).Owns mode u ↔ a.Owns mode u ∧ u ≠ th := by
  cases a with
  | exclusive owner =>
    by_cases h : owner = th
    · simp [leave, h]
    simp only [leave, if_neg h, owns_exclusive]
    constructor
    · rintro ⟨hmode, rfl⟩
      exact ⟨⟨hmode, rfl⟩, h⟩
    · exact fun hu => hu.1
  | shared owners =>
    simp only [leave, owns_shared, mem_erase]
    tauto

theorem leave_eq_self (h : ∀ mode, ¬ a.Owns mode th) : a.leave th = a := by
  cases a with
  | exclusive owner =>
    have hne : owner ≠ th := fun heq => h .exclusive (owns_exclusive.mpr ⟨rfl, heq.symm⟩)
    exact if_neg hne
  | shared owners =>
    have hmem : th ∉ owners := fun hmem => h .shared (owns_shared.mpr ⟨rfl, hmem⟩)
    rw [leave, erase_eq_of_notMem hmem]

theorem count_leave_exclusive (h : a.Owns .exclusive th) : (a.leave th).count = 0 := by
  rw [count_of_owns_exclusive h]
  simp [leave, count]

theorem count_leave_shared (h : a.Owns .shared th) : (a.leave th).count = a.count - 1 := by
  cases a with
  | exclusive owner => cases (owns_exclusive.mp h).1
  | shared owners =>
    have hmem := (owns_shared.mp h).2
    have hpos : 0 < owners.card := card_pos.mpr ⟨th, hmem⟩
    simp only [leave, count, card_erase_of_mem hmem]
    omega

theorem admits_shared_leave (h : a.Owns .shared th) : (a.leave th).Admits .shared := by
  cases a with
  | exclusive owner => cases (owns_exclusive.mp h).1
  | shared owners => trivial

variable (hadmits : a.Admits .shared)
include hadmits

theorem admits_shared_grant (th : τ) : (a.grant .shared th).Admits .shared := by
  cases a with
  | exclusive owner => exact hadmits.elim
  | shared owners => trivial

theorem owns_grantAll_shared {ths : List τ} {u : τ} :
    (a.grantAll .shared ths).Owns mode u ↔ a.Owns mode u ∨ (mode = .shared ∧ u ∈ ths) := by
  induction ths generalizing a with
  | nil => simp [grantAll]
  | cons th ths ih =>
    have hrest : (a.grantAll .shared (th :: ths)) = (a.grant .shared th).grantAll .shared ths := rfl
    rw [hrest, ih (admits_shared_grant hadmits th), owns_grant hadmits, List.mem_cons]
    tauto

theorem count_grantAll_shared {ths : List τ} (hnodup : ths.Nodup) (hnew : ∀ th ∈ ths, ¬ a.Owns .shared th) :
    (a.grantAll .shared ths).count = a.count + ths.length := by
  induction ths generalizing a with
  | nil => simp [grantAll]
  | cons th ths ih =>
    obtain ⟨hth, hths⟩ := List.nodup_cons.mp hnodup
    have hrest : ∀ u ∈ ths, ¬ (a.grant .shared th).Owns .shared u := by
      intro u hu
      rw [owns_grant hadmits]
      rintro (hown | ⟨-, rfl⟩)
      · exact hnew u (List.mem_cons_of_mem th hu) hown
      · exact hth hu
    have hcount := count_grant_shared hadmits (hnew th List.mem_cons_self)
    have hall := ih (admits_shared_grant hadmits th) hths hrest
    change ((a.grant .shared th).grantAll .shared ths).count = _
    rw [hall, hcount, List.length_cons]
    push_cast
    ring

end LockOwners
