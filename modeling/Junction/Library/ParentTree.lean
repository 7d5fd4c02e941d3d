import Mathlib

/-!
# Trees given by parent pointers

Every node points to at most one parent; climbing follows these pointers. A node whose parent is
changed keeps every other node below the root, as long as the new parent did not climb to it.
-/

namespace ParentTree
open Relation.ReflTransGen
variable {α : Type*} {parent parent' : α → Option α} {root x y m p : α}

def Climbs (parent : α → Option α) : α → α → Prop :=
  Relation.ReflTransGen fun x y => parent x = some y

theorem Climbs.refl (x : α) : Climbs parent x x := Relation.ReflTransGen.refl

theorem Climbs.head (h : parent x = some y) (hy : Climbs parent y p) : Climbs parent x p :=
  Relation.ReflTransGen.head h hy

theorem Climbs.trans (h : Climbs parent x y) (h' : Climbs parent y p) : Climbs parent x p :=
  Relation.ReflTransGen.trans h h'

variable (h : Climbs parent x p)
include h

theorem Climbs.cases : x = p ∨ ∃ y, parent x = some y ∧ Climbs parent y p :=
  cases_head h

theorem Climbs.mono (hsub : ∀ y z, parent y = some z → parent' y = some z) :
    Climbs parent' x p := Relation.ReflTransGen.mono hsub _ _ h

/-- A path that avoids `m` does not see a change of its parent. -/
theorem Climbs.avoid (hm : ¬Climbs parent x m) (hsame : ∀ y, y ≠ m → parent' y = parent y) : Climbs parent' x p := by
  induction h using head_induction_on with
  | refl => exact Climbs.refl p
  | @head x y hxy _ ih =>
    have hne : x ≠ m := by
      rintro rfl
      exact hm (Climbs.refl x)
    exact Climbs.head ((hsame x hne).trans hxy) (ih fun hy => hm (Climbs.head hxy hy))

omit h

/-- After `m` got a parent that was not below it, every node still climbs to the root. -/
theorem Climbs.reparent (hx : Climbs parent x root) (hp : Climbs parent p root)
    (hm : ¬Climbs parent p m) (hsame : ∀ y, y ≠ m → parent' y = parent y)
    (hnew : parent' m = some p) : Climbs parent' x root := by
  induction hx using head_induction_on with
  | refl => exact Climbs.refl root
  | @head x y hxy _ ih =>
    by_cases hxm : x = m
    · exact Climbs.head (hxm ▸ hnew) (hp.avoid hm hsame)
    · exact Climbs.head ((hsame x hxm).trans hxy) ih

theorem Climbs.eq_of_leaf (h : Climbs parent x m) (hleaf : ∀ y, parent y ≠ some m) : x = m := by
  rcases cases_tail h with heq | ⟨y, _, hy⟩
  · exact heq.symm
  · exact absurd hy (hleaf y)

theorem Climbs.eq_root (hroot : parent root = some root) (h : Climbs parent root y) : y = root := by
  induction h with
  | refl => rfl
  | tail _ hstep ih =>
    rw [ih, hroot] at hstep
    exact (Option.some.inj hstep).symm

theorem Climbs.eq_root_of_cycle (hroot : parent root = some root) (hx : Climbs parent x root)
    (hstep : parent x = some y) (hy : Climbs parent y x) : x = root := by
  induction hx using head_induction_on generalizing y with
  | refl => rfl
  | @head x z hxz _ ih =>
    obtain rfl : z = y := Option.some.inj (hxz.symm.trans hstep)
    rcases hy.cases with rfl | ⟨c, hzc, hc⟩
    · exact ih hstep (Climbs.refl z)
    · obtain rfl := ih hzc (hc.trans (Climbs.head hxz (Climbs.refl z)))
      exact Climbs.eq_root hroot hy

end ParentTree
