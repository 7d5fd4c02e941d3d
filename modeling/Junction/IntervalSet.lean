import Junction.Base
import Junction.Library.IntervalCover

/-!
# Exclusive interval sets

`ExclusiveIntervalSet<T>` keeps its intervals in a `std::map` keyed by their ends. The map is the
list of its entries in key order. An iterator is a cursor: the entries in front of it, nearest
first, and the entries from it on. All loops of the source move one iterator forward, so they
become recursions over the second list that push what they pass onto the first.
-/

namespace Junction
open HalfOpen

class IntervalData (T : Type*) extends HalfOpen T where
  trimTail : T → ℕ → T
  trimHead : T → ℕ → T
  /-- `rhs.TryMergeRight(lhs)`: the widened `rhs`, or `none` where the source returns false. -/
  tryMergeRight : T → T → Option T

instance {T : Type*} [HalfOpen T] : HalfOpen (ℕ × T) where
  getStart e := getStart e.2
  getEnd e := getEnd e.2

structure Cursor (T : Type*) where
  before : List (ℕ × T)
  after : List (ℕ × T)

namespace ExclusiveIntervalSet
open IntervalData
variable {T : Type*} [IntervalData T]

/-- The first entry whose key exceeds `key`. -/
def upperBound (intervals : List (ℕ × T)) (key : ℕ) : Cursor T :=
  ⟨(intervals.takeWhile (fun e => decide (e.1 ≤ key))).reverse,
    intervals.dropWhile (fun e => decide (e.1 ≤ key))⟩

/-- `intervals_.insert(it, {key, item})` for a key below that of `it`, on the entries in front of
`it`. The hint does not decide the place, and an entry already stored under the key stays. -/
def insertBefore (key : ℕ) (item : T) : List (ℕ × T) → List (ℕ × T)
  | [] => [(key, item)]
  | e :: es =>
    if e.1 < key then (key, item) :: e :: es
    else if e.1 = key then e :: es
    else e :: insertBefore key item es

/-- The split of `item` at `start`: its part below `start` is copied in front of the iterator. -/
def splitLeft (start : ℕ) (item : T) (before : List (ℕ × T)) : List (ℕ × T) :=
  if getStart item < start then insertBefore start (trimTail item start) before else before

def clearLoop (start stop : ℕ) : List (ℕ × T) → List (ℕ × T) → Cursor T
  | before, [] => ⟨before, []⟩
  | before, (key, item) :: rest =>
    if getStart item < stop then
      let before := splitLeft start item before
      if getEnd item ≤ stop then clearLoop start stop before rest
      else clearLoop start stop ((key, trimHead item stop) :: before) rest
    else ⟨before, (key, item) :: rest⟩

/-- `Clear(start, end)`, with the iterator it returns. -/
def clear (intervals : List (ℕ × T)) (start stop : ℕ) : Cursor T :=
  let it := upperBound intervals start
  clearLoop start stop it.before it.after

def Cursor.entries (it : Cursor T) : List (ℕ × T) := it.before.reverse ++ it.after

variable (intervals : List (ℕ × T))

def hasOverlap (start stop : ℕ) : Bool :=
  match (upperBound intervals start).after with
  | [] => false
  | (_, item) :: _ => decide (getStart item < stop)

/-- `TryMergeRight(prev, rhs)` with `prev` the entry in front of the cursor, or `end()` when there
is none. A successful merge erases `prev`. -/
def mergePrev : List (ℕ × T) → T → List (ℕ × T) × T
  | [], rhs => ([], rhs)
  | prev :: before, rhs =>
    match tryMergeRight rhs prev.2 with
    | some merged => (before, merged)
    | none => (prev :: before, rhs)

/-- `Insert(item)`. The iterator returned by `insert` points at the entry stored under the key. -/
def insert (intervals : List (ℕ × T)) (item : T) : List (ℕ × T) :=
  let cleared := Cursor.entries (clear intervals (getStart item) (getEnd item))
  let key := getEnd item
  let before := (cleared.takeWhile (fun e => decide (e.1 < key))).reverse
  let after := cleared.dropWhile (fun e => decide (e.1 < key))
  let stored := match after with
    | (k, old) :: rest => if k = key then (old, rest) else (item, after)
    | [] => (item, [])
  let merged := mergePrev before stored.1
  match stored.2 with
  | [] => merged.1.reverse ++ [(key, merged.2)]
  | (k, next) :: rest =>
    let final := mergePrev ((key, merged.2) :: merged.1) next
    final.1.reverse ++ (k, final.2) :: rest

def find (start : ℕ) : Status T :=
  match (upperBound intervals start).after with
  | [] => .error .ENOENT
  | (_, item) :: _ => if start < getStart item then .error .ENOENT else .ok item

/-- `UpperBound(start)`. -/
def firstAbove (intervals : List (ℕ × T)) (start : ℕ) : Status T :=
  match (upperBound intervals start).after with
  | [] => .error .ENOENT
  | (_, item) :: _ => .ok item

/-- The backward scan of `FindFreeRange` over the entries from the last to the first. -/
def scanBack (len : ℕ) : ℕ → List (ℕ × T) → ℕ
  | prevStart, [] => prevStart
  | prevStart, (key, item) :: rest =>
    if subWord prevStart key < len then scanBack len (getStart item) rest else prevStart

def findFreeBack (len upperLim lowerLim : ℕ) : Status ℕ :=
  let addr := subWord (scanBack len upperLim intervals.reverse) len
  if addr < lowerLim then .error .ENOMEM else .ok addr

/-- `prev_end` of `FindFreeRange`. The first entry of the map counts as `lower_lim`. When the
occupied entry is the first, `std::prev(it)` is undefined and `undef` stands for the end it reads. -/
def prevEnd (lowerLim undef : ℕ) : List (ℕ × T) → ℕ
  | [] => undef
  | [_] => lowerLim
  | prev :: _ => prev.1

def nextStart (upperLim : ℕ) : List (ℕ × T) → ℕ
  | [] => upperLim
  | next :: _ => getStart next.2

/-- `FindFreeRange(hint, len, upper_lim, lower_lim)`. -/
def findFreeRange (intervals : List (ℕ × T)) (hint len upperLim lowerLim undef : ℕ) : Status ℕ :=
  if hint = 0 then findFreeBack intervals len upperLim lowerLim
  else
    let it := upperBound intervals hint
    match it.after with
    | [] => .ok hint
    | (key, item) :: rest =>
      if addWord hint len ≤ getStart item then .ok hint
      else
        let newStart := subWord (getStart item) len
        if prevEnd lowerLim undef it.before ≤ newStart then .ok newStart
        else
          let newEnd := addWord key len
          if newEnd ≤ nextStart upperLim rest then .ok (getEnd item)
          else findFreeBack intervals len upperLim lowerLim

/-- One iteration of `Modify` on an item that passes the check, as the entries it leaves behind the
iterator. `before` starts with `prev_it`; the unchanged left part of a split item goes between
`prev_it` and the iterator. -/
def modifyItem (start stop : ℕ) (change : T → T) (before : List (ℕ × T)) (key : ℕ) (item : T) :
    List (ℕ × T) :=
  let right := if getStart item < start then trimHead item start else item
  if stop < getEnd right then
    let merged := mergePrev before (change (trimTail right stop))
    (key, trimHead right stop) :: insertBefore stop merged.2 (splitLeft start item merged.1)
  else
    let merged := mergePrev before (change right)
    (key, merged.2) :: splitLeft start item merged.1

def modifyLoop (start stop : ℕ) (check : T → Bool) (change : T → T) :
    List (ℕ × T) → List (ℕ × T) → List (ℕ × T)
  | before, [] => before.reverse
  | before, (key, item) :: rest =>
    if getStart item < stop then
      if check item then
        modifyLoop start stop check change (modifyItem start stop change before key item) rest
      else
        let merged := mergePrev before item
        modifyLoop start stop check change ((key, merged.2) :: merged.1) rest
    else
      let merged := mergePrev before item
      merged.1.reverse ++ (key, merged.2) :: rest

/-- `Modify(start, end, check, change)`. -/
def modify (intervals : List (ℕ × T)) (start stop : ℕ) (check : T → Bool) (change : T → T) :
    List (ℕ × T) :=
  let it := upperBound intervals start
  modifyLoop start stop check change it.before it.after

end ExclusiveIntervalSet

/-- An interval without attributes, as the global pool of address ranges keeps them. -/
structure SimpleInterval where
  start : ℕ
  stop : ℕ
  deriving DecidableEq, Repr

instance : IntervalData SimpleInterval where
  getStart iv := iv.start
  getEnd iv := iv.stop
  trimTail iv newEnd := { iv with stop := newEnd }
  trimHead iv newStart := { iv with start := newStart }
  tryMergeRight rhs lhs := if rhs.start ≠ lhs.stop then none else some { rhs with start := lhs.start }

/-!
### Interval sets as partial functions

An interval type is lawful when trimming keeps the attribute of every address that stays and a merge keeps the
attributes of both sides. Two neighbours merge exactly when the right edge of the first equals the left edge of the
second.
-/

open HalfOpen IntervalData IntervalCover List

class LawfulIntervalData (T : Type*) (α κ : outParam (Type*)) extends IntervalData T where
  attr : T → ℕ → α
  leftEdge : T → κ
  rightEdge : T → κ
  getStart_trimTail (t : T) (e : ℕ) : getStart (trimTail t e) = getStart t
  getEnd_trimTail (t : T) (e : ℕ) : getEnd (trimTail t e) = e
  attr_trimTail (t : T) (e a : ℕ) : attr (trimTail t e) a = attr t a
  leftEdge_trimTail (t : T) (e : ℕ) : leftEdge (trimTail t e) = leftEdge t
  getStart_trimHead (t : T) (s : ℕ) : getStart (trimHead t s) = s
  getEnd_trimHead (t : T) (s : ℕ) : getEnd (trimHead t s) = getEnd t
  attr_trimHead (t : T) (s a : ℕ) : getStart t ≤ s → s ≤ a → attr (trimHead t s) a = attr t a
  rightEdge_trimHead (t : T) (s : ℕ) : getStart t ≤ s → s ≤ getEnd t →
    rightEdge (trimHead t s) = rightEdge t
  tryMergeRight_eq_none_iff (rhs lhs : T) :
    tryMergeRight rhs lhs = none ↔ rightEdge lhs ≠ leftEdge rhs
  getEnd_eq_getStart_of_merge (rhs lhs m : T) : tryMergeRight rhs lhs = some m →
    getEnd lhs = getStart rhs
  getStart_merge (rhs lhs m : T) : tryMergeRight rhs lhs = some m → getStart m = getStart lhs
  getEnd_merge (rhs lhs m : T) : tryMergeRight rhs lhs = some m → getEnd m = getEnd rhs
  attr_merge_left (rhs lhs m : T) (a : ℕ) : tryMergeRight rhs lhs = some m → Contains lhs a →
    attr m a = attr lhs a
  attr_merge_right (rhs lhs m : T) (a : ℕ) : tryMergeRight rhs lhs = some m →
    getStart lhs ≤ getEnd lhs → Contains rhs a → attr m a = attr rhs a
  leftEdge_merge (rhs lhs m : T) : tryMergeRight rhs lhs = some m → leftEdge m = leftEdge lhs
  rightEdge_merge (rhs lhs m : T) : tryMergeRight rhs lhs = some m →
    getStart lhs ≤ getEnd lhs → getStart rhs ≤ getEnd rhs → rightEdge m = rightEdge rhs

namespace ExclusiveIntervalSet
open LawfulIntervalData
variable {T α κ : Type*} [LawfulIntervalData T α κ]

variable (l : List (ℕ × T))

def attrAt (a : ℕ) : Option α := value (fun e a => attr e.2 a) l a

def AttrMaps (a : ℕ) (v : α) : Prop := Maps (fun e a => attr e.2 a) l a v

@[simp] theorem attrMaps_nil (a : ℕ) (v : α) : ¬ AttrMaps ([] : List (ℕ × T)) a v := maps_nil

@[simp] theorem attrMaps_cons (key : ℕ) (item : T) (l : List (ℕ × T)) (a : ℕ) (v : α) :
    AttrMaps ((key, item) :: l) a v ↔
      (getStart item ≤ a ∧ a < getEnd item ∧ attr item a = v) ∨ AttrMaps l a v := by
  simp only [AttrMaps, maps_cons]
  exact or_congr_left and_assoc

@[simp] theorem attrMaps_append (l m : List (ℕ × T)) (a : ℕ) (v : α) :
    AttrMaps (l ++ m) a v ↔ AttrMaps l a v ∨ AttrMaps m a v := maps_append

@[simp] theorem attrMaps_reverse (a : ℕ) (v : α) :
    AttrMaps l.reverse a v ↔ AttrMaps l a v := maps_reverse

theorem attrMaps_imp_mem {l : List (ℕ × T)} {a : ℕ} {v : α} (h : AttrMaps l a v) :
    ∃ e ∈ l, getStart e.2 ≤ a ∧ a < getEnd e.2 := by
  obtain ⟨e, he, hc, _⟩ := h
  exact ⟨e, he, hc⟩

structure WellFormed : Prop where
  keyed : ∀ e ∈ l, e.1 = getEnd e.2
  nonempty : ∀ e ∈ l, getStart e.2 < getEnd e.2
  separated : Separated l

theorem wellFormed_nil : WellFormed ([] : List (ℕ × T)) := ⟨by simp, by simp, List.Pairwise.nil⟩

variable {e : ℕ × T}

theorem wellFormed_cons {l : List (ℕ × T)} : WellFormed (e :: l) ↔ (e.1 = getEnd e.2 ∧ getStart e.2 < getEnd e.2) ∧
      (∀ y ∈ l, getEnd e.2 ≤ getStart y.2) ∧ WellFormed l := by
  constructor
  · rintro ⟨hk, hn, hs⟩
    obtain ⟨he, hl⟩ := separated_cons.1 hs
    exact ⟨⟨hk e (by simp), hn e (by simp)⟩, he, fun y hy => hk y (by simp [hy]), fun y hy => hn y (by simp [hy]), hl⟩
  rintro ⟨⟨hk, hn⟩, he, hl⟩
  refine ⟨?_, ?_, separated_cons.2 ⟨he, hl.separated⟩⟩
  · intro y hy
    rcases mem_cons.1 hy with rfl | hy
    exacts [hk, hl.keyed y hy]
  intro y hy
  rcases mem_cons.1 hy with rfl | hy
  exacts [hn, hl.nonempty y hy]

theorem wellFormed_append {l m : List (ℕ × T)} : WellFormed (l ++ m) ↔ WellFormed l ∧ WellFormed m ∧
      ∀ x ∈ l, ∀ y ∈ m, getEnd x.2 ≤ getStart y.2 := by
  induction l with
  | nil => simp [wellFormed_nil]
  | cons e l ih =>
    rw [cons_append, wellFormed_cons, wellFormed_cons, ih]
    simp only [mem_append, mem_cons, or_imp, forall_and, forall_eq]
    tauto

/-- A cursor's passed entries, nearest first: ordered, and all ending by `bound`. -/
structure Stacked (before : List (ℕ × T)) (bound : ℕ) : Prop where
  wf : WellFormed before.reverse
  below : ∀ e ∈ before, getEnd e.2 ≤ bound

variable {before : List (ℕ × T)} {b : ℕ}

theorem Stacked.mono {c : ℕ} (h : Stacked before b) (hbc : b ≤ c) :
    Stacked before c := ⟨h.wf, fun e he => (h.below e he).trans hbc⟩

variable {key : ℕ}

theorem Stacked.push {t : T} (h : Stacked before b)
    (hkey : key = getEnd t) (ht : getStart t < getEnd t) (hb : b ≤ getStart t) :
    Stacked ((key, t) :: before) (getEnd t) := by
  refine ⟨?_, ?_⟩
  · rw [reverse_cons, wellFormed_append]
    refine ⟨h.wf, wellFormed_cons.2 ⟨⟨hkey, ht⟩, by simp, wellFormed_nil⟩, ?_⟩
    simp only [mem_reverse, mem_singleton, forall_eq]
    exact fun x hx => (h.below x hx).trans hb
  intro e he
  rcases mem_cons.1 he with rfl | he
  · exact le_rfl
  · exact (h.below e he).trans (hb.trans ht.le)

theorem Stacked.pop (h : Stacked (e :: before) b) :
    Stacked before (getStart e.2) ∧ (e.1 = getEnd e.2 ∧ getStart e.2 < getEnd e.2) := by
  have hw := h.wf
  rw [reverse_cons, wellFormed_append] at hw
  obtain ⟨hbefore, he, hsep⟩ := hw
  refine ⟨⟨hbefore, fun x hx => hsep x (by simpa using hx) e (by simp)⟩, ?_⟩
  exact ⟨he.keyed e (by simp), he.nonempty e (by simp)⟩

theorem Stacked.append {before after : List (ℕ × T)} (h : Stacked before b)
    (ha : WellFormed after) (hb : ∀ e ∈ after, b ≤ getStart e.2) : WellFormed (before.reverse ++ after) := by
  rw [wellFormed_append]
  exact ⟨h.wf, ha, fun x hx y hy => (h.below x (by simpa using hx)).trans (hb y hy)⟩

theorem insertBefore_eq (h : Stacked before b) (hb : b < key)
    (item : T) : insertBefore key item before = (key, item) :: before := by
  cases before with
  | nil => rfl
  | cons e before =>
    have hkey : e.1 < key := by
      rw [h.pop.2.1]
      exact (h.below e (by simp)).trans_lt hb
    simp [insertBefore, if_pos hkey]

/-- The effect of one merge attempt: the function is unchanged and the passed entries still end
where the widened item starts. -/
theorem mergePrev_spec {rhs : T} (h : Stacked before b) (hr : getStart rhs < getEnd rhs) (hb : b ≤ getStart rhs) :
    Stacked (mergePrev before rhs).1 (getStart (mergePrev before rhs).2) ∧
      getStart (mergePrev before rhs).2 ≤ getStart rhs ∧
      getEnd (mergePrev before rhs).2 = getEnd rhs ∧
      ∀ key a v, AttrMaps ((key, (mergePrev before rhs).2) :: (mergePrev before rhs).1) a v ↔
        AttrMaps ((key, rhs) :: before) a v := by
  cases before with
  | nil => exact ⟨h.mono hb, le_rfl, rfl, fun _ _ _ => Iff.rfl⟩
  | cons prev before =>
    cases hm : tryMergeRight rhs prev.2 with
    | none =>
      simp only [mergePrev, hm]
      exact ⟨h.mono hb, le_rfl, trivial, fun _ _ _ => trivial⟩
    | some m =>
      simp only [mergePrev, hm]
      obtain ⟨hpop, hkey, hne⟩ := h.pop
      have hjoin := getEnd_eq_getStart_of_merge rhs prev.2 m hm
      have hs := getStart_merge rhs prev.2 m hm
      have he := getEnd_merge rhs prev.2 m hm
      refine ⟨by rw [hs]; exact hpop, by omega, he, ?_⟩
      intro key a v
      obtain ⟨prevKey, lhs⟩ := prev
      have hl := attr_merge_left rhs lhs m a hm
      have hr := attr_merge_right rhs lhs m a hm hne.le
      simp only [Contains] at hl hr
      simp only [attrMaps_cons, ← or_assoc, hs, he]
      apply or_congr_left
      by_cases hc : a < getEnd lhs
      · grind
      · grind

end ExclusiveIntervalSet
end Junction
