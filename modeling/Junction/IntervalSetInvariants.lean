import Junction.IntervalSetRefinement

/-!
# Maximal coalescing, and properties of every entry

A set is coalesced when no two neighbours could be merged. `clear` leaves gaps where it cuts, so it
cannot create mergeable neighbours. `insert` tries both borders of the new item. `modify` tries the
border in front of every item it passes; the borders it creates inside an item separate changed from
unchanged attributes, which `AttrUpdate.Splits` asks to differ. A property of items that survives
cuts, merges and the change survives the three operations.
-/

namespace Junction.ExclusiveIntervalSet
open HalfOpen IntervalData IntervalCover LawfulIntervalData List Option
variable {T α κ : Type*} [LawfulIntervalData T α κ]

def Coalesced (l : List (ℕ × T)) : Prop :=
  l.IsChain (fun x y => rightEdge x.2 ≠ leftEdge y.2)

/-- `Coalesced` for the passed entries of a cursor, nearest first. -/
def CoalescedBack (before : List (ℕ × T)) : Prop :=
  before.IsChain (fun y x => rightEdge x.2 ≠ leftEdge y.2)

/-- The nearest passed entry does not merge with `t`. -/
def Unlinked (before : List (ℕ × T)) (t : T) : Prop :=
  ∀ x ∈ before.head?, rightEdge x.2 ≠ leftEdge t

variable {before : List (ℕ × T)}

theorem unlinked_cons {key : ℕ} {t x : T} : Unlinked ((key, x) :: before) t ↔ rightEdge x ≠ leftEdge t := by
  simp [Unlinked]

theorem coalesced_reverse : Coalesced before.reverse ↔ CoalescedBack before := isChain_reverse

theorem coalescedBack_cons {key : ℕ} {t : T} :
    CoalescedBack ((key, t) :: before) ↔ Unlinked before t ∧ CoalescedBack before :=
  isChain_cons

variable {l : List (ℕ × T)}

theorem coalesced_cons {e : ℕ × T} : Coalesced (e :: l) ↔ (∀ y ∈ l.head?, rightEdge e.2 ≠ leftEdge y.2) ∧ Coalesced l :=
  isChain_cons

theorem coalesced_cursor {before after : List (ℕ × T)} : Coalesced (before.reverse ++ after) ↔
      CoalescedBack before ∧ Coalesced after ∧ ∀ y ∈ after.head?, Unlinked before y.2 := by
  rw [Coalesced, isChain_append, getLast?_reverse]
  refine and_congr coalesced_reverse (and_congr_right fun _ => ?_)
  constructor
  · exact fun h y hy x hx => h x hx y hy
  · exact fun h x hx y hy => h y hy x hx

theorem rightEdge_ne_leftEdge {x y : T} (h : getEnd x ≠ getStart y) : rightEdge x ≠ leftEdge y := by
  rw [← tryMergeRight_eq_none_iff, eq_none_iff_forall_ne_some]
  exact fun m hm => h (getEnd_eq_getStart_of_merge y x m hm)

theorem Stacked.unlinked {b : ℕ} {t : T} (h : Stacked before b) (hb : b < getStart t) : Unlinked before t := by
  intro x hx
  apply rightEdge_ne_leftEdge
  have hle := h.below x (mem_of_mem_head? hx)
  omega

theorem mergePrev_coalesced {b : ℕ} {rhs : T} (h : Stacked before b)
    (hr : getStart rhs < getEnd rhs) (hco : CoalescedBack before) :
    Unlinked (mergePrev before rhs).1 (mergePrev before rhs).2 ∧
      CoalescedBack (mergePrev before rhs).1 ∧
      rightEdge (mergePrev before rhs).2 = rightEdge rhs := by
  cases before with
  | nil => exact ⟨by simp [Unlinked, mergePrev], hco, rfl⟩
  | cons prev before =>
    obtain ⟨hlink, hrest⟩ := coalescedBack_cons.1 hco
    cases hm : tryMergeRight rhs prev.2 with
    | none =>
      simp only [mergePrev, hm]
      refine ⟨?_, hco, trivial⟩
      intro x hx
      rw [head?_cons, mem_some_iff] at hx
      rw [← hx]
      exact (tryMergeRight_eq_none_iff rhs prev.2).1 hm
    | some m =>
      simp only [mergePrev, hm]
      refine ⟨?_, hrest, rightEdge_merge rhs prev.2 m hm h.pop.2.2.le hr.le⟩
      intro x hx
      rw [leftEdge_merge rhs prev.2 m hm]
      exact hlink x hx

theorem splitLeft_coalesced {item : T} (start : ℕ) (h : Stacked before (getStart item)) (hco : CoalescedBack before)
    (hlink : Unlinked before item) : CoalescedBack (splitLeft start item before) := by
  by_cases hs : getStart item < start
  · rw [splitLeft, if_pos hs, insertBefore_eq h hs, coalescedBack_cons]
    refine ⟨?_, hco⟩
    intro x hx
    rw [leftEdge_trimTail]
    exact hlink x hx
  · rw [splitLeft, if_neg hs]
    exact hco

variable {start stop : ℕ}

theorem clearLoop_coalesced (hss : start < stop) (before after : List (ℕ × T))
    (hw : WellFormed (before.reverse ++ after)) (hpos : ∀ e ∈ after, start < getEnd e.2)
    (hco : Coalesced (before.reverse ++ after)) : Coalesced (Cursor.entries (clearLoop start stop before after)) := by
  induction after generalizing before with
  | nil => exact hco
  | cons e rest ih =>
    obtain ⟨key, item⟩ := e
    by_cases hlt : getStart item < stop
    · obtain ⟨hst, hkey, hne, hsep, hrest⟩ := cursor_split hw
      obtain ⟨hback, hafter, hlink⟩ := coalesced_cursor.1 hco
      obtain ⟨hnext, hrestco⟩ := coalesced_cons.1 hafter
      obtain ⟨(hend : start < getEnd item), hpos'⟩ := forall_mem_cons.1 hpos
      obtain ⟨hstb, -⟩ := splitLeft_spec hst start
      have hsplit := splitLeft_coalesced start hst hback (hlink (key, item) (by simp))
      by_cases hle : getEnd item ≤ stop
      · simp only [clearLoop, if_pos hlt, if_pos hle]
        apply ih
        · apply hstb.append hrest
          intro e he
          have h₁ := hsep e he
          omega
        · exact hpos'
        refine coalesced_cursor.2 ⟨hsplit, hrestco, fun y hy => hstb.unlinked ?_⟩
        have h₁ := hsep y (mem_of_mem_head? hy)
        omega
      · simp only [clearLoop, if_pos hlt, if_neg hle]
        have hk : key = getEnd (trimHead item stop) := by rw [getEnd_trimHead, hkey]
        have hpush := hstb.push hk (by rw [getStart_trimHead, getEnd_trimHead]; omega)
          (by rw [getStart_trimHead]; omega)
        rw [getEnd_trimHead] at hpush
        apply ih
        · exact hpush.append hrest hsep
        · exact hpos'
        refine coalesced_cursor.2 ⟨coalescedBack_cons.2 ⟨?_, hsplit⟩, hrestco, ?_⟩
        · exact hstb.unlinked (by rw [getStart_trimHead]; omega)
        intro y hy x hx
        rw [head?_cons, mem_some_iff] at hx
        rw [← hx, rightEdge_trimHead item stop hlt.le (by omega)]
        exact hnext y hy
    · simp only [clearLoop, if_neg hlt]
      exact hco

variable (hl : WellFormed l)
include hl

theorem clear_coalesced (hco : Coalesced l) (hss : start < stop) : Coalesced (Cursor.entries (clear l start stop)) := by
  obtain ⟨hsplit, -, habove⟩ := upperBound_spec hl start
  apply clearLoop_coalesced hss
  · rw [hsplit]
    exact hl
  · exact habove
  · rw [hsplit]
    exact hco

theorem insert_coalesced (hco : Coalesced l) {item : T}
    (hi : getStart item < getEnd item) : Coalesced (insert l item) := by
  obtain ⟨before, after, hsplit, hbelow, habove, heq⟩ := insert_eq hl hi
  have hwf := (clear_spec hl hi.le).1
  have hcl := clear_coalesced hl hco hi
  rw [← hsplit] at hwf hcl
  obtain ⟨hback, hafter, -⟩ := coalesced_cursor.1 hcl
  have hst : Stacked before (getStart item) := ⟨(wellFormed_append.1 hwf).1, hbelow⟩
  obtain ⟨hstm, hle, hend, -⟩ := mergePrev_spec hst hi le_rfl
  obtain ⟨hlink, hbm, -⟩ := mergePrev_coalesced hst hi hback
  have hpush := hstm.push hend.symm (by omega) le_rfl
  rw [heq]
  cases after with
  | nil =>
    have hstack : CoalescedBack ((getEnd item, (mergePrev before item).2) ::
        (mergePrev before item).1) := coalescedBack_cons.2 ⟨hlink, hbm⟩
    simpa using coalesced_reverse.2 hstack
  | cons e rest =>
    obtain ⟨k, next⟩ := e
    have hn : getStart next < getEnd next := ((wellFormed_append.1 hwf).2.1).nonempty (k, next) (by simp)
    obtain ⟨hnext, hrest⟩ := coalesced_cons.1 hafter
    obtain ⟨hlink', hbm', hedge⟩ := mergePrev_coalesced hpush hn (coalescedBack_cons.2 ⟨hlink, hbm⟩)
    refine coalesced_cursor.2 ⟨hbm', coalesced_cons.2 ⟨?_, hrest⟩, ?_⟩
    · rw [hedge]
      exact hnext
    intro y hy
    rw [head?_cons, mem_some_iff] at hy
    rw [← hy]
    exact hlink'

omit hl

/-- The borders between changed and unchanged parts of an item that passes the check. -/
structure AttrUpdate.Splits (u : AttrUpdate T) : Prop where
  left (t : T) (s : ℕ) : u.check t = true →
    rightEdge (trimTail t s) ≠ leftEdge (u.change (trimHead t s))
  middle (t : T) (s e : ℕ) : u.check t = true →
    rightEdge (trimTail t s) ≠ leftEdge (u.change (trimTail (trimHead t s) e))
  right (t : T) (e : ℕ) : u.check t = true →
    rightEdge (u.change (trimTail t e)) ≠ leftEdge (trimHead t e)

theorem splitLeft_mergePrev_coalesced {item x : T} {start : ℕ}
    (h : Stacked before (getStart item)) (hx : getStart x = max (getStart item) start)
    (hne : getStart x < getEnd x) (hco : CoalescedBack before) (hcut : getStart item < start →
      Unlinked before item ∧ rightEdge (trimTail item start) ≠ leftEdge x) :
    CoalescedBack (splitLeft start item (mergePrev before x).1) ∧
      Unlinked (splitLeft start item (mergePrev before x).1) (mergePrev before x).2 ∧
      rightEdge (mergePrev before x).2 = rightEdge x := by
  by_cases hs : getStart item < start
  · obtain ⟨hlink, hedge⟩ := hcut hs
    rw [mergePrev_eq_self h (by omega)]
    refine ⟨splitLeft_coalesced start h hco hlink, ?_, rfl⟩
    rw [splitLeft, if_pos hs, insertBefore_eq h hs]
    exact unlinked_cons.2 hedge
  · obtain ⟨hlink, hback, hedge⟩ := mergePrev_coalesced h hne hco
    simp only [splitLeft, if_neg hs]
    exact ⟨hback, hlink, hedge⟩

variable (u : AttrUpdate T)

theorem modifyItem_coalesced {start stop key : ℕ} (hss : start < stop)
    {item : T} (hst : Stacked before (getStart item)) (hne : getStart item < getEnd item) (hend : start < getEnd item)
    (hlt : getStart item < stop) (hc : u.check item) (hco : CoalescedBack before)
    (hlink : getStart item < start → Unlinked before item)
    (hsp : getStart item < start ∨ stop < getEnd item → u.Splits) :
    CoalescedBack (modifyItem start stop u.change before key item) := by
  obtain ⟨right, hright⟩ : ∃ right, right = if getStart item < start then trimHead item start else item := ⟨_, rfl⟩
  obtain ⟨hrs, hre, hra⟩ := cutHead_spec hright
  have hcr : u.check right := by rw [u.check_eq _ (getStart right), hra _ le_rfl, ← u.check_eq, hc]
  simp only [modifyItem, ← hright]
  by_cases hcut : stop < getEnd right
  · have hsplits := hsp (.inr (hre ▸ hcut))
    have hx : getStart (u.change (trimTail right stop)) = max (getStart item) start := by
      rw [u.getStart_change, getStart_trimTail, hrs]
    have hxe : getEnd (u.change (trimTail right stop)) = stop := by
      rw [u.getEnd_change, getEnd_trimTail]
    obtain ⟨hsm, hle, -⟩ := splitLeft_mergePrev_spec hst hx (by omega)
    obtain ⟨hback, hun, hedge⟩ := splitLeft_mergePrev_coalesced hst hx (by omega) hco fun hs => by
      rw [hright, if_pos hs]
      exact ⟨hlink hs, hsplits.middle item start stop hc⟩
    rw [if_pos hcut, insertBefore_eq hsm (by omega)]
    refine coalescedBack_cons.2 ⟨unlinked_cons.2 ?_, coalescedBack_cons.2 ⟨hun, hback⟩⟩
    rw [hedge]
    exact hsplits.right right stop hcr
  · have hx : getStart (u.change right) = max (getStart item) start := by
      rw [u.getStart_change, hrs]
    have hxe : getEnd (u.change right) = getEnd item := by rw [u.getEnd_change, hre]
    obtain ⟨hback, hun, -⟩ := splitLeft_mergePrev_coalesced hst hx (by omega) hco fun hs => by
      rw [hright, if_pos hs]
      exact ⟨hlink hs, (hsp (.inl hs)).left item start hc⟩
    rw [if_neg hcut]
    exact coalescedBack_cons.2 ⟨hun, hback⟩

/-- The loop keeps the passed entries coalesced. An item that is cut on its left keeps the border it
had, so only then the entry in front of it matters. -/
theorem modifyLoop_coalesced (hss : start < stop)
    (before after : List (ℕ × T)) (hw : WellFormed (before.reverse ++ after))
    (hpos : ∀ e ∈ after, start < getEnd e.2) (hback : CoalescedBack before) (hafter : Coalesced after)
    (hlink : ∀ y ∈ after.head?, getStart y.2 < start → Unlinked before y.2)
    (hsp : ∀ e ∈ after, getStart e.2 < start ∨ stop < getEnd e.2 → u.Splits) :
    Coalesced (modifyLoop start stop u.check u.change before after) := by
  induction after generalizing before with
  | nil => exact coalesced_reverse.2 hback
  | cons e rest ih =>
    obtain ⟨key, item⟩ := e
    obtain ⟨hst, hkey, hne, hsep, hrest⟩ := cursor_split hw
    obtain ⟨hnext, hrestco⟩ := coalesced_cons.1 hafter
    obtain ⟨(hend : start < getEnd item), hpos'⟩ := forall_mem_cons.1 hpos
    have hsp' := (forall_mem_cons.1 hsp).2
    have hlink' : ∀ before', ∀ y ∈ rest.head?, getStart y.2 < start → Unlinked before' y.2 := by
      intro before' y hy hlt
      have h₁ := hsep y (mem_of_mem_head? hy)
      omega
    obtain ⟨hstm, hlem, hendm, -⟩ := mergePrev_spec hst hne le_rfl
    obtain ⟨hun, hbm, hedge⟩ := mergePrev_coalesced hst hne hback
    have hkeep := hstm.push (hkey.trans hendm.symm) (by omega) le_rfl
    rw [hendm] at hkeep
    by_cases hlt : getStart item < stop
    · by_cases hc : u.check item
      · obtain ⟨hsm, -⟩ := modifyItem_spec u hss hst hkey hne hend hlt hc
        have hitem : CoalescedBack (modifyItem start stop u.change before key item) :=
          modifyItem_coalesced u hss hst hne hend hlt hc hback (hlink (key, item) (by simp)) (hsp (key, item) (by simp))
        simp only [modifyLoop, if_pos hlt, if_pos hc]
        exact ih _ (hsm.append hrest hsep) hpos' hitem hrestco (hlink' _) hsp'
      · simp only [modifyLoop, if_pos hlt, if_neg hc]
        exact ih _ (hkeep.append hrest hsep) hpos' (coalescedBack_cons.2 ⟨hun, hbm⟩) hrestco (hlink' _) hsp'
    simp only [modifyLoop, if_neg hlt]
    refine coalesced_cursor.2 ⟨hbm, coalesced_cons.2 ⟨?_, hrestco⟩, ?_⟩
    · rw [hedge]
      exact hnext
    intro y hy
    rw [head?_cons, mem_some_iff] at hy
    rw [← hy]
    exact hun

theorem modify_coalesced (hl : WellFormed l) (hco : Coalesced l) (hss : start < stop)
    (hsp : ∀ e ∈ l, getStart e.2 < start ∨ stop < getEnd e.2 → u.Splits) :
    Coalesced (modify l start stop u.check u.change) := by
  obtain ⟨hsplit, -, habove⟩ := upperBound_spec hl start
  rw [← hsplit] at hl hco
  obtain ⟨hback, hafter, hlink⟩ := coalesced_cursor.1 hco
  apply modifyLoop_coalesced u hss _ _ hl habove hback hafter (fun y hy _ => hlink y hy)
  intro e he
  apply hsp
  rw [← hsplit]
  exact mem_append_right _ he

/-- A cut at `c` of an item that starts below `c` keeps the property on both sides. -/
def LeftCutClosed (P : T → Prop) (c : ℕ) : Prop :=
  ∀ t, P t → getStart t < c → P (trimTail t c) ∧ P (trimHead t c)

/-- A cut at `c` of an item that ends above `c` keeps the property on both sides. -/
def RightCutClosed (P : T → Prop) (c : ℕ) : Prop :=
  ∀ t, P t → c < getEnd t → P (trimTail t c) ∧ P (trimHead t c)

def MergeClosed (P : T → Prop) : Prop :=
  ∀ rhs lhs m, P rhs → P lhs → tryMergeRight rhs lhs = some m → P m

section Forall
variable {P : T → Prop} {before after l : List (ℕ × T)} {start stop key : ℕ} {item : T}

theorem forall_insertBefore (h : ∀ e ∈ before, P e.2) (hi : P item) : ∀ e ∈ insertBefore key item before, P e.2 := by
  induction before with
  | nil => simpa [insertBefore] using hi
  | cons x before ih =>
    obtain ⟨hx, hrest⟩ := forall_mem_cons.1 h
    simp only [insertBefore]
    by_cases hlt : x.1 < key
    · rw [if_pos hlt]
      exact forall_mem_cons.2 ⟨hi, h⟩
    rw [if_neg hlt]
    split_ifs with heq
    · exact h
    · exact forall_mem_cons.2 ⟨hx, ih hrest⟩

variable (hcs : LeftCutClosed P start)
include hcs

theorem forall_splitLeft (h : ∀ e ∈ before, P e.2) (hi : P item) : ∀ e ∈ splitLeft start item before, P e.2 := by
  rw [splitLeft]
  split_ifs with hs
  · exact forall_insertBefore h (hcs item hi hs).1
  · exact h

omit hcs in
theorem forall_mergePrev (hm : MergeClosed P) (h : ∀ e ∈ before, P e.2) (hi : P item) :
    (∀ e ∈ (mergePrev before item).1, P e.2) ∧ P (mergePrev before item).2 := by
  cases before with
  | nil => exact ⟨h, hi⟩
  | cons prev before =>
    obtain ⟨hprev, hrest⟩ := forall_mem_cons.1 h
    cases hmerge : tryMergeRight item prev.2 with
    | none =>
      simp only [mergePrev, hmerge]
      exact ⟨h, hi⟩
    | some m =>
      simp only [mergePrev, hmerge]
      exact ⟨hrest, hm item prev.2 m hi hprev hmerge⟩

variable (hce : RightCutClosed P stop)
include hce

theorem forall_clearLoop (hb : ∀ e ∈ before, P e.2) (ha : ∀ e ∈ after, P e.2) :
    ∀ e ∈ Cursor.entries (clearLoop start stop before after), P e.2 := by
  induction after generalizing before with
  | nil => simpa [clearLoop, Cursor.entries] using hb
  | cons x rest ih =>
    obtain ⟨k, item⟩ := x
    obtain ⟨hi, hrest⟩ := forall_mem_cons.1 ha
    have hsplit := forall_splitLeft hcs hb hi
    by_cases hlt : getStart item < stop
    · by_cases hle : getEnd item ≤ stop
      · simp only [clearLoop, if_pos hlt, if_pos hle]
        exact ih hsplit hrest
      · simp only [clearLoop, if_pos hlt, if_neg hle]
        exact ih (forall_mem_cons.2 ⟨(hce item hi (Nat.lt_of_not_le hle)).2, hsplit⟩) hrest
    simp only [clearLoop, if_neg hlt, Cursor.entries, mem_append, mem_reverse]
    rintro e (he | he)
    · exact hb e he
    · exact ha e he

omit hce in
omit hcs in
theorem forall_upperBound (h : ∀ e ∈ l, P e.2) (key : ℕ) :
    (∀ e ∈ (upperBound l key).before, P e.2) ∧ ∀ e ∈ (upperBound l key).after, P e.2 := by
  constructor
  · intro e he
    exact h e ((takeWhile_sublist _).subset (mem_reverse.1 he))
  · intro e he
    exact h e ((dropWhile_sublist _).subset he)

theorem forall_clear (h : ∀ e ∈ l, P e.2) : ∀ e ∈ Cursor.entries (clear l start stop), P e.2 :=
  forall_clearLoop hcs hce (forall_upperBound h start).1 (forall_upperBound h start).2

omit hce in
omit hcs in
theorem forall_insert (hl : WellFormed l) (hi : getStart item < getEnd item)
    (hcs : LeftCutClosed P (getStart item)) (hce : RightCutClosed P (getEnd item)) (hm : MergeClosed P)
    (h : ∀ e ∈ l, P e.2) (hitem : P item) : ∀ e ∈ insert l item, P e.2 := by
  obtain ⟨before, after, hsplit, -, -, heq⟩ := insert_eq hl hi
  have hcl := forall_clear hcs hce h
  rw [← hsplit] at hcl
  have hb : ∀ e ∈ before, P e.2 := fun e he => hcl e (by simp [he])
  have ha : ∀ e ∈ after, P e.2 := fun e he => hcl e (by simp [he])
  obtain ⟨hb', hi'⟩ := forall_mergePrev hm hb hitem
  rw [heq]
  cases after with
  | nil =>
    simp only [mem_append, mem_reverse, mem_singleton]
    rintro e (he | rfl)
    · exact hb' e he
    · exact hi'
  | cons x rest =>
    obtain ⟨hx, hrest⟩ := forall_mem_cons.1 ha
    have hpush : ∀ e ∈ (getEnd item, (mergePrev before item).2) :: (mergePrev before item).1,
        P e.2 := forall_mem_cons.2 ⟨hi', hb'⟩
    obtain ⟨hb'', hx'⟩ := forall_mergePrev hm hpush hx
    simp only [mem_append, mem_reverse, mem_cons]
    rintro e (he | rfl | he)
    · exact hb'' e he
    · exact hx'
    · exact hrest e he

variable {check : T → Bool} {change : T → T}

theorem forall_modifyItem (hm : MergeClosed P)
    (hch : ∀ t, P t → P (change t)) (hb : ∀ e ∈ before, P e.2) (hi : P item) :
    ∀ e ∈ modifyItem start stop change before key item, P e.2 := by
  have hright : P (if getStart item < start then trimHead item start else item) := by
    split_ifs with hs
    · exact (hcs item hi hs).2
    · exact hi
  simp only [modifyItem]
  generalize (if getStart item < start then trimHead item start else item) = right at hright
  by_cases hcut : stop < getEnd right
  · obtain ⟨hb', hx⟩ := forall_mergePrev hm hb (hch _ (hce right hright hcut).1)
    rw [if_pos hcut]
    exact forall_mem_cons.2 ⟨(hce right hright hcut).2, forall_insertBefore (forall_splitLeft hcs hb' hi) hx⟩
  obtain ⟨hb', hx⟩ := forall_mergePrev hm hb (hch right hright)
  rw [if_neg hcut]
  exact forall_mem_cons.2 ⟨hx, forall_splitLeft hcs hb' hi⟩

theorem forall_modifyLoop (hm : MergeClosed P)
    (hch : ∀ t, P t → P (change t)) (hb : ∀ e ∈ before, P e.2) (ha : ∀ e ∈ after, P e.2) :
    ∀ e ∈ modifyLoop start stop check change before after, P e.2 := by
  induction after generalizing before with
  | nil => simpa [modifyLoop] using hb
  | cons x rest ih =>
    obtain ⟨k, item⟩ := x
    obtain ⟨hi, hrest⟩ := forall_mem_cons.1 ha
    obtain ⟨hb', hi'⟩ := forall_mergePrev hm hb hi
    by_cases hlt : getStart item < stop
    · by_cases hc : check item
      · simp only [modifyLoop, if_pos hlt, if_pos hc]
        exact ih (forall_modifyItem hcs hce hm hch hb hi) hrest
      · simp only [modifyLoop, if_pos hlt, if_neg hc]
        exact ih (forall_mem_cons.2 ⟨hi', hb'⟩) hrest
    simp only [modifyLoop, if_neg hlt, mem_append, mem_reverse, mem_cons]
    rintro e (he | rfl | he)
    · exact hb' e he
    · exact hi'
    · exact hrest e he

theorem forall_modify (hm : MergeClosed P) (hch : ∀ t, P t → P (change t)) (h : ∀ e ∈ l, P e.2) :
    ∀ e ∈ modify l start stop check change, P e.2 :=
  forall_modifyLoop hcs hce hm hch (forall_upperBound h start).1 (forall_upperBound h start).2

end Forall

/-! ## Empty ranges -/

include hl

theorem clear_stop_zero (start : ℕ) : Cursor.entries (clear l start 0) = l := by
  obtain ⟨hsplit, -⟩ := upperBound_spec hl start
  cases hafter : (upperBound l start).after with
  | nil | cons => simpa [clear, hafter, clearLoop, Cursor.entries] using hsplit

theorem modify_stop_zero (hco : Coalesced l) (start : ℕ)
    (check : T → Bool) (change : T → T) : modify l start 0 check change = l := by
  obtain ⟨hsplit, -⟩ := upperBound_spec hl start
  cases hafter : (upperBound l start).after with
  | nil => simpa [modify, hafter, modifyLoop] using hsplit
  | cons e rest =>
    rw [← hsplit, hafter] at hco
    obtain ⟨-, -, hlink⟩ := coalesced_cursor.1 hco
    have hself : mergePrev (upperBound l start).before e.2 = ((upperBound l start).before, e.2) := by
      cases hb : (upperBound l start).before with
      | nil => rfl
      | cons prev before =>
        have hne := hlink e (by simp) prev (by simp [hb])
        simp [mergePrev, (tryMergeRight_eq_none_iff e.2 prev.2).2 hne]
    simpa [modify, hafter, modifyLoop, hself] using hsplit

/-- An empty range can still merge the entry behind its start with the one in front of it. -/
theorem wellFormed_modify_stop_zero (start : ℕ)
    (check : T → Bool) (change : T → T) : WellFormed (modify l start 0 check change) := by
  obtain ⟨hsplit, -⟩ := upperBound_spec hl start
  rw [← hsplit] at hl
  cases hafter : (upperBound l start).after with
  | nil => simpa [modify, hafter, modifyLoop] using hl
  | cons e rest =>
    obtain ⟨key, item⟩ := e
    rw [hafter] at hl
    obtain ⟨hst, hkey, hne, hsep, hrest⟩ := cursor_split hl
    obtain ⟨hstm, hlem, hendm, -⟩ := mergePrev_spec hst hne le_rfl
    have hkeep := hstm.push (hkey.trans hendm.symm) (by omega) le_rfl
    rw [hendm] at hkeep
    simpa [modify, hafter, modifyLoop] using hkeep.append hrest hsep

end Junction.ExclusiveIntervalSet
