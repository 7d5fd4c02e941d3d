import Junction.IntervalSet

/-!
# Clear, insert and modify on the partial function of a set

Each loop is followed from a cursor whose entries, taken together, form a well-formed set. One
iteration consumes one entry: it says which pieces of the entry reach the passed entries, and the
induction over the remaining entries adds up the pieces.
-/

namespace Junction.ExclusiveIntervalSet
open HalfOpen IntervalData IntervalCover LawfulIntervalData List Junction.ExclusiveIntervalSet.Cursor
variable {T α κ : Type*} [LawfulIntervalData T α κ] {item : T}

theorem cursor_split {before rest : List (ℕ × T)} {key : ℕ} (h : WellFormed (before.reverse ++ (key, item) :: rest)) :
    Stacked before (getStart item) ∧ key = getEnd item ∧ getStart item < getEnd item ∧
      (∀ y ∈ rest, getEnd item ≤ getStart y.2) ∧ WellFormed rest := by
  rw [wellFormed_append, wellFormed_cons] at h
  obtain ⟨hb, ⟨⟨hk, hn⟩, hr, hrest⟩, hsep⟩ := h
  refine ⟨⟨hb, fun e he => ?_⟩, hk, hn, hr, hrest⟩
  exact hsep e (by simpa using he) (key, item) (by simp)

variable {l : List (ℕ × T)}

variable (hl : WellFormed l)
include hl

theorem lt_getEnd_of_mem_dropWhile (k : ℕ) : ∀ e ∈ l.dropWhile (fun e => decide (e.1 ≤ k)), k < getEnd e.2 := by
  induction l with
  | nil => simp
  | cons x l ih =>
    obtain ⟨⟨hkey, hne⟩, hsep, hrest⟩ := wellFormed_cons.1 hl
    by_cases hx : x.1 ≤ k
    · simpa [dropWhile_cons, decide_eq_true hx, if_true] using ih hrest
    simp only [dropWhile_cons, decide_eq_false hx, Bool.false_eq_true, if_false]
    intro e he
    rcases mem_cons.1 he with rfl | he
    · omega
    have h₁ := hsep e he
    have h₂ := hrest.nonempty e he
    omega

theorem upperBound_spec (k : ℕ) : (upperBound l k).before.reverse ++ (upperBound l k).after = l ∧
      (∀ e ∈ (upperBound l k).before, getEnd e.2 ≤ k) ∧
      ∀ e ∈ (upperBound l k).after, k < getEnd e.2 := by
  refine ⟨?_, ?_, lt_getEnd_of_mem_dropWhile hl k⟩
  · simp [upperBound, reverse_reverse, takeWhile_append_dropWhile]
  intro e he
  have hmem := mem_reverse.1 he
  rw [← hl.keyed e ((takeWhile_sublist _).subset hmem)]
  simpa using mem_takeWhile_imp hmem

omit hl

theorem not_attrMaps_of_getEnd_le {k a : ℕ} {v : α} (h : ∀ e ∈ l, getEnd e.2 ≤ k) (ha : k ≤ a) : ¬ AttrMaps l a v := by
  intro hm
  obtain ⟨e, he, _, h₂⟩ := attrMaps_imp_mem hm
  have h₁ := h e he
  omega

theorem not_attrMaps_of_le_getStart {k a : ℕ} {v : α}
    (h : ∀ e ∈ l, k ≤ getStart e.2) (ha : a < k) : ¬ AttrMaps l a v := by
  intro hm
  obtain ⟨e, he, h₂, _⟩ := attrMaps_imp_mem hm
  have h₁ := h e he
  omega

variable {before : List (ℕ × T)}

theorem splitLeft_spec (h : Stacked before (getStart item)) (start : ℕ) :
    Stacked (splitLeft start item before) (max (getStart item) start) ∧
      ∀ a v, AttrMaps (splitLeft start item before) a v ↔
        AttrMaps before a v ∨ (getStart item ≤ a ∧ a < start ∧ attr item a = v) := by
  by_cases hs : getStart item < start
  · rw [splitLeft, if_pos hs, insertBefore_eq h hs]
    have hp := h.push (getEnd_trimTail item start).symm
      (by rw [getStart_trimTail, getEnd_trimTail]; exact hs) (by rw [getStart_trimTail])
    rw [getEnd_trimTail] at hp
    refine ⟨hp.mono (le_max_right _ _), fun a v => ?_⟩
    rw [attrMaps_cons, getStart_trimTail, getEnd_trimTail, attr_trimTail, or_comm]
  rw [splitLeft, if_neg hs]
  refine ⟨h.mono (le_max_left _ _), fun a v => ?_⟩
  constructor
  · exact .inl
  rintro (hm | ⟨h₁, h₂, _⟩)
  · exact hm
  · omega

theorem le_getStart_of_cursor {rest : List (ℕ × T)} {key stop : ℕ}
    (hne : getStart item < getEnd item) (hsep : ∀ y ∈ rest, getEnd item ≤ getStart y.2)
    (hstop : stop ≤ getStart item) : ∀ e ∈ (key, item) :: rest, stop ≤ getStart e.2 := by
  intro e he
  rcases mem_cons.1 he with rfl | he
  · exact hstop
  · have h₁ := hsep e he
    omega

variable {start stop : ℕ}

theorem clearLoop_spec (hss : start ≤ stop) (before after : List (ℕ × T))
    (hw : WellFormed (before.reverse ++ after)) (hpos : ∀ e ∈ after, start < getEnd e.2) :
    WellFormed (entries (clearLoop start stop before after)) ∧
      ∀ a v, AttrMaps (entries (clearLoop start stop before after)) a v ↔
        AttrMaps before a v ∨ (AttrMaps after a v ∧ ¬ (start ≤ a ∧ a < stop)) := by
  induction after generalizing before with
  | nil => exact ⟨hw, fun a v => by simp [clearLoop, entries]⟩
  | cons e rest ih =>
    obtain ⟨key, item⟩ := e
    obtain ⟨hst, hkey, hne, hsep, hrest⟩ := cursor_split hw
    obtain ⟨(hend : start < getEnd item), hpos'⟩ := forall_mem_cons.1 hpos
    by_cases hlt : getStart item < stop
    · obtain ⟨hstb, hmb⟩ := splitLeft_spec hst start
      by_cases hle : getEnd item ≤ stop
      · have hw' : WellFormed ((splitLeft start item before).reverse ++ rest) := by
          apply hstb.append hrest
          intro e he
          have h₁ := hsep e he
          omega
        obtain ⟨hwf, hmaps⟩ := ih _ hw' hpos'
        simp only [clearLoop, if_pos hlt, if_pos hle]
        refine ⟨hwf, fun a v => ?_⟩
        rw [hmaps a v, hmb a v, attrMaps_cons]
        grind
      · have hpush : Stacked ((key, trimHead item stop) :: splitLeft start item before) (getEnd item) := by
          have hk : key = getEnd (trimHead item stop) := by rw [getEnd_trimHead, hkey]
          have hp := hstb.push hk (by rw [getStart_trimHead, getEnd_trimHead]; omega) (by rw [getStart_trimHead]; omega)
          rwa [getEnd_trimHead] at hp
        obtain ⟨hwf, hmaps⟩ := ih _ (hpush.append hrest hsep) hpos'
        simp only [clearLoop, if_pos hlt, if_neg hle]
        refine ⟨hwf, fun a v => ?_⟩
        have hattr := attr_trimHead item stop a hlt.le
        rw [hmaps a v, attrMaps_cons, hmb a v, attrMaps_cons, getStart_trimHead, getEnd_trimHead]
        grind
    · simp only [clearLoop, if_neg hlt]
      refine ⟨hw, fun a v => ?_⟩
      simp only [entries, attrMaps_append, attrMaps_reverse]
      apply or_congr_right
      have habove : ∀ e ∈ (key, item) :: rest, stop ≤ getStart e.2 :=
        le_getStart_of_cursor hne hsep (Nat.le_of_not_lt hlt)
      constructor
      · exact fun h => ⟨h, fun hr => not_attrMaps_of_le_getStart habove hr.2 h⟩
      · exact fun h => h.1

include hl

theorem attrMaps_upperBound (start a : ℕ) (v : α) :
    AttrMaps l a v ↔ AttrMaps (upperBound l start).before a v ∨ AttrMaps (upperBound l start).after a v := by
  conv_lhs => rw [← (upperBound_spec hl start).1, attrMaps_append, attrMaps_reverse]

theorem clear_spec (hss : start ≤ stop) : WellFormed (entries (clear l start stop)) ∧
      ∀ a v, AttrMaps (entries (clear l start stop)) a v ↔ AttrMaps l a v ∧ ¬ (start ≤ a ∧ a < stop) := by
  obtain ⟨hsplit, hbelow, habove⟩ := upperBound_spec hl start
  obtain ⟨hwf, hmaps⟩ := clearLoop_spec hss _ _ (by rwa [hsplit]) habove
  refine ⟨hwf, fun a v => ?_⟩
  rw [clear, hmaps a v, attrMaps_upperBound hl start, or_and_right]
  apply or_congr_left
  constructor
  · exact fun h => ⟨h, fun hr => not_attrMaps_of_getEnd_le hbelow hr.1 h⟩
  · exact fun h => h.1

theorem clear_disjoint (hss : start < stop) {e : ℕ × T} (he : e ∈ entries (clear l start stop)) :
    getEnd e.2 ≤ start ∨ stop ≤ getStart e.2 := by
  obtain ⟨hwf, hmaps⟩ := clear_spec hl hss.le
  have hne := hwf.nonempty e he
  by_contra! hov
  have hin : AttrMaps (entries (clear l start stop)) (max start (getStart e.2)) (attr e.2 (max start (getStart e.2))) :=
    ⟨e, he, ⟨le_max_right _ _, max_lt hov.1 hne⟩, rfl⟩
  exact ((hmaps _ _).1 hin).2 ⟨le_max_left _ _, max_lt hss hov.2⟩

theorem insert_sides (hdis : ∀ e ∈ l, getEnd e.2 ≤ start ∨ stop ≤ getStart e.2) (hss : start < stop) :
    (∀ e ∈ l.takeWhile (fun e => decide (e.1 < stop)), getEnd e.2 ≤ start) ∧
      ∀ e ∈ l.dropWhile (fun e => decide (e.1 < stop)), stop ≤ getStart e.2 := by
  constructor
  · intro e he
    have hmem := (takeWhile_sublist _).subset he
    have hk : e.1 < stop := by simpa using mem_takeWhile_imp he
    have h₁ := hl.keyed e hmem
    have h₂ := hl.nonempty e hmem
    have h₃ := hdis e hmem
    omega
  intro e he
  have hmem := (dropWhile_sublist _).subset he
  have hk : stop ≤ getEnd e.2 := by
    have h₁ := lt_getEnd_of_mem_dropWhile hl (stop - 1) e
    have h₂ : (fun e : ℕ × T => decide (e.1 ≤ stop - 1)) = fun e => decide (e.1 < stop) := by
      funext e
      simp only [decide_eq_decide]
      omega
    rw [h₂] at h₁
    have h₃ := h₁ he
    omega
  have h₃ := hdis e hmem
  omega

theorem insert_eq (hi : getStart item < getEnd item) : ∃ before after, before.reverse ++ after =
        entries (clear l (getStart item) (getEnd item)) ∧
      (∀ e ∈ before, getEnd e.2 ≤ getStart item) ∧ (∀ e ∈ after, getEnd item ≤ getStart e.2) ∧
      insert l item = match after with
        | [] => (mergePrev before item).1.reverse ++ [(getEnd item, (mergePrev before item).2)]
        | (k, next) :: rest =>
          let final := mergePrev ((getEnd item, (mergePrev before item).2) ::
            (mergePrev before item).1) next
          final.1.reverse ++ (k, final.2) :: rest := by
  obtain ⟨hwf, -⟩ := clear_spec hl hi.le
  obtain ⟨hbelow, habove⟩ := insert_sides hwf (fun e he => clear_disjoint hl hi he) hi
  refine ⟨_, _, by rw [reverse_reverse]; exact takeWhile_append_dropWhile,
    fun e he => hbelow e (mem_reverse.1 he), habove, ?_⟩
  simp only [insert]
  cases hd : (entries (clear l (getStart item) (getEnd item))).dropWhile (fun e => decide (e.1 < getEnd item)) with
  | nil => rfl
  | cons e rest =>
    obtain ⟨k, next⟩ := e
    have hmem : (k, next) ∈ (entries (clear l (getStart item) (getEnd item))).dropWhile
        (fun e => decide (e.1 < getEnd item)) := by rw [hd]; simp
    have hk : k ≠ getEnd item := by
      have h₁ := habove _ hmem
      have h₂ := hwf.nonempty _ ((dropWhile_sublist _).subset hmem)
      have h₃ := hwf.keyed _ ((dropWhile_sublist _).subset hmem)
      simp only at h₁ h₂ h₃
      omega
    simp [if_neg hk]

theorem insert_spec (hi : getStart item < getEnd item) :
    WellFormed (insert l item) ∧ ∀ a v, AttrMaps (insert l item) a v ↔
      (getStart item ≤ a ∧ a < getEnd item ∧ attr item a = v) ∨
        (AttrMaps l a v ∧ ¬ (getStart item ≤ a ∧ a < getEnd item)) := by
  obtain ⟨hwf, hmaps⟩ := clear_spec hl hi.le
  obtain ⟨before, after, hsplit, hbelow, habove, heq⟩ := insert_eq hl hi
  rw [← hsplit, wellFormed_append] at hwf
  obtain ⟨hwb, hwa, -⟩ := hwf
  obtain ⟨hst, hle, hend, hm⟩ := mergePrev_spec ⟨hwb, hbelow⟩ hi le_rfl
  have hpush := hst.push hend.symm (by omega) le_rfl
  rw [hend] at hpush
  have hcl : ∀ a v, AttrMaps before a v ∨ AttrMaps after a v ↔
      AttrMaps l a v ∧ ¬ (getStart item ≤ a ∧ a < getEnd item) := by
    intro a v
    rw [← hmaps a v, ← hsplit, attrMaps_append, attrMaps_reverse]
  rw [heq]
  cases after with
  | nil =>
    refine ⟨by simpa using hpush.wf, fun a v => ?_⟩
    rw [← hcl a v, attrMaps_append, attrMaps_reverse, or_comm, ← attrMaps_append, singleton_append, hm, attrMaps_cons]
    simp
  | cons e rest =>
    obtain ⟨k, next⟩ := e
    obtain ⟨⟨hk, hn⟩, hsep, hrest⟩ := wellFormed_cons.1 hwa
    obtain ⟨hst', hle', hend', hm'⟩ := mergePrev_spec hpush hn (habove (k, next) (by simp))
    have hpush' := hst'.push (hk.trans hend'.symm) (by omega) le_rfl
    have hw' := hpush'.append hrest (by rw [hend']; exact hsep)
    refine ⟨by simpa using hw', fun a v => ?_⟩
    have hm₁ := hm' k a v
    have hm₂ := hm (getEnd item) a v
    rw [attrMaps_cons] at hm₁
    simp only [attrMaps_append, attrMaps_reverse, attrMaps_cons, ← hcl a v] at hm₁ hm₂ ⊢
    grind

omit hl

/-- A check and a change that act on each address of an item in the same way and keep the bounds of
the item. -/
structure AttrUpdate (T : Type*) {α κ : Type*} [LawfulIntervalData T α κ] where
  check : T → Bool
  change : T → T
  reads : α → Bool
  writes : α → α
  check_eq (t : T) (a : ℕ) : check t = reads (attr t a)
  getStart_change (t : T) : getStart (change t) = getStart t
  getEnd_change (t : T) : getEnd (change t) = getEnd t
  attr_change (t : T) (a : ℕ) : attr (change t) a = writes (attr t a)

/-- What `Modify(start, end, check, change)` does to the attribute `w` of the address `a`. -/
def AttrUpdate.apply (u : AttrUpdate T) (start stop a : ℕ) (w : α) : α :=
  if (start ≤ a ∧ a < stop) ∧ u.reads w then u.writes w else w

theorem mergePrev_eq_self {b : ℕ} {rhs : T} (h : Stacked before b)
    (hb : b < getStart rhs) : mergePrev before rhs = (before, rhs) := by
  cases before with
  | nil => rfl
  | cons prev before =>
    cases hm : tryMergeRight rhs prev.2 with
    | none => simp [mergePrev, hm]
    | some m =>
      have hjoin := getEnd_eq_getStart_of_merge rhs prev.2 m hm
      have hprev := h.below prev (by simp)
      omega

/-- A merge with the item in front followed by the insertion of the unchanged left part. Only one
of the two does anything: a split item starts after the item in front of it. -/
theorem splitLeft_mergePrev_spec {item x : T} {start : ℕ}
    (h : Stacked before (getStart item)) (hx : getStart x = max (getStart item) start) (hne : getStart x < getEnd x) :
    Stacked (splitLeft start item (mergePrev before x).1) (getStart (mergePrev before x).2) ∧
      getStart (mergePrev before x).2 ≤ getStart x ∧
      getEnd (mergePrev before x).2 = getEnd x ∧
      ∀ key a v, AttrMaps ((key, (mergePrev before x).2) ::
          splitLeft start item (mergePrev before x).1) a v ↔
        AttrMaps ((key, x) :: before) a v ∨ (getStart item ≤ a ∧ a < start ∧ attr item a = v) := by
  by_cases hs : getStart item < start
  · have hlt : getStart item < getStart x := by omega
    obtain ⟨hst, hm⟩ := splitLeft_spec h start
    rw [mergePrev_eq_self h hlt]
    refine ⟨by rw [hx]; exact hst, le_rfl, rfl, fun key a v => ?_⟩
    rw [attrMaps_cons, hm a v, attrMaps_cons, or_assoc]
  obtain ⟨hst, hle, hend, hm⟩ := mergePrev_spec h hne (by omega)
  simp only [splitLeft, if_neg hs]
  refine ⟨hst, hle, hend, fun key a v => ?_⟩
  rw [hm key a v]
  constructor
  · exact .inl
  rintro (hmem | ⟨h₁, h₂, _⟩)
  · exact hmem
  · omega

theorem cutHead_spec {start : ℕ} {right : T} (h : right = if getStart item < start then trimHead item start else item) :
    getStart right = max (getStart item) start ∧ getEnd right = getEnd item ∧
      ∀ a, getStart right ≤ a → attr right a = attr item a := by
  by_cases hs : getStart item < start
  · rw [h, if_pos hs, getStart_trimHead, getEnd_trimHead]
    exact ⟨by omega, rfl, fun a ha => attr_trimHead item start a hs.le ha⟩
  · rw [h, if_neg hs]
    exact ⟨by omega, rfl, fun a _ => rfl⟩

variable (u : AttrUpdate T)

theorem modifyItem_spec {start stop key : ℕ} (hss : start < stop) (hst : Stacked before (getStart item))
    (hkey : key = getEnd item) (hne : getStart item < getEnd item) (hend : start < getEnd item)
    (hlt : getStart item < stop) (hc : u.check item) :
    Stacked (modifyItem start stop u.change before key item) (getEnd item) ∧
      ∀ a v, AttrMaps (modifyItem start stop u.change before key item) a v ↔ AttrMaps before a v ∨
          (getStart item ≤ a ∧ a < getEnd item ∧ u.apply start stop a (attr item a) = v) := by
  obtain ⟨right, hright⟩ : ∃ right, right = if getStart item < start then trimHead item start else item := ⟨_, rfl⟩
  obtain ⟨hrs, hre, hra⟩ := cutHead_spec hright
  have hreads : ∀ a, u.reads (attr item a) := fun a => by rw [← u.check_eq, hc]
  simp only [modifyItem, ← hright]
  by_cases hcut : stop < getEnd right
  · have hx : getStart (u.change (trimTail right stop)) = max (getStart item) start := by
      rw [u.getStart_change, getStart_trimTail, hrs]
    have hxe : getEnd (u.change (trimTail right stop)) = stop := by
      rw [u.getEnd_change, getEnd_trimTail]
    obtain ⟨hsm, hle, hem, hmm⟩ := splitLeft_mergePrev_spec hst hx (by omega)
    have hk : key = getEnd (trimHead right stop) := by rw [getEnd_trimHead, hre, hkey]
    have hpush := (hsm.push (hem.trans hxe).symm (by omega) le_rfl).push hk
      (by rw [getStart_trimHead, getEnd_trimHead]; exact hcut)
      (by rw [getStart_trimHead, hem, hxe])
    rw [getEnd_trimHead, hre] at hpush
    rw [if_pos hcut, insertBefore_eq hsm (by omega)]
    refine ⟨hpush, fun a v => ?_⟩
    have hattr := attr_trimHead right stop a (by omega)
    rw [attrMaps_cons, hmm, attrMaps_cons, getStart_trimHead, getEnd_trimHead, hre, hx, hxe,
      u.attr_change, attr_trimTail]
    simp only [AttrUpdate.apply, hreads, and_true]
    grind
  · have hx : getStart (u.change right) = max (getStart item) start := by
      rw [u.getStart_change, hrs]
    have hxe : getEnd (u.change right) = getEnd item := by rw [u.getEnd_change, hre]
    obtain ⟨hsm, hle, hem, hmm⟩ := splitLeft_mergePrev_spec hst hx (by omega)
    have hpush := hsm.push (hkey.trans (hem.trans hxe).symm) (by omega) le_rfl
    rw [hem, hxe] at hpush
    rw [if_neg hcut]
    refine ⟨hpush, fun a v => ?_⟩
    rw [hmm, attrMaps_cons, hx, hxe, u.attr_change]
    simp only [AttrUpdate.apply, hreads, and_true]
    grind

theorem apply_of_le {start stop a : ℕ} (ha : stop ≤ a) (w : α) : u.apply start stop a w = w := by
  rw [AttrUpdate.apply, if_neg]
  intro h
  omega

theorem apply_of_lt {start stop a : ℕ} (ha : a < start) (w : α) : u.apply start stop a w = w := by
  rw [AttrUpdate.apply, if_neg]
  intro h
  omega

theorem modifyLoop_spec (hss : start < stop) (before after : List (ℕ × T)) (hw : WellFormed (before.reverse ++ after))
    (hpos : ∀ e ∈ after, start < getEnd e.2) : WellFormed (modifyLoop start stop u.check u.change before after) ∧
      ∀ a v, AttrMaps (modifyLoop start stop u.check u.change before after) a v ↔
        AttrMaps before a v ∨ ∃ w, AttrMaps after a w ∧ u.apply start stop a w = v := by
  induction after generalizing before with
  | nil =>
    refine ⟨by simpa [modifyLoop] using hw, fun a v => ?_⟩
    simp [modifyLoop]
  | cons e rest ih =>
    obtain ⟨key, item⟩ := e
    obtain ⟨hst, hkey, hne, hsep, hrest⟩ := cursor_split hw
    obtain ⟨(hend : start < getEnd item), hpos'⟩ := forall_mem_cons.1 hpos
    obtain ⟨hstm, hlem, hendm, hmm⟩ := mergePrev_spec hst hne le_rfl
    have hkeep := hstm.push (hkey.trans hendm.symm) (by omega) le_rfl
    rw [hendm] at hkeep
    by_cases hlt : getStart item < stop
    · by_cases hc : u.check item
      · obtain ⟨hsm, hmi⟩ := modifyItem_spec u hss hst hkey hne hend hlt hc
        obtain ⟨hwf, hmaps⟩ := ih _ (hsm.append hrest hsep) hpos'
        simp only [modifyLoop, if_pos hlt, if_pos hc]
        refine ⟨hwf, fun a v => ?_⟩
        rw [hmaps a v, hmi a v]
        simp only [attrMaps_cons]
        grind
      obtain ⟨hwf, hmaps⟩ := ih _ (hkeep.append hrest hsep) hpos'
      simp only [modifyLoop, if_pos hlt, if_neg hc]
      refine ⟨hwf, fun a v => ?_⟩
      have hr := u.check_eq item a
      rw [hmaps a v, hmm key a v]
      simp only [attrMaps_cons, AttrUpdate.apply]
      grind
    · have habove : ∀ e ∈ (key, item) :: rest, stop ≤ getStart e.2 :=
        le_getStart_of_cursor hne hsep (Nat.le_of_not_lt hlt)
      have hw' := hkeep.append hrest hsep
      simp only [modifyLoop, if_neg hlt]
      refine ⟨by simpa using hw', fun a v => ?_⟩
      have hid : (∃ w, AttrMaps ((key, item) :: rest) a w ∧ u.apply start stop a w = v) ↔
          AttrMaps ((key, item) :: rest) a v := by
        constructor
        · rintro ⟨w, hmem, rfl⟩
          have ha := Nat.le_of_not_lt fun ha => not_attrMaps_of_le_getStart habove ha hmem
          rwa [apply_of_le u ha]
        intro hmem
        have ha := Nat.le_of_not_lt fun ha => not_attrMaps_of_le_getStart habove ha hmem
        exact ⟨v, hmem, apply_of_le u ha v⟩
      have hm' := hmm key a v
      rw [hid]
      simp only [attrMaps_append, attrMaps_reverse, attrMaps_cons] at hm' ⊢
      rw [or_left_comm, ← or_assoc, hm', or_assoc, or_left_comm]

theorem modify_spec (hl : WellFormed l) (hss : start < stop) : WellFormed (modify l start stop u.check u.change) ∧
      ∀ a v, AttrMaps (modify l start stop u.check u.change) a v ↔
        ∃ w, AttrMaps l a w ∧ u.apply start stop a w = v := by
  obtain ⟨hsplit, hbelow, habove⟩ := upperBound_spec hl start
  obtain ⟨hwf, hmaps⟩ := modifyLoop_spec u hss _ _ (by rwa [hsplit]) habove
  refine ⟨hwf, fun a v => ?_⟩
  rw [modify, hmaps a v]
  simp only [attrMaps_upperBound hl start, or_and_right, exists_or]
  apply or_congr_left
  constructor
  · intro hmem
    have ha := Nat.lt_of_not_le fun ha => not_attrMaps_of_getEnd_le hbelow ha hmem
    exact ⟨v, hmem, apply_of_lt u ha v⟩
  rintro ⟨w, hmem, rfl⟩
  have ha := Nat.lt_of_not_le fun ha => not_attrMaps_of_getEnd_le hbelow ha hmem
  rwa [apply_of_lt u ha]

end Junction.ExclusiveIntervalSet
