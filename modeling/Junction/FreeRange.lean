import Junction.IntervalSetRefinement

/-!
# Searching for a free range

`FindFreeRange` returns a free range when the arithmetic of its scan cannot wrap: every interval
ends at or below the upper limit and a gap of the requested length exists. With an occupied hint it
first tries the two sides of the interval in the way. The side below is checked against the interval
in front only when that one is not the first of the set, so two intervals have to lie below the
hint.
-/

namespace Junction.ExclusiveIntervalSet
open HalfOpen IntervalData IntervalCover LawfulIntervalData List
variable {T α κ : Type*} [LawfulIntervalData T α κ]

/-- No interval of the set meets `[start, start + len)`. -/
def Free (l : List (ℕ × T)) (start len : ℕ) : Prop :=
  ∀ e ∈ l, getEnd e.2 ≤ start ∨ start + len ≤ getStart e.2

variable {l : List (ℕ × T)}

theorem hasOverlap_eq_false_iff (hl : WellFormed l) (start len : ℕ) :
    hasOverlap l start (start + len) = false ↔ Free l start len := by
  obtain ⟨hsplit, hbelow, habove⟩ := upperBound_spec hl start
  have hw := hl
  rw [← hsplit] at hw
  unfold hasOverlap
  cases hafter : (upperBound l start).after with
  | nil =>
    simp only [true_iff]
    intro e he
    rw [← hsplit, hafter, append_nil, mem_reverse] at he
    exact .inl (hbelow e he)
  | cons x rest =>
    obtain ⟨key, item⟩ := x
    rw [hafter] at hw
    obtain ⟨-, -, hne, hsep, -⟩ := cursor_split hw
    have hend : start < getEnd item := habove (key, item) (by simp [hafter])
    simp only [decide_eq_false_iff_not, Nat.not_lt]
    constructor
    · intro hle e he
      rw [← hsplit, hafter, mem_append, mem_reverse] at he
      rcases he with he | he
      · exact .inl (hbelow e he)
      · exact .inr (le_getStart_of_cursor hne hsep hle e he)
    intro hfree
    have hitem := hfree (key, item) (by rw [← hsplit, hafter]; simp)
    rcases hitem with h | h
    · exact absurd h (Nat.not_le.2 hend)
    · exact h

/-- Room for `len` addresses below `upper`, with every interval ending there. -/
structure Room (l : List (ℕ × T)) (len upper : ℕ) : Prop where
  below : ∀ e ∈ l, getEnd e.2 ≤ upper
  gap : ∃ start, start + len ≤ upper ∧ Free l start len

variable {len prevStart : ℕ} {back : List (ℕ × T)}

theorem scanBack_spec (hst : Stacked back prevStart) (hlt : prevStart < 2 ^ 64)
    (hgap : ∃ start, start + len ≤ prevStart ∧ Free back start len) :
    len ≤ scanBack len prevStart back ∧ scanBack len prevStart back ≤ prevStart ∧
      Free back (scanBack len prevStart back - len) len := by
  induction back generalizing prevStart with
  | nil =>
    obtain ⟨start, hs, -⟩ := hgap
    simp only [scanBack]
    exact ⟨by omega, le_rfl, by simp [Free]⟩
  | cons e rest ih =>
    obtain ⟨key, item⟩ := e
    obtain ⟨hpop, hkey, hne⟩ := hst.pop
    dsimp only at hpop hkey hne
    have hle : getEnd item ≤ prevStart := hst.below (key, item) (by simp)
    obtain ⟨start, hs, hfree⟩ := hgap
    rw [scanBack, subWord_of_le (by omega) hlt]
    split_ifs with hroom
    · have hitem : getEnd item ≤ start ∨ start + len ≤ getStart item := hfree (key, item) (by simp)
      obtain ⟨h₁, h₂, h₃⟩ := ih hpop (by omega) ⟨start, by omega, fun e he => hfree e (by simp [he])⟩
      refine ⟨h₁, by omega, forall_mem_cons.2 ⟨.inr ?_, h₃⟩⟩
      change _ ≤ getStart item
      omega
    refine ⟨by omega, le_rfl, forall_mem_cons.2 ⟨.inl ?_, ?_⟩⟩
    · change getEnd item ≤ _
      omega
    intro e he
    have h₁ := hpop.below e he
    exact .inl (by omega)

variable {upper : ℕ}

theorem findFreeBack_sound (hl : WellFormed l) (hu : upper < 2 ^ 64) (h : Room l len upper) :
    ∃ addr, findFreeBack l len upper 0 = .ok addr ∧ addr + len ≤ upper ∧ Free l addr len := by
  have hst : Stacked l.reverse upper := ⟨by rwa [reverse_reverse], fun e he => h.below e (mem_reverse.1 he)⟩
  obtain ⟨start, hs, hfree⟩ := h.gap
  obtain ⟨h₁, h₂, h₃⟩ := scanBack_spec hst hu ⟨start, hs, fun e he => hfree e (mem_reverse.1 he)⟩
  refine ⟨scanBack len upper l.reverse - len, ?_, by omega, ?_⟩
  · simp [findFreeBack, subWord_of_le h₁ (by omega)]
  · exact fun e he => h₃ e (mem_reverse.2 he)

/-- Where a search that starts at an occupied hint still finds a free range. -/
structure Movable (l : List (ℕ × T)) (hint len upper : ℕ) : Prop where
  room : Room l len upper
  double : upper + upper < 2 ^ 64
  two_below : 2 ≤ (upperBound l hint).before.length
  start_le : ∀ e ∈ l, hint < getEnd e.2 → len ≤ getStart e.2

structure HintSafe (l : List (ℕ × T)) (hint len upper : ℕ) : Prop where
  noWrap : hint + len < 2 ^ 64
  free_or : hasOverlap l hint (hint + len) = false ∨ Movable l hint len upper

variable {before rest : List (ℕ × T)} {key : ℕ} {item : T}

variable (hw : WellFormed (before.reverse ++ (key, item) :: rest))
include hw

theorem free_before (hle : len ≤ getStart item) (hb : ∀ e ∈ before, getEnd e.2 ≤ getStart item - len) :
    Free (before.reverse ++ (key, item) :: rest) (getStart item - len) len := by
  obtain ⟨-, -, hne, hsep, -⟩ := cursor_split hw
  intro e he
  rw [mem_append, mem_reverse] at he
  rcases he with he | he
  · exact .inl (hb e he)
  · rw [Nat.sub_add_cancel hle]
    exact .inr (le_getStart_of_cursor hne hsep le_rfl e he)

theorem free_after (hnext : ∀ y ∈ rest.head?, getEnd item + len ≤ getStart y.2) :
    Free (before.reverse ++ (key, item) :: rest) (getEnd item) len := by
  obtain ⟨hst, -, hne, hsep, hrest⟩ := cursor_split hw
  intro e he
  rw [mem_append, mem_reverse, mem_cons] at he
  rcases he with he | rfl | he
  · have h₁ := hst.below e he
    exact .inl (by omega)
  · exact .inl le_rfl
  cases rest with
  | nil => cases he
  | cons y rest =>
    have hy := hnext y (by simp)
    obtain ⟨⟨-, hyne⟩, hysep, -⟩ := wellFormed_cons.1 hrest
    exact .inr (le_getStart_of_cursor hyne hysep hy e he)

omit hw

variable {hint : ℕ}

theorem findFreeRange_of_free
    (hh : hint ≠ 0) (hw : hint + len < 2 ^ 64) (hfree : hasOverlap l hint (hint + len) = false)
    (upper lower undef : ℕ) : findFreeRange l hint len upper lower undef = .ok hint := by
  unfold findFreeRange
  unfold hasOverlap at hfree
  rw [if_neg hh]
  cases hafter : (upperBound l hint).after with
  | nil => simp [hafter]
  | cons e rest =>
    obtain ⟨key, item⟩ := e
    rw [hafter] at hfree
    simp only [decide_eq_false_iff_not, Nat.not_lt] at hfree
    simp [hafter, addWord_of_lt hw, if_pos hfree]

variable {lower undef : ℕ}

theorem findFreeRange_of_occupied (hh : hint ≠ 0)
    (hit : upperBound l hint = ⟨before, (key, item) :: rest⟩) (hov : getStart item < addWord hint len) :
    findFreeRange l hint len upper lower undef =
      if prevEnd lower undef before ≤ subWord (getStart item) len then
        .ok (subWord (getStart item) len)
      else if addWord key len ≤ nextStart upper rest then .ok (getEnd item)
      else findFreeBack l len upper lower := by
  simp [findFreeRange, if_neg hh, hit, if_neg (Nat.not_le.2 hov)]

variable (hl : WellFormed l)
include hl

theorem hasOverlap_cursor {stop : ℕ} (hov : hasOverlap l hint stop ≠ false) :
    ∃ before key item rest, upperBound l hint = ⟨before, (key, item) :: rest⟩ ∧
      before.reverse ++ (key, item) :: rest = l ∧ (∀ e ∈ before, getEnd e.2 ≤ hint) ∧
      hint < getEnd item ∧ getStart item < stop := by
  obtain ⟨hsplit, hbelow, habove⟩ := upperBound_spec hl hint
  unfold hasOverlap at hov
  cases hit : upperBound l hint with
  | mk before after =>
    cases after with
    | nil => simp [hit] at hov
    | cons e rest =>
      obtain ⟨key, item⟩ := e
      rw [hit] at hsplit hbelow habove hov
      refine ⟨before, key, item, rest, rfl, hsplit, hbelow, habove (key, item) (by simp), ?_⟩
      simpa using hov

theorem findFreeRange_of_movable (hh : hint ≠ 0) (hw : hint + len < 2 ^ 64) (h : Movable l hint len upper) (undef : ℕ)
    (hov : hasOverlap l hint (hint + len) ≠ false) :
    ∃ addr, findFreeRange l hint len upper 0 undef = .ok addr ∧ addr + len < 2 ^ 64 ∧ Free l addr len := by
  obtain ⟨before, key, item, rest, hit, rfl, hbelow, hend, hstart⟩ := hasOverlap_cursor hl hov
  obtain ⟨hst, hkey, hne, hsep, hrest⟩ := cursor_split hl
  have hdouble := h.double
  have hmem : (key, item) ∈ before.reverse ++ (key, item) :: rest := by simp
  have hle : len ≤ getStart item := h.start_le (key, item) hmem hend
  have hup : getEnd item ≤ upper := h.room.below (key, item) hmem
  rw [findFreeRange_of_occupied hh hit (by rw [addWord_of_lt hw]; exact hstart),
    subWord_of_le hle (by omega), addWord_of_lt (by omega)]
  have htwo := h.two_below
  rw [hit] at htwo
  rcases before with _ | ⟨prev, _ | ⟨first, more⟩⟩
  · simp at htwo
  · simp at htwo
  by_cases hprev : prevEnd 0 undef (prev :: first :: more) ≤ getStart item - len
  · rw [if_pos hprev]
    simp only [prevEnd] at hprev
    refine ⟨_, rfl, by omega, free_before hl hle ?_⟩
    have hp := hst.pop
    intro e he
    rcases mem_cons.1 he with rfl | he
    · omega
    · have h₁ := hp.1.below e he
      omega
  · rw [if_neg hprev]
    split_ifs with hnext
    · refine ⟨_, rfl, by omega, free_after hl ?_⟩
      cases rest with
      | nil => simp
      | cons next rest =>
        simp only [nextStart] at hnext
        simp only [head?_cons, Option.mem_some_iff, forall_eq']
        omega
    · obtain ⟨addr, haddr, hsum, hfree⟩ := findFreeBack_sound hl (by omega) h.room
      exact ⟨addr, haddr, by omega, hfree⟩

theorem findFreeRange_sound (hh : hint ≠ 0) (h : HintSafe l hint len upper) (undef : ℕ) :
    ∃ addr, findFreeRange l hint len upper 0 undef = .ok addr ∧ addr + len < 2 ^ 64 ∧ Free l addr len := by
  by_cases hov : hasOverlap l hint (hint + len) = false
  · exact ⟨hint, findFreeRange_of_free hh h.noWrap hov upper 0 undef, h.noWrap,
      (hasOverlap_eq_false_iff hl hint len).1 hov⟩
  rcases h.free_or with hfree | hmov
  · exact absurd hfree hov
  · exact findFreeRange_of_movable hl hh h.noWrap hmov undef hov

/-! ## Searches that stay between their limits -/

omit hl in
theorem scanBack_le (hlen : len ≤ 2 ^ 63) (hwf : WellFormed back.reverse) (hkeys : ∀ e ∈ back, getEnd e.2 ≤ 2 ^ 63)
    (hlt : prevStart ≤ 2 ^ 63) : scanBack len prevStart back ≤ prevStart := by
  induction back generalizing prevStart with
  | nil => exact le_rfl
  | cons e rest ih =>
    obtain ⟨key, item⟩ := e
    obtain ⟨hi, hrest⟩ := forall_mem_cons.1 hkeys
    have hst : Stacked ((key, item) :: rest) (2 ^ 63) := ⟨hwf, hkeys⟩
    obtain ⟨hpop, hkey, hne⟩ := hst.pop
    simp only at hi hkey hne
    rw [scanBack]
    split_ifs with hroom
    · have hge : key ≤ prevStart := by
        by_contra hgt
        rw [subWord_of_lt (by omega) (by omega)] at hroom
        omega
      have hrec := ih hpop.wf hrest (by omega : getStart item ≤ 2 ^ 63)
      omega
    · rfl

variable {addr : ℕ}

variable (hends : ∀ e ∈ l, getEnd e.2 ≤ 2 ^ 63)
include hends

theorem findFreeBack_between (hu : upper ≤ 2 ^ 63) (hb : addr + len ≤ 2 ^ 63)
    (h : findFreeBack l len upper lower = .ok addr) : lower ≤ addr ∧ addr + len ≤ upper := by
  have hwf : WellFormed l.reverse.reverse := by rwa [reverse_reverse]
  have hscan := scanBack_le (by omega : len ≤ 2 ^ 63) hwf (fun e he => hends e (mem_reverse.1 he)) hu
  simp only [findFreeBack] at h
  by_cases hlow : subWord (scanBack len upper l.reverse) len < lower
  · rw [if_pos hlow] at h
    cases h
  rw [if_neg hlow] at h
  cases h
  refine ⟨Nat.not_lt.1 hlow, ?_⟩
  by_cases hle : len ≤ scanBack len upper l.reverse
  · rw [subWord_of_le hle (by omega)]
    omega
  · rw [subWord_of_lt (by omega) (by omega)] at hb
    omega

/-- When the way of the hint is free, or all intervals lie between the limits and one of them below the hint, a result
of a search that does not wrap lies between the limits. -/
theorem findFreeRange_between {low : ℕ}
    (hu : upper ≤ 2 ^ 63) (hlow : low ≤ lower) (hhint : hint ≠ 0 → low ≤ hint ∧ hint + len ≤ upper)
    (hin : hint ≠ 0 → hasOverlap l hint (hint + len) ≠ false →
      (∀ e ∈ l, low ≤ getStart e.2 ∧ getEnd e.2 ≤ upper) ∧ ∃ e ∈ l, getEnd e.2 ≤ hint) (hb : addr + len ≤ 2 ^ 63)
    (h : findFreeRange l hint len upper lower undef = .ok addr) : low ≤ addr ∧ addr + len ≤ upper := by
  by_cases hh : hint = 0
  · rw [findFreeRange, if_pos hh] at h
    obtain ⟨h₁, h₂⟩ := findFreeBack_between hl hends hu hb h
    exact ⟨hlow.trans h₁, h₂⟩
  obtain ⟨hlowh, hupper⟩ := hhint hh
  by_cases hov : hasOverlap l hint (hint + len) = false
  · rw [findFreeRange_of_free hh (by omega) hov] at h
    cases h
    exact ⟨hlowh, hupper⟩
  obtain ⟨hall, x, hx, hxle⟩ := hin hh hov
  obtain ⟨before, key, item, rest, hit, rfl, hbelow, hend, hstart⟩ := hasOverlap_cursor hl hov
  obtain ⟨hst, hkey, hne, hsep, hrest⟩ := cursor_split hl
  have hitem := hall (key, item) (by simp)
  rw [findFreeRange_of_occupied hh hit (by rw [addWord_of_lt (by omega)]; exact hstart)] at h
  simp only at hitem
  by_cases hprev : prevEnd lower undef before ≤ subWord (getStart item) len
  · rw [if_pos hprev] at h
    cases h
    have hle : len ≤ getStart item := by
      by_contra hgt
      rw [subWord_of_lt (by omega) (by omega)] at hb
      omega
    rw [subWord_of_le hle (by omega)] at hprev ⊢
    have hpe : low ≤ prevEnd lower undef before := by
      rcases before with _ | ⟨prev, _ | ⟨first, more⟩⟩
      · have hxr : x ∈ (key, item) :: rest := by simpa using hx
        rcases mem_cons.1 hxr with rfl | hxr
        · exact absurd hxle (Nat.not_le.2 hend)
        have h₂ := hsep x hxr
        have h₃ := hrest.nonempty x hxr
        omega
      · exact hlow
      have h₁ := hall prev (by simp)
      have h₂ := hst.pop.2
      simp only [prevEnd]
      omega
    omega
  · rw [if_neg hprev] at h
    by_cases hnext : addWord key len ≤ nextStart upper rest
    · rw [if_pos hnext] at h
      cases h
      rw [addWord_of_lt (by omega)] at hnext
      have hns : nextStart upper rest ≤ upper := by
        cases rest with
        | nil => exact le_rfl
        | cons next rest =>
          have h₁ := hall next (by simp)
          have h₂ := (wellFormed_cons.1 hrest).1.2
          simp only [nextStart]
          omega
      omega
    · rw [if_neg hnext] at h
      obtain ⟨h₁, h₂⟩ := findFreeBack_between hl hends hu hb h
      exact ⟨hlow.trans h₁, h₂⟩

end Junction.ExclusiveIntervalSet
