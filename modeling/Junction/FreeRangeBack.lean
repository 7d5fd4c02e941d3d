import Junction.AddressPool

/-!
# The backward scan for a free range

The scan of `FindFreeRange` starts at the upper limit and goes down over the intervals. When all of them end at or
below the limit, it finds the highest gap; without a gap the last difference wraps around. An interval that ends above
the limit makes the first difference wrap, so that the scan stops at once, or skips the interval if the request is
long enough.
-/

namespace Junction.ExclusiveIntervalSet
open HalfOpen IntervalData IntervalCover LawfulIntervalData List
variable {T α κ : Type*} [LawfulIntervalData T α κ] {l back : List (ℕ × T)} {len upper lower top prevStart : ℕ}

instance (l : List (ℕ × T)) (start len : ℕ) : Decidable (Free l start len) :=
  inferInstanceAs (Decidable (∀ e ∈ l, _ ∨ _))

/-- There is a free range of `len` addresses below `top`. -/
def Gap (l : List (ℕ × T)) (len top : ℕ) : Prop := ∃ start, start + len ≤ top ∧ Free l start len

def lowest (l : List (ℕ × T)) (top : ℕ) : ℕ :=
  match l with
  | [] => top
  | e :: _ => getStart e.2

variable {start : ℕ}

theorem free_reverse : Free l.reverse start len ↔ Free l start len := by
  simp [Free, mem_reverse]

theorem free_cons {e : ℕ × T} :
    Free (e :: l) start len ↔ (getEnd e.2 ≤ start ∨ start + len ≤ getStart e.2) ∧ Free l start len :=
  forall_mem_cons

theorem lowest_append_singleton (e : ℕ × T) : lowest (l ++ [e]) top = lowest l (getStart e.2) := by
  cases l <;> rfl

theorem scanBack_highest (hst : Stacked back prevStart) (hlt : prevStart < 2 ^ 64)
    (hs : start + len ≤ prevStart) (hfree : Free back start len) : start + len ≤ scanBack len prevStart back := by
  induction back generalizing prevStart with
  | nil => exact hs
  | cons e rest ih =>
    obtain ⟨hpop, hkey, hne⟩ := hst.pop
    have hle : getEnd e.2 ≤ prevStart := hst.below e mem_cons_self
    obtain ⟨hitem, hrest⟩ := free_cons.mp hfree
    rw [scanBack, subWord_of_le (by omega) hlt]
    split_ifs with hroom
    · exact ih hpop (by omega) (by omega) hrest
    · exact hs

theorem scanBack_of_full (hst : Stacked back prevStart) (hlt : prevStart < 2 ^ 64)
    (hfull : ∀ start, start + len ≤ prevStart → ¬ Free back start len) :
    scanBack len prevStart back = lowest back.reverse prevStart ∧ lowest back.reverse prevStart < len := by
  induction back generalizing prevStart with
  | nil =>
    refine ⟨rfl, Nat.lt_of_not_le fun hle => hfull (prevStart - len) ?_ (by simp [Free])⟩
    exact (Nat.sub_add_cancel hle).le
  | cons e rest ih =>
    obtain ⟨hpop, hkey, hne⟩ := hst.pop
    have hle : getEnd e.2 ≤ prevStart := hst.below e mem_cons_self
    have hroom : prevStart - e.1 < len := by
      by_contra hno
      refine hfull (prevStart - len) (by omega) (free_cons.mpr ⟨.inl (by omega), fun x hx => .inl ?_⟩)
      have hx := hpop.below x hx
      omega
    have hnext : ∀ start, start + len ≤ getStart e.2 → ¬ Free rest start len := fun start hs hfree =>
      hfull start (by omega) (free_cons.mpr ⟨.inr hs, hfree⟩)
    rw [scanBack, subWord_of_le (by omega) hlt, if_pos hroom, reverse_cons, lowest_append_singleton]
    exact ih hpop (by omega) hnext

variable (hl : WellFormed l)
include hl

theorem stacked_reverse (hall : ∀ e ∈ l, getEnd e.2 ≤ top) : Stacked l.reverse top :=
  ⟨by rwa [reverse_reverse], fun e he => hall e (mem_reverse.mp he)⟩

/-! ### The results of the scan -/

variable (hall : ∀ e ∈ l, getEnd e.2 ≤ upper)
include hall

variable (hu : upper < 2 ^ 64)
include hu

theorem findFreeBack_of_gap (hgap : Gap l len upper) (lower : ℕ) : ∃ addr, addr + len ≤ upper ∧ Free l addr len ∧
      (∀ start, start + len ≤ upper → Free l start len → start ≤ addr) ∧
      findFreeBack l len upper lower = if addr < lower then .error .ENOMEM else .ok addr := by
  have hst := stacked_reverse hl hall
  obtain ⟨start, hs, hfree⟩ := hgap
  obtain ⟨hlen, htop, hscan⟩ := scanBack_spec hst hu ⟨start, hs, free_reverse.mpr hfree⟩
  refine ⟨scanBack len upper l.reverse - len, by omega, free_reverse.mp hscan, fun start' hs' hfree' => ?_, ?_⟩
  · have hhigh := scanBack_highest hst hu hs' (free_reverse.mpr hfree')
    omega
  · rw [findFreeBack, subWord_of_le hlen (by omega)]

theorem findFreeBack_of_full (hlen : len < 2 ^ 64) (hfull : ¬ Gap l len upper) (lower : ℕ) :
    lowest l upper < len ∧ findFreeBack l len upper lower =
      if lowest l upper + 2 ^ 64 - len < lower then .error .ENOMEM else .ok (lowest l upper + 2 ^ 64 - len) := by
  obtain ⟨hscan, hlow⟩ := scanBack_of_full (stacked_reverse hl hall) hu fun start hs hfree =>
    hfull ⟨start, hs, free_reverse.mp hfree⟩
  rw [reverse_reverse] at hscan hlow
  refine ⟨hlow, ?_⟩
  rw [findFreeBack, hscan, subWord_of_lt hlow hlen]

omit hu

omit hall

omit hl

variable {last : ℕ × T}

theorem findFreeBack_last (hl : WellFormed (l ++ [last])) (habove : upper < getEnd last.2)
    (hend : getEnd last.2 < 2 ^ 64) : findFreeBack (l ++ [last]) len upper lower =
      if getEnd last.2 + len ≤ 2 ^ 64 + upper then
        if subWord upper len < lower then .error .ENOMEM else .ok (subWord upper len)
      else findFreeBack l len (getStart last.2) lower := by
  have hkey : last.1 = getEnd last.2 := hl.keyed last (by simp)
  obtain ⟨key, item⟩ := last
  dsimp only at hkey habove hend ⊢
  have hscan : scanBack len upper (l ++ [(key, item)]).reverse =
      if getEnd item + len ≤ 2 ^ 64 + upper then upper else scanBack len (getStart item) l.reverse := by
    rw [reverse_append, reverse_singleton, singleton_append, scanBack, hkey, subWord_of_lt habove hend, ← ite_not]
    exact if_congr (by omega) rfl rfl
  rw [findFreeBack, hscan]
  by_cases hstop : getEnd item + len ≤ 2 ^ 64 + upper
  · simp only [if_pos hstop]
  · simp only [if_neg hstop, findFreeBack]

theorem free_append_last (hs : start + len ≤ getStart last.2) : Free (l ++ [last]) start len ↔ Free l start len := by
  refine forall_mem_append.trans (and_iff_left fun e he => .inr ?_)
  rw [mem_singleton.mp he]
  exact hs

/-! ### When the scan is right -/

/-- A scan from `top` ends at a gap, or its last difference wraps to less than the lower limit. -/
def Ends (l : List (ℕ × T)) (len top lower : ℕ) : Prop :=
  Gap l len top ∨ lowest l top + 2 ^ 64 < lower + len

theorem ends_of_full (hlen : len < 2 ^ 64) (hfull : ¬ Gap l len top) :
    Ends l len top lower ↔ lowest l top + 2 ^ 64 - len < lower := by
  unfold Ends
  rw [or_iff_right hfull]
  omega

theorem ends_append_last {last : ℕ × T} :
    Ends (l ++ [last]) len (getStart last.2) lower ↔ Ends l len (getStart last.2) lower := by
  unfold Ends
  rw [lowest_append_singleton]
  exact or_congr_left (exists_congr fun start => and_congr_right free_append_last)

/-- A scan that stops at the upper limit returns the addresses below it, or its difference wraps to less than the lower
limit. -/
def LimitFree (l : List (ℕ × T)) (len upper lower : ℕ) : Prop :=
  if len ≤ upper then lower + len ≤ upper → Free l (upper - len) len else upper + 2 ^ 64 < lower + len

/-- All intervals end by the upper limit, and the scan ends. Or the last one ends above it, and the addresses below the
limit are free; a request that is long enough to skip the last interval finds nothing from the lower limit on. -/
def ScanRight (l : List (ℕ × T)) (len upper lower : ℕ) : Prop :=
  ((∀ e ∈ l, getEnd e.2 ≤ upper) → Ends l len upper lower) ∧
  ∀ last ∈ l.getLast?, upper < getEnd last.2 →
    if getEnd last.2 + len ≤ 2 ^ 64 + upper then LimitFree l len upper lower
    else Ends l len (getStart last.2) lower ∧
      ∀ start, lower ≤ start → start + len ≤ getStart last.2 → ¬ Free l start len

def Fits (l : List (ℕ × T)) (len upper lower start : ℕ) : Prop :=
  lower ≤ start ∧ start + len ≤ upper ∧ Free l start len

instance (l : List (ℕ × T)) (len upper lower start : ℕ) : Decidable (Fits l len upper lower start) :=
  inferInstanceAs (Decidable (_ ∧ _ ∧ _))

/-- The highest range between the limits, or an error when there is none. -/
def Highest (l : List (ℕ × T)) (len upper lower : ℕ) : Status ℕ → Prop
  | .ok addr => Fits l len upper lower addr ∧ ∀ start, Fits l len upper lower start → start ≤ addr
  | .error e => e = .ENOMEM ∧ ∀ start, ¬ Fits l len upper lower start

include hl

include hall

include hu

theorem highest_of_all
    (hlen : len < 2 ^ 64) : Highest l len upper lower (findFreeBack l len upper lower) ↔ Ends l len upper lower := by
  by_cases hgap : Gap l len upper
  · obtain ⟨addr, htop, hfree, hhigh, heq⟩ := findFreeBack_of_gap hl hall hu hgap lower
    refine iff_of_true ?_ (.inl hgap)
    rw [heq]
    split_ifs with hlow
    · refine ⟨rfl, fun start ⟨hs, hs', hf⟩ => ?_⟩
      have := hhigh start hs' hf
      omega
    · exact ⟨⟨Nat.le_of_not_lt hlow, htop, hfree⟩, fun start ⟨_, hs', hf⟩ => hhigh start hs' hf⟩
  obtain ⟨hlow, heq⟩ := findFreeBack_of_full hl hall hu hlen hgap lower
  rw [ends_of_full hlen hgap, heq]
  split_ifs with hlower
  · exact iff_of_true ⟨rfl, fun start ⟨_, hs, hf⟩ => hgap ⟨start, hs, hf⟩⟩ hlower
  · refine iff_of_false (fun ⟨⟨_, hs, _⟩, _⟩ => ?_) hlower
    omega

omit hall

omit hl in
theorem highest_of_limit (hlen : len < 2 ^ 64) :
    Highest l len upper lower (if subWord upper len < lower then .error .ENOMEM else .ok (subWord upper len)) ↔
      LimitFree l len upper lower := by
  unfold LimitFree
  split_ifs with hlow hle hle
  · rw [subWord_of_le hle hu] at hlow
    refine iff_of_true ⟨rfl, fun start ⟨hs, hs', _⟩ => ?_⟩ fun h => ?_ <;> omega
  · rw [subWord_of_lt (by omega) hlen] at hlow
    refine iff_of_true ⟨rfl, fun start ⟨hs, hs', _⟩ => ?_⟩ ?_ <;> omega
  · rw [subWord_of_le hle hu] at hlow ⊢
    constructor
    · exact fun ⟨⟨_, _, hfree⟩, _⟩ _ => hfree
    · exact fun hfree => ⟨⟨by omega, by omega, hfree (by omega)⟩, fun start ⟨_, hs, _⟩ => by omega⟩
  · rw [subWord_of_lt (by omega) hlen] at hlow ⊢
    refine iff_of_false (fun ⟨⟨_, hs, _⟩, _⟩ => ?_) ?_ <;> omega

omit hu

theorem highest_of_skipped (hall : ∀ e ∈ l, getEnd e.2 ≤ top) (ht : top < 2 ^ 64)
    (hlen : len < 2 ^ 64) (hlong : upper < len) {m : List (ℕ × T)} :
    Highest m len upper lower (findFreeBack l len top lower) ↔
      Ends l len top lower ∧ ∀ start, lower ≤ start → start + len ≤ top → ¬ Free l start len := by
  have hnone : ∀ start, ¬ Fits m len upper lower start := fun start ⟨_, hs, _⟩ => by omega
  by_cases hgap : Gap l len top
  · obtain ⟨addr, htop, hfree, hhigh, heq⟩ := findFreeBack_of_gap hl hall ht hgap lower
    rw [heq]
    split_ifs with hlow
    · refine iff_of_true ⟨rfl, hnone⟩ ⟨.inl hgap, fun start hs hs' hf => ?_⟩
      have := hhigh start hs' hf
      omega
    · exact iff_of_false (fun h => hnone addr h.1) fun h => h.2 addr (Nat.le_of_not_lt hlow) htop hfree
  obtain ⟨hlow, heq⟩ := findFreeBack_of_full hl hall ht hlen hgap lower
  rw [ends_of_full hlen hgap, heq]
  split_ifs with hlower
  · exact iff_of_true ⟨rfl, hnone⟩ ⟨hlower, fun start _ hs hf => hgap ⟨start, hs, hf⟩⟩
  · exact iff_of_false (fun h => hnone _ h.1) fun h => hlower h.1

theorem last_above (hnot : ¬ ∀ e ∈ l, getEnd e.2 ≤ upper) :
    ∃ m last, l = m ++ [last] ∧ upper < getEnd last.2 ∧ WellFormed m ∧ ∀ e ∈ m, getEnd e.2 ≤ getStart last.2 := by
  push Not at hnot
  obtain ⟨x, hx, habove⟩ := hnot
  rcases eq_nil_or_concat l with rfl | ⟨m, last, rfl⟩
  · cases hx
  rw [concat_eq_append] at *
  obtain ⟨hm, -, hsep⟩ := wellFormed_append.mp hl
  have hsep' : ∀ e ∈ m, getEnd e.2 ≤ getStart last.2 := fun e he => hsep e he last (by simp)
  refine ⟨m, last, rfl, ?_, hm, hsep'⟩
  rcases mem_append.mp hx with hx | hx
  · have h₁ := hsep' x hx
    have h₂ := hl.nonempty last (by simp)
    omega
  · rwa [mem_singleton.mp hx] at habove

omit hl

theorem scan_iff {Q A : Prop} {C : ℕ × T → Prop} (hl : WellFormed l) (hend : (∀ e ∈ l, getEnd e.2 ≤ upper) → (Q ↔ A))
    (hlast : ∀ m last, l = m ++ [last] → upper < getEnd last.2 → WellFormed m →
      (∀ e ∈ m, getEnd e.2 ≤ getStart last.2) → (Q ↔ C last)) :
    Q ↔ ((∀ e ∈ l, getEnd e.2 ≤ upper) → A) ∧ ∀ last ∈ l.getLast?, upper < getEnd last.2 → C last := by
  by_cases hall : ∀ e ∈ l, getEnd e.2 ≤ upper
  · rw [hend hall]
    refine ⟨fun h => ⟨fun _ => h, fun last hlast habove => ?_⟩, fun h => h.1 hall⟩
    exact absurd (hall last (mem_of_getLast? hlast)) (Nat.not_le.mpr habove)
  obtain ⟨m, last, rfl, habove, hm, hsep⟩ := last_above hl hall
  rw [and_iff_right fun h => absurd h hall, getLast?_append_of_ne_nil _ (by simp), hlast m last rfl habove hm hsep]
  simp [habove]

theorem findFreeRange_highest_iff (hl : WellFormed l) (hends : ∀ e ∈ l, getEnd e.2 < 2 ^ 64)
    (hsize : len < 2 ^ 64) (hu : upper < 2 ^ 64) (undef : ℕ) :
    Highest l len upper lower (findFreeRange l 0 len upper lower undef) ↔ ScanRight l len upper lower := by
  rw [findFreeRange, if_pos rfl]
  refine scan_iff hl (fun hall => highest_of_all hl hall hu hsize) ?_
  rintro m last rfl habove hm hsep
  have hend := hends last (by simp)
  have hne := hl.nonempty last (by simp)
  rw [findFreeBack_last hl habove hend]
  by_cases hstop : getEnd last.2 + len ≤ 2 ^ 64 + upper
  · rw [if_pos hstop, if_pos hstop]
    exact highest_of_limit hu hsize
  rw [if_neg hstop, if_neg hstop, highest_of_skipped hm hsep (by omega) hsize (by omega), ends_append_last]
  exact and_congr_right fun _ => forall_congr' fun start => forall_congr' fun _ => forall_congr' fun hs =>
    not_congr (free_append_last hs).symm

/-- Two intervals below the limit with a gap of two pages above the lower limit. -/
def gapped : List (ℕ × SimpleInterval) := [(0x2000, ⟨0x1000, 0x2000⟩), (0x5000, ⟨0x4000, 0x5000⟩)]

theorem findFreeRange_highest_gapped :
    Highest gapped 0x2000 0x5000 0x1000 (findFreeRange gapped 0 0x2000 0x5000 0x1000 0) := by
  refine (findFreeRange_highest_iff ⟨by decide, by decide, by decide⟩ (by decide) (by decide) (by decide) 0).mpr ?_
  refine ⟨fun _ => .inl ⟨0x2000, by decide, by decide⟩, fun last hlast habove => ?_⟩
  obtain rfl := Option.some.inj (show some _ = some last from hlast)
  exact absurd habove (by decide)

/-- An interval that ends above the limit is overwritten, and without a gap the result wraps around. -/
theorem findFreeRange_not_highest :
    let straddling : List (ℕ × SimpleInterval) := [(0x6000, ⟨0x4000, 0x6000⟩)]
    let full : List (ℕ × SimpleInterval) := [(0x5000, ⟨0, 0x5000⟩)]
    (WellFormed straddling ∧ findFreeRange straddling 0 0x1000 0x5000 0x1000 0 = .ok 0x4000 ∧
      ¬ Free straddling 0x4000 0x1000 ∧ Fits straddling 0x1000 0x5000 0x1000 0x3000) ∧
    WellFormed full ∧ findFreeRange full 0 0x1000 0x5000 0 0 = .ok (2 ^ 64 - 0x1000) := by
  refine ⟨⟨⟨by decide, by decide, by decide⟩, by decide, by decide, by decide⟩, ⟨by decide, by decide, by decide⟩, ?_⟩
  decide

end Junction.ExclusiveIntervalSet

/-! ### The search near a hint: just below the interval in the way, just above it, and then the scan -/

namespace Junction.ExclusiveIntervalSet
open HalfOpen IntervalData IntervalCover LawfulIntervalData List Option
variable {T α κ : Type*} [LawfulIntervalData T α κ] {l before rest : List (ℕ × T)} {hint len upper lower key : ℕ}
  {item : T}

def Usable (l : List (ℕ × T)) (len addr : ℕ) : Prop := Free l addr len ∧ addr + len < 2 ^ 64

def AllUsable (l : List (ℕ × T)) (len : ℕ) (r : Status ℕ) : Prop := ∀ addr, r = .ok addr → Usable l len addr

theorem allUsable_ok {addr : ℕ} : AllUsable l len (.ok addr) ↔ Usable l len addr := by
  simp [AllUsable]

theorem allUsable_error {e : Error} : AllUsable l len (.error e) := nofun

theorem allUsable_ite {P : Prop} [Decidable P] {r r' : Status ℕ} :
    AllUsable l len (if P then r else r') ↔ (P → AllUsable l len r) ∧ (¬ P → AllUsable l len r') := by
  by_cases hP : P <;> simp [hP]

/-! ### The two sides of the interval in the way -/

/-- The addresses below the interval, if they are taken, are free. -/
def BelowRight (before : List (ℕ × T)) (item : T) (len lower : ℕ) : Prop :=
  match before with
  | [] => len ≤ getStart item
  | [prev] =>
    if len ≤ getStart item then lower + len ≤ getStart item → getEnd prev.2 + len ≤ getStart item
    else getStart item + 2 ^ 64 < lower + len
  | _ :: _ :: _ => len ≤ getStart item

/-- The addresses below the interval are taken, whatever lies in front of the set. -/
def BelowTaken (before : List (ℕ × T)) (item : T) (len lower : ℕ) : Prop :=
  match before with
  | [] => False
  | [_] => lower + len ≤ getStart item
  | prev :: _ :: _ => getEnd prev.2 + len ≤ getStart item

/-- The end of the addresses above the interval does not wrap to one that is taken. -/
def AboveRight (rest : List (ℕ × T)) (item : T) (len upper : ℕ) : Prop :=
  getEnd item + len < 2 ^ 64 ∨ rest = [] ∧ upper + 2 ^ 64 < getEnd item + len

def AboveTaken (rest : List (ℕ × T)) (item : T) (len upper : ℕ) : Prop := getEnd item + len ≤ nextStart upper rest

variable (hl : WellFormed (before.reverse ++ (key, item) :: rest))
include hl

theorem usable_below (hle : len ≤ getStart item)
    (hlt : getStart item < 2 ^ 64) : Usable (before.reverse ++ (key, item) :: rest) len (getStart item - len) ↔
      ∀ prev ∈ before.head?, getEnd prev.2 + len ≤ getStart item := by
  obtain ⟨hst, -, hne, -⟩ := cursor_split hl
  cases before with
  | nil =>
    refine iff_of_true ⟨free_before hl hle nofun, by omega⟩ nofun
  | cons prev more =>
    obtain ⟨hpop, -, hpne⟩ := hst.pop
    have hprev := hst.below prev mem_cons_self
    simp only [head?_cons, mem_some_iff, forall_eq']
    constructor
    · rintro ⟨hfree, -⟩
      have := hfree prev (by simp)
      omega
    intro hroom
    refine ⟨free_before hl hle fun e he => ?_, by omega⟩
    rcases mem_cons.mp he with rfl | he
    · omega
    · have := hpop.below e he
      omega

theorem usable_above (hlen : len < 2 ^ 64) (hend : getEnd item < 2 ^ 64) :
    (addWord key len ≤ nextStart upper rest → Usable (before.reverse ++ (key, item) :: rest) len (getEnd item)) ↔
      AboveRight rest item len upper := by
  obtain ⟨-, hkey, -, hsep, -⟩ := cursor_split hl
  unfold AboveRight
  by_cases hwrap : getEnd item + len < 2 ^ 64
  · refine iff_of_true (fun hnext => ⟨free_after hl fun y hy => ?_, hwrap⟩) (.inl hwrap)
    rw [hkey, addWord_of_lt hwrap] at hnext
    cases rest with
    | nil => cases hy
    | cons next rest =>
      obtain rfl := some.inj hy
      exact hnext
  have hsum : addWord key len = getEnd item + len - 2 ^ 64 := by
    rw [hkey, addWord, Nat.mod_eq_sub_mod (by omega), Nat.mod_eq_of_lt (by omega)]
  have hno : ¬ Usable (before.reverse ++ (key, item) :: rest) len (getEnd item) := fun h => hwrap h.2
  rw [or_iff_right hwrap, hsum, imp_iff_not hno]
  cases rest with
  | nil =>
    simp only [nextStart, true_and]
    omega
  | cons next rest =>
    have hnext := hsep next mem_cons_self
    simp only [nextStart, reduceCtorEq, false_and, iff_false, not_not]
    omega

theorem aboveTaken_iff (hlen : len < 2 ^ 64) (hend : getEnd item < 2 ^ 64) (hright : AboveRight rest item len upper) :
    addWord key len ≤ nextStart upper rest ↔ AboveTaken rest item len upper := by
  obtain ⟨-, hkey, -⟩ := cursor_split hl
  unfold AboveTaken
  rcases hright with hwrap | ⟨rfl, hwrap⟩
  · rw [hkey, addWord_of_lt hwrap]
  have hsum : addWord key len = getEnd item + len - 2 ^ 64 := by
    rw [hkey, addWord, Nat.mod_eq_sub_mod (by omega), Nat.mod_eq_of_lt (by omega)]
  rw [hsum]
  simp only [nextStart]
  omega

omit hl

/-! ### The scan -/

theorem allUsable_of_all {m : List (ℕ × T)} {top : ℕ} (hl : WellFormed l) (hall : ∀ e ∈ l, getEnd e.2 ≤ top)
    (ht : top < 2 ^ 64) (hlen : len < 2 ^ 64)
    (hfree : ∀ start, start + len ≤ top → Free l start len → Free m start len) :
    AllUsable m len (findFreeBack l len top lower) ↔ Ends l len top lower := by
  by_cases hgap : Gap l len top
  · obtain ⟨addr, htop, haddr, -, heq⟩ := findFreeBack_of_gap hl hall ht hgap lower
    refine iff_of_true ?_ (.inl hgap)
    rw [heq, allUsable_ite, allUsable_ok]
    exact ⟨fun _ => allUsable_error, fun _ => ⟨hfree addr htop haddr, by omega⟩⟩
  obtain ⟨hlow, heq⟩ := findFreeBack_of_full hl hall ht hlen hgap lower
  have hno : ¬ Usable m len (lowest l top + 2 ^ 64 - len) := by
    rintro ⟨-, hwrap⟩
    omega
  unfold Ends
  rw [heq, allUsable_ite, allUsable_ok, or_iff_right hgap, imp_iff_not hno, and_iff_right fun _ => allUsable_error]
  omega

theorem allUsable_of_limit (hu : upper < 2 ^ 64) (hlen : len < 2 ^ 64) :
    AllUsable l len (if subWord upper len < lower then .error .ENOMEM else .ok (subWord upper len)) ↔
      LimitFree l len upper lower := by
  unfold LimitFree
  rw [allUsable_ite, allUsable_ok, and_iff_right fun _ => allUsable_error]
  split_ifs with hle
  · rw [subWord_of_le hle hu]
    constructor
    · exact fun h hlow => (h (by omega)).1
    · exact fun h hlow => ⟨h (by omega), by omega⟩
  · rw [subWord_of_lt (by omega) hlen, imp_iff_not fun h => by have := h.2; omega]
    omega

/-- As for a search without a hint, but a range that lies above the limit will do. -/
def ScanFree (l : List (ℕ × T)) (len upper lower : ℕ) : Prop :=
  ((∀ e ∈ l, getEnd e.2 ≤ upper) → Ends l len upper lower) ∧
  ∀ last ∈ l.getLast?, upper < getEnd last.2 →
    if getEnd last.2 + len ≤ 2 ^ 64 + upper then LimitFree l len upper lower
    else Ends l len (getStart last.2) lower

theorem allUsable_findFreeBack (hl : WellFormed l) (hends : ∀ e ∈ l, getEnd e.2 < 2 ^ 64) (hlen : len < 2 ^ 64)
    (hu : upper < 2 ^ 64) : AllUsable l len (findFreeBack l len upper lower) ↔ ScanFree l len upper lower := by
  refine scan_iff hl (fun hall => allUsable_of_all hl hall hu hlen fun _ _ h => h) ?_
  rintro m last rfl habove hm hsep
  have hend := hends last (by simp)
  have hne := hl.nonempty last (by simp)
  rw [findFreeBack_last hl habove hend]
  by_cases hstop : getEnd last.2 + len ≤ 2 ^ 64 + upper
  · rw [if_pos hstop, if_pos hstop]
    exact allUsable_of_limit hu hlen
  · rw [if_neg hstop, if_neg hstop, ends_append_last]
    exact allUsable_of_all hm hsep (by omega) hlen fun start hs => (free_append_last hs).mpr

/-! ### The search -/

/-- No interval is in the way of the hint, or every place that is taken in its stead is right. -/
def HintRight (l : List (ℕ × T)) (hint len upper lower : ℕ) : Prop :=
  match upperBound l hint with
  | ⟨_, []⟩ => True
  | ⟨before, (_, item) :: rest⟩ =>
    getStart item < hint + len → BelowRight before item len lower ∧ (¬ BelowTaken before item len lower →
      AboveRight rest item len upper ∧ (¬ AboveTaken rest item len upper → ScanFree l len upper lower))

theorem forall_undef {P : Prop} : (∀ undef < 2 ^ 64, P) ↔ P := ⟨fun h => h 0 (by decide), fun h _ _ => h⟩

include hl

/-- What is taken below the interval, for every value that may be read in front of the first one. -/
theorem below_iff (hbelow : ∀ e ∈ before, getEnd e.2 ≤ hint)
    (hw : hint + len < 2 ^ 64) (hlt : getStart item < 2 ^ 64) (hlen : 0 < len) {Q : Prop} : (∀ undef < 2 ^ 64,
      (prevEnd lower undef before ≤ subWord (getStart item) len →
        Usable (before.reverse ++ (key, item) :: rest) len (subWord (getStart item) len)) ∧
      (¬ prevEnd lower undef before ≤ subWord (getStart item) len → Q)) ↔
    BelowRight before item len lower ∧ (¬ BelowTaken before item len lower → Q) := by
  by_cases hle : len ≤ getStart item
  · rw [subWord_of_le hle hlt, usable_below hl hle hlt]
    rcases before with _ | ⟨prev, _ | ⟨first, more⟩⟩
    · refine ⟨fun h => ⟨hle, fun _ => (h (2 ^ 64 - 1) (by omega)).2 ?_⟩, fun h undef _ => ⟨fun _ => nofun, fun _ => ?_⟩⟩
      · simp only [prevEnd]
        omega
      · exact h.2 not_false
    · have htaken : lower ≤ getStart item - len ↔ lower + len ≤ getStart item := by omega
      simp only [prevEnd, BelowRight, BelowTaken, if_pos hle, htaken, forall_undef, head?_cons,
        mem_some_iff, forall_eq']
    have hkey : prev.1 = getEnd prev.2 := hl.keyed prev (by simp)
    have htaken : getEnd prev.2 ≤ getStart item - len ↔ getEnd prev.2 + len ≤ getStart item := by omega
    simp only [prevEnd, BelowRight, BelowTaken, hkey, hle, htaken, forall_undef, head?_cons,
      mem_some_iff, forall_eq', true_and]
    exact and_iff_right fun h => h
  · have hno : ¬ Usable (before.reverse ++ (key, item) :: rest) len (subWord (getStart item) len) := by
      rintro ⟨-, hwrap⟩
      rw [subWord_of_lt (by omega) (by omega)] at hwrap
      omega
    simp only [imp_iff_not hno]
    rw [subWord_of_lt (by omega) (by omega)]
    rcases before with _ | ⟨prev, _ | ⟨first, more⟩⟩
    · exact iff_of_false (fun h => (h 0 (by decide)).1 (Nat.zero_le _)) fun h => hle h.1
    · have htaken : ¬ lower + len ≤ getStart item := by omega
      have hwrap : ¬ lower ≤ getStart item + 2 ^ 64 - len ↔ getStart item + 2 ^ 64 < lower + len := by omega
      simp only [prevEnd, BelowRight, BelowTaken, if_neg hle, forall_undef, htaken, not_false_eq_true, true_implies,
        hwrap]
      exact and_congr_right fun h => imp_iff_right h
    have hkey : prev.1 = getEnd prev.2 := hl.keyed prev (by simp)
    have hprev := hbelow prev mem_cons_self
    refine iff_of_false (fun h => (h 0 (by decide)).1 ?_) fun h => hle h.1
    simp only [prevEnd]
    omega

omit hl

/-- For a hint, the search returns free ranges that do not wrap exactly when the hint is right. -/
theorem findFreeRange_usable_iff (hl : WellFormed l) (hends : ∀ e ∈ l, getEnd e.2 < 2 ^ 64) (hh : hint ≠ 0)
    (hlen : 0 < len) (hw : hint + len < 2 ^ 64) (hu : upper < 2 ^ 64) :
    (∀ undef < 2 ^ 64, ∀ addr, findFreeRange l hint len upper lower undef = .ok addr →
      Free l addr len ∧ addr + len < 2 ^ 64) ↔ HintRight l hint len upper lower := by
  change (∀ undef < 2 ^ 64, AllUsable l len (findFreeRange l hint len upper lower undef)) ↔ _
  by_cases hov : hasOverlap l hint (hint + len) = false
  · refine iff_of_true (fun undef _ => ?_) ?_
    · rw [findFreeRange_of_free hh hw hov, allUsable_ok]
      exact ⟨(hasOverlap_eq_false_iff hl hint len).mp hov, hw⟩
    unfold HintRight
    unfold hasOverlap at hov
    split
    · trivial
    next hit =>
      rw [hit] at hov
      exact fun hlt => absurd hlt (of_decide_eq_false hov)
  · obtain ⟨before, key, item, rest, hit, rfl, hbelow, hend, hstart⟩ := hasOverlap_cursor hl hov
    have hitem := hends (key, item) (by simp)
    have hstart' : getStart item < addWord hint len := by rwa [addWord_of_lt hw]
    simp only [findFreeRange_of_occupied hh hit hstart', allUsable_ite, allUsable_ok]
    rw [below_iff hl hbelow hw (by omega) hlen]
    simp only [HintRight, hit, hstart, true_implies]
    refine and_congr_right fun _ => forall_congr' fun _ => ?_
    rw [usable_above hl (by omega) hitem, allUsable_findFreeBack hl hends (by omega) hu]
    refine and_congr_right fun hright => ?_
    rw [aboveTaken_iff hl (by omega) hitem hright]

/-- The second interval of `gapped` is in the way, and there is room below it. -/
theorem findFreeRange_usable_gapped : WellFormed gapped ∧ ∀ undef < 2 ^ 64, ∀ addr,
    findFreeRange gapped 0x4000 0x1000 0x10000 0x2000 undef = .ok addr →
      Free gapped addr 0x1000 ∧ addr + 0x1000 < 2 ^ 64 := by
  have hl : WellFormed gapped := ⟨by decide, by decide, by decide⟩
  refine ⟨hl, (findFreeRange_usable_iff hl (by decide) (by decide) (by decide) (by decide) (by decide)).mpr ?_⟩
  intro _
  have htaken : BelowTaken [(0x2000, (⟨0x1000, 0x2000⟩ : SimpleInterval))] ⟨0x4000, 0x5000⟩ 0x1000 0x2000 :=
    show 0x2000 + 0x1000 ≤ 0x4000 by decide
  exact ⟨fun _ => show 0x2000 + 0x1000 ≤ 0x4000 by decide, fun hno => absurd htaken hno⟩

/-- Below a second interval the first one is overwritten; below the first one the result may wrap around. -/
theorem findFreeRange_not_usable :
    let two : List (ℕ × SimpleInterval) := [(0x3000, ⟨0x1000, 0x3000⟩), (0x5000, ⟨0x4000, 0x5000⟩)]
    let one : List (ℕ × SimpleInterval) := [(0x2000, ⟨0x1000, 0x2000⟩)]
    (WellFormed two ∧ (∀ undef, findFreeRange two 0x4000 0x2000 0x10000 0x1000 undef = .ok 0x2000) ∧
      ¬ Free two 0x2000 0x2000) ∧
    WellFormed one ∧ findFreeRange one 0x1000 0x2000 0x10000 0x1000 0 = .ok (2 ^ 64 - 0x1000) := by
  refine ⟨⟨⟨by decide, by decide, by decide⟩, fun _ => rfl, by decide⟩, ⟨by decide, by decide, by decide⟩, ?_⟩
  decide

end Junction.ExclusiveIntervalSet
