import Junction.FreeRange
import Junction.MemoryMapCalls

/-!
# Accounting of the shared address pool

`mem_areas_` has to cover what every memory map uses: its own region and its areas outside of it. A
search in the pool then never returns an address in use. The accounting is proved together with the
fact that no two maps use the same address, since giving a range back must not uncover another map.
-/

namespace Junction
open HalfOpen IntervalData IntervalCover ExclusiveIntervalSet LawfulIntervalData SimpleInterval

theorem SimpleInterval.merge_eq_some {rhs lhs m : SimpleInterval} (h : tryMergeRight rhs lhs = some m) :
    rhs.start = lhs.stop ∧ m = { rhs with start := lhs.start } := by
  by_cases hne : rhs.start ≠ lhs.stop
  · simp [tryMergeRight, hne] at h
  · simp only [tryMergeRight, if_neg hne, Option.some.injEq] at h
    exact ⟨not_not.1 hne, h.symm⟩

instance : LawfulIntervalData SimpleInterval Unit ℕ where
  attr _ _ := ()
  leftEdge iv := iv.start
  rightEdge iv := iv.stop
  getStart_trimTail _ _ := rfl
  getEnd_trimTail _ _ := rfl
  attr_trimTail _ _ _ := rfl
  leftEdge_trimTail _ _ := rfl
  getStart_trimHead _ _ := rfl
  getEnd_trimHead _ _ := rfl
  attr_trimHead _ _ _ _ _ := rfl
  rightEdge_trimHead _ _ _ _ := rfl
  tryMergeRight_eq_none_iff rhs lhs := by simp [tryMergeRight, eq_comm]
  getEnd_eq_getStart_of_merge _ _ _ h := (merge_eq_some h).1.symm
  getStart_merge _ _ _ h := by rw [(merge_eq_some h).2]; rfl
  getEnd_merge _ _ _ h := by rw [(merge_eq_some h).2]; rfl
  attr_merge_left _ _ _ _ _ _ := rfl
  attr_merge_right _ _ _ _ _ _ _ := rfl
  leftEdge_merge _ _ _ h := by rw [(merge_eq_some h).2]
  rightEdge_merge _ _ _ h _ _ := by rw [(merge_eq_some h).2]

variable {len : ℕ}

section Covered
variable {T α κ : Type*} [LawfulIntervalData T α κ] {l : List (ℕ × T)} {a start stop : ℕ} {t : T}

def Covered (l : List (ℕ × T)) (a : ℕ) : Prop := ∃ e ∈ l, getStart e.2 ≤ a ∧ a < getEnd e.2

instance (l : List (ℕ × T)) (a : ℕ) : Decidable (Covered l a) :=
  inferInstanceAs (Decidable (∃ e ∈ l, getStart e.2 ≤ a ∧ a < getEnd e.2))

theorem covered_iff : Covered l a ↔ ∃ v, AttrMaps l a v := by
  constructor
  · rintro ⟨e, he, hc⟩
    exact ⟨attr e.2 a, e, he, hc, rfl⟩
  · rintro ⟨v, e, he, hc, -⟩
    exact ⟨e, he, hc⟩

theorem covered_clear (hl : WellFormed l) (hss : start ≤ stop) : Covered (Cursor.entries (clear l start stop)) a ↔
      Covered l a ∧ ¬ (start ≤ a ∧ a < stop) := by
  simp [covered_iff, (clear_spec hl hss).2, exists_and_right]

theorem covered_insert (hl : WellFormed l) (ht : getStart t < getEnd t) :
    Covered (insert l t) a ↔ (getStart t ≤ a ∧ a < getEnd t) ∨ Covered l a := by
  simp only [covered_iff, (insert_spec hl ht).2]
  constructor
  · rintro ⟨v, ⟨h₁, h₂, -⟩ | ⟨h, -⟩⟩
    · exact .inl ⟨h₁, h₂⟩
    · exact .inr ⟨v, h⟩
  intro h
  by_cases hin : getStart t ≤ a ∧ a < getEnd t
  · exact ⟨attr t a, .inl ⟨hin.1, hin.2, rfl⟩⟩
  · obtain ⟨v, hv⟩ := h.resolve_left hin
    exact ⟨v, .inr ⟨hv, hin⟩⟩

theorem covered_clear_if (hl : WellFormed l) (c : Prop) [Decidable c] (start stop : ℕ)
    (hc : c → stop = 0 ∨ start ≤ stop) (hn : ¬ c → stop ≤ start) :
    WellFormed (if c then Cursor.entries (clear l start stop) else l) ∧
      ∀ a, Covered (if c then Cursor.entries (clear l start stop) else l) a ↔
        Covered l a ∧ ¬ (start ≤ a ∧ a < stop) := by
  split_ifs with h
  · rcases hc h with rfl | hss
    · rw [clear_stop_zero hl]
      exact ⟨hl, fun a => by simp⟩
    · exact ⟨(clear_spec hl hss).1, fun a => covered_clear hl hss⟩
  · have hle := hn h
    exact ⟨hl, fun a => ⟨fun hcov => ⟨hcov, by omega⟩, fun hcov => hcov.1⟩⟩

theorem not_covered_of_free (h : Free l start len) (h₁ : start ≤ a) (h₂ : a < start + len) : ¬ Covered l a := by
  rintro ⟨e, he, hs, hlt⟩
  have hd := h e he
  omega

end Covered

variable {pool : MemAreas} {addr : ℕ}

theorem reserve_spec (hp : WellFormed pool) (hpos : 0 < len)
    (hw : addr + len < 2 ^ 64) : WellFormed (insert pool (⟨addr, addWord addr len⟩ : SimpleInterval)) ∧
      ∀ a, Covered (insert pool (⟨addr, addWord addr len⟩ : SimpleInterval)) a ↔
        (addr ≤ a ∧ a < addr + len) ∨ Covered pool a := by
  rw [addWord_of_lt hw]
  have hne : getStart (⟨addr, addr + len⟩ : SimpleInterval) <
      getEnd (⟨addr, addr + len⟩ : SimpleInterval) := Nat.lt_add_of_pos_right hpos
  exact ⟨(insert_spec hp hne).1, fun a => covered_insert hp hne⟩

theorem unreserve_spec (hp : WellFormed pool) (hpos : 0 < len) (hw : addr + len < 2 ^ 64) (hfree : Free pool addr len) :
    WellFormed (Cursor.entries (clear (insert pool (⟨addr, addWord addr len⟩ : SimpleInterval)) addr
        (addWord addr len))) ∧
      ∀ a, Covered (Cursor.entries (clear (insert pool (⟨addr, addWord addr len⟩ : SimpleInterval))
        addr (addWord addr len))) a ↔ Covered pool a := by
  obtain ⟨hwf, hcov⟩ := reserve_spec hp hpos hw
  have hle : addr ≤ addWord addr len := by
    rw [addWord_of_lt hw]
    omega
  refine ⟨(clear_spec hwf hle).1, fun a => ?_⟩
  rw [covered_clear hwf hle, hcov a, addWord_of_lt hw]
  constructor
  · rintro ⟨hin | hold, hnot⟩
    · exact absurd hin hnot
    · exact hold
  · exact fun hold => ⟨.inr hold, fun hin => not_covered_of_free hfree hin.1 hin.2 hold⟩

namespace MemoryMap

def InRegion (mm : MemoryMap) (a : ℕ) : Prop := mm.mmStart ≤ a ∧ a < mm.mmEnd

instance (mm : MemoryMap) (a : ℕ) : Decidable (mm.InRegion a) :=
  inferInstanceAs (Decidable (_ ∧ _))

/-- The addresses the map uses: its region, and what its areas cover outside of it. -/
def Owns (mm : MemoryMap) (a : ℕ) : Prop := mm.InRegion a ∨ Covered mm.vmareas a

variable (mm : MemoryMap)

theorem munmapCheck_spec (hp : WellFormed pool)
    (hr : mm.mmStart ≤ mm.mmEnd) (hss : boundsEnd addr len = 0 ∨ addr < boundsEnd addr len) :
    WellFormed (mm.munmapCheck pool addr len) ∧ ∀ a, Covered (mm.munmapCheck pool addr len) a ↔
        Covered pool a ∧ ¬ ((addr ≤ a ∧ a < boundsEnd addr len) ∧ ¬ mm.InRegion a) := by
  simp only [munmapCheck, InRegion]
  generalize boundsEnd addr len = stop at hss
  by_cases hin : mm.mmStart ≤ addr ∧ stop ≤ mm.mmEnd
  · rw [if_pos hin]
    refine ⟨hp, fun a => ⟨fun h => ⟨h, ?_⟩, fun h => h.1⟩⟩
    omega
  rw [if_neg hin]
  obtain ⟨hwf₁, hcov₁⟩ := covered_clear_if hp (addr < mm.mmStart) addr (min stop mm.mmStart) (by omega) (by omega)
  obtain ⟨hwf₂, hcov₂⟩ := covered_clear_if hwf₁ (mm.mmEnd < stop) (max mm.mmEnd addr) stop (by omega) (by omega)
  refine ⟨hwf₂, fun a => ?_⟩
  rw [hcov₂ a, hcov₁ a, and_assoc]
  apply and_congr_right
  intro _
  omega

theorem boundsEnd_length {v : VMArea} (hs : v.Sound) (hv : v.start < v.stop) : boundsEnd v.start v.length = v.stop := by
  have hlt := hs.stop_lt
  rw [boundsEnd, VMArea.length, subWord_of_le hv.le hlt, addWord_of_lt (by omega),
    Nat.add_sub_of_le hv.le, pageAlign_of_dvd hs.stop_dvd hlt]

theorem munmapCheck_foldl_spec (hr : mm.mmStart ≤ mm.mmEnd) {areas : List (ℕ × VMArea)} (hs : ∀ e ∈ areas, e.2.Sound)
    (hne : ∀ e ∈ areas, e.2.start < e.2.stop) (hp : WellFormed pool) :
    WellFormed (areas.foldl (fun pool e => mm.munmapCheck pool e.2.start e.2.length) pool) ∧
      ∀ a, Covered (areas.foldl (fun pool e => mm.munmapCheck pool e.2.start e.2.length) pool) a ↔
        Covered pool a ∧ ¬ (Covered areas a ∧ ¬ mm.InRegion a) := by
  induction areas generalizing pool with
  | nil => exact ⟨hp, fun a => by simp [Covered]⟩
  | cons e areas ih =>
    obtain ⟨hse, hsrest⟩ := List.forall_mem_cons.1 hs
    obtain ⟨hnee, hnerest⟩ := List.forall_mem_cons.1 hne
    have hend := boundsEnd_length hse hnee
    obtain ⟨hwf, hcov⟩ := munmapCheck_spec mm hp hr (.inr (hend.symm ▸ hnee))
    obtain ⟨hwf', hcov'⟩ := ih hsrest hnerest hwf
    refine ⟨hwf', fun a => ?_⟩
    have hcons : Covered (e :: areas) a ↔ (e.2.start ≤ a ∧ a < e.2.stop) ∨ Covered areas a := by
      simp [Covered]
    rw [List.foldl_cons, hcov' a, hcov a, hend, hcons]
    tauto

/-- The destructor skips areas inside the region, for which there is nothing to give back. -/
theorem destroy_eq (pool : MemAreas) (hf : mm.isFakeMap = false) :
    mm.destroy pool = Cursor.entries (clear (mm.unmapAll pool).2 mm.mmStart mm.mmEnd) := by
  have hstep : (fun (pool : MemAreas) (e : ℕ × VMArea) =>
      if mm.containedInMapBounds e.2.start e.2.length then pool
      else mm.munmapCheck pool e.2.start e.2.length) =
      fun pool e => mm.munmapCheck pool e.2.start e.2.length := by
    funext pool e
    split_ifs with hc
    · simp only [containedInMapBounds, decide_eq_true_eq] at hc
      simp [munmapCheck, if_pos hc]
    · rfl
  simp [destroy, unmapAll, hf, Bool.false_eq_true, hstep]

end MemoryMap
end Junction

/-! ### What one call does to its map and the pool

`Accounts` is what a call on one map has to guarantee to all others: addresses that the map does not use stay covered,
and an address that it gains was not covered before. -/

namespace Junction.MemoryMap
open HalfOpen IntervalCover ExclusiveIntervalSet LawfulIntervalData
variable {mm : MemoryMap} {pool : MemAreas}

/-- A map whose areas are valid and whose region and areas lie in the lower half of the address
space, with the break above the start of the region. -/
structure Placed (mm : MemoryMap) : Prop where
  areas : AreasValid mm.vmareas
  low : ∀ a, Covered mm.vmareas a → a < 2 ^ 63
  start_le_brk : mm.mmStart ≤ mm.brkAddr
  start_le_end : mm.mmStart ≤ mm.mmEnd
  end_le : mm.mmEnd ≤ 2 ^ 63

theorem Placed.stop_le (h : mm.Placed) : ∀ e ∈ mm.vmareas, e.2.stop ≤ 2 ^ 63 := by
  intro e he
  have hne : e.2.start < e.2.stop := h.areas.wf.nonempty e he
  have hlow := h.low (e.2.stop - 1) ⟨e, he, Nat.le_sub_one_of_lt hne, Nat.sub_one_lt_of_lt hne⟩
  omega

theorem owns_insertArea (hwf : WellFormed mm.vmareas) {v : VMArea} (hv : v.start < v.stop) (a : ℕ) :
    (mm.insertArea v).Owns a ↔ mm.Owns a ∨ (v.start ≤ a ∧ a < v.stop) := by
  change mm.InRegion a ∨ Covered (insert mm.vmareas v) a ↔ _
  rw [covered_insert hwf hv, VMArea.getStart_eq, VMArea.getEnd_eq, Owns]
  tauto

variable {start stop : ℕ}

theorem covered_clearRange (hwf : WellFormed mm.vmareas) (hss : stop = 0 ∨ start < stop) (a : ℕ) :
    Covered (mm.clearRange start stop).vmareas a ↔ Covered mm.vmareas a ∧ ¬ (start ≤ a ∧ a < stop) := by
  rcases hss with rfl | hlt
  · simp [clearRange, clear_stop_zero hwf]
  · exact covered_clear hwf hlt.le

theorem Placed.clearRange (h : mm.Placed) (hr : PageRange start stop) : (mm.clearRange start stop).Placed := by
  obtain ⟨hs, -, he, hlt, hss⟩ := hr
  refine { h with areas := ?_, low := ?_ }
  · rcases hss with rfl | hss
    · simpa [MemoryMap.clearRange, clear_stop_zero h.areas.wf] using h.areas
    · exact h.areas.clear hs he hlt hss
  · exact fun a ha => h.low a ((covered_clearRange h.areas.wf hss a).1 ha).1

variable {addr len : ℕ} {flags : Flags}

theorem Placed.mapAt (h : mm.Placed) (pool fail : MemAreas) (a : MMapArgs) (env : MMapEnv) (hlen : 4096 ∣ len) (hfix : hasFlag flags MAP_FIXED) :
    ((mm.mapAt pool fail a env addr len flags).2.1 = mm ∧ ((mm.mapAt pool fail a env addr len flags).2.2 = fail ∨
          (mm.mapAt pool fail a env addr len flags).2.2 = pool)) ∨
      ((mm.mapAt pool fail a env addr len flags).2.1.Placed ∧
        (mm.mapAt pool fail a env addr len flags).2.2 = pool ∧ addr + len ≤ 2 ^ 63 ∧
        ∀ x, (mm.mapAt pool fail a env addr len flags).2.1.Owns x ↔ mm.Owns x ∨ (addr ≤ x ∧ x < addr + len)) := by
  rcases mapAt_cases mm pool fail a env hlen hfix with
    ⟨e, he⟩ | hp | ⟨r, v, heq, hs, ht, hpos, hb, hsound, -⟩
  · rw [he]
    exact .inl ⟨rfl, .inl rfl⟩
  · rw [hp]
    exact .inl ⟨rfl, .inr rfl⟩
  have hv : v.start < v.stop := by omega
  have howns := owns_insertArea h.areas.wf hv
  rw [hs, ht] at howns
  rw [heq]
  refine .inr ⟨{ h with areas := h.areas.insert hv hsound, low := ?_ }, rfl, hb, howns⟩
  intro x hx
  rcases (covered_insert h.areas.wf hv).1 hx with hin | hold
  · simp only [VMArea.getStart_eq, VMArea.getEnd_eq] at hin
    omega
  · exact h.low x hold

/-- A hint inside the region for which the search in the map's own areas stays in the region. -/
def LocalSafe (mm : MemoryMap) (hint len : ℕ) : Prop :=
  hint = 0 ∨ hasOverlap mm.vmareas hint (hint + len) = false ∨
    ((∀ e ∈ mm.vmareas, mm.mmStart ≤ e.2.start ∧ e.2.stop ≤ mm.mmEnd) ∧
      ∃ e ∈ mm.vmareas, e.2.stop ≤ hint)

/-- Whether `MMap` without `MAP_FIXED` asks the pool first. -/
def HintOutside (mm : MemoryMap) (addr len : ℕ) : Prop :=
  addr ≠ 0 ∧ (mm.mmEnd < boundsEnd addr len ∨ addr < mm.mmStart)

instance (mm : MemoryMap) (addr len : ℕ) : Decidable (mm.HintOutside addr len) :=
  inferInstanceAs (Decidable (_ ∧ _))

/-- The requests to `MMap` that keep the accounting: a fixed range is one the map already uses, and
the search for any other range is one that cannot go wrong. -/
structure ProperMMap (mm : MemoryMap) (pool : MemAreas) (args : MMapArgs) : Prop where
  len_le : args.len ≤ 2 ^ 64 - 4096
  noWrap : args.addr + pageAlign args.len < 2 ^ 64
  fixed : hasFlag args.flags MAP_FIXED = true →
    ∀ a, args.addr ≤ a → a < args.addr + pageAlign args.len → mm.Owns a
  global : hasFlag args.flags MAP_FIXED = false → mm.HintOutside args.addr (pageAlign args.len) →
    HintSafe pool args.addr (pageAlign args.len) kVirtualAreaMax
  localHint : hasFlag args.flags MAP_FIXED = false →
    ¬ mm.HintOutside args.addr (pageAlign args.len) → mm.LocalSafe args.addr (pageAlign args.len)

/-- A call turns the addresses `owned` by a map into those of `mm'` and keeps the accounting of the
whole address space. -/
structure Accounts (owned : ℕ → Prop) (pool : MemAreas) (mm' : MemoryMap) (pool' : MemAreas) :
    Prop where
  wf : WellFormed pool'
  placed : mm'.Placed
  gained : ∀ a, mm'.Owns a → owned a ∨ ¬ Covered pool a
  covered : (∀ a, owned a → Covered pool a) → ∀ a, mm'.Owns a → Covered pool' a
  kept : ∀ a, Covered pool a → ¬ owned a → Covered pool' a

variable (hp : WellFormed pool)
include hp

theorem Accounts.refl (h : mm.Placed) : Accounts mm.Owns pool mm pool :=
  ⟨hp, h, fun _ => .inl, fun hc => hc, fun _ hc _ => hc⟩

theorem Accounts.mapAt_owned (h : mm.Placed) (args : MMapArgs)
    (env : MMapEnv) (hlen : 4096 ∣ len) (hfix : hasFlag flags MAP_FIXED)
    (hown : addr + len ≤ 2 ^ 63 → ∀ a, addr ≤ a → a < addr + len → mm.Owns a) :
    Accounts mm.Owns pool (mm.mapAt pool pool args env addr len flags).2.1
      (mm.mapAt pool pool args env addr len flags).2.2 := by
  rcases h.mapAt pool pool args env hlen hfix with ⟨hmm, hpool⟩ | ⟨hplaced, hpool, hb, howns⟩
  · rw [hmm, (or_self_iff.1 hpool)]
    exact .refl hp h
  have hsub : ∀ a, (mm.mapAt pool pool args env addr len flags).2.1.Owns a → mm.Owns a := by
    intro a ha
    rcases (howns a).1 ha with hold | hnew
    · exact hold
    · exact hown hb a hnew.1 hnew.2
  rw [hpool]
  exact ⟨hp, hplaced, fun a ha => .inl (hsub a ha), fun hc a ha => hc a (hsub a ha), fun _ hc _ => hc⟩

theorem Accounts.mapAt_reserved (h : mm.Placed) (args : MMapArgs) (env : MMapEnv) (hlen : 4096 ∣ len) (hpos : 0 < len)
    (hfix : hasFlag flags MAP_FIXED) (hw : addr + len < 2 ^ 64) (hfree : Free pool addr len) :
    let reserved := insert pool (⟨addr, addWord addr len⟩ : SimpleInterval)
    let fail := Cursor.entries (clear reserved addr (addWord addr len))
    Accounts mm.Owns pool (mm.mapAt reserved fail args env addr len flags).2.1
      (mm.mapAt reserved fail args env addr len flags).2.2 := by
  intro reserved fail
  obtain ⟨hwf, hcov⟩ := reserve_spec hp hpos hw
  obtain ⟨hwf', hcov'⟩ := unreserve_spec hp hpos hw hfree
  rcases h.mapAt reserved fail args env hlen hfix with
    ⟨hmm, hfail | hres⟩ | ⟨hplaced, hpool, hb, howns⟩
  · rw [hmm, hfail]
    exact ⟨hwf', h, fun _ => .inl, fun hc a ha => (hcov' a).2 (hc a ha), fun a hc _ => (hcov' a).2 hc⟩
  · rw [hmm, hres]
    exact ⟨hwf, h, fun _ => .inl, fun hc a ha => (hcov a).2 (.inr (hc a ha)), fun a hc _ => (hcov a).2 (.inr hc)⟩
  rw [hpool]
  refine ⟨hwf, hplaced, ?_, ?_, fun a hc _ => (hcov a).2 (.inr hc)⟩
  · intro a ha
    rcases (howns a).1 ha with hold | hnew
    · exact .inl hold
    · exact .inr (not_covered_of_free hfree hnew.1 hnew.2)
  intro hc a ha
  rcases (howns a).1 ha with hold | hnew
  · exact (hcov a).2 (.inr (hc a hold))
  · exact (hcov a).2 (.inl hnew)

omit hp in
theorem Placed.findFreeRange_inRegion (h : mm.Placed) {addr len undef a : ℕ}
    (hd : 4096 ∣ addr) (hl : 4096 ∣ len) (hw : addr + len < 2 ^ 64)
    (hout : ¬ mm.HintOutside addr len) (hs : mm.LocalSafe addr len)
    (ha : findFreeRange mm.vmareas addr len mm.mmEnd mm.brkAddr undef = .ok a)
    (hb : a + len ≤ 2 ^ 63) : mm.mmStart ≤ a ∧ a + len ≤ mm.mmEnd := by
  have hend : boundsEnd addr len = addr + len := by
    rw [boundsEnd, addWord_of_lt hw, pageAlign_of_dvd (hd.add hl) hw]
  refine findFreeRange_between h.areas.wf h.stop_le h.end_le h.start_le_brk ?_ ?_ hb ha
  · intro hne
    unfold HintOutside at hout
    omega
  intro hne hov
  rcases hs with hzero | hfree | hin
  · exact absurd hzero hne
  · exact absurd hfree hov
  · exact hin

theorem Accounts.mmap (h : mm.Placed) {args : MMapArgs} (hargs : mm.ProperMMap pool args) (env : MMapEnv) :
    Accounts mm.Owns pool (mm.mmap pool args env).2.1 (mm.mmap pool args env).2.2 := by
  have hlen := pageAlign_dvd args.len
  unfold MemoryMap.mmap
  by_cases hvalid : addressValid args.addr args.len = false
  · rw [if_pos hvalid]
    exact .refl hp h
  rw [if_neg hvalid]
  have hlt := hargs.noWrap
  obtain ⟨hpos, hd⟩ := (addressValid_iff (by omega)).1 (Bool.eq_true_of_not_eq_false hvalid)
  have hlenpos : 0 < pageAlign args.len := by
    have hle := hargs.len_le
    rw [pageAlign_eq (by omega)]
    omega
  by_cases hint : env.interrupted
  · simp only [if_pos hint]
    exact .refl hp h
  simp only [if_neg hint]
  have hflag : hasFlag (args.flags &&& ~~~MAP_POPULATE) MAP_FIXED = hasFlag args.flags MAP_FIXED := by
    rw [hasFlag, BitVec.and_assoc]
    rfl
  by_cases hfix : hasFlag (args.flags &&& ~~~MAP_POPULATE) MAP_FIXED
  · simp only [if_pos hfix]
    exact .mapAt_owned hp h args env hlen hfix fun _ => hargs.fixed (hflag ▸ hfix)
  simp only [if_neg hfix]
  have hunfixed : hasFlag args.flags MAP_FIXED = false := by
    rw [← hflag]
    exact Bool.eq_false_iff.2 hfix
  by_cases hout : mm.HintOutside args.addr (pageAlign args.len)
  · obtain ⟨a, ha, hw, hfree⟩ := findFreeRange_sound hp hout.1 (hargs.global hunfixed hout) env.undef.1
    unfold HintOutside at hout
    simp only [chooseAddress, if_pos hout, ha]
    exact .mapAt_reserved hp h args env hlen hlenpos (hasFlag_or_self _ (by decide)) hw hfree
  unfold HintOutside at hout
  simp only [chooseAddress, if_neg hout]
  cases ha : findFreeRange mm.vmareas args.addr (pageAlign args.len) mm.mmEnd mm.brkAddr env.undef.2 with
  | error e => exact .refl hp h
  | ok a =>
    refine .mapAt_owned hp h args env hlen (hasFlag_or_self _ (by decide)) ?_
    intro hb x hx₁ hx₂
    obtain ⟨h₁, h₂⟩ := h.findFreeRange_inRegion hd hlen hlt hout (hargs.localHint hunfixed hout) ha hb
    exact .inl ⟨by omega, by omega⟩

theorem Accounts.clear (h : mm.Placed) (hr : PageRange addr (boundsEnd addr len))
    (hown : ∀ a, addr ≤ a → a < boundsEnd addr len → mm.Owns a) :
    Accounts mm.Owns pool (mm.clearRange addr (boundsEnd addr len))
      ((mm.clearRange addr (boundsEnd addr len)).munmapCheck pool addr len) := by
  have hcov := covered_clearRange h.areas.wf hr.ends
  obtain ⟨hwf, hpool⟩ := munmapCheck_spec (mm.clearRange addr (boundsEnd addr len)) hp h.start_le_end hr.ends
  refine ⟨hwf, h.clearRange hr, ?_, ?_, ?_⟩
  · rintro a (hin | harea)
    · exact .inl (.inl hin)
    · exact .inl (.inr ((hcov a).1 harea).1)
  · rintro hc a (hin | harea)
    · exact (hpool a).2 ⟨hc a (.inl hin), fun hout => hout.2 hin⟩
    · obtain ⟨hold, hnot⟩ := (hcov a).1 harea
      exact (hpool a).2 ⟨hc a (.inr hold), fun hout => hnot hout.1⟩
  · exact fun a hc hno => (hpool a).2 ⟨hc, fun hout => hno (hown a hout.1.1 hout.1.2)⟩

theorem Accounts.munmap (h : mm.Placed) (hw : addr + len < 2 ^ 64)
    (hown : ∀ a, addr ≤ a → a < boundsEnd addr len → mm.Owns a) (interrupted : Bool) (host : Status Unit) :
    Accounts mm.Owns pool (mm.munmap pool addr len interrupted host).2.1
      (mm.munmap pool addr len interrupted host).2.2 := by
  unfold MemoryMap.munmap
  by_cases hvalid : addressValid addr len = false
  · rw [if_pos hvalid]
    exact .refl hp h
  rw [if_neg hvalid]
  cases interrupted with
  | true => exact .refl hp h
  | false =>
    cases host with
    | error e => exact .refl hp h
    | ok _ => exact .clear hp h (.of_addressValid hw hvalid) hown

theorem Accounts.unmapAll (h : mm.Placed) : Accounts mm.Owns pool (mm.unmapAll pool).1 (mm.unmapAll pool).2 := by
  obtain ⟨hwf, hcov⟩ := munmapCheck_foldl_spec mm h.start_le_end h.areas.sound h.areas.wf.nonempty hp
  have hnone : ∀ a, (mm.unmapAll pool).1.Owns a ↔ mm.InRegion a := by
    intro a
    simp [MemoryMap.unmapAll, Owns, Covered, InRegion]
  refine ⟨hwf, ?_, ?_, ?_, ?_⟩
  · exact ⟨⟨wellFormed_nil, List.isChain_nil, by simp [MemoryMap.unmapAll]⟩,
      by simp [MemoryMap.unmapAll, Covered], h.start_le_brk, h.start_le_end, h.end_le⟩
  · exact fun a ha => .inl (.inl ((hnone a).1 ha))
  · intro hc a ha
    have hin := (hnone a).1 ha
    exact (hcov a).2 ⟨hc a (.inl hin), fun hout => hout.2 hin⟩
  · exact fun a hc hno => (hcov a).2 ⟨hc, fun hout => hno (.inr hout.1)⟩

end Junction.MemoryMap

/-! ### All maps share one pool. A fixed mapping outside the region of its map is not registered in it -/

namespace Junction
open HalfOpen IntervalCover ExclusiveIntervalSet Function Option

structure AddressSpace where
  pool : MemAreas
  maps : ℕ → Option MemoryMap

inductive SpaceCall
  | create (id len : ℕ) (host : HostMMap) (undef : ℕ)
  | mmap (id : ℕ) (args : MemoryMap.MMapArgs) (env : MemoryMap.MMapEnv)
  | munmap (id addr len : ℕ) (interrupted : Bool) (host : Status Unit)
  | unmapAll (id : ℕ)
  | destroy (id : ℕ)

namespace AddressSpace
open MemoryMap

def empty : AddressSpace := ⟨[], fun _ => none⟩

def step (s : AddressSpace) : SpaceCall → AddressSpace
  | .create id len host undef =>
    match create s.pool len host undef with
    | (.ret (.ok mm), pool) => ⟨pool, update s.maps id (some mm)⟩
    | (_, pool) => { s with pool := pool }
  | .mmap id args env =>
    match s.maps id with
    | none => s
    | some mm =>
      let r := mm.mmap s.pool args env
      ⟨r.2.2, update s.maps id (some r.2.1)⟩
  | .munmap id addr len interrupted host =>
    match s.maps id with
    | none => s
    | some mm =>
      let r := mm.munmap s.pool addr len interrupted host
      ⟨r.2.2, update s.maps id (some r.2.1)⟩
  | .unmapAll id =>
    match s.maps id with
    | none => s
    | some mm => ⟨(mm.unmapAll s.pool).2, update s.maps id (some (mm.unmapAll s.pool).1)⟩
  | .destroy id =>
    match s.maps id with
    | none => s
    | some mm => ⟨mm.destroy s.pool, update s.maps id none⟩

/-- The pool covers every map's own region and its areas outside of it. -/
def Accounted (s : AddressSpace) : Prop :=
  ∀ id mm, s.maps id = some mm → ∀ a, mm.Owns a → Covered s.pool a

/-- The calls that keep the accounting. A map is created under an unused name while the pool has
room below `kVirtualAreaMax`; unmapped ranges belong to the map. -/
def Proper (s : AddressSpace) : SpaceCall → Prop
  | .create id len _ _ => s.maps id = none ∧ 0 < len ∧ Room s.pool len kVirtualAreaMax
  | .mmap id args _ => ∀ mm, s.maps id = some mm → mm.ProperMMap s.pool args
  | .munmap id addr len _ _ => addr + len < 2 ^ 64 ∧ ∀ mm, s.maps id = some mm →
      ∀ a, addr ≤ a → a < boundsEnd addr len → mm.Owns a
  | _ => True

structure Inv (s : AddressSpace) : Prop where
  wf : WellFormed s.pool
  placed : ∀ id mm, s.maps id = some mm → mm.Placed
  accounted : s.Accounted
  exclusive : ∀ id id' mm mm', id ≠ id' → s.maps id = some mm → s.maps id' = some mm' →
    ∀ a, mm.Owns a → ¬ mm'.Owns a

theorem inv_empty : empty.Inv := ⟨wellFormed_nil, by simp [empty], by simp [Accounted, empty], by simp [empty]⟩

variable {s : AddressSpace} {pool' : MemAreas} {id : ℕ} {mm' : MemoryMap}

variable (h : s.Inv)
include h

theorem Inv.update {owned : ℕ → Prop}
    (hid : ∀ a, owned a → ∃ mm, s.maps id = some mm ∧ mm.Owns a) (hacc : Accounts owned s.pool mm' pool') :
    (⟨pool', update s.maps id (some mm')⟩ : AddressSpace).Inv := by
  have hothers : ∀ i m, i ≠ id → s.maps i = some m → ∀ a, owned a → ¬ m.Owns a := by
    intro i m hii hi a ha hm
    obtain ⟨mm, hmm, hown⟩ := hid a ha
    exact h.exclusive id i mm m hii.symm hmm hi a hown hm
  have hdisj : ∀ i m, i ≠ id → s.maps i = some m → ∀ a, mm'.Owns a → ¬ m.Owns a := by
    intro i m hii hi a ha hm
    rcases hacc.gained a ha with hold | hnew
    · exact hothers i m hii hi a hold hm
    · exact hnew (h.accounted i m hi a hm)
  have hcov : ∀ a, owned a → Covered s.pool a := by
    intro a ha
    obtain ⟨mm, hmm, hown⟩ := hid a ha
    exact h.accounted id mm hmm a hown
  refine ⟨hacc.wf, ?_, ?_, ?_⟩
  · intro i m hi
    by_cases hii : i = id
    · subst hii
      simp only [update_self, some.injEq] at hi
      exact hi ▸ hacc.placed
    · simp only [update_of_ne hii] at hi
      exact h.placed i m hi
  · intro i m hi a ha
    by_cases hii : i = id
    · subst hii
      simp only [update_self, some.injEq] at hi
      exact hacc.covered hcov a (hi ▸ ha)
    · simp only [update_of_ne hii] at hi
      exact hacc.kept a (h.accounted i m hi a ha) fun hm => hothers i m hii hi a hm ha
  intro i j m n hij hi hj a hm hn
  by_cases hii : i = id
  · subst hii
    simp only [update_self, some.injEq] at hi
    simp only [update_of_ne (Ne.symm hij)] at hj
    exact hdisj j n (Ne.symm hij) hj a (hi ▸ hm) hn
  simp only [update_of_ne hii] at hi
  by_cases hjj : j = id
  · subst hjj
    simp only [update_self, some.injEq] at hj
    exact hdisj i m hii hi a (hj ▸ hn) hm
  · simp only [update_of_ne hjj] at hj
    exact h.exclusive i j m n hij hi hj a hm hn

variable {mm : MemoryMap}

theorem Inv.updateMap (hid : s.maps id = some mm) (hacc : Accounts mm.Owns s.pool mm' pool') :
    (⟨pool', Function.update s.maps id (some mm')⟩ : AddressSpace).Inv :=
  h.update (fun _ ha => ⟨mm, hid, ha⟩) hacc

theorem Inv.remove (hid : s.maps id = some mm) (hwf : WellFormed pool')
    (hkept : ∀ a, Covered s.pool a → ¬ mm.Owns a → Covered pool' a) :
    (⟨pool', Function.update s.maps id none⟩ : AddressSpace).Inv := by
  have hold : ∀ i m, Function.update s.maps id none i = some m → i ≠ id ∧ s.maps i = some m := by
    intro i m hi
    by_cases hii : i = id
    · subst hii
      simp at hi
    · rw [update_of_ne hii] at hi
      exact ⟨hii, hi⟩
  refine ⟨hwf, fun i m hi => h.placed i m (hold i m hi).2, ?_, ?_⟩
  · intro i m hi a ha
    obtain ⟨hii, him⟩ := hold i m hi
    exact hkept a (h.accounted i m him a ha) fun hm => h.exclusive id i mm m hii.symm hid him a hm ha
  · intro i j m n hij hi hj
    exact h.exclusive i j m n hij (hold i m hi).2 (hold j n hj).2

theorem Inv.setPool (hwf : WellFormed pool')
    (hkept : ∀ a, Covered s.pool a → Covered pool' a) : ({ s with pool := pool' } : AddressSpace).Inv :=
  ⟨hwf, h.placed, fun id mm hid a ha => hkept a (h.accounted id mm hid a ha), h.exclusive⟩

theorem Inv.destroy (hid : s.maps id = some mm) :
    (⟨mm.destroy s.pool, Function.update s.maps id none⟩ : AddressSpace).Inv := by
  have hplaced := h.placed id mm hid
  by_cases hfake : mm.isFakeMap
  · have heq : mm.destroy s.pool = s.pool := by simp only [MemoryMap.destroy, if_pos hfake]
    rw [heq]
    exact h.remove hid h.wf fun a hc _ => hc
  rw [destroy_eq mm s.pool (Bool.eq_false_iff.2 hfake)]
  have hacc := Accounts.unmapAll h.wf hplaced
  apply h.remove hid (clear_spec hacc.wf hplaced.start_le_end).1
  intro a hc hno
  refine (covered_clear hacc.wf hplaced.start_le_end).2 ⟨hacc.kept a hc hno, ?_⟩
  exact fun hin => hno (.inl hin)

variable {len : ℕ}

omit h in
theorem placed_init {base : ℕ} (hle : base + len ≤ kVirtualAreaMax) : (init base len).Placed := by
  have hmax : kVirtualAreaMax ≤ 2 ^ 63 := by decide
  have hend : addWord base len = base + len := addWord_of_lt (by omega)
  refine ⟨⟨wellFormed_nil, List.isChain_nil, by simp [init]⟩, by simp [init, Covered], le_rfl, ?_, ?_⟩
  · simp [init, hend]
  · simp only [init, hend]
    omega

theorem Inv.create (id : ℕ) (hlen : 0 < len) (hroom : Room s.pool len kVirtualAreaMax) (host : HostMMap) (undef : ℕ) :
    (s.step (.create id len host undef)).Inv := by
  obtain ⟨base, hbase, hle, hfree⟩ := findFreeBack_sound h.wf (by decide) hroom
  have hbase' : findFreeRange s.pool 0 len kVirtualAreaMax 0 0 = .ok base := by
    rw [findFreeRange, if_pos rfl, hbase]
  have hw : base + len < 2 ^ 64 := hle.trans_lt (by decide)
  obtain ⟨hwf, hcov⟩ := reserve_spec h.wf hlen hw
  obtain ⟨hwf', hcov'⟩ := unreserve_spec h.wf hlen hw hfree
  have hmore := h.setPool hwf fun a hc => (hcov a).2 (.inr hc)
  simp only [step, MemoryMap.create, hbase']
  cases hr : host.anonymous base len PROT_NONE MAP_FIXED_NOREPLACE with
  | error e =>
    by_cases hundef : undef ≠ base
    · simp only [if_pos hundef]
      exact hmore
    · simp only [if_neg hundef]
      exact h.setPool hwf' fun a hc => (hcov' a).2 hc
  | ok r =>
    by_cases hne : r ≠ base
    · simp only [if_pos hne]
      exact hmore
    simp only [if_neg hne]
    obtain rfl := not_not.1 hne
    have hregion : ∀ a, (init r len).Owns a ↔ r ≤ a ∧ a < r + len := by
      intro a
      simp [Owns, InRegion, init, Covered, addWord_of_lt hw]
    have hacc : Accounts (fun _ => False) s.pool (init r len) (insert s.pool ⟨r, addWord r len⟩) := by
      refine ⟨hwf, placed_init hle, ?_, ?_, ?_⟩
      · intro a ha
        have hin := (hregion a).1 ha
        exact .inr (not_covered_of_free hfree hin.1 hin.2)
      · exact fun _ a ha => (hcov a).2 (.inl ((hregion a).1 ha))
      · exact fun a hc _ => (hcov a).2 (.inr hc)
    exact h.update (fun _ ha => ha.elim) hacc

variable {c : SpaceCall}

theorem Inv.step (hc : s.Proper c) : (s.step c).Inv := by
  cases c with
  | create id len host undef => exact h.create id hc.2.1 hc.2.2 host undef
  | mmap id args env =>
    cases hid : s.maps id with
    | none => simpa [AddressSpace.step, hid] using h
    | some mm =>
      have hacc := Accounts.mmap h.wf (h.placed id mm hid) (hc mm hid) env
      simpa [AddressSpace.step, hid] using h.updateMap hid hacc
  | munmap id addr len interrupted host =>
    cases hid : s.maps id with
    | none => simpa [AddressSpace.step, hid] using h
    | some mm =>
      have hacc := Accounts.munmap h.wf (h.placed id mm hid) hc.1 (hc.2 mm hid) interrupted host
      simpa [AddressSpace.step, hid] using h.updateMap hid hacc
  | unmapAll id =>
    cases hid : s.maps id with
    | none => simpa [AddressSpace.step, hid] using h
    | some mm =>
      have hacc := Accounts.unmapAll h.wf (h.placed id mm hid)
      simpa [AddressSpace.step, hid] using h.updateMap hid hacc
  | destroy id =>
    cases hid : s.maps id with
    | none => simpa [AddressSpace.step, hid] using h
    | some mm => simpa [AddressSpace.step, hid] using h.destroy hid

omit h

def InUse (s : AddressSpace) (a : ℕ) : Prop := ∃ id mm, s.maps id = some mm ∧ mm.Owns a

/-- The start and length of the range that a call takes from the pool. -/
def handedOut (s : AddressSpace) : SpaceCall → Option (ℕ × ℕ)
  | .create _ len _ _ =>
    match findFreeRange s.pool 0 len kVirtualAreaMax 0 0 with
    | .ok base => some (base, len)
    | .error _ => none
  | .mmap id args env =>
    match s.maps id with
    | none => none
    | some mm =>
      let len := pageAlign args.len
      if hasFlag args.flags MAP_FIXED = false ∧ mm.HintOutside args.addr len then
        match findFreeRange s.pool args.addr len kVirtualAreaMax 0 env.undef.1 with
        | .ok a => some (a, len)
        | .error _ => none
      else none
  | _ => none

theorem Inv.handedOut_free (h : s.Inv) (hc : s.Proper c) {r : ℕ × ℕ}
    (hr : s.handedOut c = some r) : Free s.pool r.1 r.2 := by
  cases c with
  | create id len host undef =>
    obtain ⟨base, hbase, -, hfree⟩ := findFreeBack_sound h.wf (by decide) hc.2.2
    have hbase' : findFreeRange s.pool 0 len kVirtualAreaMax 0 0 = .ok base := by
      rw [findFreeRange, if_pos rfl, hbase]
    simp only [handedOut, hbase', some.injEq] at hr
    exact hr ▸ hfree
  | mmap id args env =>
    cases hid : s.maps id with
    | none => simp [handedOut, hid] at hr
    | some mm =>
      simp only [handedOut, hid] at hr
      by_cases hout : hasFlag args.flags MAP_FIXED = false ∧ mm.HintOutside args.addr (pageAlign args.len)
      · obtain ⟨a, ha, -, hfree⟩ := findFreeRange_sound h.wf hout.2.1 ((hc mm hid).global hout.1 hout.2) env.undef.1
        simp only [if_pos hout, ha, some.injEq] at hr
        exact hr ▸ hfree
      · simp only [if_neg hout, reduceCtorEq] at hr
  | munmap | unmapAll | destroy => simp [handedOut] at hr

/-- In every run of proper calls the pool covers all that any map uses, and the next proper call is
never handed an address in use. -/
theorem pool_accounted {calls : List SpaceCall} (ha : Run.Admitted step Proper empty calls) :
    (Run.exec step empty calls).Accounted ∧ ∀ c, (Run.exec step empty calls).Proper c →
        ∀ r, (Run.exec step empty calls).handedOut c = some r →
          ∀ a, r.1 ≤ a → a < r.1 + r.2 → ¬ (Run.exec step empty calls).InUse a := by
  have hinv : (Run.exec step empty calls).Inv := Run.invariant_exec (fun _ _ h hc => h.step hc) inv_empty ha
  refine ⟨hinv.accounted, ?_⟩
  rintro c hc r hr a h₁ h₂ ⟨id, mm, hid, hown⟩
  exact not_covered_of_free (hinv.handedOut_free hc hr) h₁ h₂ (hinv.accounted id mm hid a hown)

/-- A request for one anonymous page at `addr`. -/
def pageArgs (addr : ℕ) (flags : Flags) : MMapArgs :=
  ⟨addr, 4096, PROT_READ, flags ||| MAP_ANONYMOUS ||| MAP_PRIVATE, none, 0⟩

def willingEnv : MMapEnv := ⟨false, .willing, .ok (), (0, 0)⟩

/-- A map is created and maps one page at a hint outside its region. -/
def hintRun : List SpaceCall :=
  [.create 0 0x10000 .willing 0, .mmap 0 (pageArgs 0x400000 0) willingEnv]

theorem admitted_hintRun : Run.Admitted step Proper empty hintRun := by
  refine ⟨⟨rfl, by decide, by simp [empty], 0, by decide, by simp [Free, empty]⟩, ?_, trivial⟩
  intro mm hmm
  have hmm' : init 0x4fffffff0000 0x10000 = mm := some.inj hmm
  subst hmm'
  refine ⟨by decide, by decide, fun h => absurd h (by decide), fun _ _ => ⟨by decide, .inl ?_⟩, fun _ h => absurd ?_ h⟩
  · decide
  · decide

theorem pool_accounted_hintRun : Covered (Run.exec step empty hintRun).pool 0x400000 ∧
      (Run.exec step empty hintRun).Accounted :=
  ⟨by decide, (pool_accounted admitted_hintRun).1⟩

/-- The same page at a fixed address is not registered, so it is free for every later search. -/
theorem fixed_mmap_not_accounted : ∃ mm, (Run.exec step empty [.create 0 0x10000 .willing 0,
        .mmap 0 (pageArgs 0x400000 MAP_FIXED) willingEnv]).maps 0 = some mm ∧
      Covered mm.vmareas 0x400000 ∧ ¬ mm.InRegion 0x400000 ∧
      ¬ Covered (Run.exec step empty [.create 0 0x10000 .willing 0,
        .mmap 0 (pageArgs 0x400000 MAP_FIXED) willingEnv]).pool 0x400000 := by
  refine ⟨_, rfl, ?_, ?_, ?_⟩
  · decide
  · decide
  · decide

end AddressSpace

end Junction
