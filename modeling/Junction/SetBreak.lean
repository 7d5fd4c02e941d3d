import Junction.MemoryMapCalls

/-!
# Moving the break

`SetBreak` looks at the first area that ends above the break as it is, not above the page that the break is in. After
a break in the middle of a page this area is the heap, which then is in the way of itself.
-/

namespace Junction
open HalfOpen IntervalData ExclusiveIntervalSet LawfulIntervalData List MemoryMap VMArea

namespace MemoryMap
variable {mm : MemoryMap}

/-! ### What holds in every reachable map -/

/-- The areas are ordered and aligned, and the break is in the region. Neighbours may be mergeable. -/
structure Laid (mm : MemoryMap) : Prop where
  wf : WellFormed mm.vmareas
  sound : ∀ e ∈ mm.vmareas, e.2.Sound
  end_dvd : 4096 ∣ mm.mmEnd
  end_lt : mm.mmEnd < 2 ^ 64
  brk_le : mm.brkAddr ≤ mm.mmEnd

variable (h : mm.Laid)
include h

theorem Laid.insert {v : VMArea} (hv : v.start < v.stop) (hs : v.Sound) : (mm.insertArea v).Laid := { h with
  wf := (insert_spec h.wf hv).1
  sound := forall_insert h.wf hv (sound_leftCutClosed hs.start_dvd (hv.trans hs.stop_lt))
    (sound_rightCutClosed hs.stop_dvd hs.stop_lt) sound_mergeClosed h.sound hs }

variable {start stop : ℕ}

theorem Laid.clear (hr : PageRange start stop) : (mm.clearRange start stop).Laid := by
  obtain ⟨hs, hlts, he, hlt, rfl | hss⟩ := hr
  · rw [clearRange, clear_stop_zero h.wf]
    exact h
  · refine ⟨(clear_spec h.wf hss.le).1, ?_, h.end_dvd, h.end_lt, h.brk_le⟩
    exact forall_clear (sound_leftCutClosed hs hlts) (sound_rightCutClosed he hlt) h.sound

theorem Laid.modifyProt (prot : BitVec 32) (hr : PageRange start stop) : (mm.modifyProt start stop prot).Laid := by
  obtain ⟨hs, hlts, he, hlt, hss⟩ := hr
  refine ⟨?_, ?_, h.end_dvd, h.end_lt, h.brk_le⟩
  · rcases hss with rfl | hss
    · exact wellFormed_modify_stop_zero h.wf start _ _
    · exact (modify_spec (AttrChange.setProt prot).toUpdate h.wf hss).1
  · exact forall_modify (sound_leftCutClosed hs hlts) (sound_rightCutClosed he hlt)
      sound_mergeClosed (fun _ h => { h with }) h.sound

theorem Laid.setBrk {brk : ℕ} (hb : brk ≤ mm.mmEnd) : { mm with brkAddr := brk }.Laid := { h with brk_le := hb }

variable {addr len newbrk : ℕ}

theorem Laid.enableTracing : mm.enableTracing.Laid :=
  { h with wf := wellFormed_enableTracing h.wf, sound := sound_enableTracing h.sound }

theorem Laid.endTracing : mm.endTracing.2.Laid := by
  unfold MemoryMap.endTracing
  split_ifs
  · exact h
  · refine ⟨(modify_spec AttrChange.untrace.toUpdate h.wf (by decide)).1, ?_, h.end_dvd, h.end_lt, h.brk_le⟩
    exact sound_untrace h.sound

omit h in
theorem kept_laid : Kept Laid where
  region h := ⟨h.end_dvd, h.end_lt, h.brk_le⟩
  insert h hv hs _ := h.insert hv hs
  clear h := h.clear
  modifyProt prot h := h.modifyProt prot
  setBrk h hb := h.setBrk hb
  endTracing := Laid.endTracing

theorem Laid.call {c : MMCall} (hw : c.NoWrap) : (mm.call c).Laid :=
  kept_laid.call h hw fun _ => h.enableTracing

omit h

theorem laid_init {base : ℕ} (hd : 4096 ∣ base + len) (hlt : base + len < 2 ^ 64) : (init base len).Laid := by
  obtain ⟨hareas, -, hdvd, hlt', hle⟩ := valid_init hd hlt
  exact ⟨hareas.wf, hareas.sound, hdvd, hlt', hle⟩

/-! ### What is in the way -/

theorem breakBlocked_iff (h : WellFormed mm.vmareas) :
    mm.breakBlocked newbrk ↔ ∃ e ∈ mm.vmareas, mm.brkAddr < e.2.stop ∧ e.2.start < pageAlign newbrk := by
  obtain ⟨hsplit, hbelow, habove⟩ := upperBound_spec h mm.brkAddr
  have hw := h
  rw [← hsplit] at hw
  unfold breakBlocked firstAbove
  cases hafter : (upperBound mm.vmareas mm.brkAddr).after with
  | nil =>
    refine iff_of_false (by simp) ?_
    rintro ⟨e, he, hlt, -⟩
    rw [← hsplit, hafter, append_nil, mem_reverse] at he
    exact Nat.not_lt.mpr (hbelow e he) hlt
  | cons x rest =>
    obtain ⟨key, item⟩ := x
    rw [hafter] at hw habove
    obtain ⟨-, -, hne, hsep, -⟩ := cursor_split hw
    simp only [decide_eq_true_iff]
    constructor
    · intro hlt
      exact ⟨(key, item), by rw [← hsplit, hafter]; simp, habove (key, item) mem_cons_self, hlt⟩
    rintro ⟨e, he, hbrk, hlt⟩
    rw [← hsplit, hafter, mem_append, mem_reverse] at he
    rcases he with he | he
    · exact absurd hbrk (Nat.not_lt.mpr (hbelow e he))
    · exact (le_getStart_of_cursor hne hsep le_rfl e he).trans_lt hlt

/-- An area meets the pages between the two aligned breaks. The heap ends at the first of them. -/
def Obstructed (mm : MemoryMap) (newbrk : ℕ) : Prop :=
  ∃ e ∈ mm.vmareas, max e.2.start (pageAlign mm.brkAddr) < min e.2.stop (pageAlign newbrk)

instance (mm : MemoryMap) (newbrk : ℕ) : Decidable (mm.Obstructed newbrk) :=
  inferInstanceAs (Decidable (∃ e ∈ mm.vmareas, _))

/-- The new break is in the region, the lock is taken, the host agrees and nothing is in the way. -/
structure CanMove (mm : MemoryMap) (newbrk : ℕ) (interrupted : Bool) (host : HostMMap) : Prop where
  reaches : mm.Reaches newbrk interrupted
  agrees : mm.hostAgrees newbrk host = true
  free : ¬ mm.Obstructed newbrk

/-- To grow, no area may end above the break and within its page. To shrink, no area may end above the break and begin
below the pages to clear. -/
structure BreakFits (mm : MemoryMap) (newbrk : ℕ) : Prop where
  grow : pageAlign mm.brkAddr < pageAlign newbrk →
    ∀ e ∈ mm.vmareas, e.2.stop ≤ mm.brkAddr ∨ pageAlign mm.brkAddr < e.2.stop
  shrink : pageAlign newbrk < pageAlign mm.brkAddr →
    ∀ e ∈ mm.vmareas, e.2.stop ≤ mm.brkAddr ∨ pageAlign newbrk ≤ e.2.start

/-- The pages between the aligned breaks become heap, or are cleared. -/
def movedPages (mm : MemoryMap) (newbrk : ℕ) : PageMap := fun a =>
  if pageAlign mm.brkAddr ≤ a ∧ a < pageAlign newbrk then
    some ⟨⟨PROT_READ ||| PROT_WRITE, .kHeap, false, none⟩, none⟩
  else if pageAlign newbrk ≤ a ∧ a < pageAlign mm.brkAddr then none
  else pageMap mm.vmareas a

theorem pageMap_moved (h : WellFormed mm.vmareas) (newbrk : ℕ) :
    pageMap (mm.moved newbrk).vmareas = mm.movedPages newbrk := by
  funext a
  unfold moved movedPages
  rcases Nat.lt_trichotomy (pageAlign mm.brkAddr) (pageAlign newbrk) with hlt | heq | hgt
  · have hinsert := congrFun (pageMap_insert h (v := mm.heapArea newbrk) hlt) a
    rw [if_pos hlt, if_neg (c := pageAlign newbrk ≤ a ∧ _) (by omega)]
    exact hinsert
  · rw [if_neg heq.not_lt, if_neg heq.not_gt, if_neg (by omega), if_neg (by omega)]
  have hclear := congrFun (pageMap_clear h hgt) a
  rw [if_neg hgt.not_gt, if_pos hgt, if_neg (by omega)]
  exact hclear

/-- With nothing in the way, the test of `SetBreak` passes exactly when the break fits. -/
theorem blocked_iff (h : WellFormed mm.vmareas) (hfree : ¬ mm.Obstructed newbrk) :
    (pageAlign mm.brkAddr = pageAlign newbrk ∨ mm.breakBlocked newbrk = false) ↔ mm.BreakFits newbrk := by
  rw [← Bool.not_eq_true, breakBlocked_iff h]
  constructor
  · rintro (heq | hno)
    · exact ⟨fun hlt => absurd heq hlt.ne, fun hgt => absurd heq hgt.ne'⟩
    refine ⟨fun hlt e he => ?_, fun hgt e he => ?_⟩
    · by_contra hcon
      have hne : e.2.start < e.2.stop := h.nonempty e he
      exact hno ⟨e, he, by omega, by omega⟩
    · by_contra hcon
      exact hno ⟨e, he, by omega, by omega⟩
  intro hfits
  rcases Nat.lt_trichotomy (pageAlign mm.brkAddr) (pageAlign newbrk) with hlt | heq | hgt
  · right
    rintro ⟨e, he, hbrk, hstart⟩
    have hend := hfits.grow hlt e he
    have hne : e.2.start < e.2.stop := h.nonempty e he
    exact hfree ⟨e, he, by omega⟩
  · exact .inl heq
  right
  rintro ⟨e, he, hbrk, hstart⟩
  have hend := hfits.shrink hgt e he
  omega

variable {interrupted : Bool} {host : HostMMap}

include h

theorem setBreak_of_canMove (hcan : mm.CanMove newbrk interrupted host) :
    let r := mm.setBreak newbrk interrupted host
    (r.1 = .ok newbrk ∧ r.2.brkAddr = newbrk ∧ pageMap r.2.vmareas = mm.movedPages newbrk) ↔ mm.BreakFits newbrk := by
  rw [← blocked_iff h.wf hcan.free, setBreak_eq h.end_dvd h.end_lt h.brk_le host hcan.reaches]
  simp only [hcan.agrees, and_true]
  split_ifs with hpass
  · refine iff_of_true ⟨rfl, ?_, pageMap_moved h.wf newbrk⟩ hpass
    dsimp only [moved]
    split_ifs <;> rfl
  · refine iff_of_false (fun hres => hpass (.inl ?_)) hpass
    rw [hres.2.1]

theorem setBreak_of_not_canMove
    (hcan : ¬ mm.CanMove newbrk interrupted host) : (mm.setBreak newbrk interrupted host).2 = mm := by
  by_cases hin : mm.Reaches newbrk interrupted
  · rw [setBreak_eq h.end_dvd h.end_lt h.brk_le host hin]
    split_ifs with hpass
    · refine absurd ⟨hin, hpass.2, fun hob => ?_⟩ hcan
      obtain ⟨e, he, hmeet⟩ := hob
      have hle := (pageAlign_le h.brk_le h.end_dvd h.end_lt).1
      rcases hpass.1 with heq | hno
      · omega
      · rw [(breakBlocked_iff h.wf).mpr ⟨e, he, by omega, by omega⟩] at hno
        cases hno
    · rfl
  · exact setBreak_of_not_reaches host hin

end MemoryMap

open MemoryMap

/-- In every reachable map, `SetBreak` moves the break when it can and changes nothing otherwise, exactly when the break
fits. -/
theorem setBreak_moves_iff (base len : ℕ) (hd : 4096 ∣ base + len) (hlt : base + len < 2 ^ 64) (calls : List MMCall)
    (hcalls : Run.Admitted call (fun _ c => c.NoWrap) (init base len) calls)
    (newbrk : ℕ) (interrupted : Bool) (host : HostMMap) :
    let mm := Run.exec call (init base len) calls
    let r := mm.setBreak newbrk interrupted host
    ((mm.CanMove newbrk interrupted host →
        r.1 = .ok newbrk ∧ r.2.brkAddr = newbrk ∧ pageMap r.2.vmareas = mm.movedPages newbrk) ∧
      (¬ mm.CanMove newbrk interrupted host → r.2.vmareas = mm.vmareas ∧ r.2.brkAddr = mm.brkAddr)) ↔
    (mm.CanMove newbrk interrupted host → mm.BreakFits newbrk) := by
  intro mm r
  have hlaid : mm.Laid := Run.invariant_exec (fun _ _ h hw => h.call hw) (laid_init hd hlt) hcalls
  by_cases hcan : mm.CanMove newbrk interrupted host
  · have hmoves := setBreak_of_canMove hlaid hcan
    exact ⟨fun h hcan => hmoves.mp (h.1 hcan), fun h => ⟨fun hcan => hmoves.mpr (h hcan), fun hno => absurd hcan hno⟩⟩
  have hkept : r.2 = mm := setBreak_of_not_canMove hlaid hcan
  refine ⟨fun _ h => absurd h hcan, fun _ => ⟨fun h => absurd h hcan, fun _ => ?_⟩⟩
  rw [hkept]
  exact ⟨rfl, rfl⟩

theorem setBreak_moves_aligned :
    let mm := Run.exec call (init 0x10000 0x10000) [.setBreak 0x11000 false .willing]
    let r := mm.setBreak 0x12000 false .willing
    mm.CanMove 0x12000 false .willing ∧ r.1 = .ok 0x12000 ∧ r.2.brkAddr = 0x12000 ∧
      pageMap r.2.vmareas = mm.movedPages 0x12000 := by
  have hcan : (Run.exec call (init 0x10000 0x10000)
      [.setBreak 0x11000 false .willing]).CanMove 0x12000 false .willing :=
    ⟨⟨by decide, by decide, rfl⟩, by decide, by decide⟩
  have hmoves := setBreak_moves_iff 0x10000 0x10000 (by decide) (by decide) [.setBreak 0x11000 false .willing]
    ⟨trivial, trivial⟩ 0x12000 false .willing
  exact ⟨hcan, (hmoves.mpr fun _ => ⟨fun _ => by decide, fun _ => by decide⟩).1 hcan⟩

/-- After a break in the middle of a page, the heap is in the way of a larger break and of a smaller one. -/
theorem setBreak_stuck :
    let small := Run.exec call (init 0x10000 0x10000) [.setBreak 0x10800 false .willing]
    let large := Run.exec call (init 0x10000 0x10000) [.setBreak 0x12800 false .willing]
    (small.CanMove 0x12000 false .willing ∧ small.setBreak 0x12000 false .willing = (.ok 0x10800, small)) ∧
    large.CanMove 0x11000 false .willing ∧ large.setBreak 0x11000 false .willing = (.ok 0x12800, large) := by
  refine ⟨⟨⟨⟨?_, ?_, rfl⟩, ?_, ?_⟩, ?_⟩, ⟨⟨?_, ?_, rfl⟩, ?_, ?_⟩, ?_⟩ <;> decide

end Junction
