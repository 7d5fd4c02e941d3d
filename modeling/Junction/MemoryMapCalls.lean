import Junction.Library.Run
import Junction.MemoryMap

/-!
# What the calls on a memory map do

Whatever the host answers, a call leaves the map as it was, inserts or clears one range, or changes the protection of
one range. What `SetBreak` does is decided by one test and the answer of the host.
-/

namespace Junction
open ExclusiveIntervalSet

theorem boundsEnd_cases {addr len : ℕ} (hlen : 0 < len) (h : addr + len < 2 ^ 64) :
    boundsEnd addr len = 0 ∨ addr < boundsEnd addr len := by
  rw [boundsEnd, addWord_of_lt h]
  simp only [pageAlign, addWord, kPageSize]
  omega

theorem addressValid_iff {addr len : ℕ} (h : addr < 2 ^ 64) : addressValid addr len ↔ 0 < len ∧ 4096 ∣ addr := by
  rw [addressValid, Bool.and_eq_true, decide_eq_true_iff, isPageAligned_iff h]

theorem HostMMap.call_fixed (host : HostMMap) {addr len r : ℕ} {prot : BitVec 32} {flags : Flags} {file : Option FileRef}
    {off : BitVec 64} (hfix : hasFlag flags MAP_FIXED) (h : host.call addr len prot flags file off = .ok r) :
    r = addr ∧ 4096 ∣ addr ∧ 0 < len ∧ addr + len ≤ 2 ^ 63 := by
  obtain rfl := host.fixed h hfix
  exact ⟨rfl, host.aligned h, host.nonempty h, host.bounded h⟩

namespace MemoryMap

theorem finishMap_cases (mm : MemoryMap) (pool fail : MemAreas) (b : Bool) (raddr : Status ℕ) (vma : ℕ → VMArea) :
    (∃ e, mm.finishMap pool fail b raddr vma = (.ret (.error e), mm, fail)) ∨
      mm.finishMap pool fail b raddr vma = (.panic, mm, pool) ∨
      ∃ r a, raddr = .ok a ∧ mm.finishMap pool fail b raddr vma = (.ret r, mm.insertArea (vma a), pool) := by
  cases raddr with
  | error e =>
    by_cases he : e = .EEXIST
    · exact .inr (.inl (by simp only [finishMap, if_pos he]))
    · exact .inl ⟨e, by simp only [finishMap, if_neg he]⟩
  | ok a => exact .inr (.inr ⟨_, a, rfl, rfl⟩)

variable {addr len : ℕ} {flags : Flags}

theorem mapAt_cases (mm : MemoryMap) (pool fail : MemAreas) (a : MMapArgs) (env : MMapEnv) (hlen : 4096 ∣ len) (hfix : hasFlag flags MAP_FIXED) :
    (∃ e, mm.mapAt pool fail a env addr len flags = (.ret (.error e), mm, fail)) ∨
      mm.mapAt pool fail a env addr len flags = (.panic, mm, pool) ∨
      ∃ r v, mm.mapAt pool fail a env addr len flags = (.ret r, mm.insertArea v, pool) ∧
        v.start = addr ∧ v.stop = addr + len ∧ 0 < len ∧ addr + len ≤ 2 ^ 63 ∧ v.Sound ∧
        v.Untraced := by
  unfold mapAt
  by_cases hanon : hasFlag flags MAP_ANONYMOUS
  · simp only [if_pos hanon]
    rcases finishMap_cases mm pool fail _ (env.host.anonymous addr len a.prot flags) _ with
      herr | hpanic | ⟨r, raddr, hr, heq⟩
    · exact .inl herr
    · exact .inr (.inl hpanic)
    have hflags := hasFlag_or_left MAP_PRIVATE (hasFlag_or_left MAP_ANONYMOUS hfix)
    obtain ⟨rfl, hd, hpos, hb⟩ := env.host.call_fixed hflags hr
    have hlt : raddr + len < 2 ^ 64 := by omega
    have htype : (if hasFlag flags MAP_STACK = true then VMType.kStack else .kNormal) ≠ .kFile := by
      by_cases hstack : hasFlag flags MAP_STACK
      · simp [hstack]
      · simp [hstack]
    exact .inr (.inr ⟨r, _, heq, rfl, addWord_of_lt hlt, hpos, hb,
      VMArea.sound_anonymous a.prot hd hlen hlt htype, rfl⟩)
  · simp only [if_neg hanon]
    cases hf : a.file with
    | none => exact .inl ⟨_, rfl⟩
    | some f =>
      rcases finishMap_cases mm pool fail _ (env.host.call addr len a.prot flags (some f) a.off) _ with
        herr | hpanic | ⟨r, raddr, hr, heq⟩
      · exact .inl herr
      · exact .inr (.inl hpanic)
      obtain ⟨rfl, hd, hpos, hb⟩ := env.host.call_fixed hfix hr
      have hlt : raddr + len < 2 ^ 64 := by omega
      exact .inr (.inr ⟨r, _, heq, rfl, addWord_of_lt hlt, hpos, hb, VMArea.sound_fileBacked a.prot f a.off hd hlen hlt, rfl⟩)

variable {mm : MemoryMap} {pool : MemAreas}

theorem chooseAddress_fixed {undef : ℕ × ℕ} {c : ℕ × Flags × MemAreas × Bool}
    (h : mm.chooseAddress pool addr len flags undef = .ok c) : hasFlag c.2.1 MAP_FIXED := by
  have hne : MAP_FIXED ≠ 0 := by decide
  unfold chooseAddress at h
  simp only at h
  split at h
  · cases h
    exact hasFlag_or_self _ hne
  split at h
  · cases h
    exact hasFlag_or_self _ hne
  · cases h

theorem mmap_cases (mm : MemoryMap) (pool : MemAreas) (a : MMapArgs) (env : MMapEnv) : (mm.mmap pool a env).2.1 = mm ∨
      ∃ v : VMArea, (mm.mmap pool a env).2.1 = mm.insertArea v ∧ v.start < v.stop ∧ v.Sound ∧ v.Untraced := by
  have hmap : ∀ (pool fail : MemAreas) (addr : ℕ) (flags : Flags), hasFlag flags MAP_FIXED →
      (mm.mapAt pool fail a env addr (pageAlign a.len) flags).2.1 = mm ∨
        ∃ v : VMArea, (mm.mapAt pool fail a env addr (pageAlign a.len) flags).2.1 = mm.insertArea v ∧
          v.start < v.stop ∧ v.Sound ∧ v.Untraced := by
    intro pool fail addr flags hfix
    rcases mapAt_cases mm pool fail a env (pageAlign_dvd a.len) hfix with
      ⟨e, he⟩ | hp | ⟨r, v, heq, hs, ht, hpos, -, hsound, hun⟩
    · exact .inl (by rw [he])
    · exact .inl (by rw [hp])
    · exact .inr ⟨v, by rw [heq], by omega, hsound, hun⟩
  unfold mmap
  by_cases hvalid : addressValid a.addr a.len = false
  · exact .inl (by rw [if_pos hvalid])
  rw [if_neg hvalid]
  by_cases hint : env.interrupted
  · exact .inl (by simp only [if_pos hint])
  simp only [if_neg hint]
  by_cases hfix : hasFlag (a.flags &&& ~~~MAP_POPULATE) MAP_FIXED
  · simp only [if_pos hfix]
    exact hmap _ _ _ _ hfix
  simp only [if_neg hfix]
  cases hch : mm.chooseAddress pool a.addr (pageAlign a.len) (a.flags &&& ~~~MAP_POPULATE) env.undef with
  | error e => exact .inl rfl
  | ok c => exact hmap _ _ _ _ (chooseAddress_fixed hch)

variable {a : MMapArgs} {env : MMapEnv} {r : ℕ}

theorem mapAt_ok {fail : MemAreas} {addr len : ℕ}
    (hfix : hasFlag flags MAP_FIXED) (h : (mm.mapAt pool fail a env addr len flags).1 = .ret (.ok r)) :
    r = addr ∧ 4096 ∣ addr ∧ 0 < len ∧ addr + len ≤ 2 ^ 63 := by
  have hfinish : ∀ {b : Bool} {raddr : Status ℕ} {vma : ℕ → VMArea},
      (mm.finishMap pool fail b raddr vma).1 = .ret (.ok r) → raddr = .ok r := by
    intro b raddr vma hok
    cases raddr with
    | error e =>
      simp only [finishMap] at hok
      split_ifs at hok
      cases hok
    | ok x =>
      simp only [finishMap] at hok
      split_ifs at hok with hb
      · cases hok
      · cases hok
        rfl
  unfold mapAt at h
  by_cases hanon : hasFlag flags MAP_ANONYMOUS
  · simp only [if_pos hanon] at h
    exact env.host.call_fixed (hasFlag_or_left MAP_PRIVATE (hasFlag_or_left MAP_ANONYMOUS hfix)) (hfinish h)
  simp only [if_neg hanon] at h
  cases hfile : a.file with
  | none =>
    rw [hfile] at h
    cases h
  | some f =>
    rw [hfile] at h
    exact env.host.call_fixed hfix (hfinish h)

theorem mmap_fixed_ok
    (hfix : hasFlag (a.flags &&& ~~~MAP_POPULATE) MAP_FIXED) (h : (mm.mmap pool a env).1 = .ret (.ok r)) :
    r = a.addr ∧ 4096 ∣ a.addr ∧ 0 < pageAlign a.len ∧ a.addr + pageAlign a.len ≤ 2 ^ 63 := by
  unfold mmap at h
  by_cases hvalid : addressValid a.addr a.len = false
  · rw [if_pos hvalid] at h
    cases h
  rw [if_neg hvalid] at h
  by_cases hint : env.interrupted
  · rw [if_pos hint] at h
    cases h
  · rw [if_neg hint, if_pos hfix] at h
    exact mapAt_ok hfix h

theorem mmap_anywhere_ok (haddr : a.addr = 0)
    (hfix : ¬ hasFlag (a.flags &&& ~~~MAP_POPULATE) MAP_FIXED) (h : (mm.mmap pool a env).1 = .ret (.ok r)) :
    findFreeBack mm.vmareas (pageAlign a.len) mm.mmEnd mm.brkAddr = .ok r ∧ 4096 ∣ r ∧ 0 < pageAlign a.len ∧
      r + pageAlign a.len ≤ 2 ^ 63 := by
  unfold mmap at h
  by_cases hvalid : addressValid a.addr a.len = false
  · rw [if_pos hvalid] at h
    cases h
  rw [if_neg hvalid] at h
  by_cases hint : env.interrupted
  · rw [if_pos hint] at h
    cases h
  rw [if_neg hint, if_neg hfix] at h
  cases hback : findFreeBack mm.vmareas (pageAlign a.len) mm.mmEnd mm.brkAddr with
  | error e =>
    simp only [chooseAddress, haddr, ne_eq, not_true_eq_false, false_and, if_false, findFreeRange, if_true, hback]
      at h
    cases h
  | ok addr =>
    simp only [chooseAddress, haddr, ne_eq, not_true_eq_false, false_and, if_false, findFreeRange, if_true, hback]
      at h
    obtain ⟨rfl, hspec⟩ := mapAt_ok (hasFlag_or_self _ (by decide)) h
    exact ⟨rfl, hspec⟩

theorem mmap_fixed_of_host (mm : MemoryMap) (pool : MemAreas)
    (hvalid : addressValid a.addr a.len) (hint : env.interrupted = false)
    (hfix : hasFlag (a.flags &&& ~~~MAP_POPULATE) MAP_FIXED) (hpopulate : hasFlag a.flags MAP_POPULATE = false)
    (hanon : hasFlag (a.flags &&& ~~~MAP_POPULATE) MAP_ANONYMOUS →
      ∃ r, env.host.anonymous a.addr (pageAlign a.len) a.prot (a.flags &&& ~~~MAP_POPULATE) = .ok r)
    (hfile : hasFlag (a.flags &&& ~~~MAP_POPULATE) MAP_ANONYMOUS = false → ∃ f r, a.file = some f ∧
      env.host.call a.addr (pageAlign a.len) a.prot (a.flags &&& ~~~MAP_POPULATE) (some f) a.off = .ok r) :
    ∃ r, (mm.mmap pool a env).1 = .ret (.ok r) := by
  have hnot : ¬ addressValid a.addr a.len = false := by rw [hvalid]; nofun
  have hgo : ¬ env.interrupted := by rw [hint]; nofun
  unfold mmap
  rw [if_neg hnot]
  rw [if_neg hgo, if_pos hfix]
  unfold mapAt
  by_cases hflag : hasFlag (a.flags &&& ~~~MAP_POPULATE) MAP_ANONYMOUS
  · obtain ⟨r, hr⟩ := hanon hflag
    refine ⟨r, ?_⟩
    simp [if_pos hflag, hr, finishMap, hpopulate, Bool.false_and, Bool.false_eq_true]
  obtain ⟨f, r, hf, hr⟩ := hfile (Bool.eq_false_of_not_eq_true hflag)
  refine ⟨r, ?_⟩
  simp [if_neg hflag, hf, hr, finishMap, hpopulate, Bool.false_and, Bool.false_eq_true]

/-- A range of whole pages. It is empty if its end is zero. -/
structure PageRange (start stop : ℕ) : Prop where
  start_dvd : 4096 ∣ start
  start_lt : start < 2 ^ 64
  stop_dvd : 4096 ∣ stop
  stop_lt : stop < 2 ^ 64
  ends : stop = 0 ∨ start < stop

theorem PageRange.of_addressValid (hr : addr + len < 2 ^ 64) (hvalid : ¬ addressValid addr len = false) :
    PageRange addr (boundsEnd addr len) := by
  obtain ⟨hlen, hd⟩ := (addressValid_iff (by omega)).1 (Bool.eq_true_of_not_eq_false hvalid)
  exact ⟨hd, by omega, pageAlign_dvd _, pageAlign_lt _, boundsEnd_cases hlen hr⟩

theorem munmap_cases (mm : MemoryMap) (pool : MemAreas) (hr : addr + len < 2 ^ 64) (interrupted : Bool)
    (host : Status Unit) : (mm.munmap pool addr len interrupted host).2.1 = mm ∨ ∃ stop, PageRange addr stop ∧
      (mm.munmap pool addr len interrupted host).2.1 = mm.clearRange addr stop := by
  unfold MemoryMap.munmap
  by_cases hvalid : addressValid addr len = false
  · exact .inl (by rw [if_pos hvalid])
  rw [if_neg hvalid]
  cases interrupted with
  | true => exact .inl rfl
  | false =>
    cases host with
    | error e => exact .inl rfl
    | ok _ => exact .inr ⟨_, .of_addressValid hr hvalid, rfl⟩

theorem mprotect_cases (mm : MemoryMap) (hr : addr + len < 2 ^ 64) (prot : BitVec 32)
    (interrupted : Bool) (host : Status Unit) : (mm.mprotect addr len prot interrupted host).2 = mm ∨
      ∃ stop, PageRange addr stop ∧ (mm.mprotect addr len prot interrupted host).2 = mm.modifyProt addr stop prot := by
  unfold MemoryMap.mprotect
  by_cases hvalid : addressValid addr len = false
  · exact .inl (by rw [if_pos hvalid])
  rw [if_neg hvalid]
  cases interrupted with
  | true => exact .inl rfl
  | false =>
    cases (if mm.tracing then .ok () else host : Status Unit) with
    | error e => exact .inl rfl
    | ok _ => exact .inr ⟨_, .of_addressValid hr hvalid, rfl⟩

/-! ### Moving the break -/

variable {mm : MemoryMap}

def heapArea (mm : MemoryMap) (newbrk : ℕ) : VMArea :=
  ⟨pageAlign mm.brkAddr, pageAlign newbrk, PROT_READ ||| PROT_WRITE, false, .kHeap, none, 0⟩

/-- The host maps the pages between the two aligned breaks, if there are any. -/
def hostAgrees (mm : MemoryMap) (newbrk : ℕ) (host : HostMMap) : Bool :=
  let old := pageAlign mm.brkAddr
  let new := pageAlign newbrk
  if old < new then (host.anonymous old (new - old) (PROT_READ ||| PROT_WRITE) MAP_FIXED).isOk
  else if new < old then (host.anonymous new (old - new) PROT_NONE MAP_FIXED).isOk
  else true

def moved (mm : MemoryMap) (newbrk : ℕ) : MemoryMap :=
  let old := pageAlign mm.brkAddr
  let new := pageAlign newbrk
  if old < new then { mm.insertArea (mm.heapArea newbrk) with brkAddr := newbrk }
  else if new < old then { mm.clearRange new old with brkAddr := newbrk }
  else { mm with brkAddr := newbrk }

/-- The call reaches the break: the new one is in the region, and the lock is taken. -/
def Reaches (mm : MemoryMap) (newbrk : ℕ) (interrupted : Bool) : Prop :=
  mm.mmStart ≤ newbrk ∧ newbrk < mm.mmEnd ∧ interrupted = false

theorem pageAlign_mono {a b bound : ℕ} (hab : a ≤ b) (hb : b ≤ bound) (hd : 4096 ∣ bound) (hlt : bound < 2 ^ 64) :
    pageAlign a ≤ pageAlign b := by
  obtain ⟨k, rfl⟩ := hd
  rw [pageAlign_eq (by omega), pageAlign_eq (by omega)]
  exact Nat.mul_le_mul_right _ (Nat.div_le_div_right (by omega))

variable {newbrk : ℕ} {interrupted : Bool}

/-- A call moves the break if the host agrees and the area above the break is not in the way. -/
theorem setBreak_eq (hd : 4096 ∣ mm.mmEnd) (hend : mm.mmEnd < 2 ^ 64) (hbrk : mm.brkAddr ≤ mm.mmEnd) (host : HostMMap) (hin : mm.Reaches newbrk interrupted) :
    mm.setBreak newbrk interrupted host =
      if (pageAlign mm.brkAddr = pageAlign newbrk ∨ mm.breakBlocked newbrk = false) ∧
          mm.hostAgrees newbrk host = true then (.ok newbrk, mm.moved newbrk)
      else (.ok mm.brkAddr, mm) := by
  obtain ⟨hlo, hhi, rfl⟩ := hin
  obtain ⟨-, holdle⟩ := pageAlign_le hbrk hd hend
  obtain ⟨-, hnewle⟩ := pageAlign_le hhi.le hd hend
  unfold MemoryMap.setBreak hostAgrees moved
  rw [if_neg (by omega), if_neg (by decide)]
  dsimp only
  rcases Nat.lt_trichotomy (pageAlign mm.brkAddr) (pageAlign newbrk) with hlt | heq | hgt
  · have hgrow : mm.brkAddr < newbrk := by
      by_contra hno
      have := pageAlign_mono (Nat.le_of_not_lt hno) hbrk hd hend
      omega
    have hsum : pageAlign mm.brkAddr + (pageAlign newbrk - pageAlign mm.brkAddr) = pageAlign newbrk := by omega
    have harea : VMArea.anonymous (pageAlign mm.brkAddr) (pageAlign newbrk - pageAlign mm.brkAddr)
        (PROT_READ ||| PROT_WRITE) .kHeap = mm.heapArea newbrk := by
      rw [VMArea.anonymous, addWord_of_lt (by omega), hsum]
      rfl
    rw [if_neg hlt.ne, subWord_of_le hlt.le (by omega), harea, if_pos hgrow, if_pos hlt, if_pos hlt]
    simp only [hlt.ne, false_or]
    cases hblocked : mm.breakBlocked newbrk with
    | true => simp
    | false =>
      cases host.anonymous (pageAlign mm.brkAddr) (pageAlign newbrk - pageAlign mm.brkAddr)
          (PROT_READ ||| PROT_WRITE) MAP_FIXED with
      | error e | ok r => simp [Except.isOk, Except.toBool]
  · rw [if_pos heq, if_neg heq.not_lt, if_neg heq.not_gt, if_neg heq.not_lt, if_neg heq.not_gt]
    simp [heq]
  · have hshrink : ¬ mm.brkAddr < newbrk := by
      intro hlt
      have := pageAlign_mono hlt.le hhi.le hd hend
      omega
    have hstop : boundsEnd (pageAlign newbrk) (pageAlign mm.brkAddr - pageAlign newbrk) = pageAlign mm.brkAddr := by
      rw [boundsEnd, addWord_of_lt (by omega), Nat.add_sub_of_le hgt.le, pageAlign_of_dvd (pageAlign_dvd _) (by omega)]
    rw [if_neg hgt.ne', subWord_of_le hgt.le (by omega), hstop, if_neg hshrink, if_neg hgt.not_gt, if_pos hgt,
      if_neg hgt.not_gt, if_pos hgt]
    simp only [hgt.ne', false_or]
    cases hblocked : mm.breakBlocked newbrk with
    | true => simp
    | false =>
      cases host.anonymous (pageAlign newbrk) (pageAlign mm.brkAddr - pageAlign newbrk) PROT_NONE MAP_FIXED with
      | error | ok => simp [Except.isOk, Except.toBool]

theorem setBreak_of_not_reaches (host : HostMMap)
    (hout : ¬ mm.Reaches newbrk interrupted) : (mm.setBreak newbrk interrupted host).2 = mm := by
  unfold MemoryMap.setBreak
  by_cases hrange : newbrk < mm.mmStart ∨ mm.mmEnd ≤ newbrk
  · rw [if_pos hrange]
  by_cases hint : interrupted
  · rw [if_neg hrange, if_pos hint]
  · exact absurd ⟨by omega, by omega, Bool.eq_false_iff.mpr hint⟩ hout

theorem heapArea_sound : (mm.heapArea newbrk).Sound :=
  ⟨pageAlign_dvd _, pageAlign_dvd _, pageAlign_lt _, by simp [heapArea]⟩

end MemoryMap

/-! ### The areas stay valid

`EnableTracing` marks all areas as traced without merging them: when a tracer is already active, the areas mapped since
then may become mergeable with their older neighbours. -/

open HalfOpen IntervalData LawfulIntervalData List MemoryMap VMArea

namespace MemoryMap

/-- The invariant of a memory map: its areas are valid, without a tracer none is traced, and the
break lies in the page-aligned region of the map. -/
structure Valid (mm : MemoryMap) : Prop where
  areas : AreasValid mm.vmareas
  untraced : mm.tracing = false → ∀ e ∈ mm.vmareas, e.2.Untraced
  end_dvd : 4096 ∣ mm.mmEnd
  end_lt : mm.mmEnd < 2 ^ 64
  brk_le : mm.brkAddr ≤ mm.mmEnd

variable {mm : MemoryMap}

variable (h : mm.Valid)
include h

theorem Valid.insert {v : VMArea} (hv : v.start < v.stop) (hs : v.Sound) (hu : v.Untraced) :
    (mm.insertArea v).Valid := { h with
  areas := h.areas.insert hv hs
  untraced ht := forall_insert h.areas.wf hv (untraced_leftCutClosed _)
    (untraced_rightCutClosed _) untraced_mergeClosed (h.untraced ht) hu }

variable {start stop : ℕ}

theorem Valid.clear (hr : PageRange start stop) : (mm.clearRange start stop).Valid := by
  obtain ⟨hs, -, he, hlt, rfl | hss⟩ := hr
  · rw [clearRange, clear_stop_zero h.areas.wf]
    exact h
  · refine { h with areas := h.areas.clear hs he hlt hss, untraced := fun ht => ?_ }
    exact forall_clear (untraced_leftCutClosed _) (untraced_rightCutClosed _) (h.untraced ht)

theorem Valid.modifyProt (prot : BitVec 32) (hr : PageRange start stop) : (mm.modifyProt start stop prot).Valid := by
  simp only [MemoryMap.modifyProt]
  obtain ⟨hs, -, he, hlt, rfl | hss⟩ := hr
  · rw [modify_stop_zero h.areas.wf h.areas.coalesced]
    exact h
  refine { h with areas := h.areas.setProt prot hs he hlt hss, untraced := fun ht => ?_ }
  exact forall_modify (untraced_leftCutClosed _) (untraced_rightCutClosed _)
    untraced_mergeClosed (fun _ hu => hu) (h.untraced ht)

theorem Valid.setBrk {brk : ℕ} (hb : brk ≤ mm.mmEnd) : { mm with brkAddr := brk }.Valid := { h with brk_le := hb }

omit h in
theorem wellFormed_enableTracing (h : WellFormed mm.vmareas) : WellFormed mm.enableTracing.vmareas :=
  ⟨forall_mem_map.2 h.keyed, forall_mem_map.2 h.nonempty, pairwise_map.2 h.separated⟩

omit h in
theorem sound_enableTracing (h : ∀ e ∈ mm.vmareas, e.2.Sound) : ∀ e ∈ mm.enableTracing.vmareas, e.2.Sound :=
  forall_mem_map.2 fun e he => { h e he with }

/-- Without an active tracer no area is traced, so marking all of them changes no border. -/
theorem Valid.enableTracing (ht : mm.tracing = false) : mm.enableTracing.Valid := by
  have hun := h.untraced ht
  refine { h with
    areas := ⟨wellFormed_enableTracing h.areas.wf, ?_, sound_enableTracing h.areas.sound⟩
    untraced := fun hf => absurd hf (by simp [MemoryMap.enableTracing]) }
  refine (isChain_map _).2 (h.areas.coalesced.imp_of_mem_imp ?_)
  intro x y hx hy hne hedge
  exact hne (edge_eq_of_traced ((hun x hx).trans (hun y hy).symm) hedge)

theorem Valid.endTracing : mm.endTracing.2.Valid := by
  unfold MemoryMap.endTracing
  split_ifs with ht
  · exact h
  · exact { h with areas := h.areas.untrace, untraced := fun _ => untraced_of_untrace h.areas }

omit h

theorem valid_init {base len : ℕ} (hd : 4096 ∣ base + len) (hlt : base + len < 2 ^ 64) : (init base len).Valid := by
  have hend : addWord base len = base + len := addWord_of_lt hlt
  refine ⟨⟨wellFormed_nil, isChain_nil, by simp [init]⟩, by simp [init], ?_, ?_, ?_⟩
  · simpa [init, hend] using hd
  · simpa [init, hend] using hlt
  · simp [init, hend]

end MemoryMap

/-- The calls that change the areas of a map, with what the environment decides during each. The
pool is whatever all processes together have made of it. -/
inductive MMCall
  | mmap (pool : MemAreas) (args : MemoryMap.MMapArgs) (env : MemoryMap.MMapEnv)
  | munmap (pool : MemAreas) (addr len : ℕ) (interrupted : Bool) (host : Status Unit)
  | mprotect (addr len : ℕ) (prot : BitVec 32) (interrupted : Bool) (host : Status Unit)
  | setBreak (brkAddr : ℕ) (interrupted : Bool) (host : HostMMap)
  | enableTracing
  | endTracing

def MemoryMap.call (mm : MemoryMap) : MMCall → MemoryMap
  | .mmap pool args env => (mm.mmap pool args env).2.1
  | .munmap pool addr len interrupted host => (mm.munmap pool addr len interrupted host).2.1
  | .mprotect addr len prot interrupted host => (mm.mprotect addr len prot interrupted host).2
  | .setBreak brkAddr interrupted host => (mm.setBreak brkAddr interrupted host).2
  | .enableTracing => mm.enableTracing
  | .endTracing => mm.endTracing.2

def MMCall.NoWrap : MMCall → Prop
  | .mmap _ args _ => args.addr + args.len < 2 ^ 64
  | .munmap _ addr len _ _ => addr + len < 2 ^ 64
  | .mprotect addr len _ _ _ => addr + len < 2 ^ 64
  | _ => True

def MMCall.TracesOnce (mm : MemoryMap) : MMCall → Prop
  | .enableTracing => mm.tracing = false
  | _ => True

/-- A property that every change of the areas and of the break keeps. -/
structure MemoryMap.Kept (P : MemoryMap → Prop) : Prop where
  region {mm} : P mm → 4096 ∣ mm.mmEnd ∧ mm.mmEnd < 2 ^ 64 ∧ mm.brkAddr ≤ mm.mmEnd
  insert {mm v} : P mm → v.start < v.stop → v.Sound → v.Untraced → P (mm.insertArea v)
  clear {mm start stop} : P mm → PageRange start stop → P (mm.clearRange start stop)
  modifyProt {mm start stop} (prot : BitVec 32) : P mm → PageRange start stop → P (mm.modifyProt start stop prot)
  setBrk {mm brk} : P mm → brk ≤ mm.mmEnd → P { mm with brkAddr := brk }
  endTracing {mm} : P mm → P mm.endTracing.2

namespace MemoryMap
variable {P : MemoryMap → Prop} (hP : Kept P) {mm : MemoryMap}
include hP

theorem Kept.moved (h : P mm) {newbrk : ℕ} (hnew : newbrk ≤ mm.mmEnd) : P (mm.moved newbrk) := by
  dsimp only [MemoryMap.moved]
  split_ifs with hgrow hshrink
  · exact hP.setBrk (hP.insert h hgrow heapArea_sound rfl) hnew
  · have hr := PageRange.mk (pageAlign_dvd _) (pageAlign_lt _) (pageAlign_dvd _) (pageAlign_lt _) (.inr hshrink)
    exact hP.setBrk (hP.clear h hr) hnew
  · exact hP.setBrk h hnew

theorem Kept.call (h : P mm) {c : MMCall} (hw : c.NoWrap) (ht : c = .enableTracing → P mm.enableTracing) :
    P (mm.call c) := by
  cases c with
  | mmap pool args env =>
    rcases mmap_cases mm pool args env with heq | ⟨v, heq, hv, hs, hu⟩
    · rw [MemoryMap.call, heq]
      exact h
    · rw [MemoryMap.call, heq]
      exact hP.insert h hv hs hu
  | munmap pool addr len interrupted host =>
    rcases munmap_cases mm pool hw interrupted host with heq | ⟨stop, hr, heq⟩
    · rw [MemoryMap.call, heq]
      exact h
    · rw [MemoryMap.call, heq]
      exact hP.clear h hr
  | mprotect addr len prot interrupted host =>
    rcases mprotect_cases mm hw prot interrupted host with heq | ⟨stop, hr, heq⟩
    · rw [MemoryMap.call, heq]
      exact h
    · rw [MemoryMap.call, heq]
      exact hP.modifyProt prot h hr
  | setBreak newbrk interrupted host =>
    change P (mm.setBreak newbrk interrupted host).2
    obtain ⟨hdvd, hlt, hle⟩ := hP.region h
    by_cases hin : mm.Reaches newbrk interrupted
    · rw [setBreak_eq hdvd hlt hle host hin]
      split_ifs
      · exact hP.moved h hin.2.1.le
      · exact h
    · rw [setBreak_of_not_reaches host hin]
      exact h
  | enableTracing => exact ht rfl
  | endTracing => exact hP.endTracing h

omit hP

theorem kept_valid : Kept Valid where
  region h := ⟨h.end_dvd, h.end_lt, h.brk_le⟩
  insert h := h.insert
  clear h := h.clear
  modifyProt prot h := h.modifyProt prot
  setBrk h hb := h.setBrk hb
  endTracing := Valid.endTracing

theorem Valid.call (h : mm.Valid) {c : MMCall} (hw : c.NoWrap) (ht : c.TracesOnce mm) : (mm.call c).Valid :=
  kept_valid.call h hw (by rintro rfl; exact h.enableTracing ht)

end MemoryMap

/-- In every run from an empty map that never enables tracing twice in a row, `MappingsValid` holds
of every state reached. -/
theorem mappingsValid_reachable {base len : ℕ} (hd : 4096 ∣ base + len)
    (hlt : base + len < 2 ^ 64) {calls : List MMCall}
    (ha : Run.Admitted call (fun mm c => c.NoWrap ∧ c.TracesOnce mm) (init base len) calls) :
    mappingsValid (Run.exec call (init base len) calls).vmareas = true := by
  have hvalid : (Run.exec call (init base len) calls).Valid :=
    Run.invariant_exec (fun _ _ h hg => h.call hg.1 hg.2) (valid_init hd hlt) ha
  exact mappingsValid_of hvalid.areas.wf hvalid.areas.coalesced hvalid.areas.sound

def HostMMap.willing : HostMMap where
  call addr len _ _ _ _ :=
    if 4096 ∣ addr ∧ 0 < len ∧ addr + len ≤ 2 ^ 63 then .ok addr else .error .EINVAL
  fixed h _ := by
    split at h
    · cases h
      rfl
    · cases h
  aligned h := by
    split at h
    · cases h
      tauto
    · cases h
  nonempty h := by
    split at h
    · tauto
    · cases h
  bounded h := by
    split at h
    · cases h
      tauto
    · cases h

def mapPage (addr : ℕ) : MMCall :=
  .mmap [] ⟨addr, 4096, PROT_READ, MAP_FIXED ||| MAP_ANONYMOUS ||| MAP_PRIVATE, none, 0⟩
    ⟨false, .willing, .ok (), (0, 0)⟩

theorem mapPage_noWrap {addr : ℕ} (h : addr + 4096 < 2 ^ 64) : (mapPage addr).NoWrap := h

theorem mappingsValid_reachable_twoPages : mappingsValid (Run.exec call (init 0x10000 0x10000)
      [mapPage 0x11000, .enableTracing, mapPage 0x12000, .endTracing]).vmareas = true :=
  mappingsValid_reachable (by decide) (by decide)
    ⟨⟨mapPage_noWrap (by decide), trivial⟩, ⟨trivial, rfl⟩, ⟨mapPage_noWrap (by decide), trivial⟩,
      ⟨trivial, trivial⟩, trivial⟩

/-- The second page is mapped while the tracer runs, so it is not traced and does not merge with the
first. Enabling tracing again makes the two equal neighbours. -/
theorem enableTracing_twice_breaks_mappingsValid : mappingsValid (Run.exec call (init 0x10000 0x10000)
      [mapPage 0x11000, .enableTracing, mapPage 0x12000, .enableTracing]).vmareas = false := by
  decide

end Junction
