import Junction.Base
import Junction.Library.Run

/-!
# Capabilities

A credential has five sets of capabilities, each a word of 64 bits. The first one of a process has every ambient
capability and no inheritable one. `capget` gives the sets away as two words of 32 bits each, and `capset` takes the
first of the two for the whole set.
-/

namespace Junction
open BitVec

def kMaxCapability : ℤ := 63
def CAP_SETPCAP : ℤ := 8
def kCapabilityVersion1 : BitVec 32 := 0x19980330
def kCapabilityVersion2 : BitVec 32 := 0x20071026

structure Credential where
  bounding : BitVec 64 := ~~~0
  ambient : BitVec 64 := ~~~0
  permitted : BitVec 64 := ~~~0
  effective : BitVec 64 := ~~~0
  inheritable : BitVec 64 := 0
deriving DecidableEq

/-- `cap_user_data_t`: one word of each set. -/
structure CapUserData where
  effective : BitVec 32
  permitted : BitVec 32
  inheritable : BitVec 32

inductive AmbientOp where
  | raise
  | lower
  | clearAll
  | isSet
  | other

/-- `capset` with its two words, `PR_CAPBSET_DROP` and `PR_CAP_AMBIENT`. -/
inductive CapCall where
  | capset (version : BitVec 32) (data : CapUserData × CapUserData)
  | drop (cap : ℤ)
  | ambient (op : AmbientOp) (cap : ℤ)

def Within (a b : BitVec 64) : Prop := a &&& ~~~b = 0

instance (a b : BitVec 64) : Decidable (Within a b) := inferInstanceAs (Decidable (_ = _))

namespace Within
variable {a b d : BitVec 64}

theorem iff_bits : Within a b ↔ ∀ i, a.getLsbD i → b.getLsbD i := by
  constructor
  · intro h i ha
    have hbit := congrArg (getLsbD · i) h
    simpa [ha, lt_of_getLsbD ha] using hbit
  intro h
  refine eq_of_getLsbD_eq fun i hi => ?_
  cases ha : a.getLsbD i with
  | false => simp [ha]
  | true => simp [h i ha, hi]

theorem rfl (a : BitVec 64) : Within a a := iff_bits.2 fun _ => id

theorem trans (h : Within a b) (h' : Within b d) : Within a d :=
  iff_bits.2 fun i hi => iff_bits.1 h' i (iff_bits.1 h i hi)

theorem and_left (a m : BitVec 64) : Within (a &&& m) a := by
  refine iff_bits.2 fun i hi => ?_
  rw [getLsbD_and, Bool.and_eq_true] at hi
  exact hi.1

theorem and_right (a m : BitVec 64) : Within (a &&& m) m := BitVec.and_comm a m ▸ and_left m a

theorem or_left (a m : BitVec 64) : Within a (a ||| m) := iff_bits.2 fun i hi => by simp [hi]

theorem or (h : Within a d) (h' : Within b d) : Within (a ||| b) d := by
  refine iff_bits.2 fun i hi => ?_
  rw [getLsbD_or, Bool.or_eq_true] at hi
  exact hi.elim (iff_bits.1 h i) (iff_bits.1 h' i)

theorem and_iff : Within a (b &&& d) ↔ Within a b ∧ Within a d := by
  simp [iff_bits, getLsbD_and, Bool.and_eq_true, imp_and, forall_and]

theorem mask (h : Within a b) (m : BitVec 64) : Within (a &&& m) (b &&& m) :=
  and_iff.2 ⟨(and_left a m).trans h, and_right a m⟩

theorem and_eq (h : Within a b) : a &&& b = a := by
  refine eq_of_getLsbD_eq fun i hi => ?_
  cases ha : a.getLsbD i with
  | false => simp [ha]
  | true => simp [ha, iff_bits.1 h i ha]

end Within

namespace Credential
variable (stray : ℤ → BitVec 64) (c : Credential)

/-- `1 << cap`. What a shift by a negative number gives is left open. -/
def bit (cap : ℤ) : BitVec 64 := if 0 ≤ cap then 1#64 <<< cap.toNat else stray cap

def inSet (set : BitVec 64) (cap : ℤ) : Bool := set &&& bit stray cap != 0

def updateCapabilities (permitted effective inheritable : BitVec 64) : Status ℕ × Credential :=
  if !inSet stray c.effective CAP_SETPCAP ∧ inheritable &&& ~~~(c.inheritable ||| c.permitted) ≠ 0 then
    (.error .EPERM, c)
  else if inheritable &&& ~~~(c.inheritable ||| c.bounding) ≠ 0 then (.error .EPERM, c)
  else if permitted &&& ~~~c.permitted ≠ 0 then (.error .EPERM, c)
  else if effective &&& ~~~permitted ≠ 0 then (.error .EPERM, c)
  else (.ok 0, { c with permitted, effective, inheritable, ambient := c.ambient &&& (permitted &&& inheritable) })

def dropBoundedCap (cap : ℤ) : Status ℕ × Credential :=
  if !inSet stray c.effective CAP_SETPCAP then (.error .EPERM, c)
  else if kMaxCapability < cap then (.error .EINVAL, c)
  else
    (.ok 0,
      { bounding := c.bounding &&& ~~~bit stray cap
        ambient := c.ambient &&& ~~~bit stray cap
        permitted := c.permitted &&& ~~~bit stray cap
        effective := c.effective &&& ~~~bit stray cap
        inheritable := c.inheritable &&& ~~~bit stray cap })

def ambientRaise (cap : ℤ) : Status ℕ × Credential :=
  if kMaxCapability < cap then (.error .EINVAL, c)
  else if !inSet stray (c.inheritable &&& c.permitted) cap then (.error .EPERM, c)
  else (.ok 0, { c with ambient := c.ambient ||| bit stray cap })

def ambientLower (cap : ℤ) : Status ℕ × Credential :=
  if kMaxCapability < cap then (.error .EINVAL, c)
  else (.ok 0, { c with ambient := c.ambient &&& ~~~bit stray cap })

def call : CapCall → Status ℕ × Credential
  | .capset version data =>
    if version < kCapabilityVersion2 then (.error .EINVAL, c)
    else
      c.updateCapabilities stray (data.1.permitted.setWidth 64) (data.1.effective.setWidth 64)
        (data.1.inheritable.setWidth 64)
  | .drop cap => c.dropBoundedCap stray cap
  | .ambient .raise cap => c.ambientRaise stray cap
  | .ambient .lower cap => c.ambientLower stray cap
  | .ambient .clearAll _ => (.ok 0, { c with ambient := 0 })
  | .ambient .isSet cap => (.ok (if cap ≤ kMaxCapability ∧ inSet stray c.ambient cap then 1 else 0), c)
  | .ambient .other _ => (.ok 0, c)

/-- `capget` into `data`, with the version that it leaves in the header. -/
def capget (version : BitVec 32) (data : CapUserData × CapUserData) : BitVec 32 × CapUserData × CapUserData :=
  if version = 0 then (kCapabilityVersion2, data)
  else
    (version, ⟨c.effective.setWidth 32, c.permitted.setWidth 32, c.inheritable.setWidth 32⟩,
      if kCapabilityVersion1 < version then
        ⟨(c.effective >>> 32).setWidth 32, (c.permitted >>> 32).setWidth 32, (c.inheritable >>> 32).setWidth 32⟩
      else data.2)

/-- What the sets of a credential promise, for every next call. -/
structure Contained : Prop where
  effective : Within c.effective c.permitted
  ambient : Within c.ambient (c.permitted &&& c.inheritable)
  shrinks : ∀ op, Within (c.call stray op).2.permitted c.permitted ∧ Within (c.call stray op).2.bounding c.bounding
  failed : ∀ op e, (c.call stray op).1 = .error e → (c.call stray op).2 = c
  readBack : ∀ version data, kCapabilityVersion2 ≤ version →
    c.call stray (.capset version (c.capget version data).2) = (.ok 0, c)

def Numbered : CapCall → Prop
  | .capset .. => True
  | .drop cap | .ambient _ cap => 0 ≤ cap

instance : DecidablePred Numbered := fun op => by
  unfold Numbered
  split <;> infer_instance

/-! ### Runs -/

def lowWord : BitVec 64 := (allOnes 32).setWidth 64

/-- The sets lie in each other, and those that `capset` takes from words of 32 bits fit into them. -/
structure Low : Prop where
  effective : Within c.effective c.permitted
  ambient : Within c.ambient (c.permitted &&& c.inheritable)
  permitted : Within c.permitted lowWord
  inheritable : Within c.inheritable lowWord

variable {stray c}

theorem within_setWidth (w : BitVec 32) : Within (w.setWidth 64) lowWord := by
  refine Within.iff_bits.2 fun i hi => ?_
  rw [getLsbD_setWidth, Bool.and_eq_true] at hi
  rw [lowWord, getLsbD_setWidth, hi.1, getLsbD_allOnes]
  simpa using lt_of_getLsbD hi.2

theorem setWidth_of_within {a : BitVec 64} (h : Within a lowWord) : (a.setWidth 32).setWidth 64 = a := by
  refine eq_of_getLsbD_eq fun i hi => ?_
  have hbit := Within.iff_bits.1 h i
  cases ha : a.getLsbD i with
  | false => simp [ha]
  | true =>
    have hlow := hbit ha
    simp only [lowWord, getLsbD_setWidth, getLsbD_allOnes, Bool.and_eq_true] at hlow
    simp [ha, hi, of_decide_eq_true hlow.2]

theorem within_of_inSet {set : BitVec 64} {cap : ℤ} (hcap : 0 ≤ cap) (h : inSet stray set cap) :
    Within (bit stray cap) set := by
  rw [inSet, bit, if_pos hcap, ← twoPow_eq, and_twoPow] at h
  rw [bit, if_pos hcap, ← twoPow_eq]
  refine Within.iff_bits.2 fun i hi => ?_
  rw [getLsbD_twoPow, Bool.and_eq_true] at hi
  rw [← of_decide_eq_true hi.2]
  split_ifs at h with hbit
  · exact hbit
  · simp at h

theorem updateCapabilities_cases (permitted effective inheritable : BitVec 64) :
    (c.updateCapabilities stray permitted effective inheritable = (.error .EPERM, c)) ∨
      Within permitted c.permitted ∧ Within effective permitted ∧
        c.updateCapabilities stray permitted effective inheritable =
          (.ok 0, { c with permitted, effective, inheritable, ambient := c.ambient &&& (permitted &&& inheritable) }) := by
  unfold updateCapabilities
  split_ifs with hset hbound hperm heff
  · exact .inl rfl
  · exact .inl rfl
  · exact .inl rfl
  · exact .inl rfl
  · exact .inr ⟨not_not.1 hperm, not_not.1 heff, rfl⟩

/-- A call fails and changes nothing, or it writes sets from words, takes a capability out of every set, or writes
the ambient set. -/
theorem call_cases (op : CapCall) :
    (∃ e, c.call stray op = (.error e, c)) ∨
    (∃ (r : ℕ) (p e i : BitVec 32), Within (p.setWidth 64) c.permitted ∧ Within (e.setWidth 64) (p.setWidth 64) ∧
      c.call stray op = (.ok r, { c with
        permitted := p.setWidth 64
        effective := e.setWidth 64
        inheritable := i.setWidth 64
        ambient := c.ambient &&& (p.setWidth 64 &&& i.setWidth 64) })) ∨
    (∃ (r : ℕ) (m : BitVec 64), c.call stray op =
      (.ok r, ⟨c.bounding &&& m, c.ambient &&& m, c.permitted &&& m, c.effective &&& m, c.inheritable &&& m⟩)) ∨
    ∃ (r : ℕ) (a : BitVec 64), c.call stray op = (.ok r, { c with ambient := a }) ∧
      (Numbered op → Within c.ambient (c.permitted &&& c.inheritable) → Within a (c.permitted &&& c.inheritable)) := by
  cases op with
  | capset version data =>
    rw [call]
    split_ifs
    · exact .inl ⟨_, rfl⟩
    rcases updateCapabilities_cases _ _ _ with heq | ⟨hp, he, heq⟩ <;> rw [heq]
    · exact .inl ⟨_, rfl⟩
    · exact .inr (.inl ⟨0, _, _, _, hp, he, rfl⟩)
  | drop cap =>
    rw [call, dropBoundedCap]
    split_ifs
    · exact .inl ⟨_, rfl⟩
    · exact .inl ⟨_, rfl⟩
    · exact .inr (.inr (.inl ⟨0, _, rfl⟩))
  | ambient op cap =>
    cases op with
    | raise =>
      rw [call, ambientRaise, BitVec.and_comm]
      split_ifs with hmax hset
      · exact .inl ⟨_, rfl⟩
      · exact .inl ⟨_, rfl⟩
      · exact .inr (.inr (.inr ⟨0, _, rfl, fun hop h => h.or (within_of_inSet hop (by simpa using hset))⟩))
    | lower =>
      rw [call, ambientLower]
      split_ifs
      · exact .inl ⟨_, rfl⟩
      · exact .inr (.inr (.inr ⟨0, _, rfl, fun _ h => (Within.and_left ..).trans h⟩))
    | clearAll => exact .inr (.inr (.inr ⟨0, 0, rfl, fun _ _ => by simp [Within]⟩))
    | isSet | other => exact .inr (.inr (.inr ⟨_, c.ambient, rfl, fun _ h => h⟩))

theorem Low.call (h : Low c) (op : CapCall) (hop : Numbered op) : Low (c.call stray op).2 := by
  rcases @call_cases stray _ op with
    ⟨e, heq⟩ | ⟨r, p, e, i, hp, he, heq⟩ | ⟨r, m, heq⟩ | ⟨r, a, heq, ha⟩ <;> rw [heq]
  · exact h
  · exact ⟨he, .and_right .., within_setWidth p, within_setWidth i⟩
  · refine ⟨h.effective.mask m, ?_, (Within.and_left ..).trans h.permitted, (Within.and_left ..).trans h.inheritable⟩
    have ⟨hperm, hinh⟩ := Within.and_iff.1 h.ambient
    exact Within.and_iff.2 ⟨hperm.mask m, hinh.mask m⟩
  · exact { h with ambient := ha hop h.ambient }

theorem Low.contained (h : Low c) : Contained stray c where
  effective := h.effective
  ambient := h.ambient
  shrinks op := by
    rcases @call_cases stray _ op with
      ⟨e, heq⟩ | ⟨r, p, e, i, hp, he, heq⟩ | ⟨r, m, heq⟩ | ⟨r, a, heq, ha⟩ <;> rw [heq]
    · exact ⟨.rfl _, .rfl _⟩
    · exact ⟨hp, .rfl _⟩
    · exact ⟨.and_left .., .and_left ..⟩
    · exact ⟨.rfl _, .rfl _⟩
  failed op e := by
    rcases @call_cases stray _ op with
      ⟨e, heq⟩ | ⟨r, p, e, i, hp, he, heq⟩ | ⟨r, m, heq⟩ | ⟨r, a, heq, ha⟩ <;> rw [heq] <;> simp
  readBack version data hversion := by
    have hver : ¬ version < kCapabilityVersion2 := BitVec.not_lt.2 hversion
    have hne : version ≠ 0 := by
      rintro rfl
      exact hver (by decide)
    rw [Credential.call, if_neg hver, capget, if_neg hne]
    rw [setWidth_of_within h.permitted, setWidth_of_within h.inheritable,
      setWidth_of_within (h.effective.trans h.permitted), updateCapabilities]
    have hself (m : BitVec 64) : c.inheritable &&& ~~~(c.inheritable ||| m) = 0 := Within.or_left ..
    have hperm : c.permitted &&& ~~~c.permitted = 0 := Within.rfl _
    have heff : c.effective &&& ~~~c.permitted = 0 := h.effective
    simp [hself, hperm, heff, ne_eq, not_true_eq_false, and_false, h.ambient.and_eq]

/-- A program that first calls `capset`, and passes no negative number, has sets that only shrink, and that `capset`
takes back as `capget` gave them. -/
theorem capabilities_never_grow (stray : ℤ → BitVec 64) (version : BitVec 32) (data : CapUserData × CapUserData)
    (hversion : kCapabilityVersion2 ≤ version)
    (hdata : Within (data.1.effective.setWidth 64) (data.1.permitted.setWidth 64))
    (ops : List CapCall) (hops : ∀ op ∈ ops, Numbered op) :
    Contained stray (Run.exec (fun c op => (call stray c op).2) {} (.capset version data :: ops)) := by
  have hfirst : Low (call stray {} (.capset version data)).2 := by
    have hver : ¬ version < kCapabilityVersion2 := BitVec.not_lt.2 hversion
    have heff : data.1.effective.setWidth 64 &&& ~~~data.1.permitted.setWidth 64 = 0 := hdata
    have haccepted : (call stray {} (.capset version data)).2 =
        { permitted := data.1.permitted.setWidth 64
          effective := data.1.effective.setWidth 64
          inheritable := data.1.inheritable.setWidth 64
          ambient := ~~~0 &&& (data.1.permitted.setWidth 64 &&& data.1.inheritable.setWidth 64) } := by
      rw [call, if_neg hver, updateCapabilities]
      simp [heff]
    rw [haccepted]
    exact ⟨heff, .and_right .., within_setWidth _, within_setWidth _⟩
  have hstep : ∀ (c : Credential) op, Low c → Numbered op → Low (c.call stray op).2 := fun c op h hop => h.call op hop
  exact (Run.invariant_exec hstep hfirst (Run.admitted_of_mem (fun op hop _ => hops op hop) _)).contained

theorem capabilities_never_grow_none : Contained (fun _ => 0)
    (Run.exec (fun c op => (call (fun _ => 0) c op).2) {} [.capset 0x20080522 (⟨1, 1, 0⟩, ⟨0, 0, 0⟩), .drop 0]) :=
  capabilities_never_grow _ _ _ (by decide) (by decide) _ (by decide)

/-- The first credential has ambient capabilities that are not inheritable, and to write back the sets that were read
takes the upper half of the permitted ones away. -/
theorem capabilities_initially : ¬ Within ({} : Credential).ambient ({} : Credential).inheritable ∧
    (call (fun _ => 0) {} (.capset 0x20080522 (capget {} 0x20080522 (⟨0, 0, 0⟩, ⟨0, 0, 0⟩)).2)).2.permitted =
      0xffffffff := by
  decide

end Credential
end Junction
