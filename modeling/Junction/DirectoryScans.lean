import Junction.Base
import Junction.Library.Run

/-!
# Scans of a directory

`DoDirent` lists the directory anew on every call and goes on at a position of that list. Names that come or go before
the position shift it: entries are skipped or given twice.
-/

namespace Junction
open List

/-- The names of a directory in the order of its set of entries. -/
abbrev Dents := { l : List String // l.Pairwise (· < ·) }

/-- `DirentToDent` and `DirentToDent64` have headers of the same size and alignment. -/
def direntSize (name : String) : ℕ := (24 + name.utf8ByteSize + 1 + 7) / 8 * 8

/-- The records that go into `out` bytes. -/
def records : List String → ℕ → List String
  | [], _ => []
  | name :: ents, out =>
    if direntSize name > out then [] else name :: records ents (out - direntSize name)

/-- A scan: the directory, the position and the names that were returned so far. -/
structure DirScan where
  dents : Dents
  off : ℕ
  returned : List String

inductive ScanOp
  | getdents (count : ℕ)
  /-- Other entries are created, removed and renamed. -/
  | change (dents : Dents)

namespace DirScan
variable (s : DirScan)

def doDirent (count : ℕ) : Status ℕ × DirScan :=
  let got := records (s.dents.1.drop s.off) count
  if got = [] ∧ s.off < s.dents.1.length then (.error .EINVAL, s)
  else (.ok (got.map direntSize).sum, { s with off := s.off + got.length, returned := s.returned ++ got })

def step : ScanOp → DirScan
  | .getdents count => (s.doDirent count).2
  | .change dents => { s with dents }

/-- Only names after those that were returned come or go. -/
def Behind : ScanOp → Prop
  | .getdents _ => True
  | .change dents => ∀ name, (∀ r ∈ s.returned, r < name) ∨ (name ∈ dents.1 ↔ name ∈ s.dents.1)

structure Scanned : Prop where
  off : s.off = s.returned.length
  dents : s.returned <+: s.dents.1

variable {s}

theorem records_prefix (ents : List String) (out : ℕ) : records ents out <+: ents := by
  induction ents generalizing out with
  | nil => exact nil_prefix
  | cons name ents ih =>
    unfold records
    split_ifs
    · exact nil_prefix
    · exact (prefix_cons_inj name).2 (ih _)

theorem Scanned.step {op : ScanOp} (h : s.Scanned) (hop : s.Behind op) : (s.step op).Scanned := by
  obtain ⟨rest, hrest⟩ := h.dents
  cases op with
  | getdents count =>
    dsimp only [DirScan.step, doDirent]
    split_ifs
    · exact h
    · refine ⟨by simp [h.off], ?_⟩
      simpa [h.off, ← hrest] using records_prefix rest count
  | change dents =>
    have hsorted := s.dents.2
    rw [← hrest, pairwise_append] at hsorted
    obtain ⟨hreturned, -, habove⟩ := hsorted
    have hlater : s.returned ++ dents.1.filter (fun name => ∀ r ∈ s.returned, r < name) = dents.1 := by
      refine Pairwise.eq_of_mem_iff (pairwise_append.2 ⟨hreturned, dents.2.filter _, ?_⟩) dents.2 fun name => ?_
      · intro r hr name hname
        exact of_decide_eq_true (mem_filter.1 hname).2 r hr
      simp only [mem_append, mem_filter, decide_eq_true_eq]
      have hmem : name ∈ s.dents.1 ↔ name ∈ s.returned ∨ name ∈ rest := by rw [← hrest, mem_append]
      have hbefore : name ∈ s.returned → ¬ ∀ r ∈ s.returned, r < name := fun hname h =>
        String.lt_irrefl name (h name hname)
      have hafter : name ∈ rest → ∀ r ∈ s.returned, r < name := fun hname r hr => habove r hr name hname
      have hchange := hop name
      tauto
    exact ⟨h.off, _, hlater⟩

/-- A call returns no bytes at the end of the listing only. -/
theorem length_le_of_doDirent {count : ℕ} (hend : (s.doDirent count).1 = .ok 0) : s.dents.1.length ≤ s.off := by
  by_contra hlt
  dsimp only [doDirent] at hend
  split_ifs at hend with hnone
  cases hgot : records (s.dents.1.drop s.off) count with
  | nil => exact hnone ⟨hgot, by omega⟩
  | cons name rest =>
    have hpos : 0 < direntSize name := by
      unfold direntSize
      omega
    simp [hgot, hpos.ne'] at hend

def scan (dents : Dents) (ops : List ScanOp) : DirScan := Run.exec step ⟨dents, 0, []⟩ ops

/-- A scan during which no name comes or goes before its position returns every name that is there at its end once. -/
theorem scan_exact (dents : Dents) (ops : List ScanOp) (count : ℕ)
    (hops : Run.Admitted step Behind ⟨dents, 0, []⟩ ops) (hend : ((scan dents ops).doDirent count).1 = .ok 0) :
    ∀ name ∈ (scan dents ops).dents.1, (scan dents ops).returned.count name = 1 := by
  have h : (scan dents ops).Scanned := Run.invariant_exec (fun _ _ h hop => h.step hop) ⟨rfl, nil_prefix⟩ hops
  have hall := h.dents.eq_of_length_le (h.off ▸ length_le_of_doDirent hend)
  intro name hname
  rw [hall]
  exact count_eq_one_of_mem (Pairwise.nodup (Subtype.prop _)) hname

def twoNames : Dents := ⟨["a", "b"], by decide⟩

theorem scan_exact_two : (scan twoNames [.getdents 64]).returned.count "b" = 1 :=
  scan_exact twoNames [.getdents 64] 64 ⟨trivial, trivial⟩ (by decide +kernel) "b" (by decide +kernel)

/-- A record is read and its entry removed. -/
theorem scan_skips : let s := scan twoNames [.getdents 32, .change ⟨["b"], by decide⟩]
    (s.doDirent 32).1 = .ok 0 ∧ "b" ∈ s.dents.1 ∧ s.returned = ["a"] := by
  decide +kernel

end DirScan
end Junction
