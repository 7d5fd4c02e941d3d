import Junction.MemFsRuns

/-!
# What a rename takes away

An inode is reachable if names lead to it from the root. A rename takes away the inode that its new name
stood for, if this was its last name, and nothing else, unless it cuts off a whole directory: the one
that it replaces, or the moved one, when it is moved below itself.
-/

namespace Junction
open ParentTree Option

namespace MemFs
variable {t t' : MemFs}

inductive Reachable (t : MemFs) : ℕ → Prop
  | root : Reachable t 0
  | child {d e : ℕ} (hd : Reachable t d) (he : e ∈ (t.inodes d).dents) :
      Reachable t (t.entries e).inode

/-- A file may take the place of a file, and a directory that of an empty directory. -/
def MayReplace (t : MemFs) (old new : ℕ) : Prop :=
  (t.inodes old).isDir = false ∧ (t.inodes new).isDir = false ∨
    (t.inodes old).isDir = true ∧ (t.inodes old).dents = [] ∧ (t.inodes new).isDir = true

def HasOtherName (t : MemFs) (c : ℕ) : Prop :=
  (t.inodes (t.entries c).inode).isDir = false ∧
    ∃ x, (t.entries x).linked = true ∧ x ≠ c ∧ (t.entries x).inode = (t.entries c).inode

/-- No inode appears, and the only one that may be lost is the one that the new name stood for, if the
moved one may replace it. -/
def Spares (t t' : MemFs) (dst src : ℕ) (srcName dstName : String) : Prop :=
  (∀ i, t'.Reachable i → t.Reachable i) ∧
    ∀ i, t.Reachable i → ¬t'.Reachable i →
      (∃ c, t.findRaw dst dstName = some c ∧ (t.entries c).inode = i) ∧
        ∀ e, t.findRaw src srcName = some e → t.MayReplace i (t.entries e).inode

/-- What is asked of a rename: it spares what it does not replace, or changes nothing. -/
def RenameSpares (t : MemFs) (dst src : ℕ) (srcName dstName : String) :
    Status Unit × MemFs → Prop
  | (.ok _, t') => t.Spares t' dst src srcName dstName
  | (.error _, t') => t.Unchanged t'

/-- The new name is taken and may not be replaced; or the new directory is not below the moved entry,
and what is replaced may be replaced or has another name. -/
def RenameSafe (t : MemFs) (dst src : ℕ) (srcName dstName : String) (replace : Bool) : Prop :=
  ∀ e, t.findRaw src srcName = some e →
    (∃ c, t.findRaw dst dstName = some c ∧ c ≠ e ∧ replace = false) ∨
    (∀ p, (t.inodes dst).dent = some p → ¬Climbs t.parent p e) ∧
      ∀ c, t.findRaw dst dstName = some c → c ≠ e →
        t.MayReplace (t.entries c).inode (t.entries e).inode ∨ t.HasOtherName c

/-- One entry goes to another directory and at most one is gone. -/
structure Relinks (t t' : MemFs) (dst e : ℕ) (gone : Option ℕ) : Prop where
  inode : ∀ x, (t'.entries x).inode = (t.entries x).inode
  linked : ∀ x, (t'.entries x).linked = true ↔ (t.entries x).linked = true ∧ gone ≠ some x
  dents : ∀ d x, x ∈ (t'.inodes d).dents ↔
    (x ∈ (t.inodes d).dents ∧ gone ≠ some x) ∧ x ≠ e ∨ d = dst ∧ x = e

theorem Moves.relinks {dst p e : ℕ} {name : String} (hm : t.Moves t' dst p e name) : t.Relinks t' dst e none := by
  refine ⟨fun x => ?_, fun x => ?_, fun d x => ?_⟩
  · rw [hm.entries]
    split_ifs with hx
    · rw [hx]
    · rfl
  · rw [hm.entries]
    split_ifs with hx
    · simp [hx]
    · simp
  · simp [hm.dents]

theorem Detaches.relinks {t₁ : MemFs} {dst p e c : ℕ} {name : String} (hd : t.Detaches t₁ c)
    (hm : t₁.Moves t' dst p e name) : t.Relinks t' dst e (some c) := by
  obtain ⟨hinode, hlinked, hdents⟩ := hm.relinks
  have hne : ∀ x, some c ≠ some x ↔ x ≠ c := fun x => by
    rw [Ne, some_inj]
    exact ne_comm
  refine ⟨fun x => ?_, fun x => ?_, fun d x => ?_⟩
  · rw [hinode, hd.entries]
    split_ifs with hx
    · rw [hx]
    · rfl
  · rw [hlinked, hd.entries, hne]
    split_ifs with hx
    · simp [hx]
    · simp [hx]
  · rw [hdents, hd.dents, hne]
    simp

theorem Moved.relinks {dst p e : ℕ} {name : String} {overwrite : Bool}
    (hm : t.Moved dst p e name overwrite (.ok (), t')) : ∃ gone, t.Relinks t' dst e gone ∧
      (∀ c, gone = some c ↔ t.findRaw dst name = some c ∧ c ≠ e) ∧
      ∀ c, gone = some c → overwrite := by
  cases hm with
  | moved hfree hmove =>
    refine ⟨none, hmove.relinks, fun c => ⟨nofun, fun hc => ?_⟩, nofun⟩
    exact absurd (hfree c hc.1) hc.2
  | @replaced c _ _ hc hne hover hdetach hmove =>
    refine ⟨some c, hdetach.relinks hmove, fun c' => ⟨fun hc' => ?_, fun hc' => ?_⟩, fun _ _ => hover⟩
    · obtain rfl := some.inj hc'
      exact ⟨hc, hne⟩
    · exact hc.symm.trans hc'.1

namespace TreeInv
variable (h : t.TreeInv)
include h

theorem reachable_of_inTree {x : ℕ} (hx : t.InTree x) : t.Reachable (t.entries x).inode := by
  have hclimb := h.climbs_of_inTree hx
  induction hclimb using Relation.ReflTransGen.head_induction_on with
  | refl =>
    rw [h.root_entry.1]
    exact .root
  | @head x y hxy _ ih =>
    rcases hx with hlinked | rfl
    · obtain ⟨p, hp, hmem⟩ := h.linked_mem x hlinked
      obtain rfl : p = y := some.inj (hp.symm.trans hxy)
      exact .child (ih (h.parent_inTree hp)) hmem
    · rw [h.root_entry.1]
      exact .root

theorem reachable_iff {i : ℕ} : t.Reachable i ↔ ∃ x, t.InTree x ∧ (t.entries x).inode = i := by
  constructor
  · intro hi
    cases hi with
    | root => exact ⟨0, .inr rfl, h.root_entry.1⟩
    | child _ he => exact ⟨_, .inl (h.dents_mem _ _ he).2.1, rfl⟩
  · rintro ⟨x, hx, rfl⟩
    exact h.reachable_of_inTree hx

theorem findRaw_linked {d e : ℕ} {name : String} (he : t.findRaw d name = some e) :
    (t.entries e).linked := (h.dents_mem _ _ (findRaw_eq_some he).1).2.1

/-- The directory that another one is moved into is a directory; so what it is below is one, too. -/
theorem dir_of_climbs {x e : ℕ} (hx : (t.inodes (t.entries x).inode).kind = .directory)
    (hclimb : Climbs t.parent x e) : (t.inodes (t.entries e).inode).kind = .directory := by
  induction hclimb with
  | refl => exact hx
  | @tail y z _ hyz ih =>
    rcases h.parent_linked hyz with hlinked | ⟨_, rfl⟩
    · obtain ⟨q, hq, hmem⟩ := h.linked_mem y hlinked
      rw [← some.inj (hq.symm.trans hyz)]
      exact (h.dents_mem _ _ hmem).1
    · rw [h.root_entry.1]
      exact h.root_dir

theorem dents_eq_nil_of_replace {c e : ℕ}
    (hreplace : t.MayReplace (t.entries c).inode (t.entries e).inode ∨ t.HasOtherName c) :
    (t.inodes (t.entries c).inode).dents = [] := by
  have hfile : (t.inodes (t.entries c).inode).isDir = false → (t.inodes (t.entries c).inode).dents = [] := fun hf =>
    h.dents_eq_nil (by simpa [Inode.isDir] using hf)
  rcases hreplace with (⟨hf, _⟩ | ⟨_, hnil, _⟩) | ⟨hf, _⟩
  · exact hfile hf
  · exact hnil
  · exact hfile hf

section Relinks
variable {dst src e p : ℕ} {srcName dstName : String} {gone : Option ℕ}
  (hr : t.Relinks t' dst e gone)
  (hgone : ∀ c, gone = some c ↔ t.findRaw dst dstName = some c ∧ c ≠ e)
include hgone

theorem gone_ne_root : gone ≠ some 0 := fun hx =>
  h.ne_zero_of_linked (h.findRaw_linked ((hgone 0).1 hx).1) rfl

include hr

theorem relinks_inTree (x : ℕ) : t'.InTree x ↔ t.InTree x ∧ gone ≠ some x := by
  have hzero : x = 0 → gone ≠ some x := by
    rintro rfl
    exact h.gone_ne_root hgone
  simp only [InTree, hr.linked]
  tauto

/-- What is reachable afterwards has an entry that is not gone. If the new directory was below the moved
entry, neither this entry nor anything below it is reachable. -/
theorem relinks_reachable (he : (t.entries e).linked)
    (hdst : (t.inodes dst).kind = .directory) (hdent : (t.inodes dst).dent = some p) {i : ℕ}
    (hi : t'.Reachable i) : ∃ x, t.InTree x ∧ gone ≠ some x ∧ (t.entries x).inode = i ∧
      (Climbs t.parent p e → ¬Climbs t.parent x e) := by
  induction hi with
  | root =>
    refine ⟨0, .inr rfl, h.gone_ne_root hgone, h.root_entry.1, fun _ hclimb => ?_⟩
    exact h.ne_zero_of_linked he (Climbs.eq_root h.root_entry.2.1 hclimb)
  | @child d y _ hy ih =>
    obtain ⟨x, hx, _, rfl, hbelow⟩ := ih
    rcases (hr.dents _ y).1 hy with ⟨⟨hmem, hleft⟩, hne⟩ | ⟨hd, rfl⟩
    · obtain ⟨hdir, hlinked, -⟩ := h.dents_mem _ _ hmem
      refine ⟨y, .inl hlinked, hleft, (hr.inode y).symm, fun hpe hye => ?_⟩
      obtain ⟨q, hq, hqd, -⟩ := h.mem_dents hmem
      rw [h.dir_entry x hx hdir] at hqd
      rcases hye.cases with heq | ⟨z, hz, hze⟩
      · exact hne heq
      · rw [← some.inj (hq.symm.trans hz), ← some.inj hqd] at hze
        exact hbelow hpe hze
    refine ⟨y, .inl he, fun hy => ((hgone y).1 hy).2 rfl, (hr.inode y).symm, fun hpe =>
      absurd hpe ?_⟩
    have hxd := h.dir_entry x hx (hd ▸ hdst)
    rw [hd, hdent] at hxd
    obtain rfl := some.inj hxd
    exact hbelow hpe

section Found
variable (he : t.findRaw src srcName = some e) (hdst : (t.inodes dst).kind = .directory)
  (hdent : (t.inodes dst).dent = some p)
include he hdst hdent

theorem not_below_of_spares (hspares : t.Spares t' dst src srcName dstName) : ¬Climbs t.parent p e := by
  intro hpe
  have hlinked := h.findRaw_linked he
  obtain ⟨_, hpd, _⟩ := h.dent_spec hdst hdent
  have hdir := h.dir_of_climbs (hpd.symm ▸ hdst) hpe
  have hlost : ¬t'.Reachable (t.entries e).inode := by
    intro hi
    obtain ⟨x, hx, _, hinode, hbelow⟩ := h.relinks_reachable hr hgone hlinked hdst hdent hi
    obtain rfl := h.entry_unique hx (.inl hlinked) hinode (hinode.symm ▸ hdir)
    exact hbelow hpe (Climbs.refl x)
  obtain ⟨⟨c, hc, hinode⟩, -⟩ := hspares.2 _ (h.reachable_of_inTree (.inl hlinked)) hlost
  obtain ⟨hcmem, -⟩ := findRaw_eq_some hc
  obtain ⟨_, hclinked, hparent, _⟩ := h.dents_mem _ _ hcmem
  obtain rfl := h.entry_unique (.inl hclinked) (.inl hlinked) hinode (hinode.symm ▸ hdir)
  exact h.not_climbs_of_parent hlinked (hparent.trans hdent) hpe

theorem mayReplace_of_spares (hspares : t.Spares t' dst src srcName dstName) (c : ℕ) (hc : gone = some c) :
    t.MayReplace (t.entries c).inode (t.entries e).inode ∨ t.HasOtherName c := by
  have hlinked := h.findRaw_linked he
  have hclinked := h.findRaw_linked ((hgone c).1 hc).1
  by_cases hother : t.HasOtherName c
  · exact .inr hother
  refine .inl ((hspares.2 _ (h.reachable_of_inTree (.inl hclinked)) fun hi => hother ?_).2 e he)
  obtain ⟨x, hx, hleft, hinode, -⟩ := h.relinks_reachable hr hgone hlinked hdst hdent hi
  have hxc : x ≠ c := by
    rintro rfl
    exact hleft hc
  have hfile : (t.inodes (t.entries c).inode).kind ≠ .directory := fun hdir =>
    hxc (h.entry_unique hx (.inl hclinked) hinode (hinode.symm ▸ hdir))
  refine ⟨by simpa [Inode.isDir] using hfile, x, ?_, hxc, hinode⟩
  rcases hx with hxlinked | rfl
  · exact hxlinked
  · rw [← hinode, h.root_entry.1] at hfile
    exact absurd h.root_dir hfile

omit hdst hdent in
theorem spares_of_treeInv (h' : t'.TreeInv) (hreplace : ∀ c, gone = some c →
      t.MayReplace (t.entries c).inode (t.entries e).inode ∨ t.HasOtherName c) :
    t.Spares t' dst src srcName dstName := by
  have hin := h.relinks_inTree hr hgone
  constructor
  · intro i hi
    obtain ⟨x, hx, rfl⟩ := h'.reachable_iff.1 hi
    rw [hr.inode]
    exact h.reachable_of_inTree ((hin x).1 hx).1
  intro i hi hlost
  have hall : ∀ x, t.InTree x → (t.entries x).inode = i → gone = some x := by
    intro x hx hxi
    by_contra hleft
    refine hlost (h'.reachable_iff.2 ⟨x, (hin x).2 ⟨hx, hleft⟩, ?_⟩)
    rw [hr.inode, hxi]
  obtain ⟨x, hx, rfl⟩ := h.reachable_iff.1 hi
  have hxc := hall x hx rfl
  refine ⟨⟨x, ((hgone x).1 hxc).1, rfl⟩, fun e' he' => ?_⟩
  obtain rfl : e = e' := some.inj (he.symm.trans he')
  rcases hreplace x hxc with hmay | ⟨_, y, hy, hyx, hinode⟩
  · exact hmay
  · exact absurd (some.inj ((hall y (.inl hy) hinode).symm.trans hxc)) hyx

end Found
end Relinks

/-- A rename spares what it does not replace exactly if it is safe. -/
theorem rename_spares_iff {dst src : ℕ} (hdst : t.Live dst) (hsrc : (t.inodes src).idirType = .kMem)
    (srcName dstName : String) (replace : Bool) :
    t.RenameSpares dst src srcName dstName (t.rename dst src srcName dstName replace) ↔
      t.RenameSafe dst src srcName dstName replace := by
  obtain ⟨p, hp⟩ := h.live_dent hdst.1 hdst.2
  unfold MemFs.rename
  rw [if_neg (not_not.2 hsrc)]
  cases hfind : t.findRaw src srcName with
  | none =>
    simp only [moveFrom, hfind, RenameSpares, RenameSafe]
    exact ⟨by simp, fun _ => Unchanged.refl t⟩
  | some e =>
    have hm := h.moveFrom_moved dstName replace hfind hp
    generalize t.moveFrom dst src srcName dstName replace = r at hm ⊢
    have hsafe : t.RenameSafe dst src srcName dstName replace ↔
        (∃ c, t.findRaw dst dstName = some c ∧ c ≠ e ∧ replace = false) ∨
        ¬Climbs t.parent p e ∧ ∀ c, t.findRaw dst dstName = some c → c ≠ e →
          t.MayReplace (t.entries c).inode (t.entries e).inode ∨ t.HasOtherName c := by
      simp [RenameSafe, hfind, hp, some.injEq, forall_eq']
    rw [hsafe]
    rcases r with ⟨answer, t'⟩
    cases hanswer : answer with
    | error error =>
      subst hanswer
      cases hm with
      | refused hc hne hover hsame => exact ⟨fun _ => .inl ⟨_, hc, hne, hover⟩, fun _ => hsame⟩
    | ok =>
      subst hanswer
      obtain ⟨gone, hr, hgone, hover⟩ := hm.relinks
      constructor
      · intro hspares
        refine .inr ⟨h.not_below_of_spares hr hgone hfind hdst.1 hp hspares, fun c hc hne => ?_⟩
        exact h.mayReplace_of_spares hr hgone hfind hdst.1 hp hspares c ((hgone c).2 ⟨hc, hne⟩)
      rintro (⟨c, hc, hne, hfalse⟩ | ⟨hbelow, hreplace⟩)
      · rw [hover c ((hgone c).2 ⟨hc, hne⟩)] at hfalse
        cases hfalse
      have h' : t'.TreeInv := h.moved hdst.1 hp (findRaw_eq_some hfind).1 hbelow
        (fun c hc hne _ => h.dents_eq_nil_of_replace (hreplace c hc hne)) hm
      exact h.spares_of_treeInv hr hgone hfind h' fun c hc =>
        hreplace c ((hgone c).1 hc).1 ((hgone c).1 hc).2

end TreeInv
end MemFs

def twoFiles : MemFs :=
  Run.exec (Run.next FsCall.run) MemFs.init [.create 0 "f" true, .create 0 "g" true]

theorem rename_spares_iff_twoFiles : twoFiles.TreeInv ∧ twoFiles.Live 0 ∧
    (twoFiles.rename 0 0 "f" "g" true).1 = .ok () ∧
    twoFiles.RenameSpares 0 0 "f" "g" (twoFiles.rename 0 0 "f" "g" true) := by
  have h : twoFiles.TreeInv := Run.invariant_exec FsCall.run_treeInv MemFs.treeInv_init
    ⟨⟨rfl, rfl⟩, ⟨rfl, by decide⟩, trivial⟩
  have hlive : twoFiles.Live 0 := ⟨rfl, by decide⟩
  refine ⟨h, hlive, by decide, (h.rename_spares_iff hlive (by decide) "f" "g" true).2 fun e he => ?_⟩
  obtain rfl : 1 = e := some.inj ((show twoFiles.findRaw 0 "f" = some 1 by decide).symm.trans he)
  refine .inr ⟨fun p hp hclimb => ?_, fun c hc _ => .inl (.inl ?_)⟩
  · obtain rfl : 0 = p := some.inj hp
    exact absurd (Climbs.eq_root h.root_entry.2.1 hclimb) (by decide)
  · obtain rfl : 2 = c := some.inj ((show twoFiles.findRaw 0 "g" = some 2 by decide).symm.trans hc)
    decide

def twoDirs : MemFs :=
  Run.exec (Run.next FsCall.run) MemFs.init [.mkDir 0 "a", .mkDir 0 "b", .create 2 "f" true]

/-- A rename over a directory that holds a file loses the file, too. -/
theorem rename_loses_file : twoDirs.TreeInv ∧ twoDirs.Live 0 ∧
    (twoDirs.rename 0 0 "a" "b" true).1 = .ok () ∧ twoDirs.Reachable 3 ∧
    ¬(twoDirs.rename 0 0 "a" "b" true).2.Reachable 3 ∧
    twoDirs.findRaw 0 "b" = some 2 ∧ (twoDirs.entries 2).inode = 2 := by
  have h : twoDirs.TreeInv := Run.invariant_exec FsCall.run_treeInv MemFs.treeInv_init
    ⟨⟨rfl, rfl⟩, ⟨rfl, by decide⟩, ⟨rfl, by decide⟩, trivial⟩
  have hsub : twoDirs.Reachable 2 := .child (e := 2) .root (by decide)
  have hfile : twoDirs.Reachable 3 := .child (e := 3) hsub (by decide)
  refine ⟨h, ⟨rfl, by decide⟩, by decide, hfile, fun hlost => ?_, by decide, by decide⟩
  have hroot : ((twoDirs.rename 0 0 "a" "b" true).2.inodes 0).dents = [1] := by decide
  have hempty : ((twoDirs.rename 0 0 "a" "b" true).2.inodes 1).dents = [] := by decide
  have hall : ∀ i, (twoDirs.rename 0 0 "a" "b" true).2.Reachable i → i = 0 ∨ i = 1 := by
    intro i hi
    induction hi with
    | root => exact .inl rfl
    | child _ he ih =>
      rcases ih with rfl | rfl
      · rw [hroot, List.mem_singleton] at he
        subst he
        exact .inr (by decide)
      · rw [hempty] at he
        cases he
  rcases hall 3 hlost with heq | heq <;> cases heq

end Junction
