import Junction.Library.Run
import Junction.MemFs

/-!
# Operations as changes of the namespace

Linking an inode is an attachment and unlinking an entry a detachment. `MoveFrom` takes the entry out
of its directory, detaches what the new name stands for and moves the entry; without leave to
overwrite it puts the entry back.
-/

namespace Junction.MemFs
open ParentTree Inode
variable {t : MemFs} {d e : ℕ} {name : String}

theorem findRaw_eq_some (he : t.findRaw d name = some e) : e ∈ (t.inodes d).dents ∧ (t.entries e).name = name :=
  ⟨List.mem_of_find?_eq_some he, by simpa using List.find?_some he⟩

theorem findRaw_eq_none (he : t.findRaw d name = none) : ∀ e ∈ (t.inodes d).dents, (t.entries e).name ≠ name := by
  simpa [findRaw] using he

variable {p i : ℕ}

theorem inodes_linkEntry (name : String) (hdent : (t.inodes d).dent = some p)
    (hne : i ≠ d) (j : ℕ) : (t.linkEntry d name i).inodes j =
      if j = d then insertDent t.nextEntry (t.inodes d)
      else if j = i then incNlink (t.inodes i) else t.inodes j := by
  simp only [linkEntry, modifyInode, setEntry, hdent, Option.isSome_some, if_true]
  by_cases hd : j = d
  · simp [hd, hne.symm]
  · by_cases hi : j = i <;> simp [hd, hi, hne]

theorem entries_linkEntry (name : String) (i : ℕ) (hdent : (t.inodes d).dent = some p)
    (j : ℕ) : (t.linkEntry d name i).entries j =
      if j = t.nextEntry then ⟨name, i, some p, true⟩ else t.entries j := by
  simp [linkEntry, modifyInode, setEntry, hdent, Option.isSome_some]

theorem next_linkEntry (d : ℕ) (name : String) (i : ℕ) : (t.linkEntry d name i).nextEntry = t.nextEntry + 1 ∧
      (t.linkEntry d name i).nextInode = t.nextInode := by
  unfold linkEntry
  constructor <;> dsimp only [modifyInode] <;> split_ifs <;> rfl

theorem inodes_unlinkAndDispose (hsome : (t.entries e).parent.isSome)
    (hne : (t.entries e).inode ≠ d) (j : ℕ) : (t.unlinkAndDispose d e).inodes j =
      if j = d then eraseDent e (t.inodes d)
      else if j = (t.entries e).inode then resetDent (decNlink (t.inodes j))
      else t.inodes j := by
  simp only [unlinkAndDispose, modifyInode, setEntry, hsome, if_true]
  by_cases hd : j = d
  · simp [hd, hne.symm]
  · by_cases hi : j = (t.entries e).inode <;> simp [hd, hi, hne]

theorem entries_unlinkAndDispose (d e j : ℕ) : (t.unlinkAndDispose d e).entries j =
    if j = e then { t.entries e with parent := none, linked := false } else t.entries j := by
  simp only [unlinkAndDispose, modifyInode, setEntry]
  split_ifs <;> rfl

theorem modifyInode_comm {f g : Inode → Inode} (hfg : ∀ x, f (g x) = g (f x)) (i k : ℕ) :
    (t.modifyInode k g).modifyInode i f = (t.modifyInode i f).modifyInode k g := by
  refine MemFs.ext rfl (funext fun j => ?_) rfl rfl
  simp only [modifyInode]
  split_ifs
  · exact hfg _
  · rfl
  · rfl
  · rfl

theorem unlinkAndDispose_eraseDent (src dst e c : ℕ) : (t.modifyInode src (eraseDent e)).unlinkAndDispose dst c =
      (t.unlinkAndDispose dst c).modifyInode src (eraseDent e) := by
  have hdec : ∀ i : Inode, (i.eraseDent e).decNlink = i.decNlink.eraseDent e := fun _ => rfl
  have hreset : ∀ i : Inode, (i.eraseDent e).resetDent = i.resetDent.eraseDent e := by
    intro i
    unfold resetDent eraseDent
    split_ifs <;> simp_all [isDir]
  have herase : ∀ i : Inode, (i.eraseDent e).eraseDent c = (i.eraseDent c).eraseDent e := by
    intro i
    simp [eraseDent, List.filter_filter, Bool.and_comm]
  have hentry : ∀ (t : MemFs) (x : DirectoryEntry), (t.modifyInode src (eraseDent e)).setEntry c x =
      (t.setEntry c x).modifyInode src (eraseDent e) := fun _ _ => rfl
  have hentries : (t.modifyInode src (eraseDent e)).entries = t.entries := rfl
  by_cases hsome : (t.entries c).parent.isSome
  · simp only [unlinkAndDispose, hentries, if_pos hsome]
    rw [modifyInode_comm hdec, hentry, modifyInode_comm hreset, modifyInode_comm herase]
  · simp only [unlinkAndDispose, hentries, if_neg hsome]
    rw [hentry, modifyInode_comm hreset, modifyInode_comm herase]

namespace TreeInv
variable (h : t.TreeInv)
include h

theorem linkEntry (hdir : (t.inodes d).kind = .directory)
    (hdent : (t.inodes d).dent = some p) (hname : t.findRaw d name = none)
    (hi : (t.inodes i).kind ≠ .directory) (hlt : i < t.nextInode) : (t.linkEntry d name i).TreeInv := by
  have hne : i ≠ d := by
    rintro rfl
    exact hi hdir
  have hinodes := inodes_linkEntry name hdent hne
  obtain ⟨hentry, hinode⟩ := next_linkEntry d name i
  have hnew : (t.linkEntry d name i).inodes i = incNlink (t.inodes i) := by
    rw [hinodes, if_neg hne, if_pos rfl]
  refine h.attach hdir hdent (findRaw_eq_none hname) ⟨entries_linkEntry name i hdent, hentry, hne, hi,
    ?_, fun j hj hji => ?_, hinode.ge, fun j hj => ?_, hinode ▸ hlt, ?_, fun hk => ?_⟩
  · rw [hinodes, if_pos rfl]
  · rw [hinodes, if_neg hj, if_neg hji]
  · rw [hinode] at hj
    have hfresh := h.fresh_inode j hj
    have hjd : j ≠ d := by
      rintro rfl
      exact hfresh hdir
    rw [hinodes, if_neg hjd, if_neg (by omega)]
    exact hfresh
  · rw [hnew]
    exact h.dents_eq_nil hi
  · rw [hnew] at hk
    exact absurd hk hi

theorem allocInode_linkEntry {x : Inode} (hdir : (t.inodes d).kind = .directory) (hdent : (t.inodes d).dent = some p)
    (hname : t.findRaw d name = none) (hnil : x.dents = [])
    (hdirectory : x.kind = .directory → x.nlink = 0 ∧ x.dent = some t.nextEntry) :
    ((t.allocInode x).linkEntry d name t.nextInode).TreeInv := by
  have hne : t.nextInode ≠ d := by
    rintro rfl
    exact h.fresh_inode _ (Nat.le_refl _) hdir
  have halloc : ∀ j, (t.allocInode x).inodes j = if j = t.nextInode then x else t.inodes j := fun _ => rfl
  have hdent' : ((t.allocInode x).inodes d).dent = some p := by
    rw [halloc, if_neg hne.symm, hdent]
  have hinodes := inodes_linkEntry name hdent' hne
  obtain ⟨hentry, hinode⟩ := next_linkEntry d name t.nextInode
  have hnew : ((t.allocInode x).linkEntry d name t.nextInode).inodes t.nextInode = incNlink x := by
    rw [hinodes, if_neg hne, if_pos rfl, halloc, if_pos rfl]
  have hnext : (t.allocInode x).nextInode = t.nextInode + 1 := rfl
  refine h.attach hdir hdent (findRaw_eq_none hname) ⟨entries_linkEntry name _ hdent', hentry, hne,
    h.fresh_inode _ (Nat.le_refl _), ?_, fun j hj hji => ?_, by omega, fun j hj => ?_, by omega, ?_,
    fun hk => ?_⟩
  · rw [hinodes, if_pos rfl, halloc, if_neg hne.symm]
    rfl
  · rw [hinodes, if_neg hj, if_neg hji, halloc, if_neg hji]
  · have hfresh := h.fresh_inode j (by omega)
    have hjd : j ≠ d := by
      rintro rfl
      exact hfresh hdir
    rw [hinodes, if_neg hjd, if_neg (by omega), halloc, if_neg (by omega)]
    exact hfresh
  · rw [hnew]
    exact hnil
  rw [hnew] at hk ⊢
  obtain ⟨hlink, hent⟩ := hdirectory hk
  refine ⟨?_, hent, fun e he heq => absurd (h.inode_lt e he) (by omega)⟩
  simp [incNlink, hlink]

theorem unlinkAndDispose_detaches (he : e ∈ (t.inodes d).dents) : t.Detaches (t.unlinkAndDispose d e) e := by
  obtain ⟨p, hp, -⟩ := h.mem_dents he
  have hsome : (t.entries e).parent.isSome := by
    simp [show (t.entries e).parent = some p from hp]
  have hne := h.inode_ne_of_mem he
  have hinodes := inodes_unlinkAndDispose hsome hne
  have hreset : ∀ i : Inode, (resetDent i.decNlink).kind = i.kind ∧
      (resetDent i.decNlink).dents = i.dents ∧
      (resetDent i.decNlink).nlink = i.nlink - 1 := by
    intro i
    unfold resetDent
    split_ifs <;> exact ⟨rfl, rfl, rfl⟩
  refine ⟨entries_unlinkAndDispose d e, ?_, ?_, fun j => ?_, fun j x => ?_, fun j hj => ?_, fun hk => ?_⟩
  · simp only [unlinkAndDispose, hsome]
    rfl
  · simp only [unlinkAndDispose, hsome]
    rfl
  · rw [hinodes]
    split_ifs with hd hi
    · rw [hd]
      rfl
    · exact (hreset _).1
    · rfl
  · rw [hinodes]
    have hother : j ≠ d → x ∈ (t.inodes j).dents → x ≠ e := by
      rintro hd hx rfl
      exact hd (h.dents_unique hx he)
    split_ifs with hd hi
    · simp [hd, eraseDent]
    · rw [(hreset _).2.1]
      exact ⟨fun hx => ⟨hx, hother hd hx⟩, And.left⟩
    · exact ⟨fun hx => ⟨hx, hother hd hx⟩, And.left⟩
  · rw [hinodes, if_neg hj]
    split_ifs with hd
    · rw [hd]
      exact ⟨rfl, rfl⟩
    · exact ⟨rfl, rfl⟩
  · rw [hinodes, if_neg hne, if_pos rfl]
    refine ⟨(hreset _).2.2, ?_⟩
    simp [resetDent, decNlink, isDir, hk]

theorem unlinkAndDispose (he : e ∈ (t.inodes d).dents)
    (hempty : (t.inodes (t.entries e).inode).dents = []) : (t.unlinkAndDispose d e).TreeInv :=
  h.detach (h.dents_mem d e he).2.1 hempty (h.unlinkAndDispose_detaches he)

end TreeInv

structure Unchanged (t t' : MemFs) : Prop where
  entries : t'.entries = t.entries
  next : t'.nextEntry = t.nextEntry ∧ t'.nextInode = t.nextInode
  inodes : ∀ j, (t'.inodes j).kind = (t.inodes j).kind ∧
    (t'.inodes j).nlink = (t.inodes j).nlink ∧ (t'.inodes j).dent = (t.inodes j).dent
  dents : ∀ j x, x ∈ (t'.inodes j).dents ↔ x ∈ (t.inodes j).dents

theorem Unchanged.refl (t : MemFs) : t.Unchanged t := ⟨rfl, ⟨rfl, rfl⟩, fun _ => ⟨rfl, rfl, rfl⟩, fun _ _ => Iff.rfl⟩

variable {src : ℕ}

theorem mem_dents_eraseDent (huniq : ∀ j, e ∈ (t.inodes j).dents → j = src) (j x : ℕ) :
    x ∈ ((t.modifyInode src (eraseDent e)).inodes j).dents ↔ x ∈ (t.inodes j).dents ∧ x ≠ e := by
  by_cases hsrc : j = src
  · simp [modifyInode, hsrc, eraseDent]
  simp only [modifyInode, if_neg hsrc]
  refine ⟨fun hx => ⟨hx, ?_⟩, And.left⟩
  rintro rfl
  exact hsrc (huniq j hx)

variable {dst : ℕ}

theorem commitMove_moves (name : String)
    (huniq : ∀ j, e ∈ (t.inodes j).dents → j = src) (hdent : (t.inodes dst).dent = some p) :
    t.Moves ((t.modifyInode src (eraseDent e)).commitMove dst e name) dst p e name := by
  have hdent' : ((t.modifyInode src (eraseDent e)).inodes dst).dent = some p := by
    simp only [modifyInode]
    split_ifs <;> exact hdent
  refine ⟨fun j => ?_, rfl, rfl, fun j => ?_, fun j x => ?_⟩
  · simp only [commitMove, hdent']
    rfl
  · simp only [commitMove, modifyInode, setEntry]
    split_ifs <;> exact ⟨rfl, rfl, rfl⟩
  rw [← mem_dents_eraseDent huniq]
  by_cases hdst : j = dst
  · subst hdst
    simp [commitMove, modifyInode, setEntry, insertDent, or_comm]
  · simp [commitMove, modifyInode, setEntry, hdst]

theorem reinsert_unchanged (he : e ∈ (t.inodes src).dents) (huniq : ∀ j, e ∈ (t.inodes j).dents → j = src) : t.Unchanged
      ((t.modifyInode src (eraseDent e)).modifyInode src (insertDent e)) := by
  refine ⟨rfl, ⟨rfl, rfl⟩, fun j => ?_, fun j x => ?_⟩
  · simp only [modifyInode]
    split_ifs <;> exact ⟨rfl, rfl, rfl⟩
  have hmem := mem_dents_eraseDent huniq j x
  by_cases hsrc : j = src
  · subst hsrc
    have hx : x ∈ (((t.modifyInode j (eraseDent e)).modifyInode j (insertDent e)).inodes j).dents ↔
        x = e ∨ x ∈ ((t.modifyInode j (eraseDent e)).inodes j).dents := by
      simp [modifyInode, insertDent]
    rw [hx, hmem]
    by_cases hxe : x = e
    · simp [hxe, he]
    · simp [hxe]
  · simp [modifyInode, hsrc]

/-- What `MoveFrom` does with an entry that it found. -/
inductive Moved (t : MemFs) (dst p e : ℕ) (name : String) (overwrite : Bool) :
    Status Unit × MemFs → Prop
  | refused {c : ℕ} {t' : MemFs} (hc : t.findRaw dst name = some c) (hne : c ≠ e)
      (hover : overwrite = false) (hsame : t.Unchanged t') : Moved t dst p e name overwrite
        (.error .EEXIST, t')
  | moved {t' : MemFs} (hfree : ∀ c, t.findRaw dst name = some c → c = e)
      (hmove : t.Moves t' dst p e name) : Moved t dst p e name overwrite (.ok (), t')
  | replaced {c : ℕ} {t₁ t' : MemFs} (hc : t.findRaw dst name = some c) (hne : c ≠ e)
      (hover : overwrite = true) (hdetach : t.Detaches t₁ c) (hmove : t₁.Moves t' dst p e name) :
      Moved t dst p e name overwrite (.ok (), t')

namespace TreeInv
variable (h : t.TreeInv)
include h

theorem findRaw_eq_some_iff : t.findRaw d name = some e ↔ e ∈ (t.inodes d).dents ∧ (t.entries e).name = name := by
  refine ⟨findRaw_eq_some, fun ⟨hmem, hname⟩ => ?_⟩
  cases hfind : t.findRaw d name with
  | none => exact absurd hname (findRaw_eq_none hfind e hmem)
  | some e' =>
    obtain ⟨hmem', hname'⟩ := findRaw_eq_some hfind
    rw [h.names d e e' hmem hmem' (hname.trans hname'.symm)]

theorem moveFrom_moved {srcName : String} (dstName : String) (overwrite : Bool)
    (he : t.findRaw src srcName = some e) (hdent : (t.inodes dst).dent = some p) :
    t.Moved dst p e dstName overwrite (t.moveFrom dst src srcName dstName overwrite) := by
  obtain ⟨hmem, -⟩ := findRaw_eq_some he
  have huniq : ∀ j, e ∈ (t.inodes j).dents → j = src := fun j hj => h.dents_unique hj hmem
  have herase := mem_dents_eraseDent huniq dst
  unfold moveFrom
  rw [he]
  cases hfind : (t.modifyInode src (eraseDent e)).findRaw dst dstName with
  | none =>
    simp only [hfind]
    refine .moved (fun c hc => ?_) (commitMove_moves dstName huniq hdent)
    obtain ⟨hcmem, hcname⟩ := findRaw_eq_some hc
    by_contra hne
    exact findRaw_eq_none hfind c ((herase c).2 ⟨hcmem, hne⟩) hcname
  | some c =>
    obtain ⟨hcmem, hcname⟩ := findRaw_eq_some hfind
    obtain ⟨hcmem, hne⟩ := (herase c).1 hcmem
    have hc : t.findRaw dst dstName = some c := h.findRaw_eq_some_iff.2 ⟨hcmem, hcname⟩
    cases overwrite with
    | false =>
      simp only [hfind]
      exact .refused hc hne rfl (reinsert_unchanged hmem huniq)
    | true =>
      simp only [hfind]
      have hdetach := h.unlinkAndDispose_detaches hcmem
      refine .replaced hc hne rfl hdetach ?_
      rw [unlinkAndDispose_eraseDent]
      refine commitMove_moves dstName (fun j hj => huniq j ((hdetach.dents j e).1 hj).1) ?_
      rw [(hdetach.others dst (h.inode_ne_of_mem hcmem).symm).2, hdent]

end TreeInv
end Junction.MemFs

/-! ### Runs keep the tree. Of what this needs the source checks only that `Link` finds a live directory -/

namespace Junction
open ParentTree MemFs FsCall Run

variable {x e dst src : ℕ}

namespace MemFs
variable {t t' : MemFs}

def Live (t : MemFs) (d : ℕ) : Prop :=
  (t.inodes d).kind = .directory ∧ (t.inodes d).isStale = false

/-- The namespace is a tree: entries climb to the root, each is held by its parent's directory and by
no other, a directory has one entry, and the path of every entry can be printed. -/
structure IsTree (t : MemFs) : Prop where
  climbs : ∀ e, (t.entries e).linked = true → Climbs t.parent e 0
  held : ∀ e, (t.entries e).linked = true → ∃ p, t.parent e = some p ∧
    (∀ d, e ∈ (t.inodes d).dents ↔ d = (t.entries p).inode) ∧
    t.findRaw (t.entries p).inode (t.entries e).name = some e
  one_entry : ∀ d, t.Live d → ∃! e, t.InTree e ∧ (t.entries e).inode = d
  entry_live : ∀ e, t.InTree e → (t.inodes (t.entries e).inode).kind = .directory →
    t.Live (t.entries e).inode
  fullPath : ∀ e, (t.entries e).linked = true →
    ∃ fuel names, t.getFullPath fuel e = some (.ok names)

theorem fullPathLoop_of_climbs (hroot : t.parent 0 = some 0) (hx : Climbs t.parent x 0)
    (paths : List String) : ∃ fuel names, t.fullPathLoop fuel x paths = some (.ok names) := by
  have hstop : ∀ paths, t.fullPathLoop 1 0 paths = some (.ok paths) := fun paths => by
    simp [fullPathLoop, show (t.entries 0).parent = some 0 from hroot]
  induction hx using Relation.ReflTransGen.head_induction_on generalizing paths with
  | refl => exact ⟨1, paths, hstop paths⟩
  | @head x y hxy _ ih =>
    by_cases hx : x = 0
    · exact ⟨1, paths, hx ▸ hstop paths⟩
    obtain ⟨fuel, names, hloop⟩ := ih ((t.entries x).name :: paths)
    refine ⟨fuel + 1, names, ?_⟩
    simp [fullPathLoop, show (t.entries x).parent = some y from hxy, if_neg hx, hloop]

namespace TreeInv
variable (h : t.TreeInv)
include h

theorem entry_unique {e' : ℕ} (he : t.InTree e) (he' : t.InTree e')
    (hinode : (t.entries e).inode = (t.entries e').inode)
    (hdir : (t.inodes (t.entries e).inode).kind = .directory) : e = e' := by
  have hdent := h.dir_entry e he hdir
  have hdent' := h.dir_entry e' he' (hinode ▸ hdir)
  rw [← hinode, hdent] at hdent'
  exact Option.some.inj hdent'

theorem isTree : t.IsTree where
  climbs := h.climbs
  held e he := by
    obtain ⟨p, hp, hmem⟩ := h.linked_mem e he
    refine ⟨p, hp, fun d => ⟨fun hd => h.dents_unique hd hmem, ?_⟩, h.findRaw_eq_some_iff.2 ⟨hmem, rfl⟩⟩
    rintro rfl
    exact hmem
  one_entry d hd := by
    obtain ⟨p, hp⟩ := h.live_dent hd.1 hd.2
    obtain ⟨_, hinode, hin⟩ := h.dent_spec hd.1 hp
    refine ⟨p, ⟨hin, hinode⟩, fun e ⟨he, hed⟩ => ?_⟩
    exact h.entry_unique he hin (hed.trans hinode.symm) (hed ▸ hd.1)
  entry_live e he hdir := by
    obtain ⟨hlink, -⟩ := h.dent_spec hdir (h.dir_entry e he hdir)
    exact ⟨hdir, by simp [Inode.isStale, hlink]⟩
  fullPath e he := by
    obtain ⟨fuel, names, hloop⟩ := fullPathLoop_of_climbs h.root_entry.2.1 (h.climbs e he) []
    exact ⟨fuel, names, by simp [getFullPath, he, hloop]⟩

variable {p : ℕ}

theorem not_climbs_of_parent (he : (t.entries e).linked)
    (hp : t.parent e = some p) : ¬Climbs t.parent p e := fun hclimb =>
  h.ne_zero_of_linked he (Climbs.eq_root_of_cycle h.root_entry.2.1 (h.climbs e he) hp hclimb)

variable {d : ℕ}

theorem unchanged (he : e ∈ (t.inodes d).dents) (hsame : t.Unchanged t') : t'.TreeInv := by
  obtain ⟨hdir, hlinked, -⟩ := h.dents_mem d e he
  obtain ⟨p, hp, hdent, -⟩ := h.mem_dents he
  have hmove : t.Moves t' d p e (t.entries e).name := by
    refine ⟨fun j => ?_, hsame.next.1, hsame.next.2, hsame.inodes, fun j x => ?_⟩
    · rw [hsame.entries, ← show (t.entries e).parent = some p from hp]
      split_ifs with hj
      · rw [hj]
      · rfl
    rw [hsame.dents]
    by_cases hxe : x = e
    · subst hxe
      simpa using ⟨fun hj => h.dents_unique hj he, fun hj => hj ▸ he⟩
    · simp [hxe]
  exact h.move hlinked hdir hdent (fun x hx hne hname => hne (h.names d x e hx he hname))
    (h.not_climbs_of_parent hlinked hp) hmove

/-- Nothing hangs on what is replaced, and the new directory is not below the moved entry. -/
theorem moved {name : String} {overwrite : Bool} {r : Status Unit × MemFs}
    (hdst : (t.inodes dst).kind = .directory) (hdent : (t.inodes dst).dent = some p)
    (he : e ∈ (t.inodes src).dents) (hbelow : ¬Climbs t.parent p e)
    (hempty : ∀ c, t.findRaw dst name = some c → c ≠ e → overwrite →
      (t.inodes (t.entries c).inode).dents = []) (hr : t.Moved dst p e name overwrite r) : r.2.TreeInv := by
  have hlinked := (h.dents_mem src e he).2.1
  cases hr with
  | refused hc hne hover hsame => exact h.unchanged he hsame
  | moved hfree hmove =>
    refine h.move hlinked hdst hdent (fun x hx hne hname => hne ?_) hbelow hmove
    exact hfree x (h.findRaw_eq_some_iff.2 ⟨hx, hname⟩)
  | @replaced c t₁ _ hc hne hover hdetach hmove =>
    obtain ⟨hcmem, hcname⟩ := findRaw_eq_some hc
    have hentry : ∀ x, x ≠ c → t₁.entries x = t.entries x := fun x hx => by
      rw [hdetach.entries, if_neg hx]
    have h₁ : t₁.TreeInv := h.detach (h.dents_mem dst c hcmem).2.1 (hempty c hc hne hover) hdetach
    refine h₁.move ?_ ?_ ?_ (fun x hx _ hname => ?_) (fun hclimb => hbelow ?_) hmove
    · rw [hentry e hne.symm, hlinked]
    · rw [hdetach.kind, hdst]
    · rw [(hdetach.others dst (h.inode_ne_of_mem hcmem).symm).2, hdent]
    · obtain ⟨hx, hxc⟩ := (hdetach.dents dst x).1 hx
      rw [hentry x hxc] at hname
      exact hxc (h.names dst x c hx hcmem (hname.trans hcname.symm))
    refine hclimb.mono fun y z hy => ?_
    by_cases hyc : y = c
    · simp [parent, hdetach.entries, hyc] at hy
    · rwa [parent, hentry y hyc] at hy

variable (name : String)

theorem addNew {kind : InodeKind} (hd : t.Live d) (hkind : kind ≠ .directory) : (t.addNew d name kind).2.TreeInv := by
  obtain ⟨p, hp⟩ := h.live_dent hd.1 hd.2
  unfold MemFs.addNew
  cases hfind : t.findRaw d name with
  | some e => exact h
  | none => exact h.allocInode_linkEntry hd.1 hp hfind rfl fun hk => absurd hk hkind

theorem mkDir (hd : t.Live d) : (t.mkDir d name).2.TreeInv := by
  obtain ⟨p, hp⟩ := h.live_dent hd.1 hd.2
  unfold MemFs.mkDir
  cases hfind : t.findRaw d name with
  | some e => exact h
  | none => exact h.allocInode_linkEntry hd.1 hp hfind rfl fun _ => ⟨rfl, rfl⟩

theorem create (exclusive : Bool) (hd : t.Live d) : (t.create d name exclusive).2.TreeInv := by
  unfold MemFs.create
  cases hfind : t.findRaw d name with
  | some e => exact h
  | none => exact h.addNew name hd (by decide)

theorem link {ino : ℕ} (hd : (t.inodes d).kind = .directory)
    (hino : ino < t.nextInode) : (t.link d name ino).2.TreeInv := by
  unfold MemFs.link MemFs.addDentLocked
  split_ifs with hdir hstale
  · exact h
  · exact h
  obtain ⟨p, hp⟩ := h.live_dent hd (by simpa using hstale)
  cases hfind : t.findRaw d name with
  | some e => exact h
  | none =>
    refine h.linkEntry hd hp hfind ?_ hino
    simpa [Inode.isDir] using hdir

theorem unlink (d : ℕ) (name : String) : (t.unlink d name).2.TreeInv := by
  unfold MemFs.unlink
  cases hfind : t.findRaw d name with
  | none => exact h
  | some e =>
    dsimp only
    split_ifs with hdir
    · exact h
    · refine h.unlinkAndDispose (findRaw_eq_some hfind).1 (h.dents_eq_nil ?_)
      simpa [Inode.isDir] using hdir

theorem rmDir (d : ℕ) (name : String) : (t.rmDir d name).2.TreeInv := by
  unfold MemFs.rmDir
  cases hfind : t.findRaw d name with
  | none => exact h
  | some e =>
    dsimp only
    split_ifs with hdir htype hempty
    · exact h
    · exact h
    · exact h
    · exact h.unlinkAndDispose (findRaw_eq_some hfind).1 (not_not.1 hempty)

end TreeInv
end MemFs

/-- New entries go into live directories. A rename does not move a directory below itself, and what it
replaces holds no entries. -/
def FsCall.Safe (t : MemFs) : FsCall → Prop
  | .mkDir d _ => t.Live d
  | .create d _ _ => t.Live d
  | .symLink d _ => t.Live d
  | .link d _ ino => (t.inodes d).kind = .directory ∧ ino < t.nextInode
  | .unlink _ _ => True
  | .rmDir _ _ => True
  | .rename dst src srcName dstName replace => t.Live dst ∧ ∀ e, t.findRaw src srcName = some e →
      (∀ p, (t.inodes dst).dent = some p → ¬Climbs t.parent p e) ∧
      ∀ c, t.findRaw dst dstName = some c → c ≠ e → replace = true →
        (t.inodes (t.entries c).inode).dents = []

variable {srcName dstName : String} {replace : Bool}

theorem FsCall.safe_rename_root {t : MemFs}
    (hlive : t.Live 0) (hself : t.parent 0 = some 0) (hdent : (t.inodes 0).dent = some 0)
    (he : t.findRaw src srcName = some e) (hne : e ≠ 0)
    (hempty : ∀ c ∈ t.findRaw 0 dstName, (t.inodes (t.entries c).inode).dents = []) :
    (rename 0 src srcName dstName replace).Safe t := by
  refine ⟨hlive, fun e' he' => ⟨fun p hp hclimb => hne ?_, fun c hc _ _ => hempty c hc⟩⟩
  obtain rfl : 0 = p := Option.some.inj (hdent.symm.trans hp)
  obtain rfl : e = e' := Option.some.inj (he.symm.trans he')
  exact Climbs.eq_root hself hclimb

theorem MemFs.TreeInv.rename {t : MemFs} (h : t.TreeInv) (hsafe : (FsCall.rename dst src srcName dstName replace).Safe t) :
    (t.rename dst src srcName dstName replace).2.TreeInv := by
  obtain ⟨hdst, hmoved⟩ := hsafe
  obtain ⟨p, hp⟩ := h.live_dent hdst.1 hdst.2
  unfold MemFs.rename
  split_ifs with htype
  · exact h
  cases hfind : t.findRaw src srcName with
  | none =>
    simp only [moveFrom, hfind]
    exact h
  | some e =>
    obtain ⟨hbelow, hempty⟩ := hmoved e hfind
    exact h.moved hdst.1 hp (findRaw_eq_some hfind).1 (hbelow p hp) hempty (h.moveFrom_moved dstName replace hfind hp)

theorem FsCall.run_treeInv (t : MemFs) (call : FsCall) (h : t.TreeInv) (hsafe : call.Safe t) :
    (call.run t).2.TreeInv := by
  cases call with
  | mkDir d name => exact h.mkDir name hsafe
  | create d name exclusive => exact h.create name exclusive hsafe
  | symLink d name => exact h.addNew name hsafe (by decide)
  | link d name ino => exact h.link name hsafe.1 hsafe.2
  | unlink d name => exact h.unlink d name
  | rmDir d name => exact h.rmDir d name
  | rename dst src srcName dstName replace => exact h.rename hsafe

/-- In every run of safe calls from the empty root directory, every state is a tree. -/
theorem memFs_isTree {calls : List FsCall} (hsafe : Run.Admitted (next run) FsCall.Safe init calls) :
    (exec (next run) init calls).IsTree :=
  (invariant_exec run_treeInv treeInv_init hsafe).isTree

/-- A directory, one below it, a file, a second name for the file, and two renames: of the file over
its second name, and of the inner directory into the root. -/
def treeCalls : List FsCall :=
  [.mkDir 0 "a", .mkDir 1 "b", .create 2 "f" true, .link 0 "g" 3, .rename 0 2 "f" "g" true,
    .rename 0 1 "b" "b" false, .rmDir 0 "a"]

theorem memFs_isTree_treeCalls : (exec (next run) init treeCalls).IsTree ∧
    (exec (next run) init treeCalls).getFullPath 2 2 = some (.ok ["b"]) := by
  refine ⟨memFs_isTree ⟨⟨rfl, rfl⟩, ⟨rfl, by decide⟩, ⟨rfl, by decide⟩, ⟨rfl, by decide⟩, ?_, ?_,
    trivial, trivial⟩, by decide⟩
  · exact safe_rename_root ⟨rfl, by decide⟩ (by decide) (by decide) (e := 3) (by decide) (by decide) (by decide)
  · exact safe_rename_root ⟨rfl, by decide⟩ (by decide) (by decide) (e := 2) (by decide) (by decide) (by decide)

theorem fullPathLoop_cycle {t : MemFs} {y : ℕ} (hx : (t.entries x).parent = some y)
    (hy : (t.entries y).parent = some x) (hx0 : x ≠ 0) (hy0 : y ≠ 0) (fuel : ℕ) :
    ∀ paths, t.fullPathLoop fuel x paths = none ∧ t.fullPathLoop fuel y paths = none := by
  induction fuel with
  | zero => exact fun paths => ⟨rfl, rfl⟩
  | succ fuel ih =>
    intro paths
    simp only [fullPathLoop, hx, hy, if_neg hx0, if_neg hy0]
    exact ⟨(ih _).2, (ih _).1⟩

/-- A directory is moved into the one below it; all calls succeed. -/
def cycleCalls : List FsCall := [.mkDir 0 "a", .mkDir 1 "b", .rename 2 0 "a" "c" true]

theorem rename_below_itself : answers run init cycleCalls = [.ok (), .ok (), .ok ()] ∧
    ((exec (next run) init cycleCalls).entries 1).linked = true ∧
    ∀ fuel, (exec (next run) init cycleCalls).getFullPath fuel 1 = none := by
  have hlinked : ((exec (next run) init cycleCalls).entries 1).linked = true := by
    decide
  refine ⟨by decide, hlinked, fun fuel => ?_⟩
  have hcycle : ∀ paths, (exec (next run) init cycleCalls).fullPathLoop fuel 1
      paths = none := fun paths =>
    (fullPathLoop_cycle (y := 2) (by decide) (by decide) (by decide) (by decide) fuel paths).1
  simp [getFullPath, hlinked, hcycle]

end Junction
