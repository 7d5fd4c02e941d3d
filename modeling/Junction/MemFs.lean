import Junction.Base
import Junction.Library.ParentTree

/-!
# The namespace of the memory file system

Directory entries and inodes are objects on a heap and name each other by number. A directory keeps
the set of its entries and a pointer to its own entry in its parent; an entry keeps its name, its
inode and its parent entry, and is linked as long as a directory's set holds it. The root entry is
number zero and its own parent. The operations are those of a directory with its lock held, so each
is one step.
-/

namespace Junction

inductive InodeKind
  | directory
  | regularFile
  | symLink
  | device
  deriving DecidableEq, Repr

inductive IDirType
  | kUnknown
  | kMem
  deriving DecidableEq, Repr

/-- An inode. The last two fields are used by directories: the entry of the directory in its parent,
and the set of its entries. -/
structure Inode where
  kind : InodeKind
  nlink : ℤ
  idirType : IDirType
  dent : Option ℕ
  dents : List ℕ
  deriving DecidableEq, Repr

namespace Inode

def isDir (i : Inode) : Bool := i.kind = .directory

def isStale (i : Inode) : Bool := i.nlink = 0

def ofKind (kind : InodeKind) : Inode := ⟨kind, 0, .kUnknown, none, []⟩

def incNlink (i : Inode) : Inode := { i with nlink := i.nlink + 1 }

def decNlink (i : Inode) : Inode := { i with nlink := i.nlink - 1 }

def insertDent (e : ℕ) (i : Inode) : Inode := { i with dents := e :: i.dents }

def eraseDent (e : ℕ) (i : Inode) : Inode := { i with dents := i.dents.filter (· ≠ e) }

def resetDent (i : Inode) : Inode := if i.isDir then { i with dent := none } else i

end Inode

/-- A directory entry. `linked` says that a directory holds it (`intrusive_ref_`). -/
structure DirectoryEntry where
  name : String
  inode : ℕ
  parent : Option ℕ
  linked : Bool
  deriving DecidableEq, Repr

@[ext]
structure MemFs where
  entries : ℕ → DirectoryEntry
  inodes : ℕ → Inode
  nextEntry : ℕ
  nextInode : ℕ

namespace MemFs

def init : MemFs where
  entries e := if e = 0 then ⟨".", 0, some 0, false⟩ else ⟨"", 0, none, false⟩
  inodes i := if i = 0 then ⟨.directory, 1, .kMem, some 0, []⟩ else .ofKind .regularFile
  nextEntry := 1
  nextInode := 1

def setEntry (t : MemFs) (e : ℕ) (x : DirectoryEntry) : MemFs :=
  { t with entries := fun j => if j = e then x else t.entries j }

def modifyInode (t : MemFs) (i : ℕ) (f : Inode → Inode) : MemFs :=
  { t with inodes := fun j => if j = i then f (t.inodes j) else t.inodes j }

variable (t : MemFs)

def allocInode (x : Inode) : MemFs :=
  { t with
    inodes := fun j => if j = t.nextInode then x else t.inodes j
    nextInode := t.nextInode + 1 }

def findRaw (d : ℕ) (name : String) : Option ℕ :=
  (t.inodes d).dents.find? fun e => (t.entries e).name == name

/-- A new entry for an inode goes into a directory. An entry counts as a link if it has a parent. -/
def linkEntry (t : MemFs) (d : ℕ) (name : String) (ino : ℕ) : MemFs :=
  let parent := (t.inodes d).dent
  let e := t.nextEntry
  let t := { t.setEntry e ⟨name, ino, parent, true⟩ with nextEntry := e + 1 }
  let t := if parent.isSome then t.modifyInode ino Inode.incNlink else t
  t.modifyInode d (Inode.insertDent e)

/-- `AddDentLocked`. An entry that finds its name taken is destroyed and gives its link back. -/
def addDentLocked (t : MemFs) (d : ℕ) (name : String) (ino : ℕ) : Status Unit × MemFs :=
  match t.findRaw d name with
  | some _ => (.error .EEXIST, t)
  | none => (.ok (), t.linkEntry d name ino)

/-- `AddIDirLocked`. A directory that finds its name taken is never reached again. -/
def mkDir (t : MemFs) (d : ℕ) (name : String) : Status Unit × MemFs :=
  match t.findRaw d name with
  | some _ => (.error .EEXIST, t)
  | none => (.ok (), (t.allocInode ⟨.directory, 0, .kMem, some t.nextEntry, []⟩).linkEntry d name
      t.nextInode)

def addNew (d : ℕ) (name : String) (kind : InodeKind) : Status Unit × MemFs :=
  match t.findRaw d name with
  | some _ => (.error .EEXIST, t)
  | none => (.ok (), (t.allocInode (.ofKind kind)).linkEntry d name t.nextInode)

def symLink (d : ℕ) (name : String) : Status Unit × MemFs := t.addNew d name .symLink

/-- `Create`, which opens a file that exists unless it is asked for a new one. -/
def create (t : MemFs) (d : ℕ) (name : String) (exclusive : Bool) : Status Unit × MemFs :=
  match t.findRaw d name with
  | some _ => (if exclusive then .error .EEXIST else .ok (), t)
  | none => t.addNew d name .regularFile

/-- `HardLink` and `Link`. -/
def link (t : MemFs) (d : ℕ) (name : String) (ino : ℕ) : Status Unit × MemFs :=
  if (t.inodes ino).isDir then (.error .EPERM, t)
  else if (t.inodes d).isStale then (.error .ESTALE, t)
  else t.addDentLocked d name ino

/-- `UnlinkAndDispose`. The name that an entry shows after its deletion is left as it is. -/
def unlinkAndDispose (t : MemFs) (d e : ℕ) : MemFs :=
  let x := t.entries e
  let t := if x.parent.isSome then t.modifyInode x.inode Inode.decNlink else t
  let t := t.setEntry e { x with parent := none, linked := false }
  let t := t.modifyInode x.inode Inode.resetDent
  t.modifyInode d (Inode.eraseDent e)

def unlink (d : ℕ) (name : String) : Status Unit × MemFs :=
  match t.findRaw d name with
  | none => (.error .ENOENT, t)
  | some e =>
    if (t.inodes (t.entries e).inode).isDir then (.error .EISDIR, t)
    else (.ok (), t.unlinkAndDispose d e)

def rmDir (d : ℕ) (name : String) : Status Unit × MemFs :=
  match t.findRaw d name with
  | none => (.error .ENOENT, t)
  | some e =>
    let ino := t.inodes (t.entries e).inode
    if !ino.isDir then (.error .ENOTDIR, t)
    else if ino.idirType ≠ .kMem then (.error .EXDEV, t)
    else if ino.dents ≠ [] then (.error .ENOTEMPTY, t)
    else (.ok (), t.unlinkAndDispose d e)

/-- The end of `MoveFrom`: the entry gets its new name, directory and parent. -/
def commitMove (t : MemFs) (dst e : ℕ) (name : String) : MemFs :=
  let x := t.entries e
  (t.setEntry e { x with name := name, parent := (t.inodes dst).dent }).modifyInode dst
    (Inode.insertDent e)

def moveFrom (dst src : ℕ) (srcName dstName : String) (overwrite : Bool) :
    Status Unit × MemFs :=
  match t.findRaw src srcName with
  | none => (.error .ENOENT, t)
  | some e =>
    -- the entry leaves its directory before the conflict is looked for
    let t := t.modifyInode src (Inode.eraseDent e)
    match t.findRaw dst dstName with
    | none => (.ok (), t.commitMove dst e dstName)
    | some conflict =>
      if !overwrite then (.error .EEXIST, t.modifyInode src (Inode.insertDent e))
      else (.ok (), (t.unlinkAndDispose dst conflict).commitMove dst e dstName)

def rename (dst src : ℕ) (srcName dstName : String) (replace : Bool) :
    Status Unit × MemFs :=
  if (t.inodes src).idirType ≠ .kMem then (.error .EXDEV, t)
  else t.moveFrom dst src srcName dstName replace

/-- The loop of `GetFullPath`, which has no bound of its own. -/
def fullPathLoop (t : MemFs) : ℕ → ℕ → List String → Option (Status (List String))
  | 0, _, _ => none
  | fuel + 1, cur, paths =>
    match (t.entries cur).parent with
    | none => some (.error .ESTALE)
    | some parent =>
      if cur = 0 then some (.ok paths)
      else fullPathLoop t fuel parent ((t.entries cur).name :: paths)

/-- `GetFullPath`, as the names from the root on. -/
def getFullPath (t : MemFs) (fuel e : ℕ) : Option (Status (List String)) :=
  if !(t.entries e).linked then some (.ok [(t.entries e).name]) else t.fullPathLoop fuel e []

end MemFs

/-- The calls on directories, each with the number of the directory inode that it is made on. -/
inductive FsCall
  | mkDir (d : ℕ) (name : String)
  | create (d : ℕ) (name : String) (exclusive : Bool)
  | symLink (d : ℕ) (name : String)
  | link (d : ℕ) (name : String) (ino : ℕ)
  | unlink (d : ℕ) (name : String)
  | rmDir (d : ℕ) (name : String)
  | rename (dst src : ℕ) (srcName dstName : String) (replace : Bool)

def FsCall.run (t : MemFs) : FsCall → Status Unit × MemFs
  | .mkDir d name => t.mkDir d name
  | .create d name exclusive => t.create d name exclusive
  | .symLink d name => t.symLink d name
  | .link d name ino => t.link d name ino
  | .unlink d name => t.unlink d name
  | .rmDir d name => t.rmDir d name
  | .rename dst src srcName dstName replace => t.rename dst src srcName dstName replace

end Junction

/-!
### The tree invariant

Three changes keep it: a new entry in a live directory, the removal of an entry that nothing hangs on, and the move of
an entry to a live directory that is not below it.
-/

namespace Junction.MemFs
open ParentTree Option

def parent (t : MemFs) (e : ℕ) : Option ℕ := (t.entries e).parent

def InTree (t : MemFs) (e : ℕ) : Prop := (t.entries e).linked = true ∨ e = 0

structure TreeInv (t : MemFs) : Prop where
  root_entry : (t.entries 0).inode = 0 ∧ t.parent 0 = some 0 ∧ (t.entries 0).linked = false
  root_dir : (t.inodes 0).kind = .directory
  fresh_entry : 0 < t.nextEntry ∧ ∀ e, t.nextEntry ≤ e → (t.entries e).linked = false
  fresh_inode : ∀ i, t.nextInode ≤ i → (t.inodes i).kind ≠ .directory
  inode_lt : ∀ e, t.InTree e → (t.entries e).inode < t.nextInode
  unlinked : ∀ e, e ≠ 0 → (t.entries e).linked = false → t.parent e = none
  dents_mem : ∀ d e, e ∈ (t.inodes d).dents → (t.inodes d).kind = .directory ∧
    (t.entries e).linked = true ∧ t.parent e = (t.inodes d).dent ∧ (t.inodes d).dent ≠ none
  linked_mem : ∀ e, (t.entries e).linked = true →
    ∃ p, t.parent e = some p ∧ e ∈ (t.inodes (t.entries p).inode).dents
  names : ∀ d e e', e ∈ (t.inodes d).dents → e' ∈ (t.inodes d).dents →
    (t.entries e).name = (t.entries e').name → e = e'
  dir_cases : ∀ d, (t.inodes d).kind = .directory →
    (t.inodes d).nlink = 0 ∧ (t.inodes d).dent = none ∨
      (t.inodes d).nlink = 1 ∧
        ∃ p, (t.inodes d).dent = some p ∧ (t.entries p).inode = d ∧ t.InTree p
  dir_entry : ∀ e, t.InTree e → (t.inodes (t.entries e).inode).kind = .directory →
    (t.inodes (t.entries e).inode).dent = some e
  climbs : ∀ e, (t.entries e).linked = true → Climbs t.parent e 0

theorem treeInv_init : init.TreeInv := by
  have hentries : ∀ e, (init.entries e).linked = false := by
    intro e
    simp only [init]
    split_ifs <;> rfl
  have hdents : ∀ i, (init.inodes i).dents = [] := by
    intro i
    simp only [init]
    split_ifs <;> rfl
  have hkind : ∀ i, (init.inodes i).kind = .directory → i = 0 := by
    intro i hi
    by_contra hne
    simp [init, hne, Inode.ofKind] at hi
  refine ⟨⟨rfl, rfl, rfl⟩, rfl, ⟨by decide, fun e _ => hentries e⟩, fun i hi h => ?_, ?_, ?_, ?_, ?_, ?_, ?_, ?_, ?_⟩
  · have := hkind i h
    simp only [init] at hi
    omega
  · rintro e (he | rfl)
    · simp [hentries] at he
    · decide
  · intro e he _
    simp [parent, init, he]
  · intro d e he
    simp [hdents] at he
  · intro e he
    simp [hentries] at he
  · intro d e e' he
    simp [hdents] at he
  · intro d hd
    rw [hkind d hd]
    exact .inr ⟨rfl, 0, rfl, rfl, .inr rfl⟩
  · rintro e (he | rfl) _
    · simp [hentries] at he
    · rfl
  · intro e he
    simp [hentries] at he

namespace TreeInv
variable {t : MemFs} (h : t.TreeInv)
include h

variable {e : ℕ}

theorem ne_zero_of_linked (he : (t.entries e).linked) : e ≠ 0 := by
  rintro rfl
  simp [h.root_entry.2.2] at he

variable {d : ℕ}

theorem dent_spec {p : ℕ} (hd : (t.inodes d).kind = .directory) (hp : (t.inodes d).dent = some p) :
    (t.inodes d).nlink = 1 ∧ (t.entries p).inode = d ∧ t.InTree p := by
  rcases h.dir_cases d hd with ⟨_, hnone⟩ | ⟨hlink, p', hp', hinode, hin⟩
  · simp [hnone] at hp
  · obtain rfl : p' = p := some.inj (hp'.symm.trans hp)
    exact ⟨hlink, hinode, hin⟩

theorem live_dent (hd : (t.inodes d).kind = .directory)
    (hlive : (t.inodes d).isStale = false) : ∃ p, (t.inodes d).dent = some p := by
  rcases h.dir_cases d hd with ⟨hzero, _⟩ | ⟨_, p, hp, _⟩
  · simp [Inode.isStale, hzero] at hlive
  · exact ⟨p, hp⟩

theorem mem_dents (he : e ∈ (t.inodes d).dents) :
    ∃ p, t.parent e = some p ∧ (t.inodes d).dent = some p ∧ (t.entries p).inode = d ∧ t.InTree p := by
  obtain ⟨hdir, _, hparent, hsome⟩ := h.dents_mem d e he
  obtain ⟨p, hp⟩ := ne_none_iff_exists'.1 hsome
  obtain ⟨_, hinode, hin⟩ := h.dent_spec hdir hp
  exact ⟨p, hparent.trans hp, hp, hinode, hin⟩

theorem dents_unique {d' : ℕ} (he : e ∈ (t.inodes d).dents) (he' : e ∈ (t.inodes d').dents) : d = d' := by
  obtain ⟨p, hp, _, hinode, _⟩ := h.mem_dents he
  obtain ⟨p', hp', _, hinode', _⟩ := h.mem_dents he'
  rw [← hinode, ← hinode', some.inj (hp.symm.trans hp')]

variable {y z : ℕ}

theorem parent_linked (hy : t.parent y = some z) : (t.entries y).linked ∨ y = 0 ∧ z = 0 := by
  by_cases hzero : y = 0
  · rw [hzero, h.root_entry.2.1] at hy
    exact .inr ⟨hzero, (some.inj hy).symm⟩
  cases hlinked : (t.entries y).linked with
  | true => exact .inl rfl
  | false => simp [h.unlinked y hzero hlinked] at hy

theorem parent_inTree (hy : t.parent y = some z) : t.InTree z := by
  rcases h.parent_linked hy with hlinked | ⟨_, hz⟩
  · obtain ⟨p, hp, hmem⟩ := h.linked_mem y hlinked
    obtain ⟨p', hp', _, _, hin⟩ := h.mem_dents hmem
    rwa [← some.inj (hp'.symm.trans hy)]
  · exact .inr hz

theorem climbs_of_inTree (he : t.InTree e) : Climbs t.parent e 0 := by
  rcases he with hlinked | rfl
  · exact h.climbs e hlinked
  · exact Climbs.refl 0

theorem inode_ne_of_mem (he : e ∈ (t.inodes d).dents) : (t.entries e).inode ≠ d := by
  intro hinode
  obtain ⟨hdir, hlinked, hparent, _⟩ := h.dents_mem d e he
  have hself := h.dir_entry e (.inl hlinked) (hinode ▸ hdir)
  rw [hinode, ← hparent] at hself
  exact h.ne_zero_of_linked hlinked (Climbs.eq_root_of_cycle h.root_entry.2.1 (h.climbs e hlinked)
    hself (Climbs.refl e))

theorem dents_eq_nil {i : ℕ} (hi : (t.inodes i).kind ≠ .directory) : (t.inodes i).dents = [] :=
  List.eq_nil_iff_forall_not_mem.2 fun e he => hi (h.dents_mem i e he).1

theorem no_children (he : e ≠ 0) (hempty : (t.inodes (t.entries e).inode).dents = [])
    (y : ℕ) : t.parent y ≠ some e := by
  intro hy
  rcases h.parent_linked hy with hlinked | ⟨_, hzero⟩
  · obtain ⟨p, hp, hmem⟩ := h.linked_mem y hlinked
    rw [some.inj (hp.symm.trans hy), hempty] at hmem
    simp at hmem
  · exact he hzero

end TreeInv
end Junction.MemFs

/-! ### Linking a new entry, unlinking an entry and moving one keep the tree -/

namespace Junction.MemFs
open ParentTree
variable {t t' : MemFs}

theorem parent_congr {x : ℕ} (h : t'.entries x = t.entries x) : t'.parent x = t.parent x := by
  simp [parent, h]

theorem TreeInv.names_of (h : t.TreeInv) {d e : ℕ}
    (hold : ∀ x ∈ (t'.inodes d).dents, x ≠ e → x ∈ (t.inodes d).dents ∧ t'.entries x = t.entries x)
    (hnew : e ∈ (t'.inodes d).dents → ∀ x ∈ (t.inodes d).dents, x ≠ e → (t.entries x).name ≠ (t'.entries e).name)
    (x x' : ℕ) (hx : x ∈ (t'.inodes d).dents) (hx' : x' ∈ (t'.inodes d).dents)
    (hnames : (t'.entries x).name = (t'.entries x').name) : x = x' := by
  by_cases hxe : x = e
  · by_cases hxe' : x' = e
    · rw [hxe, hxe']
    obtain ⟨hmem', hentry'⟩ := hold x' hx' hxe'
    rw [hxe, hentry'] at hnames
    exact absurd hnames.symm (hnew (hxe ▸ hx) x' hmem' hxe')
  obtain ⟨hmem, hentry⟩ := hold x hx hxe
  by_cases hxe' : x' = e
  · rw [hxe', hentry] at hnames
    exact absurd hnames (hnew (hxe' ▸ hx') x hmem hxe)
  obtain ⟨hmem', hentry'⟩ := hold x' hx' hxe'
  rw [hentry, hentry'] at hnames
  exact h.names d x x' hmem hmem' hnames

/-- The new state holds a new entry for inode `i` in directory `d`. -/
structure Attaches (t t' : MemFs) (d p i : ℕ) (name : String) : Prop where
  entries : ∀ j, t'.entries j =
    if j = t.nextEntry then ⟨name, i, some p, true⟩ else t.entries j
  nextEntry : t'.nextEntry = t.nextEntry + 1
  ne : i ≠ d
  not_dir : (t.inodes i).kind ≠ .directory
  dir : t'.inodes d = Inode.insertDent t.nextEntry (t.inodes d)
  others : ∀ j, j ≠ d → j ≠ i → t'.inodes j = t.inodes j
  nextInode : t.nextInode ≤ t'.nextInode
  fresh : ∀ j, t'.nextInode ≤ j → (t'.inodes j).kind ≠ .directory
  inode_lt : i < t'.nextInode
  dents_nil : (t'.inodes i).dents = []
  new_dir : (t'.inodes i).kind = .directory →
    (t'.inodes i).nlink = 1 ∧ (t'.inodes i).dent = some t.nextEntry ∧
      ∀ e, t.InTree e → (t.entries e).inode ≠ i

namespace Attaches
variable {d p i : ℕ} {name : String} (ha : t.Attaches t' d p i name)
include ha

theorem entry_of_ne {e : ℕ} (he : e ≠ t.nextEntry) : t'.entries e = t.entries e := by
  rw [ha.entries, if_neg he]

theorem entry_new : t'.entries t.nextEntry = ⟨name, i, some p, true⟩ := by
  rw [ha.entries, if_pos rfl]

theorem parent_new : t'.parent t.nextEntry = some p := by
  simp [parent, ha.entry_new]

theorem inTree_iff (e : ℕ) : t'.InTree e ↔ t.InTree e ∨ e = t.nextEntry := by
  by_cases he : e = t.nextEntry
  · simp [InTree, he, ha.entry_new]
  · simp [InTree, ha.entry_of_ne he, he]

theorem mem_dents_iff (j e : ℕ) : e ∈ (t'.inodes j).dents ↔
    e ∈ (t.inodes j).dents ∧ j ≠ i ∨ j = d ∧ e = t.nextEntry := by
  by_cases hjd : j = d
  · simp [hjd, ha.dir, Inode.insertDent, ha.ne.symm, or_comm]
  by_cases hji : j = i
  · subst hji
    simp [ha.dents_nil, hjd]
  · simp [ha.others j hjd hji, hji, hjd]

theorem inode_of_ne {j : ℕ} (hji : j ≠ i) : (t'.inodes j).kind = (t.inodes j).kind ∧
    (t'.inodes j).dent = (t.inodes j).dent ∧ (t'.inodes j).nlink = (t.inodes j).nlink := by
  by_cases hjd : j = d
  · simp [hjd, ha.dir, Inode.insertDent]
  · simp [ha.others j hjd hji]

end Attaches

variable (h : t.TreeInv)
include h

theorem TreeInv.ne_nextEntry {e : ℕ} (he : t.InTree e) : e ≠ t.nextEntry := by
  rintro rfl
  have hnew : (t.entries t.nextEntry).linked = false := h.fresh_entry.2 _ (Nat.le_refl _)
  rcases he with he | he
  · simp [hnew] at he
  · have := h.fresh_entry.1
    omega

theorem TreeInv.climbs_attach {d p i : ℕ} {name : String} (ha : t.Attaches t' d p i name)
    {e : ℕ} (he : t.InTree e) : Climbs t'.parent e 0 := by
  have hleaf : ∀ y, t.parent y ≠ some t.nextEntry := fun y hy => h.ne_nextEntry (h.parent_inTree hy) rfl
  exact (h.climbs_of_inTree he).avoid (fun hc => h.ne_nextEntry he (hc.eq_of_leaf hleaf)) fun x hx =>
    parent_congr (ha.entry_of_ne hx)

theorem TreeInv.attach {d p i : ℕ} {name : String}
    (hdir : (t.inodes d).kind = .directory) (hdent : (t.inodes d).dent = some p)
    (hname : ∀ e ∈ (t.inodes d).dents, (t.entries e).name ≠ name) (ha : t.Attaches t' d p i name) : t'.TreeInv := by
  obtain ⟨_, hpd, hpin⟩ := h.dent_spec hdir hdent
  have hentry : ∀ {e}, t.InTree e → t'.entries e = t.entries e := fun he =>
    ha.entry_of_ne (h.ne_nextEntry he)
  have hroot : t.InTree 0 := .inr rfl
  exact {
    root_entry := by
      rw [hentry hroot, parent_congr (hentry hroot)]
      exact h.root_entry
    root_dir := by
      rw [(ha.inode_of_ne fun h0 => ha.not_dir (h0 ▸ h.root_dir)).1]
      exact h.root_dir
    fresh_entry := by
      refine ⟨by rw [ha.nextEntry]; omega, fun e he => ?_⟩
      rw [ha.nextEntry] at he
      rw [ha.entry_of_ne (by omega)]
      exact h.fresh_entry.2 e (by omega)
    fresh_inode := ha.fresh
    inode_lt := by
      intro e he
      rcases (ha.inTree_iff e).1 he with hin | rfl
      · rw [hentry hin]
        exact (h.inode_lt e hin).trans_le ha.nextInode
      · rw [ha.entry_new]
        exact ha.inode_lt
    unlinked := by
      intro e he hlinked
      have hne : e ≠ t.nextEntry := by
        rintro rfl
        simp [ha.entry_new] at hlinked
      rw [parent_congr (ha.entry_of_ne hne)]
      exact h.unlinked e he (ha.entry_of_ne hne ▸ hlinked)
    dents_mem := by
      intro j e he
      rcases (ha.mem_dents_iff j e).1 he with ⟨hmem, hji⟩ | ⟨rfl, rfl⟩
      · have hold := h.dents_mem j e hmem
        have hsame := hentry (.inl hold.2.1)
        obtain ⟨hkind, hdent', -⟩ := ha.inode_of_ne hji
        rwa [hkind, hdent', hsame, parent_congr hsame]
      obtain ⟨hkind, hdent', -⟩ := ha.inode_of_ne ha.ne.symm
      rw [hkind, hdent', hdent, ha.parent_new, ha.entry_new]
      exact ⟨hdir, rfl, rfl, nofun⟩
    linked_mem := by
      intro e he
      rcases (ha.inTree_iff e).1 (.inl he) with hin | rfl
      · rw [hentry hin] at he
        obtain ⟨q, hq, hmem⟩ := h.linked_mem e he
        refine ⟨q, (parent_congr (hentry hin)).trans hq, ?_⟩
        rw [hentry (h.parent_inTree hq), ha.mem_dents_iff]
        exact .inl ⟨hmem, fun hqi => ha.not_dir (hqi ▸ (h.dents_mem _ e hmem).1)⟩
      · refine ⟨p, ha.parent_new, ?_⟩
        rw [hentry hpin, hpd, ha.mem_dents_iff]
        exact .inr ⟨rfl, rfl⟩
    names := by
      intro j
      refine h.names_of (e := t.nextEntry) (fun x hx hxe => ?_) fun hx x hmem _ => ?_
      · obtain ⟨hmem, -⟩ := ((ha.mem_dents_iff j x).1 hx).resolve_right fun hnew => hxe hnew.2
        exact ⟨hmem, ha.entry_of_ne hxe⟩
      rcases (ha.mem_dents_iff j _).1 hx with ⟨hmem', -⟩ | ⟨rfl, -⟩
      · exact absurd rfl (h.ne_nextEntry (.inl (h.dents_mem j _ hmem').2.1))
      · rw [ha.entry_new]
        exact hname x hmem
    dir_cases := by
      intro j hj
      by_cases hji : j = i
      · subst hji
        obtain ⟨hlink, hdent', _⟩ := ha.new_dir hj
        exact .inr ⟨hlink, t.nextEntry, hdent', by rw [ha.entry_new], (ha.inTree_iff _).2 (.inr rfl)⟩
      obtain ⟨hk, hd, hl⟩ := ha.inode_of_ne hji
      rw [hk] at hj
      rw [hd, hl]
      rcases h.dir_cases j hj with hstale | ⟨hlink, q, hq, hqj, hqin⟩
      · exact .inl hstale
      · exact .inr ⟨hlink, q, hq, by rw [hentry hqin, hqj], (ha.inTree_iff q).2 (.inl hqin)⟩
    dir_entry := by
      intro e he hk
      rcases (ha.inTree_iff e).1 he with hin | rfl
      · rw [hentry hin] at hk ⊢
        have hne : (t.entries e).inode ≠ i := by
          intro heq
          rw [heq] at hk
          exact (ha.new_dir hk).2.2 e hin heq
        rw [(ha.inode_of_ne hne).1] at hk
        rw [(ha.inode_of_ne hne).2.1]
        exact h.dir_entry e hin hk
      · rw [ha.entry_new] at hk ⊢
        exact (ha.new_dir hk).2.1
    climbs := by
      intro e he
      rcases (ha.inTree_iff e).1 (.inl he) with hin | rfl
      · exact h.climbs_attach ha hin
      · exact Climbs.head ha.parent_new (h.climbs_attach ha hpin) }

omit h

/-- The new state no longer holds the entry `e` of directory `d`. -/
structure Detaches (t t' : MemFs) (e : ℕ) : Prop where
  entries : ∀ j, t'.entries j =
    if j = e then { t.entries e with parent := none, linked := false } else t.entries j
  nextEntry : t'.nextEntry = t.nextEntry
  nextInode : t'.nextInode = t.nextInode
  kind : ∀ j, (t'.inodes j).kind = (t.inodes j).kind
  dents : ∀ j x, x ∈ (t'.inodes j).dents ↔ x ∈ (t.inodes j).dents ∧ x ≠ e
  others : ∀ j, j ≠ (t.entries e).inode →
    (t'.inodes j).nlink = (t.inodes j).nlink ∧ (t'.inodes j).dent = (t.inodes j).dent
  reset : (t.inodes (t.entries e).inode).kind = .directory →
    (t'.inodes (t.entries e).inode).nlink = (t.inodes (t.entries e).inode).nlink - 1 ∧
      (t'.inodes (t.entries e).inode).dent = none

namespace Detaches
variable {e : ℕ} (hd : t.Detaches t' e)
include hd

theorem entry_of_ne {x : ℕ} (hx : x ≠ e) : t'.entries x = t.entries x := by
  rw [hd.entries, if_neg hx]

theorem entry_gone : t'.entries e = { t.entries e with parent := none, linked := false } := by
  rw [hd.entries, if_pos rfl]

theorem inTree_iff (he0 : e ≠ 0) (x : ℕ) : t'.InTree x ↔ t.InTree x ∧ x ≠ e := by
  by_cases hx : x = e
  · simp [InTree, hx, hd.entry_gone, he0]
  · simp [InTree, hd.entry_of_ne hx, hx]

end Detaches

include h

theorem TreeInv.inode_ne {e x : ℕ} (he : t.InTree e) (hx : t.InTree x) (hxe : x ≠ e)
    (hk : (t.inodes (t.entries x).inode).kind = .directory) : (t.entries x).inode ≠ (t.entries e).inode := by
  intro heq
  have hx' := h.dir_entry x hx hk
  rw [heq] at hk hx'
  exact hxe (Option.some.inj (hx'.symm.trans (h.dir_entry e he hk)))

theorem TreeInv.detach {e : ℕ} (hlinked : (t.entries e).linked)
    (hempty : (t.inodes (t.entries e).inode).dents = []) (hd : t.Detaches t' e) : t'.TreeInv := by
  have he0 := h.ne_zero_of_linked hlinked
  have hleaf := h.no_children he0 hempty
  have hparent : ∀ x, x ≠ e → t'.parent x = t.parent x := fun x hx => parent_congr (hd.entry_of_ne hx)
  exact {
    root_entry := by
      rw [hd.entry_of_ne he0.symm, hparent 0 he0.symm]
      exact h.root_entry
    root_dir := by
      rw [hd.kind]
      exact h.root_dir
    fresh_entry := by
      refine ⟨hd.nextEntry ▸ h.fresh_entry.1, fun x hx => ?_⟩
      by_cases hxe : x = e
      · rw [hxe, hd.entry_gone]
      · rw [hd.entry_of_ne hxe]
        exact h.fresh_entry.2 x (hd.nextEntry ▸ hx)
    fresh_inode := by
      intro j hj
      rw [hd.kind]
      exact h.fresh_inode j (hd.nextInode ▸ hj)
    inode_lt := by
      intro x hx
      obtain ⟨hin, hxe⟩ := (hd.inTree_iff he0 x).1 hx
      rw [hd.entry_of_ne hxe, hd.nextInode]
      exact h.inode_lt x hin
    unlinked := by
      intro x hx0 hx
      by_cases hxe : x = e
      · simp [parent, hxe, hd.entry_gone]
      · rw [hparent x hxe]
        exact h.unlinked x hx0 (hd.entry_of_ne hxe ▸ hx)
    dents_mem := by
      intro j x hx
      obtain ⟨hmem, hxe⟩ := (hd.dents j x).1 hx
      have hj : j ≠ (t.entries e).inode := by
        rintro rfl
        simp [hempty] at hmem
      rw [hd.kind, hd.entry_of_ne hxe, hparent x hxe, (hd.others j hj).2]
      exact h.dents_mem j x hmem
    linked_mem := by
      intro x hx
      obtain ⟨-, hxe⟩ := (hd.inTree_iff he0 x).1 (.inl hx)
      rw [hd.entry_of_ne hxe] at hx
      obtain ⟨p, hp, hmem⟩ := h.linked_mem x hx
      have hpe : p ≠ e := by
        rintro rfl
        exact hleaf x hp
      refine ⟨p, (hparent x hxe).trans hp, ?_⟩
      rw [hd.entry_of_ne hpe, hd.dents]
      exact ⟨hmem, hxe⟩
    names := by
      intro j
      refine h.names_of (e := e) (fun x hx hxe => ?_) fun he => ?_
      · exact ⟨((hd.dents j x).1 hx).1, hd.entry_of_ne hxe⟩
      · exact absurd rfl ((hd.dents j e).1 he).2
    dir_cases := by
      intro j hj
      rw [hd.kind] at hj
      by_cases hji : j = (t.entries e).inode
      · subst hji
        obtain ⟨hlink, hdent⟩ := hd.reset hj
        have hone := (h.dent_spec hj (h.dir_entry e (.inl hlinked) hj)).1
        exact .inl ⟨by omega, hdent⟩
      obtain ⟨hlink, hdent⟩ := hd.others j hji
      rw [hlink, hdent]
      rcases h.dir_cases j hj with hstale | ⟨hone, q, hq, hqj, hqin⟩
      · exact .inl hstale
      have hqe : q ≠ e := by
        rintro rfl
        exact hji hqj.symm
      exact .inr ⟨hone, q, hq, by rw [hd.entry_of_ne hqe, hqj], (hd.inTree_iff he0 q).2 ⟨hqin, hqe⟩⟩
    dir_entry := by
      intro x hx hk
      obtain ⟨hin, hxe⟩ := (hd.inTree_iff he0 x).1 hx
      rw [hd.entry_of_ne hxe, hd.kind] at hk
      rw [hd.entry_of_ne hxe, (hd.others _ (h.inode_ne (.inl hlinked) hin hxe hk)).2]
      exact h.dir_entry x hin hk
    climbs := by
      intro x hx
      obtain ⟨hin, hxe⟩ := (hd.inTree_iff he0 x).1 (.inl hx)
      exact (h.climbs_of_inTree hin).avoid (fun hc => hxe (hc.eq_of_leaf hleaf)) hparent }

omit h

/-- The new state holds the entry `e` in directory `dst` under a new name. -/
structure Moves (t t' : MemFs) (dst p e : ℕ) (name : String) : Prop where
  entries : ∀ j, t'.entries j =
    if j = e then { t.entries e with name := name, parent := some p } else t.entries j
  nextEntry : t'.nextEntry = t.nextEntry
  nextInode : t'.nextInode = t.nextInode
  inodes : ∀ j, (t'.inodes j).kind = (t.inodes j).kind ∧
    (t'.inodes j).nlink = (t.inodes j).nlink ∧ (t'.inodes j).dent = (t.inodes j).dent
  dents : ∀ j x, x ∈ (t'.inodes j).dents ↔ x ∈ (t.inodes j).dents ∧ x ≠ e ∨ j = dst ∧ x = e

namespace Moves
variable {dst p e : ℕ} {name : String} (hm : t.Moves t' dst p e name)
include hm

theorem entry_of_ne {x : ℕ} (hx : x ≠ e) : t'.entries x = t.entries x := by
  rw [hm.entries, if_neg hx]

theorem entry_moved : t'.entries e = { t.entries e with name := name, parent := some p } := by
  rw [hm.entries, if_pos rfl]

theorem parent_moved : t'.parent e = some p := by
  simp [parent, hm.entry_moved]

theorem entry_eq (x : ℕ) :
    (t'.entries x).inode = (t.entries x).inode ∧ (t'.entries x).linked = (t.entries x).linked := by
  by_cases hx : x = e
  · rw [hx, hm.entry_moved]
    exact ⟨rfl, rfl⟩
  · rw [hm.entry_of_ne hx]
    exact ⟨rfl, rfl⟩

theorem inTree_iff (x : ℕ) : t'.InTree x ↔ t.InTree x := by
  rw [InTree, (hm.entry_eq x).2, InTree]

end Moves

include h

theorem TreeInv.move {dst p e : ℕ} {name : String}
    (hlinked : (t.entries e).linked) (hdir : (t.inodes dst).kind = .directory)
    (hdent : (t.inodes dst).dent = some p) (hname : ∀ x ∈ (t.inodes dst).dents, x ≠ e → (t.entries x).name ≠ name)
    (hbelow : ¬Climbs t.parent p e) (hm : t.Moves t' dst p e name) : t'.TreeInv := by
  have he0 := h.ne_zero_of_linked hlinked
  obtain ⟨_, hpd, hpin⟩ := h.dent_spec hdir hdent
  have hparent : ∀ x, x ≠ e → t'.parent x = t.parent x := fun x hx => parent_congr (hm.entry_of_ne hx)
  have hinode := fun x => (hm.entry_eq x).1
  have hlinked' := fun x => (hm.entry_eq x).2
  exact {
    root_entry := by
      rw [hinode, hlinked', hparent 0 he0.symm]
      exact h.root_entry
    root_dir := by
      rw [(hm.inodes 0).1]
      exact h.root_dir
    fresh_entry := by
      refine ⟨hm.nextEntry ▸ h.fresh_entry.1, fun x hx => ?_⟩
      rw [hlinked']
      exact h.fresh_entry.2 x (hm.nextEntry ▸ hx)
    fresh_inode := by
      intro j hj
      rw [(hm.inodes j).1]
      exact h.fresh_inode j (hm.nextInode ▸ hj)
    inode_lt := by
      intro x hx
      rw [hinode, hm.nextInode]
      exact h.inode_lt x ((hm.inTree_iff x).1 hx)
    unlinked := by
      intro x hx0 hx
      rw [hlinked'] at hx
      have hxe : x ≠ e := by
        rintro rfl
        simp [hlinked] at hx
      rw [hparent x hxe]
      exact h.unlinked x hx0 hx
    dents_mem := by
      intro j x hx
      obtain ⟨hk, -, hd⟩ := hm.inodes j
      rw [hk, hd, hlinked']
      rcases (hm.dents j x).1 hx with ⟨hmem, hxe⟩ | ⟨rfl, rfl⟩
      · rw [hparent x hxe]
        exact h.dents_mem j x hmem
      · rw [hdent]
        exact ⟨hdir, hlinked, hm.parent_moved, nofun⟩
    linked_mem := by
      intro x hx
      rw [hlinked'] at hx
      by_cases hxe : x = e
      · refine ⟨p, hxe ▸ hm.parent_moved, ?_⟩
        rw [hinode, hpd, hm.dents]
        exact .inr ⟨rfl, hxe⟩
      obtain ⟨q, hq, hmem⟩ := h.linked_mem x hx
      refine ⟨q, (hparent x hxe).trans hq, ?_⟩
      rw [hinode, hm.dents]
      exact .inl ⟨hmem, hxe⟩
    names := by
      intro j
      refine h.names_of (e := e) (fun x hx hxe => ?_) fun he x hmem hxe => ?_
      · obtain ⟨hmem, -⟩ := ((hm.dents j x).1 hx).resolve_right fun hmoved => hxe hmoved.2
        exact ⟨hmem, hm.entry_of_ne hxe⟩
      obtain ⟨rfl, -⟩ := ((hm.dents j e).1 he).resolve_left fun hkept => hkept.2 rfl
      rw [hm.entry_moved]
      exact hname x hmem hxe
    dir_cases := by
      intro j hj
      obtain ⟨hk, hl, hd⟩ := hm.inodes j
      rw [hk] at hj
      simp only [hl, hd, hinode, hm.inTree_iff]
      exact h.dir_cases j hj
    dir_entry := by
      intro x hx hk
      rw [hinode, (hm.inodes _).1] at hk
      rw [hinode, (hm.inodes _).2.2]
      exact h.dir_entry x ((hm.inTree_iff x).1 hx) hk
    climbs := by
      intro x hx
      rw [hlinked'] at hx
      exact (h.climbs x hx).reparent (h.climbs_of_inTree hpin) hbelow hparent hm.parent_moved }

end Junction.MemFs
