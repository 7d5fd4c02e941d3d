import Junction.PathWalk

/-!
# Entries made in a directory that was found before

A thread looks up a directory and then makes an entry in it, and in between other threads may remove the
directory. Of the operations that make entries only `Link` asks whether the directory is stale.
-/

namespace Junction
open ParentTree MemFs Run FsCall

namespace MemFs
variable {t : MemFs} {d : ℕ}

def kTypeCharacter : ℕ := 0x2000

def kTypeBlock : ℕ := 0x6000

def mkNod (t : MemFs) (d : ℕ) (name : String) (mode : ℕ) : Status Unit × MemFs :=
  if mode &&& (kTypeCharacter ||| kTypeBlock) = 0 then (.error .EINVAL, t) else t.addNew d name .device

def LinkedToRoot (t : MemFs) (d : ℕ) : Prop :=
  ∃ e, t.InTree e ∧ (t.entries e).inode = d ∧ Climbs t.parent e 0

theorem TreeInv.linkedToRoot (h : t.TreeInv) (hd : (t.inodes d).dents ≠ []) : t.LinkedToRoot d := by
  obtain ⟨e, he⟩ := List.exists_mem_of_ne_nil _ hd
  obtain ⟨p, -, -, hinode, hin⟩ := h.mem_dents he
  exact ⟨p, hin, hinode, h.climbs_of_inTree hin⟩

theorem TreeInv.findRaw_of_stale (h : t.TreeInv) (hd : ¬ t.Live d) (name : String) : t.findRaw d name = none := by
  refine List.find?_eq_none.2 fun e he => ?_
  obtain ⟨p, -, hdent, -, -⟩ := h.mem_dents he
  have hdir := (h.dents_mem d e he).1
  exact absurd ⟨hdir, by simp [Inode.isStale, (h.dent_spec hdir hdent).1]⟩ hd

theorem dents_modifyInode_insertDent (t : MemFs) (d e : ℕ) :
    ((t.modifyInode d (Inode.insertDent e)).inodes d).dents ≠ [] := by
  simp [modifyInode, Inode.insertDent]

end MemFs

/-- The operations of `MemIDir` that make an entry in the directory. -/
inductive Creation
  | create (name : String) (exclusive : Bool)
  | mkDir (name : String)
  | symLink (name : String)
  | mkNod (name : String) (mode : ℕ)
  | link (name : String) (ino : ℕ)
  | rename (src : ℕ) (srcName dstName : String) (replace : Bool)

namespace Creation
variable {t : MemFs} {d : ℕ}

def run (t : MemFs) (d : ℕ) : Creation → Status Unit × MemFs
  | create name exclusive => t.create d name exclusive
  | mkDir name => t.mkDir d name
  | symLink name => t.symLink d name
  | mkNod name mode => t.mkNod d name mode
  | link name ino => t.link d name ino
  | rename src srcName dstName replace => t.rename d src srcName dstName replace

/-- A success leaves the directory linked to the root, and in a directory that has been removed nothing is
made. -/
def Reaches (t : MemFs) (d : ℕ) (c : Creation) : Prop :=
  ((c.run t d).1 = .ok () → (c.run t d).2.LinkedToRoot d) ∧
    ((t.inodes d).isStale → (c.run t d).1 ≠ .ok () ∧ (c.run t d).2 = t)

/-- The inode of a link exists. A rename does not move a directory below itself, and what it replaces holds
no entries. -/
def Sound (t : MemFs) (d : ℕ) : Creation → Prop
  | link _ ino => ino < t.nextInode
  | rename src srcName dstName replace => ∀ e, t.findRaw src srcName = some e →
      (∀ p, (t.inodes d).dent = some p → ¬ Climbs t.parent p e) ∧
      ∀ c, t.findRaw d dstName = some c → c ≠ e → replace = true →
        (t.inodes (t.entries c).inode).dents = []
  | _ => True

/-- The operation would make nothing in an empty directory that has been removed. -/
def Declines (t : MemFs) : Creation → Prop
  | link _ _ => True
  | mkNod _ mode => mode &&& (kTypeCharacter ||| kTypeBlock) = 0
  | rename src srcName _ _ => (t.inodes src).idirType ≠ .kMem ∨ t.findRaw src srcName = none
  | _ => False

variable {c : Creation}

theorem treeInv_run (h : t.TreeInv) (hd : t.Live d) (hc : c.Sound t d) : (c.run t d).2.TreeInv := by
  cases c with
  | create name exclusive => exact h.create name exclusive hd
  | mkDir name => exact h.mkDir name hd
  | symLink name => exact h.addNew name hd (by decide)
  | mkNod name mode =>
    simp only [run, MemFs.mkNod]
    split_ifs
    · exact h
    · exact h.addNew name hd (by decide)
  | link name ino => exact h.link name hd.1 hc
  | rename src srcName dstName replace => exact h.rename ⟨hd, hc⟩

theorem dents_addNew {name : String} {kind : InodeKind} (hok : (t.addNew d name kind).1 = .ok ()) :
    ((t.addNew d name kind).2.inodes d).dents ≠ [] := by
  unfold addNew at hok ⊢
  cases hfind : t.findRaw d name with
  | some e => simp [hfind] at hok
  | none => exact dents_modifyInode_insertDent _ d _

theorem dents_run (hok : (c.run t d).1 = .ok ()) : ((c.run t d).2.inodes d).dents ≠ [] := by
  cases c with
  | create name exclusive =>
    simp only [run, MemFs.create] at hok ⊢
    cases hfind : t.findRaw d name with
    | some e => exact List.ne_nil_of_mem (MemFs.findRaw_eq_some hfind).1
    | none =>
      rw [hfind] at hok
      exact dents_addNew hok
  | mkDir name =>
    simp only [run, MemFs.mkDir] at hok ⊢
    cases hfind : t.findRaw d name with
    | some e => simp [hfind] at hok
    | none => exact MemFs.dents_modifyInode_insertDent _ d _
  | symLink name => exact dents_addNew hok
  | mkNod name mode =>
    simp only [run, MemFs.mkNod] at hok ⊢
    split_ifs at hok ⊢
    exact dents_addNew hok
  | link name ino =>
    simp only [run, MemFs.link, MemFs.addDentLocked] at hok ⊢
    split_ifs at hok ⊢
    cases hfind : t.findRaw d name with
    | some e => simp [hfind] at hok
    | none => exact dents_modifyInode_insertDent _ d _
  | rename src srcName dstName replace =>
    simp only [run, MemFs.rename] at hok ⊢
    by_cases htype : (t.inodes src).idirType ≠ .kMem
    · simp [htype] at hok
    rw [if_neg htype] at hok ⊢
    unfold moveFrom at hok ⊢
    cases hfind : t.findRaw src srcName with
    | none => simp [hfind] at hok
    | some e =>
      rw [hfind] at hok
      dsimp only at hok ⊢
      generalize t.modifyInode src (Inode.eraseDent e) = u at hok ⊢
      cases hconflict : u.findRaw d dstName with
      | none => exact dents_modifyInode_insertDent _ d _
      | some c =>
        cases replace with
        | false => simp [hconflict] at hok
        | true => exact dents_modifyInode_insertDent _ d _

theorem run_of_declines (hdir : (t.inodes d).isStale) (hc : c.Declines t) :
    (c.run t d).1 ≠ .ok () ∧ (c.run t d).2 = t := by
  cases c with
  | create | mkDir | symLink => exact hc.elim
  | mkNod name mode => simp [run, MemFs.mkNod, show _ = 0 from hc]
  | link name ino =>
    simp only [run, MemFs.link]
    split_ifs <;> exact ⟨by simp, rfl⟩
  | rename src srcName dstName replace =>
    simp only [run, MemFs.rename, MemFs.moveFrom]
    rcases hc with htype | hfind
    · rw [if_pos htype]
      exact ⟨by simp, rfl⟩
    · rw [hfind]
      split_ifs <;> exact ⟨by simp, rfl⟩

theorem run_of_not_declines (h : t.TreeInv) (hd : ¬ t.Live d) (hc : ¬ c.Declines t) : (c.run t d).1 = .ok () := by
  have hfree := h.findRaw_of_stale hd
  cases c with
  | create name exclusive => simp [run, MemFs.create, MemFs.addNew, hfree]
  | mkDir name => simp [run, MemFs.mkDir, hfree]
  | symLink name => simp [run, MemFs.symLink, MemFs.addNew, hfree]
  | mkNod name mode => simp [run, MemFs.mkNod, show ¬ _ = 0 from hc, MemFs.addNew, hfree]
  | link => exact absurd trivial hc
  | rename src srcName dstName replace =>
    obtain ⟨htype, hfind⟩ := not_or.1 hc
    obtain ⟨e, he⟩ := Option.ne_none_iff_exists'.1 hfind
    have hnil : (t.inodes d).dents = [] := by
      refine List.eq_nil_iff_forall_not_mem.2 fun x hx => ?_
      have hx' := h.findRaw_eq_some_iff.2 ⟨hx, rfl⟩
      simp [hfree] at hx'
    have hfree' : (t.modifyInode src (Inode.eraseDent e)).findRaw d dstName = none := by
      dsimp only [findRaw, modifyInode]
      split_ifs <;> simp [Inode.eraseDent, hnil]
    simp [run, MemFs.rename, MemFs.moveFrom, not_not.1 htype, he, hfree']

end Creation

/-- An entry is made only in a directory that is linked to the root exactly if the directory has not been removed or the
operation declines anyway. -/
theorem creation_reaches_iff {calls : List FsCall}
    (hsafe : Run.Admitted (next run) FsCall.Safe init calls) {d : ℕ}
    (hdir : ((exec (next run) init calls).inodes d).kind = .directory) {c : Creation}
    (hc : c.Sound (exec (next run) init calls) d) :
    c.Reaches (exec (next run) init calls) d ↔ (exec (next run) init calls).Live d ∨
        c.Declines (exec (next run) init calls) := by
  have h : (exec (next run) init calls).TreeInv :=
    invariant_exec run_treeInv treeInv_init hsafe
  generalize exec (next run) init calls = t at hdir hc h ⊢
  have hstale : ¬ t.Live d → (t.inodes d).isStale = true := fun hd => by
    simpa [MemFs.Live, hdir] using hd
  constructor
  · intro hreaches
    by_contra hcon
    obtain ⟨hd, hdecline⟩ := not_or.1 hcon
    exact (hreaches.2 (hstale hd)).1 (Creation.run_of_not_declines h hd hdecline)
  intro hcond
  by_cases hd : t.Live d
  · refine ⟨fun hok => ?_, fun hs => ?_⟩
    · exact (Creation.treeInv_run h hd hc).linkedToRoot (Creation.dents_run hok)
    · simp [hd.2] at hs
  · have hrun := Creation.run_of_declines (hstale hd) (hcond.resolve_left hd)
    exact ⟨fun hok => absurd hok hrun.1, fun _ => hrun⟩

theorem creation_reaches_iff_file :
    (Creation.create "f" true).Reaches (exec (next run) init [.mkDir 0 "a"]) 1 := by
  have hsafe : Run.Admitted (next run) FsCall.Safe init [.mkDir 0 "a"] := ⟨⟨rfl, rfl⟩, trivial⟩
  exact (creation_reaches_iff hsafe rfl (c := .create "f" true) trivial).2 (.inl ⟨rfl, by decide⟩)

/-- A directory is removed before a file is created in it, and the creation succeeds. -/
theorem create_in_removed_directory :
    let t := exec (next run) init [.mkDir 0 "a", .rmDir 0 "a"]
    (t.inodes 1).isStale ∧ (Creation.run t 1 (.create "f" true)).1 = .ok () ∧
      ¬ (Creation.create "f" true).Reaches t 1 := by
  intro t
  have hstale : (t.inodes 1).isStale := by decide
  have hok : (Creation.run t 1 (.create "f" true)).1 = .ok () := by decide
  exact ⟨hstale, hok, fun hreaches => (hreaches.2 hstale).1 hok⟩

/-!
### System calls that take paths

A path such as `/`, `.` or `..` leaves no name, and `MkDir` and `Rename` take the empty one.
-/

/-- The data of a call's path: the directory, the name in it, and whether the path asks for a directory. -/
structure Entry where
  dir : ℕ
  name : String
  mustBeDir : Bool

structure OpenFlags where
  directory : Bool
  noFollow : Bool
  path : Bool
  create : Bool
  exclusive : Bool
  temp : Bool

namespace MemFs
variable (t : MemFs) (target : ℕ → String) (fs : FSRoot)

/-- `GetPathDirAt`: an absolute path starts at the root, another one at the working directory or at that of a
file descriptor. -/
def getPathDirAt (pos : ℕ) (path : String) : ℕ :=
  if path.toList.head? = some '/' then (t.entries fs.root_).inode else pos

def lookupEntry (pos : ℕ) (path : String) : Except WalkError Entry :=
  if !pathIsValid path then .error (.code .EINVAL)
  else
    match (splitPath path).1.getLast? with
    | none => .ok ⟨t.getPathDirAt fs pos path, "", true⟩
    | some name =>
      match t.walkPath target fs kMaxLinksToChase (t.getPathDirAt fs pos path) (splitPath path).1.dropLast true with
      | .error x => .error x
      | .ok e =>
        if !(t.inodes (t.entries e).inode).isDir then .error (.code .ENOTDIR)
        else if name = ".." then
          if e = fs.root_ then .ok ⟨(t.entries e).inode, "", true⟩
          else
            match t.parent e with
            | none => .error (.code .ESTALE)
            | some p => .ok ⟨(t.entries p).inode, "", true⟩
        else .ok ⟨(t.entries e).inode, if name = "." then "" else name, (splitPath path).2⟩

inductive Left (pos : ℕ) (path : String) : Entry → Prop
  | none (hnil : (splitPath path).1 = []) : Left pos path ⟨t.getPathDirAt fs pos path, "", true⟩
  | up {l : List String} {d : ℕ} (hpath : (splitPath path).1 = l ++ [".."])
    (hd : ∃ e, d = (t.entries e).inode ∧ (e = fs.root_ ∨ ∃ x, t.parent x = some e)) : Left pos path ⟨d, "", true⟩
  | name {l : List String} {v : String} {e : ℕ} (hpath : (splitPath path).1 = l ++ [v]) (hv : v ∉ ["", ".", ".."])
    (hdir : (t.inodes (t.entries e).inode).kind = .directory) :
    Left pos path ⟨(t.entries e).inode, v, (splitPath path).2⟩

theorem last_splitPath {path v : String} {l : List String} (hpath : (splitPath path).1 = l ++ [v]) :
    v ≠ "" ∧ v ≠ "." := by
  change (split path).rdropWhile (fun v => v = "" || v = ".") = l ++ [v] at hpath
  have hne : (split path).rdropWhile (fun v => v = "" || v = ".") ≠ [] := by simp [hpath]
  have hlast := List.rdropWhile_last_not _ (split path) hne
  simpa [hpath] using hlast

theorem lookupEntry_left {pos : ℕ} {path : String} {en : Entry} (hen : t.lookupEntry target fs pos path = .ok en) :
    pathIsValid path ∧ t.Left fs pos path en := by
  unfold lookupEntry at hen
  cases hvalid : pathIsValid path with
  | false => simp [hvalid] at hen
  | true =>
    refine ⟨rfl, ?_⟩
    simp only [hvalid, Bool.not_true, Bool.false_eq_true, if_false] at hen
    cases hv : (splitPath path).1.getLast? with
    | none =>
      rw [hv] at hen
      exact Except.ok.inj hen ▸ .none (List.getLast?_eq_none_iff.1 hv)
    | some v =>
      rw [hv] at hen
      obtain ⟨l, hpath⟩ := List.getLast?_eq_some_iff.1 hv
      obtain ⟨hempty, hdot⟩ := last_splitPath hpath
      generalize t.walkPath target fs _ _ _ _ = w at hen
      cases w with
      | error x => cases hen
      | ok e =>
        by_cases hup : v = ".."
        · subst hup
          cases hparent : t.parent e <;> simp only [hparent, if_true] at hen <;> split_ifs at hen with _ hroot <;>
            obtain rfl := Except.ok.inj hen
          · exact .up hpath ⟨e, rfl, .inl hroot⟩
          · exact .up hpath ⟨e, rfl, .inl hroot⟩
          · exact .up hpath ⟨_, rfl, .inr ⟨e, hparent⟩⟩
        · simp only [hup, hdot, if_false] at hen
          split_ifs at hen with hdir
          exact Except.ok.inj hen ▸ .name hpath (by simp [hempty, hdot, hup]) (by simpa [Inode.isDir] using hdir)

/-- `Open`, up to the inode that is opened. -/
def openEntry (en : Entry) (flags : OpenFlags) : Except WalkError ℕ × MemFs :=
  if en.name = "" then
    if flags.exclusive then (.error (.code .EINVAL), t)
    else
      match (t.inodes en.dir).dent with
      | none => (.error .null, t)
      | some e => (.ok (t.entries e).inode, t)
  else
    match t.findRaw en.dir en.name with
    | none =>
      if flags.create && !flags.directory then (.ok t.nextInode, (t.create en.dir en.name flags.exclusive).2)
      else (.error (.code .ENOENT), t)
    | some e =>
      let ino := (t.entries e).inode
      if flags.exclusive && flags.create then (.error (.code .EEXIST), t)
      else if flags.directory && !(t.inodes ino).isDir then (.error (.code .ENOTDIR), t)
      else if flags.temp then (.ok t.nextInode, t.allocInode (.ofKind .regularFile))
      else if !t.isSymLink ino then (.ok ino, t)
      else if !flags.noFollow then
        ((t.walkPath target fs kMaxLinksToChase en.dir [en.name] true).map fun r => (t.entries r).inode, t)
      else if !flags.path then (.error (.code .ELOOP), t)
      else (.ok ino, t)

end MemFs

/-- The calls, each with the directory that a relative path starts from. -/
inductive PathCall
  | mknod (pos : ℕ) (path : String) (mode : ℕ)
  | mkdir (pos : ℕ) (path : String)
  | unlink (pos : ℕ) (path : String)
  | rmdir (pos : ℕ) (path : String)
  | symlink (text : String) (pos : ℕ) (path : String)
  | rename (oldpos : ℕ) (oldpath : String) (newpos : ℕ) (newpath : String) (replace : Bool)
  | link (ino pos : ℕ) (path : String)
  | openAt (pos : ℕ) (path : String) (flags : OpenFlags)

namespace PathCall
variable (t : MemFs) (target : ℕ → String) (fs : FSRoot)

def withEntry (pos : ℕ) (path : String) (op : Entry → Except WalkError Unit × MemFs) : Except WalkError Unit × MemFs :=
  match t.lookupEntry target fs pos path with
  | .error x => (.error x, t)
  | .ok en => op en

def answer (r : Status Unit × MemFs) : Except WalkError Unit × MemFs := (r.1.mapError .code, r.2)

def run : PathCall → Except WalkError Unit × MemFs
  | mknod pos path mode => withEntry t target fs pos path fun en =>
      if en.mustBeDir then (.error (.code .EISDIR), t) else answer (t.mkNod en.dir en.name mode)
  | mkdir pos path => withEntry t target fs pos path fun en => answer (t.mkDir en.dir en.name)
  | unlink pos path => withEntry t target fs pos path fun en =>
      if en.mustBeDir then (.error (.code .EISDIR), t) else answer (t.unlink en.dir en.name)
  | rmdir pos path => withEntry t target fs pos path fun en => answer (t.rmDir en.dir en.name)
  | symlink text pos path => withEntry t target fs pos path fun en =>
      if en.mustBeDir then (.error (.code .EISDIR), t)
      else if !pathIsValid text then (.error (.code .EINVAL), t)
      else answer (t.symLink en.dir en.name)
  | rename oldpos oldpath newpos newpath replace => withEntry t target fs oldpos oldpath fun src =>
      withEntry t target fs newpos newpath fun dst => answer (t.rename dst.dir src.dir src.name dst.name replace)
  | link ino pos path => withEntry t target fs pos path fun en =>
      if (t.inodes ino).isDir || en.mustBeDir then (.error (.code .EPERM), t)
      else answer (t.link en.dir en.name ino)
  | openAt pos path flags => withEntry t target fs pos path fun en =>
      ((t.openEntry target fs en flags).1.map fun _ => (), (t.openEntry target fs en flags).2)

end PathCall
end Junction
