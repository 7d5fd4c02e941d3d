import Junction.CreatedEntries

/-!
# The names in directories

Whatever paths the calls are given, the name that a path leaves is a legal component or empty, and it is empty only
if the path asks for a directory. So names stay legal as long as `mkdir` and `rename` are given paths that leave one.
-/

namespace Junction
open List MemFs Run
variable {pos e : ℕ} {path : String}

namespace MemFs
variable {t : MemFs}

def LegalNames (t : MemFs) : Prop := ∀ d, ∀ e ∈ (t.inodes d).dents, IsComponent (t.entries e).name

def HasLast (path : String) : Prop := ∃ v, (splitPath path).1.getLast? = some v ∧ v ≠ ".."

theorem mem_splitOn {a : Char} {l w : List Char} (hw : w ∈ l.splitOn a) : a ∉ w ∧ w ⊆ l := by
  induction l generalizing w with
  | nil => simp_all
  | cons x l ih =>
    rw [splitOn_cons_eq_if_modifyHead] at hw
    by_cases hx : x = a
    · grind
    cases hsplit : l.splitOn a with
    | nil => simp [hsplit, hx] at hw
    | cons head tail =>
      have hhead := ih (w := head) (by simp [hsplit])
      simp only [hsplit, beq_iff_eq, hx, if_false, modifyHead_cons, mem_cons] at hw
      rcases hw with rfl | hw
      · exact ⟨by simp [hhead.1, Ne.symm hx], cons_subset_cons x hhead.2⟩
      · grind

theorem lookupEntry_name {target : ℕ → String} {fs : FSRoot} {en : Entry}
    (hen : t.lookupEntry target fs pos path = .ok en) :
    IsComponent en.name ∨ en.name = "" ∧ en.mustBeDir ∧ ¬ HasLast path := by
  obtain ⟨hvalid, hleft⟩ := lookupEntry_left t target fs hen
  cases hleft with
  | none hnil => exact .inr ⟨rfl, rfl, fun ⟨v, hv, _⟩ => by simp [hnil] at hv⟩
  | up hpath => exact .inr ⟨rfl, rfl, fun ⟨v, hv, hne⟩ => hne (by simpa [hpath, eq_comm] using hv)⟩
  | @name l v e hpath hv hdir =>
    have hsplit : (splitPath path).1 <+: split path := rdropWhile_prefix _ _
    obtain ⟨w, hw, rfl⟩ := mem_map.1 (hsplit.subset (a := v) (by simp [hpath]))
    obtain ⟨hslash, hsub⟩ := mem_splitOn hw
    refine .inl ⟨hv, by simpa using hslash, fun hnul => ?_⟩
    simp [pathIsValid, hsub (by simpa using hnul)] at hvalid

section Changes
variable (h : t.LegalNames)
include h

theorem LegalNames.setEntry {x : DirectoryEntry} (hx : x.name = (t.entries e).name ∨ IsComponent x.name) :
    (t.setEntry e x).LegalNames := by
  intro d e' he'
  by_cases hee : e' = e
  · subst hee
    rcases hx with hsame | hlegal
    · simpa [setEntry, hsame] using h d e' he'
    · simpa [setEntry] using hlegal
  · simpa [MemFs.setEntry, hee] using h d e' he'

theorem LegalNames.modifyInode (i : ℕ) {f : Inode → Inode} (hf : ∀ x, (f x).dents ⊆ x.dents) :
    (t.modifyInode i f).LegalNames := by
  intro d e he
  refine h d e ?_
  by_cases hdi : d = i
  · exact hf _ (by simpa [MemFs.modifyInode, hdi] using he)
  · simpa [MemFs.modifyInode, hdi] using he

theorem LegalNames.insertDent (d : ℕ) (he : IsComponent (t.entries e).name) :
    (t.modifyInode d (Inode.insertDent e)).LegalNames := by
  intro d' e' he'
  by_cases hd : d' = d
  · rcases mem_cons.1 (by simpa [MemFs.modifyInode, hd, Inode.insertDent] using he') with rfl | hmem
    · exact he
    · exact h d e' hmem
  · exact h d' e' (by simpa [MemFs.modifyInode, hd] using he')

theorem LegalNames.allocInode {x : Inode} (hx : x.dents = []) : (t.allocInode x).LegalNames := by
  intro d e he
  by_cases hd : d = t.nextInode
  · simp [MemFs.allocInode, hd, hx] at he
  · exact h d e (by simpa [MemFs.allocInode, hd] using he)

variable {name : String}

theorem LegalNames.linkEntry (d : ℕ) (hname : IsComponent name) (ino : ℕ) : (t.linkEntry d name ino).LegalNames := by
  have hset : (t.setEntry t.nextEntry ⟨name, ino, (t.inodes d).dent, true⟩).LegalNames := h.setEntry (.inr hname)
  dsimp only [MemFs.linkEntry]
  split_ifs
  · refine LegalNames.insertDent (LegalNames.modifyInode hset ino fun x => ?_) d (by simpa [MemFs.modifyInode, MemFs.setEntry])
    exact fun _ hx => hx
  · exact LegalNames.insertDent hset d (by simpa [MemFs.setEntry])

theorem LegalNames.addNew (d : ℕ) (hname : IsComponent name) (kind : InodeKind) :
    (t.addNew d name kind).2.LegalNames := by
  unfold MemFs.addNew
  cases t.findRaw d name with
  | some e => exact h
  | none => exact LegalNames.linkEntry (h.allocInode rfl) d hname _

theorem LegalNames.unlinkAndDispose (d e : ℕ) : (t.unlinkAndDispose d e).LegalNames := by
  have hreset : ∀ x : Inode, x.resetDent.dents ⊆ x.dents := fun x => by
    unfold Inode.resetDent
    split_ifs <;> exact fun _ hx => hx
  have herase : ∀ x : Inode, (x.eraseDent e).dents ⊆ x.dents := fun x => filter_sublist.subset
  refine LegalNames.modifyInode (LegalNames.modifyInode (LegalNames.setEntry ?_ (.inl ?_)) _ hreset) d herase
  · split_ifs
    · exact h.modifyInode _ fun x => fun _ hx => hx
    · exact h
  · split_ifs <;> rfl

theorem LegalNames.commitMove (dst e : ℕ) (hname : IsComponent name) : (t.commitMove dst e name).LegalNames :=
  LegalNames.insertDent (h.setEntry (.inr hname)) dst (by simpa [MemFs.setEntry] using hname)

theorem LegalNames.rename (dst src : ℕ) (srcName : String) (hname : IsComponent name)
    (replace : Bool) : (t.rename dst src srcName name replace).2.LegalNames := by
  unfold MemFs.rename MemFs.moveFrom
  by_cases htype : (t.inodes src).idirType ≠ .kMem
  · rwa [if_pos htype]
  rw [if_neg htype]
  cases hfind : t.findRaw src srcName with
  | none => exact h
  | some e =>
    have herase : (t.modifyInode src (Inode.eraseDent e)).LegalNames := h.modifyInode src fun x => filter_sublist.subset
    dsimp only
    cases (t.modifyInode src (Inode.eraseDent e)).findRaw dst name with
    | none => exact herase.commitMove dst e hname
    | some conflict =>
      cases replace with
      | false => exact herase.insertDent src (h src e (findRaw_eq_some hfind).1)
      | true => exact (herase.unlinkAndDispose dst conflict).commitMove dst e hname

end Changes
end MemFs

namespace PathCall
open MemFs

/-- The paths of `mkdir` and of the destination of `rename` leave a name. -/
def Names : PathCall → Prop
  | mkdir _ path => HasLast path
  | rename _ _ _ newpath _ => HasLast newpath
  | _ => True

theorem legalNames_withEntry {t : MemFs} {target : ℕ → String} {fs : FSRoot}
    {op : Entry → Except WalkError Unit × MemFs} (h : t.LegalNames)
    (hop : ∀ en, t.lookupEntry target fs pos path = .ok en → (op en).2.LegalNames) :
    (withEntry t target fs pos path op).2.LegalNames := by
  unfold withEntry
  cases hen : t.lookupEntry target fs pos path with
  | error x => exact h
  | ok en => exact hop en hen

theorem run_legalNames (t : MemFs) (target : ℕ → String) (fs : FSRoot) (c : PathCall) (h : t.LegalNames)
    (hc : c.Names) : (c.run t target fs).2.LegalNames := by
  cases c with
  | mknod pos path mode =>
    refine legalNames_withEntry h fun en hen => ?_
    split_ifs with hdir
    · exact h
    unfold answer mkNod
    split_ifs
    · exact h
    · exact h.addNew en.dir ((lookupEntry_name hen).resolve_right fun hno => hdir hno.2.1) _
  | mkdir pos path =>
    refine legalNames_withEntry h fun en hen => ?_
    unfold answer mkDir
    cases t.findRaw en.dir en.name with
    | some e => exact h
    | none => exact LegalNames.linkEntry (h.allocInode rfl) en.dir ((lookupEntry_name hen).resolve_right fun hno => hno.2.2 hc) _
  | unlink pos path =>
    refine legalNames_withEntry h fun en hen => ?_
    unfold answer MemFs.unlink
    cases t.findRaw en.dir en.name with
    | none => split_ifs <;> exact h
    | some e =>
      dsimp only
      split_ifs
      all_goals first | exact h | exact h.unlinkAndDispose en.dir e
  | rmdir pos path =>
    refine legalNames_withEntry h fun en hen => ?_
    unfold answer rmDir
    cases t.findRaw en.dir en.name with
    | none => exact h
    | some e =>
      dsimp only
      split_ifs
      all_goals first | exact h | exact h.unlinkAndDispose en.dir e
  | symlink text pos path =>
    refine legalNames_withEntry h fun en hen => ?_
    split_ifs with hdir
    · exact h
    · exact h
    · exact h.addNew en.dir ((lookupEntry_name hen).resolve_right fun hno => hdir hno.2.1) _
  | rename oldpos oldpath newpos newpath replace =>
    refine legalNames_withEntry h fun src _ => legalNames_withEntry h fun dst hdst => ?_
    exact h.rename dst.dir src.dir src.name ((lookupEntry_name hdst).resolve_right fun hno => hno.2.2 hc) replace
  | link ino pos path =>
    refine legalNames_withEntry h fun en hen => ?_
    split_ifs with hdir
    · exact h
    unfold answer MemFs.link MemFs.addDentLocked
    split_ifs
    · exact h
    · exact h
    cases t.findRaw en.dir en.name with
    | some e => exact h
    | none => exact h.linkEntry en.dir ((lookupEntry_name hen).resolve_right fun hno => hdir (by simp [hno.2.1])) ino
  | openAt pos path flags =>
    refine legalNames_withEntry h fun en hen => ?_
    unfold openEntry
    by_cases hname : en.name = ""
    · rw [if_pos hname]
      split_ifs
      · exact h
      · cases (t.inodes en.dir).dent <;> exact h
    rw [if_neg hname]
    cases hfind : t.findRaw en.dir en.name with
    | none =>
      dsimp only
      split_ifs
      · rw [create, hfind]
        exact h.addNew en.dir ((lookupEntry_name hen).resolve_right fun hno => hname hno.1) _
      · exact h
    | some e =>
      dsimp only
      split_ifs
      all_goals first | exact h | exact h.allocInode rfl

end PathCall

namespace MemFs
variable {t : MemFs} {target : ℕ → String} {fs : FSRoot} {d : ℕ}

theorem walkPath_neutral (hd : t.Live d) (hdent : (t.inodes d).dent = some e) (depth : ℕ)
    {l : List String} (hl : ∀ v ∈ l, v = "" ∨ v = ".") (chase : Bool) :
    t.walkPath target fs (depth + 1) d l chase = .ok e := by
  rw [walkPath, hdent]
  induction l with
  | nil => simp [walkLoop, hd.2]
  | cons v l ih =>
    rw [walkLoop, if_pos (hl v mem_cons_self)]
    exact ih fun w hw => hl w (mem_cons_of_mem v hw)

variable {x : ℕ} {p : String}

/-- The components that a lookup strips do not matter to a walk that ends in a directory. -/
theorem walkPath_split (h : t.TreeInv) (hroot : t.Rooted fs) {depth : ℕ} (hd : t.Live d)
    (hx : t.walkPath target fs (depth + 1) d (splitPath p).1 true = .ok x)
    (hkind : (t.inodes (t.entries x).inode).kind = .directory) :
    t.walkPath target fs (depth + 1) d (split p) true = .ok x := by
  have hin : t.InTree x := h.walkPath_lands hroot (depth + 1) d _ x hd hx
  have hstrip : (splitPath p).1 ++ (split p).rtakeWhile (fun v => v = "" || v = ".") = split p :=
    rdropWhile_append_rtakeWhile
  rw [← hstrip]
  by_cases hnil : (split p).rtakeWhile (fun v => v = "" || v = ".") = []
  · rwa [hnil, append_nil]
  have hneutral : ∀ v ∈ (split p).rtakeWhile (fun v => v = "" || v = "."), v = "" ∨ v = "." :=
    fun v hv => by simpa using mem_rtakeWhile_imp hv
  rw [h.walkPath_append hroot hd _ _ hnil, hx]
  simp only [Except.bind, Inode.isDir, hkind, decide_true, Bool.not_true, Bool.false_eq_true, if_false]
  exact walkPath_neutral (h.isTree.entry_live x hin hkind) (h.dir_entry x hin hkind) depth hneutral true

theorem lookupDirEntry_append (h : t.TreeInv) (hroot : t.Rooted fs) (hcwd : t.Live (t.entries fs.cwd_).inode) (he : e ∈ (t.inodes (t.entries x).inode).dents) (hname : IsComponent (t.entries e).name)
    (hfresh : (t.inodes (t.entries e).inode).isStale = false) (hp : p ≠ "")
    (hx : t.lookupDirEntry target fs p true = .ok x) :
    t.lookupDirEntry target fs (p ++ "/" ++ (t.entries e).name) false = .ok e := by
  have hdir : t.getPathDir fs (p ++ "/" ++ (t.entries e).name) = t.getPathDir fs p := by
    have hne : p.toList ≠ [] := by simpa using hp
    simp [getPathDir, head?_append_of_ne_nil _ hne]
  have hd : t.Live (t.getPathDir fs p) := by
    unfold getPathDir
    split_ifs
    · exact h.isTree.entry_live fs.root_ hroot.1 hroot.2
    · exact hcwd
  have hsplit : split (p ++ "/" ++ (t.entries e).name) = split p ++ [(t.entries e).name] := by
    simp [split, splitOn_append_cons_self, splitOn_eq_singleton hname.2.1]
  have hkind := (h.dents_mem _ e he).1
  unfold lookupDirEntry at hx ⊢
  cases hvalid : pathIsValid p with
  | false => simp [hvalid] at hx
  | true =>
    have hvalid' : pathIsValid (p ++ "/" ++ (t.entries e).name) := by
      simp only [pathIsValid, Bool.not_eq_true', contains_eq_mem, decide_eq_false_iff_not] at hvalid ⊢
      simp [hvalid, hname.2.2]
    rw [hvalid, Bool.true_or] at hx
    rw [hvalid', hdir, splitPath_of_split hsplit hname]
    have hwalk : t.walkPath target fs kMaxLinksToChase (t.getPathDir fs p) (split p) true = .ok x :=
      walkPath_split h hroot hd hx hkind
    rw [h.walkPath_append hroot hd _ _ (cons_ne_nil _ _), hwalk]
    simp only [Except.bind, Inode.isDir, hkind, decide_true, Bool.not_true, Bool.false_eq_true, if_false]
    exact walkPath_component h he hname hfresh 7 (by simp)

end MemFs

/-- A call of a process, with the texts of the links at its time. -/
structure PathStep where
  target : ℕ → String
  fs : FSRoot
  call : PathCall

def PathStep.run (t : MemFs) (s : PathStep) : Except WalkError Unit × MemFs := s.call.run t s.target s.fs

/-- In every run whose `mkdir` and `rename` paths leave a name, every name in a directory is legal, and an entry is
found again under the path of its directory followed by its name. -/
theorem names_stay_legal {steps : List PathStep}
    (hsteps : Run.Admitted (next PathStep.run) (fun _ s => s.call.Names) init steps) :
    let t := exec (next PathStep.run) init steps
    t.LegalNames ∧ ∀ target fs, t.TreeInv → t.Rooted fs → t.Live (t.entries fs.cwd_).inode →
      ∀ e x p, e ∈ (t.inodes (t.entries x).inode).dents → (t.inodes (t.entries e).inode).isStale = false →
        p ≠ "" → t.lookupDirEntry target fs p true = .ok x →
        t.lookupDirEntry target fs (p ++ "/" ++ (t.entries e).name) false = .ok e := by
  have hstart : init.LegalNames := fun d e he => by
    by_cases hd : d = 0 <;> simp [init, hd, Inode.ofKind] at he
  have hstep : ∀ (t : MemFs) (s : PathStep), t.LegalNames → s.call.Names → (next PathStep.run t s).LegalNames :=
    fun t s h hs => PathCall.run_legalNames t s.target s.fs s.call h hs
  have hlegal : (exec (next PathStep.run) init steps).LegalNames := invariant_exec hstep hstart hsteps
  exact ⟨hlegal, fun target fs htree hroot hcwd e x p he hfresh hp hx =>
    lookupDirEntry_append htree hroot hcwd he (hlegal _ e he) hfresh hp hx⟩

def legalSteps : List PathStep := [⟨fun _ => "", ⟨0, 0⟩, .mkdir 0 "/a/"⟩, ⟨fun _ => "", ⟨0, 0⟩, .mknod 0 "a/../a/d" 0x2000⟩]

theorem names_stay_legal_legalSteps : (exec (next PathStep.run) init legalSteps).LegalNames ∧
    answers PathStep.run init legalSteps = [.ok (), .ok ()] := by
  have hsteps : Run.Admitted (next PathStep.run) (fun _ s => s.call.Names) init legalSteps :=
    ⟨⟨"a", by decide +kernel, by decide⟩, trivial, trivial⟩
  exact ⟨(names_stay_legal hsteps).1, by decide +kernel⟩

/-- `mkdir("/")` makes an entry with an empty name. -/
theorem mkdir_root_empty_name : let t := exec (next PathStep.run) init [⟨fun _ => "", ⟨0, 0⟩, .mkdir 0 "/"⟩]
    (t.inodes 0).dents = [1] ∧ (t.entries 1).name = "" ∧ ¬ t.LegalNames := by
  intro t
  have hdents : (t.inodes 0).dents = [1] := by decide +kernel
  have hname : (t.entries 1).name = "" := by decide +kernel
  refine ⟨hdents, hname, fun h => ?_⟩
  have hlegal := (h 0 1 (by simp [hdents])).1
  simp [hname] at hlegal

end Junction
