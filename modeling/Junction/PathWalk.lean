import Junction.MemFsRuns

/-!
# Path resolution

A walk goes through the components of a path, one lookup each, and resolves links by walks of their own with one
link less to chase. It stands at an entry, which may be null, and in a directory. In a tree a walk along two paths
one after the other is a walk along both.
-/

namespace Junction
open ParentTree

structure FSRoot where
  root_ : ℕ
  cwd_ : ℕ

inductive WalkError
  | code (e : Error)
  | null
  deriving DecidableEq

namespace MemFs
variable (t : MemFs) (target : ℕ → String) (fs : FSRoot)

def kMaxLinksToChase : ℕ := 8

/-- `split` at slashes. -/
def split (path : String) : List String := (path.toList.splitOn '/').map String.ofList

def isSymLink (i : ℕ) : Bool := (t.inodes i).kind = .symLink

/-- Where a walk stands: `curent` and `curdir`. -/
abbrev Stand := Option ℕ × ℕ

/-- A component `..`. -/
def walkUp (cur : Stand) : Except WalkError Stand :=
  if cur.1 = some fs.root_ then .ok cur
  else
    match cur.1 with
    | none => .error .null
    | some e =>
      match t.parent e with
      | none => .error .null
      | some p => .ok (some p, (t.entries p).inode)

def linkDir (curdir : ℕ) (lpath : String) : ℕ :=
  if lpath.toList.head? = some '/' then (t.entries fs.root_).inode else curdir

section Loop
variable (follow : ℕ → List String → Except WalkError ℕ)

/-- The lookup of a name, and the walk along the link that it may be. -/
def walkName (curdir : ℕ) (v : String) (chase : Bool) : Except WalkError ℕ :=
  match t.findRaw curdir v with
  | none => .error (.code .ENOENT)
  | some e =>
    let ino := (t.entries e).inode
    if (t.inodes ino).isStale then .error (.code .ESTALE)
    else if t.isSymLink ino && chase then
      let lpath := target ino
      match follow (t.linkDir fs curdir lpath) (split lpath) with
      | .error x => .error x
      | .ok r => if (t.inodes (t.entries r).inode).isStale then .error (.code .ESTALE) else .ok r
    else .ok e

/-- The loop of `WalkPath`. -/
def walkLoop (cur : Stand) : List String → Bool → Except WalkError ℕ
  | [], _ =>
    if (t.inodes cur.2).isStale then .error (.code .ESTALE)
    else
      match cur.1 with
      | none => .error .null
      | some e => .ok e
  | v :: rest, chaseLast =>
    if v = "" ∨ v = "." then walkLoop cur rest chaseLast
    else if v = ".." then
      match t.walkUp fs cur with
      | .error x => .error x
      | .ok cur' => walkLoop cur' rest chaseLast
    else
      match t.walkName target fs follow cur.2 v (chaseLast || !rest.isEmpty) with
      | .error x => .error x
      | .ok e =>
        if rest.isEmpty then .ok e
        else if !(t.inodes (t.entries e).inode).isDir then .error (.code .ENOTDIR)
        else walkLoop (some e, (t.entries e).inode) rest chaseLast

end Loop

/-- `WalkPath` with so many links to chase. -/
def walkPath : ℕ → ℕ → List String → Bool → Except WalkError ℕ
  | 0, _, _, _ => .error (.code .ELOOP)
  | depth + 1, dir, path, chaseLast =>
    t.walkLoop target fs (fun d p => walkPath depth d p true) ((t.inodes dir).dent, dir) path chaseLast

/-- The entry is a directory of the tree, and the walk stands in it. -/
def Stands (e : ℕ) (cur : Stand) : Prop :=
  cur = (some e, (t.entries e).inode) ∧ t.InTree e ∧ (t.inodes (t.entries e).inode).kind = .directory

variable {t target fs} {e : ℕ} {cur : Stand}

theorem TreeInv.stands_of_live (h : t.TreeInv) {d : ℕ} (hd : t.Live d) : ∃ e, t.Stands e ((t.inodes d).dent, d) := by
  obtain ⟨e, he⟩ := h.live_dent hd.1 hd.2
  obtain ⟨-, hinode, hin⟩ := h.dent_spec hd.1 he
  refine ⟨e, ?_, hin, ?_⟩
  · rw [he, hinode]
  · rw [hinode]
    exact hd.1

theorem TreeInv.live_of_stands (h : t.TreeInv) (hstands : t.Stands e cur) : t.Live (t.entries e).inode :=
  h.isTree.entry_live e hstands.2.1 hstands.2.2

theorem TreeInv.parent_of_inTree (h : t.TreeInv) (he : t.InTree e) : ∃ p, t.parent e = some p := by
  rcases he with hlinked | rfl
  · obtain ⟨p, hp, -⟩ := h.linked_mem e hlinked
    exact ⟨p, hp⟩
  · exact ⟨0, h.root_entry.2.1⟩

theorem TreeInv.parent_dir (h : t.TreeInv) {p : ℕ} (hp : t.parent e = some p) :
    (t.inodes (t.entries p).inode).kind = .directory := by
  rcases h.parent_linked hp with hlinked | ⟨-, rfl⟩
  · obtain ⟨q, hq, hmem⟩ := h.linked_mem e hlinked
    rw [← Option.some.inj (hq.symm.trans hp)]
    exact (h.dents_mem _ _ hmem).1
  · rw [h.root_entry.1]
    exact h.root_dir

theorem TreeInv.walkUp (h : t.TreeInv) (hstands : t.Stands e cur) : ∃ p cur', t.walkUp fs cur = .ok cur' ∧
    t.Stands p cur' ∧ (e ≠ fs.root_ → t.parent e = some p) := by
  obtain ⟨rfl, hin, hdir⟩ := hstands
  unfold MemFs.walkUp
  by_cases hroot : some e = some fs.root_
  · rw [if_pos hroot]
    exact ⟨e, _, rfl, ⟨rfl, hin, hdir⟩, fun hne => absurd (Option.some.inj hroot) hne⟩
  obtain ⟨p, hp⟩ := h.parent_of_inTree hin
  have hpdir := h.parent_dir hp
  rw [if_neg hroot]
  simp only [hp]
  exact ⟨p, _, rfl, ⟨rfl, h.parent_inTree hp, hpdir⟩, fun _ => rfl⟩

def Lands (t : MemFs) (follow : ℕ → List String → Except WalkError ℕ) : Prop :=
  ∀ d path e, t.Live d → follow d path = .ok e → t.InTree e

def Rooted (t : MemFs) (fs : FSRoot) : Prop :=
  t.InTree fs.root_ ∧ (t.inodes (t.entries fs.root_).inode).kind = .directory

section Walk
variable {follow : ℕ → List String → Except WalkError ℕ} (h : t.TreeInv) (hroot : t.Rooted fs)
  (hfollow : t.Lands follow)
include h hroot hfollow

theorem walkName_inTree {d r : ℕ} {v : String} {chase : Bool} (hd : t.Live d)
    (hr : t.walkName target fs follow d v chase = .ok r) : t.InTree r := by
  unfold walkName at hr
  cases hfind : t.findRaw d v with
  | none =>
    rw [hfind] at hr
    cases hr
  | some x =>
    rw [hfind] at hr
    dsimp only at hr
    split_ifs at hr with hstale hlink
    · generalize hwalk : follow _ _ = w at hr
      cases w with
      | error y => cases hr
      | ok y =>
        dsimp only at hr
        split_ifs at hr
        obtain rfl := Except.ok.inj hr
        refine hfollow _ _ y ?_ hwalk
        unfold linkDir
        split_ifs
        · exact h.isTree.entry_live fs.root_ hroot.1 hroot.2
        · exact hd
    · obtain rfl := Except.ok.inj hr
      exact .inl (h.dents_mem d x (findRaw_eq_some hfind).1).2.1

theorem walkLoop_inTree {path : List String} {chase : Bool} {r : ℕ} (hstands : t.Stands e cur)
    (hr : t.walkLoop target fs follow cur path chase = .ok r) : t.InTree r := by
  induction path generalizing e cur with
  | nil =>
    obtain ⟨rfl, hin, -⟩ := hstands
    unfold walkLoop at hr
    split_ifs at hr
    rwa [← Except.ok.inj hr]
  | cons v rest ih =>
    unfold walkLoop at hr
    by_cases hneutral : v = "" ∨ v = "."
    · rw [if_pos hneutral] at hr
      exact ih hstands hr
    rw [if_neg hneutral] at hr
    by_cases hup : v = ".."
    · obtain ⟨p, cur', hwalk, hstands', -⟩ := @TreeInv.walkUp t fs e cur h hstands
      rw [if_pos hup, hwalk] at hr
      exact ih hstands' hr
    rw [if_neg hup] at hr
    cases hname : t.walkName target fs follow cur.2 v (chase || !rest.isEmpty) with
    | error x =>
      rw [hname] at hr
      cases hr
    | ok x =>
      have hx : t.InTree x := by
        refine walkName_inTree h hroot hfollow ?_ hname
        rw [hstands.1]
        exact h.live_of_stands hstands
      rw [hname] at hr
      dsimp only at hr
      split_ifs at hr with hlast hdir
      · rwa [← Except.ok.inj hr]
      · exact ih ⟨rfl, hx, by simpa [Inode.isDir] using hdir⟩ hr

def walkOn (t : MemFs) (target : ℕ → String) (fs : FSRoot) (follow : ℕ → List String → Except WalkError ℕ)
    (path : List String) (chase : Bool) (e : ℕ) : Except WalkError ℕ :=
  if !(t.inodes (t.entries e).inode).isDir then .error (.code .ENOTDIR)
  else t.walkLoop target fs follow ((t.inodes (t.entries e).inode).dent, (t.entries e).inode) path chase

theorem walkLoop_append (p : List String) {q : List String} (hq : q ≠ []) (chase : Bool)
    (hstands : t.Stands e cur) : t.walkLoop target fs follow cur (p ++ q) chase =
      (t.walkLoop target fs follow cur p true).bind (t.walkOn target fs follow q chase) := by
  induction p generalizing e cur with
  | nil =>
    have hlive := h.live_of_stands hstands
    have hdent := h.dir_entry e hstands.2.1 hstands.2.2
    obtain ⟨rfl, -, hdir⟩ := hstands
    simp [walkLoop, walkOn, Except.bind, hlive.2, hdir, hdent, Inode.isDir]
  | cons v rest ih =>
    rw [List.cons_append, walkLoop, walkLoop]
    by_cases hneutral : v = "" ∨ v = "."
    · rw [if_pos hneutral, if_pos hneutral]
      exact ih hstands
    rw [if_neg hneutral, if_neg hneutral]
    by_cases hup : v = ".."
    · obtain ⟨p, cur', hwalk, hstands', -⟩ := @TreeInv.walkUp t fs e cur h hstands
      rw [if_pos hup, if_pos hup, hwalk]
      exact ih hstands'
    have hmore : (chase || !(rest ++ q).isEmpty) := by simp [hq]
    rw [if_neg hup, if_neg hup, hmore, Bool.true_or]
    cases hname : t.walkName target fs follow cur.2 v true with
    | error x => rfl
    | ok x =>
      have hx : t.InTree x := by
        refine walkName_inTree h hroot hfollow ?_ hname
        rw [hstands.1]
        exact h.live_of_stands hstands
      have hlast : (rest ++ q).isEmpty = false := by simp [hq]
      dsimp only
      rw [hlast, if_neg Bool.false_ne_true]
      by_cases hdir : (t.inodes (t.entries x).inode).isDir
      · have hstands' : t.Stands x (some x, (t.entries x).inode) := ⟨rfl, hx, by simpa [Inode.isDir] using hdir⟩
        rw [hdir, Bool.not_true, if_neg Bool.false_ne_true]
        cases hrest : rest.isEmpty with
        | true =>
          rw [List.isEmpty_iff.1 hrest, List.nil_append, if_pos rfl, Except.bind, walkOn, hdir,
            h.dir_entry x hx hstands'.2.2]
          rfl
        | false =>
          rw [if_neg Bool.false_ne_true, if_neg Bool.false_ne_true]
          exact ih hstands'
      · rw [Bool.not_eq_true] at hdir
        rw [hdir, Bool.not_false, if_pos rfl]
        cases rest.isEmpty with
        | true => simp [Except.bind, walkOn, hdir]
        | false => rfl

end Walk

theorem TreeInv.walkPath_lands (h : t.TreeInv) (hroot : t.Rooted fs) (depth : ℕ) :
    t.Lands fun d p => t.walkPath target fs depth d p true := by
  induction depth with
  | zero => nofun
  | succ depth ih =>
    intro d path e hd he
    obtain ⟨x, hstands⟩ := h.stands_of_live hd
    exact walkLoop_inTree h hroot ih hstands he

section Compose
variable (h : t.TreeInv) (hroot : t.Rooted fs) {d : ℕ} (hd : t.Live d)
include h hroot hd

theorem TreeInv.walkPath_append (depth : ℕ) (p : List String) {q : List String} (hq : q ≠ []) (chase : Bool) :
    t.walkPath target fs depth d (p ++ q) chase = (t.walkPath target fs depth d p true).bind fun e =>
      if !(t.inodes (t.entries e).inode).isDir then .error (.code .ENOTDIR)
      else t.walkPath target fs depth (t.entries e).inode q chase := by
  cases depth with
  | zero => rfl
  | succ depth =>
    obtain ⟨e, hstands⟩ := h.stands_of_live hd
    exact walkLoop_append h hroot (h.walkPath_lands hroot depth) p hq chase hstands

end Compose

theorem TreeInv.walkPath_up (h : t.TreeInv) {d : ℕ} (hd : t.Live d) (depth : ℕ) (chase : Bool) (hdent : (t.inodes d).dent = some e)
    (hne : e ≠ fs.root_) :
    ∃ p, t.parent e = some p ∧ t.walkPath target fs (depth + 1) d [".."] chase = .ok p := by
  obtain ⟨x, hstands⟩ := h.stands_of_live hd
  obtain ⟨p, cur', hwalk, hstands', hparent⟩ := @TreeInv.walkUp t fs x _ h hstands
  have hx : x = e := by
    rw [hdent] at hstands
    exact (Option.some.inj (congrArg Prod.fst hstands.1)).symm
  subst hx
  have hlive := h.live_of_stands hstands'
  refine ⟨p, hparent hne, ?_⟩
  obtain ⟨rfl, -⟩ := hstands'
  simp [walkPath, walkLoop, hwalk, hlive.2]

/-- In a tree a walk is the composition of the walks along the parts of its path, and two dots lead from a directory,
however it was reached, to its parent. -/
theorem walkPath_compositional {t : MemFs} {target : ℕ → String} {fs : FSRoot} (h : t.TreeInv)
    (hroot : t.Rooted fs) (depth : ℕ) {d : ℕ} (hd : t.Live d) :
    (∀ p q chase, q ≠ [] → t.walkPath target fs depth d (p ++ q) chase =
      (t.walkPath target fs depth d p true).bind fun e =>
        if !(t.inodes (t.entries e).inode).isDir then .error (.code .ENOTDIR)
        else t.walkPath target fs depth (t.entries e).inode q chase) ∧ (∀ c q chase, c = "" ∨ c = "." →
      t.walkPath target fs depth d (c :: q) chase = t.walkPath target fs depth d q chase) ∧
    (∀ c p q chase, c = "" ∨ c = "." → q ≠ [] →
      t.walkPath target fs depth d (p ++ c :: q) chase = t.walkPath target fs depth d (p ++ q) chase) ∧
    ∀ p e chase, t.walkPath target fs depth d p true = .ok e → (t.inodes (t.entries e).inode).isDir = true →
      e ≠ fs.root_ → ∃ parent, t.parent e = some parent ∧
        t.walkPath target fs depth d (p ++ [".."]) chase = .ok parent := by
  have hneutral : ∀ d c q chase, c = "" ∨ c = "." →
      t.walkPath target fs depth d (c :: q) chase = t.walkPath target fs depth d q chase := by
    intro d c q chase hc
    cases depth with
    | zero => rfl
    | succ depth => rw [walkPath, walkLoop, if_pos hc, walkPath]
  refine ⟨fun p q chase hq => h.walkPath_append hroot hd depth p hq chase, hneutral d, ?_, ?_⟩
  · intro c p q chase hc hq
    rw [h.walkPath_append hroot hd depth p (List.cons_ne_nil c q), h.walkPath_append hroot hd depth p hq]
    simp [hneutral _ c q chase hc]
  intro p e chase he hdir hne
  have hkind : (t.inodes (t.entries e).inode).kind = .directory := by simpa [Inode.isDir] using hdir
  rw [h.walkPath_append hroot hd depth p (List.cons_ne_nil _ _), he]
  cases depth with
  | zero => cases he
  | succ depth =>
    obtain ⟨x, hstands⟩ := h.stands_of_live hd
    have hin : t.InTree e := walkLoop_inTree h hroot (h.walkPath_lands hroot depth) hstands he
    have hlive := h.isTree.entry_live e hin hkind
    obtain ⟨q, hq, hwalk⟩ := @TreeInv.walkPath_up t target fs e h _ hlive depth chase (h.dir_entry e hin hkind) hne
    refine ⟨q, hq, ?_⟩
    simp [Except.bind, hdir, hwalk]

/-- A directory `a` and a link `l` to it. -/
def linkedTree : MemFs := ((init.mkDir 0 "a").2.symLink 0 "l").2

theorem walkPath_compositional_linkedTree : linkedTree.parent 1 = some 0 ∧ ∃ parent, linkedTree.parent 1 = some parent ∧
      linkedTree.walkPath (fun _ => "a") ⟨0, 0⟩ kMaxLinksToChase 0 (["l"] ++ [".."]) true = .ok parent := by
  have htree : linkedTree.TreeInv := (treeInv_init.mkDir "a" ⟨rfl, rfl⟩).addNew "l" ⟨rfl, by decide⟩ (by decide)
  exact ⟨by decide, (walkPath_compositional htree ⟨.inr rfl, by decide⟩ kMaxLinksToChase ⟨by decide, by decide⟩).2.2.2
    ["l"] 1 true (by decide +kernel) (by decide) (by decide)⟩

end MemFs
end Junction

/-! ### The printed path of an entry, and the lookup of what is printed -/

namespace Junction.MemFs
open ParentTree List

/-- `SplitPath`: the components without the empty ones and dots at the end, and `must_be_dir`. -/
def splitPath (path : String) : List String × Bool :=
  let spath := split path
  let kept := spath.rdropWhile fun v => v = "" || v = "."
  (kept, kept.length ≠ spath.length)

def pathIsValid (path : String) : Bool := !path.toList.contains '\x00'

variable (t : MemFs) (target : ℕ → String) (fs : FSRoot)

def getPathDir (path : String) : ℕ :=
  (t.entries (if path.toList.head? = some '/' then fs.root_ else fs.cwd_)).inode

def lookupDirEntry (path : String) (chaseLink : Bool) : Except WalkError ℕ :=
  if !pathIsValid path then .error (.code .EINVAL)
  else t.walkPath target fs kMaxLinksToChase (t.getPathDir fs path) (splitPath path).1
    (chaseLink || (splitPath path).2)

/-- The climb of `GetFullPath` to the root of the process. -/
def climbLoop : ℕ → ℕ → List String → Option (Status (List String))
  | 0, _, _ => none
  | fuel + 1, cur, paths =>
    match t.parent cur with
    | none => some (.error .ESTALE)
    | some parent =>
      if cur = fs.root_ then some (.ok paths) else climbLoop fuel parent ((t.entries cur).name :: paths)

/-- What `GetFullPath` prints for the names on the way from the root. -/
def printPath (names : List String) : String :=
  if names = [] then "/" else String.ofList (names.flatMap fun v => '/' :: v.toList)

/-- `GetFullPath`, whose climb may have no end. -/
def getPathStr (fuel e : ℕ) : Option (Status String) :=
  if !(t.entries e).linked then some (.ok (t.entries e).name)
  else (t.climbLoop fs fuel e []).map fun r => r.map printPath

/-- An entry at or below the root prints an absolute path that leads back to it, and another one prints an error. -/
def RoundTrips (e : ℕ) : Prop :=
  (t.InTree e → Climbs t.parent e fs.root_ → ∃ fuel p, t.getPathStr fs fuel e = some (.ok p) ∧
    p.toList.head? = some '/' ∧ t.lookupDirEntry target fs p false = .ok e) ∧
  (¬ Climbs t.parent e fs.root_ → ∃ fuel x, t.getPathStr fs fuel e = some (.error x))

def IsComponent (v : String) : Prop := v ∉ ["", ".", ".."] ∧ '/' ∉ v.toList ∧ '\x00' ∉ v.toList

structure Named : Prop where
  component : ∀ e, (t.entries e).linked = true → IsComponent (t.entries e).name
  root : (t.entries 0).name = "."
  counted : ∀ e, (t.entries e).linked = true → (t.inodes (t.entries e).inode).isStale = false

/-- The climb from an entry ends with legal names, and a walk from the root along them leads to the entry. -/
def Prints (e : ℕ) : Prop := ∃ fuel names, (∀ paths, t.climbLoop fs fuel e paths = some (.ok (names ++ paths))) ∧
  (∀ v ∈ names, IsComponent v) ∧
  ∀ depth chase, (chase = true → (t.inodes (t.entries e).inode).kind = .directory) →
    t.walkPath target fs (depth + 1) (t.entries fs.root_).inode names chase = .ok e

variable {names : List String}

variable (hnames : ∀ v ∈ names, IsComponent v)
include hnames

theorem splitOn_printed {w : List Char}
    (hw : '/' ∉ w) : (w ++ names.flatMap fun v => '/' :: v.toList).splitOn '/' = w :: names.map String.toList := by
  induction names generalizing w with
  | nil => simpa using splitOn_eq_singleton hw
  | cons v names ih =>
    obtain ⟨hv, hrest⟩ := forall_mem_cons.1 hnames
    rw [flatMap_cons, cons_append, splitOn_append_cons_self_of_not_mem hw, ih hrest hv.2.1, map_cons]

omit hnames in
theorem splitPath_of_split {path v : String} {l : List String} (hsplit : split path = l ++ [v])
    (hv : IsComponent v) : splitPath path = (l ++ [v], false) := by
  have hlast : ¬ (decide (v = "") || decide (v = ".")) := by
    have hname := hv.1
    simp only [mem_cons, not_or] at hname
    simp [hname.1, hname.2.1]
  have hkept := rdropWhile_concat_neg (fun v => decide (v = "") || decide (v = ".")) l v hlast
  simp [splitPath, hsplit, hkept, ne_eq, not_true_eq_false, decide_false]

theorem splitPath_printPath (hne : names ≠ []) : splitPath (printPath names) = ("" :: names, false) := by
  have hsplit : split (printPath names) = "" :: names := by
    have hnil := splitOn_printed hnames (not_mem_nil)
    rw [nil_append] at hnil
    simp [split, printPath, hne, hnil]
  rw [← dropLast_append_getLast hne, ← cons_append] at hsplit ⊢
  exact splitPath_of_split hsplit (hnames _ (getLast_mem hne))

theorem pathIsValid_printPath : pathIsValid (printPath names) := by
  unfold pathIsValid printPath
  split_ifs
  · decide
  have hnul : '\x00' ∉ names.flatMap fun v => '/' :: v.toList := by
    simpa using fun v hv => (hnames v hv).2.2
  simpa using hnul

omit hnames

theorem head_printPath (names : List String) : (printPath names).toList.head? = some '/' := by
  cases names with
  | nil => rfl
  | cons v names => simp [printPath]

section Climb
variable {t target fs} (h : t.TreeInv) (hroot : t.Rooted fs) (hnamed : t.Named)
include h

variable {e : ℕ}

theorem climbLoop_outside (fuel : ℕ) (he : t.InTree e) (hout : ¬ Climbs t.parent e fs.root_)
    (paths : List String) : t.climbLoop fs fuel e paths = none := by
  induction fuel generalizing e paths with
  | zero => rfl
  | succ fuel ih =>
    obtain ⟨p, hp⟩ := h.parent_of_inTree he
    have hne : e ≠ fs.root_ := fun heq => hout (heq ▸ Climbs.refl _)
    simp only [climbLoop, hp, if_neg hne]
    exact ih (h.parent_inTree hp) (fun hc => hout (Climbs.head hp hc)) _

theorem walkPath_component {d : ℕ} (he : e ∈ (t.inodes d).dents) (hname : IsComponent (t.entries e).name)
    (hfresh : (t.inodes (t.entries e).inode).isStale = false) (depth : ℕ) {chase : Bool}
    (hchase : chase → (t.inodes (t.entries e).inode).kind = .directory) :
    t.walkPath target fs (depth + 1) d [(t.entries e).name] chase = .ok e := by
  have hfind : t.findRaw d (t.entries e).name = some e := h.findRaw_eq_some_iff.2 ⟨he, rfl⟩
  replace hname := hname.1
  simp only [mem_cons, not_mem_nil, not_or, or_false] at hname
  have hlink : (t.isSymLink (t.entries e).inode && chase) = false := by
    cases chase with
    | false => simp
    | true => simp [isSymLink, hchase rfl]
  simp [walkPath, walkLoop, hname, walkName, hfind, hfresh, hlink]

include hroot hnamed

theorem climbLoop_walkPath (he : Climbs t.parent e fs.root_) : t.Prints target fs e := by
  have hlive := h.isTree.entry_live fs.root_ hroot.1 hroot.2
  have hstop : t.Prints target fs fs.root_ := by
    obtain ⟨p, hp⟩ := h.parent_of_inTree hroot.1
    refine ⟨1, [], fun paths => by simp [climbLoop, hp], by simp, fun depth chase _ => ?_⟩
    simp [walkPath, walkLoop, hlive.2, h.dir_entry _ hroot.1 hroot.2]
  induction he using Relation.ReflTransGen.head_induction_on with
  | refl => exact hstop
  | @head e p hp hclimb ih =>
    by_cases heq : e = fs.root_
    · rwa [heq]
    have hlinked : (t.entries e).linked := by
      refine (h.parent_linked hp).resolve_right fun hzero => heq ?_
      rw [hzero.1]
      exact (Climbs.eq_root h.root_entry.2.1 (hzero.2 ▸ hclimb)).symm
    obtain ⟨q, hq, hmem⟩ := h.linked_mem e hlinked
    obtain rfl : q = p := Option.some.inj (hq.symm.trans hp)
    have hdir := (h.dents_mem _ e hmem).1
    obtain ⟨fuel, names, hloop, hnames, hwalk⟩ := ih
    refine ⟨fuel + 1, names ++ [(t.entries e).name], fun paths => ?_, ?_, fun depth chase hchase => ?_⟩
    · simp [climbLoop, show t.parent e = some q from hp, if_neg heq, hloop, append_assoc]
    · simpa [or_imp, forall_and] using ⟨hnames, hnamed.component e hlinked⟩
    rw [h.walkPath_append hroot hlive _ _ (cons_ne_nil _ _), hwalk depth true fun _ => hdir]
    simp only [Except.bind, Inode.isDir, hdir, decide_true, Bool.not_true, Bool.false_eq_true, if_false]
    exact walkPath_component h hmem (hnamed.component e hlinked) (hnamed.counted e hlinked) depth hchase

end Climb

/-- The printed path leads back exactly for the linked entries at or below the root. -/
theorem getFullPath_roundTrips_iff {t : MemFs} {target : ℕ → String} {fs : FSRoot} (h : t.TreeInv)
    (hroot : t.Rooted fs) (hnamed : t.Named) (e : ℕ) : t.RoundTrips target fs e ↔
      (t.entries e).linked = true ∧ Climbs t.parent e fs.root_ := by
  constructor
  · rintro ⟨hinside, houtside⟩
    cases hlinked : (t.entries e).linked with
    | false =>
      by_cases hc : Climbs t.parent e fs.root_
      · by_cases hzero : e = 0
        · subst hzero
          obtain ⟨fuel, p, hp, hhead, -⟩ := hinside (.inr rfl) hc
          have hdot : "." = p := by simpa [getPathStr, hlinked, hnamed.root] using hp
          rw [← hdot] at hhead
          exact absurd hhead (by decide)
        · rcases hc.cases_head with heq | ⟨p, hp, -⟩
          · simpa [← heq, hlinked, hzero, InTree] using hroot.1
          · simp [h.unlinked e hzero hlinked] at hp
      · obtain ⟨fuel, x, hx⟩ := houtside hc
        simp [getPathStr, hlinked] at hx
    | true =>
      refine ⟨rfl, by_contra fun hc => ?_⟩
      obtain ⟨fuel, x, hx⟩ := houtside hc
      simp [getPathStr, hlinked, climbLoop_outside h fuel (.inl hlinked) hc] at hx
  · rintro ⟨hlinked, hc⟩
    refine ⟨fun _ _ => ?_, fun hout => absurd hc hout⟩
    obtain ⟨fuel, names, hloop, hnames, hwalk⟩ := @climbLoop_walkPath t target fs h hroot hnamed e hc
    refine ⟨fuel, printPath names, by simp [getPathStr, hlinked, hloop, Except.map], head_printPath names, ?_⟩
    have hdir : t.getPathDir fs (printPath names) = (t.entries fs.root_).inode := by
      simp [getPathDir, head_printPath]
    have hplain := hwalk 7 false (by simp)
    rw [lookupDirEntry, pathIsValid_printPath hnames, hdir]
    by_cases hne : names = []
    · have hslash : splitPath (printPath []) = ([], true) := by decide +kernel
      rw [hne] at hplain ⊢
      rwa [hslash]
    · rw [splitPath_printPath hnames hne]
      exact hplain

/-- A directory `a` in the root. -/
def oneDir : MemFs := (init.mkDir 0 "a").2

theorem getFullPath_roundTrips_iff_oneDir : oneDir.RoundTrips (fun _ => "") ⟨0, 0⟩ 1 := by
  have hlinked : ∀ e, (oneDir.entries e).linked = true → e = 1 := fun e he => by
    by_contra hne
    by_cases hzero : e = 0 <;>
      simp [oneDir, mkDir, findRaw, init, linkEntry, allocInode, setEntry, modifyInode, hne, hzero] at he
  have hnamed : oneDir.Named := by
    refine ⟨fun e he => ?_, by decide, fun e he => ?_⟩ <;> obtain rfl := hlinked e he
    · unfold IsComponent
      decide
    · decide
  exact (getFullPath_roundTrips_iff (treeInv_init.mkDir "a" ⟨rfl, rfl⟩) ⟨.inr rfl, by decide⟩ hnamed 1).2
    ⟨by decide, .single (by decide)⟩

/-- The root prints its stored name, which is relative, and from a directory that lies beside the root of the process
the climb does not end. -/
theorem getFullPath_fails : ¬ init.RoundTrips (fun _ => "") ⟨0, 0⟩ 0 ∧
    ∀ fuel, (oneDir.mkDir 0 "b").2.getPathStr ⟨1, 1⟩ fuel 2 = none := by
  constructor
  · rintro ⟨hinside, -⟩
    obtain ⟨fuel, p, hp, hhead, -⟩ := hinside (.inr rfl) (.refl 0)
    obtain rfl : "." = p := by simpa [getPathStr, init] using hp
    exact absurd hhead (by decide)
  intro fuel
  have hzero : ∀ fuel paths, (oneDir.mkDir 0 "b").2.climbLoop ⟨1, 1⟩ fuel 0 paths = none := by
    intro fuel
    induction fuel with
    | zero => exact fun _ => rfl
    | succ fuel ih => exact fun _ => ih _
  have hloop : (oneDir.mkDir 0 "b").2.climbLoop ⟨1, 1⟩ fuel 2 [] = none := by
    cases fuel with
    | zero => rfl
    | succ fuel => exact hzero fuel _
  rw [getPathStr, hloop]
  rfl

end Junction.MemFs
