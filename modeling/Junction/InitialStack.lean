import Junction.ElfLoader
import Junction.Library.ByteStores

/-!
# The initial stack of a program

`SetupStack` fills the stack of a new program with its arguments, its environment and the auxiliary vector. The table
of pointers grows upwards from the stack pointer and the block of strings ends at the top of the stack. A program reads
the table word by word, and the strings through their pointers.
-/

namespace Junction
open ByteStores

def AT_NULL : ℕ := 0
def AT_PHDR : ℕ := 3
def AT_PHENT : ℕ := 4
def AT_PHNUM : ℕ := 5
def AT_PAGESZ : ℕ := 6
def AT_BASE : ℕ := 7
def AT_FLAGS : ℕ := 8
def AT_ENTRY : ℕ := 9
def AT_UID : ℕ := 11
def AT_EUID : ℕ := 12
def AT_GID : ℕ := 13
def AT_EGID : ℕ := 14
def AT_HWCAP : ℕ := 16
def AT_CLKTCK : ℕ := 17
def AT_SECURE : ℕ := 23
def AT_RANDOM : ℕ := 25
def AT_RSEQ_FEATURE_SIZE : ℕ := 27
def AT_RSEQ_ALIGN : ℕ := 28
def AT_EXECFN : ℕ := 31
def AT_SYSINFO_EHDR : ℕ := 33

def kNumAuxVectors : ℕ := 20
def kVDSOLocation : ℕ := 0x201000
def kRseqSize : ℕ := 32
def kRseqFeatureSize : ℕ := 28

def alignUp (val align : ℕ) : ℕ := addWord val (align - 1) / align * align

def vectorBytes (vec : List (List UInt8)) : ℕ := vec.foldl (fun len v => addWord len (v.length + 1)) 0

def makeAuxVec (type val : ℕ) : ℕ × ℕ := (type, val % 2 ^ 64)

/-- The word `hwcap` is what `cpuid` reports. -/
def setupAuxVec (filename : ℕ) (edata : ElfData) (randomPtr hwcap : ℕ) : List (ℕ × ℕ) :=
  [makeAuxVec AT_HWCAP hwcap,
    makeAuxVec AT_PAGESZ kPageSize,
    makeAuxVec AT_CLKTCK 1000000,
    makeAuxVec AT_PHDR edata.phdrAddr,
    makeAuxVec AT_PHENT edata.phdrEntsz,
    makeAuxVec AT_PHNUM edata.phdrNum,
    makeAuxVec AT_FLAGS 0,
    makeAuxVec AT_ENTRY edata.entryAddr,
    makeAuxVec AT_BASE (match edata.interp with | some interp => interp.mapBase | none => edata.mapBase),
    makeAuxVec AT_UID 1,
    makeAuxVec AT_EUID 1,
    makeAuxVec AT_GID 1,
    makeAuxVec AT_EGID 1,
    makeAuxVec AT_SECURE 0,
    makeAuxVec AT_RANDOM randomPtr,
    makeAuxVec AT_EXECFN filename,
    makeAuxVec AT_SYSINFO_EHDR kVDSOLocation,
    makeAuxVec AT_RSEQ_ALIGN kRseqSize,
    makeAuxVec AT_RSEQ_FEATURE_SIZE kRseqFeatureSize,
    makeAuxVec AT_NULL 0]

def auxWords (auxv : List (ℕ × ℕ)) : List ℕ := auxv.flatMap fun e => [e.1, e.2]

/-- One of the two loops over strings: its stores, and where `arg_ptr` and `info_block_ptr` end. -/
def pushStrings : List (List UInt8) → ℕ → ℕ → List (Store UInt8) × ℕ × ℕ
  | [], argPtr, infoBlockPtr => ([], argPtr, infoBlockPtr)
  | arg :: args, argPtr, infoBlockPtr =>
    let rest := pushStrings args (addWord argPtr 8) (addWord infoBlockPtr (arg.length + 1))
    (wordStore argPtr infoBlockPtr :: stringStores infoBlockPtr arg ++ rest.1, rest.2)

structure StackSetup where
  sp : ℕ
  infoBlock : ℕ
  randomPtr : ℕ
  log : List (Store UInt8)

/-- The stores of `SetupStack`. `random` are the bytes that `ReadRandom` stores, fewer than sixteen if it fails. -/
def stackLog (sp infoBlock randomPtr : ℕ) (argv envp : List (List UInt8)) (edata : ElfData) (hwcap : ℕ)
    (random : List UInt8) : List (Store UInt8) :=
  let args := pushStrings argv (addWord sp 8) infoBlock
  let envs := pushStrings envp (addWord args.2.1 8) args.2.2
  ⟨randomPtr, random⟩ :: wordStore sp argv.length :: (args.1 ++ wordStore args.2.1 0 ::
    (envs.1 ++ wordStore envs.2.1 0 ::
      wordStores (addWord envs.2.1 8) (auxWords (setupAuxVec infoBlock edata randomPtr hwcap))))

def setupStack (sp : ℕ) (argv envp : List (List UInt8)) (edata : ElfData) (hwcap : ℕ) (random : List UInt8) :
    StackSetup :=
  let len := addWord (vectorBytes argv) (vectorBytes envp)
  let infoBlock := subWord sp len
  let randomPtr := subWord infoBlock 16
  let len := addWord len 16
  let len := addWord len (16 * kNumAuxVectors)
  let len := addWord len ((argv.length + envp.length + 3) * 8)
  let len := alignUp len 32
  let sp := subWord sp len
  { sp, infoBlock, randomPtr, log := stackLog sp infoBlock randomPtr argv envp edata hwcap random }

/-! ### What a program reads -/

structure InitialStack where
  argc : ℕ
  argv : List (List UInt8)
  envp : List (List UInt8)
  auxv : List (ℕ × ℕ)
  deriving DecidableEq

def readAuxv : List ℕ → Option (List (ℕ × ℕ))
  | type :: val :: ws => if type = AT_NULL then some [(type, val)] else (readAuxv ws).map ((type, val) :: ·)
  | _ => none

/-- The pointers to the arguments are counted and end with a null, those to the environment only end with one. -/
def readTable : List ℕ → Option (ℕ × List ℕ × List ℕ × List (ℕ × ℕ))
  | [] => none
  | argc :: ws =>
    match ws.drop argc with
    | 0 :: envs =>
      match envs.dropWhile (· != 0) with
      | 0 :: aux => (readAuxv aux).map fun auxv => (argc, ws.take argc, envs.takeWhile (· != 0), auxv)
      | _ => none
    | _ => none

def readStrings (mem : ℕ → UInt8) (top : ℕ) : List ℕ → Option (List (List UInt8))
  | [] => some []
  | p :: ps => (readString mem p (top - p)).bind fun str => (readStrings mem top ps).map (str :: ·)

def readStack (mem : ℕ → UInt8) (top sp : ℕ) : Option InitialStack :=
  (readTable (readWords mem sp ((top - sp) / 8))).bind fun (argc, argv, envp, auxv) =>
    (readStrings mem top argv).bind fun argv =>
      (readStrings mem top envp).map fun envp => ⟨argc, argv, envp, auxv⟩

/-! ### The layout

With enough room below the top of the stack no two stores overlap, so the table and the strings are read back as they
were written. -/

open ByteStores List Option Nat

def stringBytes (args : List (List UInt8)) : ℕ := (args.map fun arg => arg.length + 1).sum

def tableBytes (argv envp : List (List UInt8)) : ℕ := 16 * kNumAuxVectors + (argv.length + envp.length + 3) * 8

def stackBytes (argv envp : List (List UInt8)) : ℕ :=
  (stringBytes argv + stringBytes envp + 16 + tableBytes argv envp + 31) / 32 * 32

def pointers : ℕ → List (List UInt8) → List ℕ
  | _, [] => []
  | q, arg :: args => q :: pointers (q + (arg.length + 1)) args

def blockStores : ℕ → List (List UInt8) → List (Store UInt8)
  | _, [] => []
  | q, arg :: args => stringStores q arg ++ blockStores (q + (arg.length + 1)) args

section Strings
variable {args : List (List UInt8)} {p q : ℕ}

theorem stringBytes_cons (arg : List UInt8) (args : List (List UInt8)) :
    stringBytes (arg :: args) = arg.length + 1 + stringBytes args := sum_cons

@[simp] theorem length_pointers (q : ℕ) (args : List (List UInt8)) : (pointers q args).length = args.length := by
  induction args generalizing q with
  | nil => rfl
  | cons arg args ih => rw [pointers, length_cons, ih, length_cons]

theorem mem_pointers {w : ℕ} (h : w ∈ pointers q args) : q ≤ w ∧ w < q + stringBytes args := by
  induction args generalizing q with
  | nil => cases h
  | cons arg args ih =>
    rw [stringBytes_cons]
    rcases mem_cons.mp h with rfl | h
    · omega
    · have := ih h
      omega

theorem within_stringStores {arg : List UInt8} {s : Store UInt8} (h : s ∈ stringStores q arg) :
    s.Within q (q + (arg.length + 1)) := by
  rcases mem_cons.mp h with rfl | h
  · exact ⟨le_rfl, by simp [Store.stop]⟩
  · obtain rfl := mem_singleton.mp h
    exact ⟨le_add_right _ _, by simp [Store.stop, add_assoc]⟩

theorem within_blockStores {s : Store UInt8} (h : s ∈ blockStores q args) : s.Within q (q + stringBytes args) := by
  induction args generalizing q with
  | nil => cases h
  | cons arg args ih =>
    rw [stringBytes_cons]
    rcases mem_append.mp h with h | h
    · exact (within_stringStores h).mono le_rfl (by omega)
    · exact (ih h).mono (by omega) (by omega)

theorem pairwise_blockStores (q : ℕ) (args : List (List UInt8)) : (blockStores q args).Pairwise Store.Apart := by
  induction args generalizing q with
  | nil => exact List.Pairwise.nil
  | cons arg args ih =>
    exact pairwise_append_of_within (pairwise_pair.mpr (.inl le_rfl)) (ih _)
      (fun s hs => within_stringStores hs) fun s hs => within_blockStores hs

theorem blockStores_append (q : ℕ) (argv envp : List (List UInt8)) :
    blockStores q (argv ++ envp) = blockStores q argv ++ blockStores (q + stringBytes argv) envp := by
  induction argv generalizing q with
  | nil => rfl
  | cons arg args ih =>
    rw [cons_append, blockStores, ih, blockStores, append_assoc, stringBytes_cons, add_assoc q]

theorem foldl_vectorBytes (args : List (List UInt8)) (n : ℕ) (h : n + stringBytes args < 2 ^ 64) :
    args.foldl (fun len v => addWord len (v.length + 1)) n = n + stringBytes args := by
  induction args generalizing n with
  | nil => rfl
  | cons arg args ih =>
    rw [stringBytes_cons] at h ⊢
    rw [foldl_cons, addWord_of_lt (by omega), ih _ (by omega), add_assoc]

theorem vectorBytes_eq (h : stringBytes args < 2 ^ 64) : vectorBytes args = stringBytes args := by
  rw [vectorBytes, foldl_vectorBytes args 0 (by omega), zero_add]

theorem pushStrings_spec (hp : p + 8 * args.length < 2 ^ 64) (hq : q + stringBytes args < 2 ^ 64) :
    (pushStrings args p q).2 = (p + 8 * args.length, q + stringBytes args) ∧
      (pushStrings args p q).1.Perm (wordStores p (pointers q args) ++ blockStores q args) := by
  induction args generalizing p q with
  | nil => exact ⟨rfl, List.Perm.nil⟩
  | cons arg args ih =>
    rw [length_cons] at hp
    rw [stringBytes_cons] at hq
    have hstep : pushStrings (arg :: args) p q =
        (wordStore p q :: stringStores q arg ++ (pushStrings args (p + 8) (q + (arg.length + 1))).1,
          (pushStrings args (p + 8) (q + (arg.length + 1))).2) := by
      rw [pushStrings, addWord_of_lt (by omega), addWord_of_lt (by omega)]
    obtain ⟨hend, hperm⟩ := @ih (p + 8) (q + (arg.length + 1)) (by omega) (by omega)
    rw [hstep]
    refine ⟨?_, ?_⟩
    · rw [hend, stringBytes_cons, length_cons]
      refine Prod.ext ?_ ?_
      · omega
      · omega
    rw [pointers, wordStores, blockStores, cons_append, cons_append]
    apply List.Perm.cons
    exact (hperm.append_left _).trans (perm_append_comm_assoc _ _ _)

theorem readStrings_pointers {mem : ℕ → UInt8} {top : ℕ} (hnul : ∀ arg ∈ args, 0 ∉ arg)
    (htop : q + stringBytes args ≤ top) (h : ∀ s ∈ blockStores q args, s.Holds mem) :
    readStrings mem top (pointers q args) = some args := by
  induction args generalizing q with
  | nil => rfl
  | cons arg args ih =>
    rw [stringBytes_cons] at htop
    obtain ⟨harg, hargs⟩ := forall_mem_cons.mp hnul
    obtain ⟨hstr, hrest⟩ := forall_mem_append.mp h
    rw [pointers, readStrings, readString_of_holds harg (by omega) hstr, bind_some, ih hargs (by omega) hrest, map_some]

end Strings

/-! ### The table -/

section Table
variable {argv envp : List (List UInt8)} {aux : List (ℕ × ℕ)} {q : ℕ}

/-- The words of the table, for strings that begin at `q`. -/
def table (argv envp : List (List UInt8)) (aux : List (ℕ × ℕ)) (q : ℕ) : List ℕ :=
  argv.length :: (pointers q argv ++ 0 :: (pointers (q + stringBytes argv) envp ++ 0 :: auxWords aux))

theorem length_auxWords (aux : List (ℕ × ℕ)) : (auxWords aux).length = 2 * aux.length := by
  induction aux with
  | nil => rfl
  | cons e aux ih =>
    have hcons : auxWords (e :: aux) = e.1 :: e.2 :: auxWords aux := flatMap_cons
    rw [hcons, length_cons, length_cons, ih, length_cons]
    omega

theorem length_table (haux : aux.length = kNumAuxVectors) : 8 * (table argv envp aux q).length = tableBytes argv envp := by
  simp only [table, length_cons, length_append, length_pointers, length_auxWords, haux, tableBytes]
  omega

theorem readAuxv_auxWords {e : ℕ × ℕ} {aux : List (ℕ × ℕ)} (ws : List ℕ) (hne : ∀ e ∈ aux, e.1 ≠ AT_NULL)
    (he : e.1 = AT_NULL) : readAuxv (auxWords (aux ++ [e]) ++ ws) = some (aux ++ [e]) := by
  induction aux with
  | nil =>
    change (if e.1 = AT_NULL then some [(e.1, e.2)] else _) = _
    rw [if_pos he]
    rfl
  | cons d aux ih =>
    obtain ⟨hd, haux⟩ := forall_mem_cons.mp hne
    change (if d.1 = AT_NULL then _ else (readAuxv (auxWords (aux ++ [e]) ++ ws)).map ((d.1, d.2) :: ·)) = _
    rw [if_neg hd, ih haux]
    rfl

theorem readTable_table {e : ℕ × ℕ} (ws : List ℕ) (hq : 0 < q) (hne : ∀ e ∈ aux, e.1 ≠ AT_NULL) (he : e.1 = AT_NULL) :
    readTable (table argv envp (aux ++ [e]) q ++ ws) =
      some (argv.length, pointers q argv, pointers (q + stringBytes argv) envp, aux ++ [e]) := by
  have henvs : ∀ w ∈ pointers (q + stringBytes argv) envp, (w != 0) := by
    intro w hw
    have hlow := mem_pointers hw
    exact bne_iff_ne.mpr (by omega)
  have hlen : (pointers q argv).length = argv.length := length_pointers q argv
  simp only [table, readTable, cons_append, append_assoc]
  rw [drop_left' hlen, take_left' hlen]
  simp only [takeWhile_append_of_pos henvs, dropWhile_append_of_pos henvs, bne_self_eq_false,
    takeWhile_cons, dropWhile_cons, Bool.false_eq_true, if_false, append_nil,
    readAuxv_auxWords ws hne he, map_some]

end Table

/-! ### The whole stack -/

section Setup
variable {top : ℕ} {argv envp : List (List UInt8)} {edata : ElfData} {hwcap : ℕ} {random : List UInt8}

def auxEntries (filename : ℕ) (edata : ElfData) (randomPtr hwcap : ℕ) : List (ℕ × ℕ) :=
  (setupAuxVec filename edata randomPtr hwcap).dropLast

theorem auxEntries_ne (filename : ℕ) (edata : ElfData) (randomPtr hwcap : ℕ) :
    ∀ e ∈ auxEntries filename edata randomPtr hwcap, e.1 ≠ AT_NULL := by
  simp [auxEntries, setupAuxVec, makeAuxVec, AT_NULL, AT_HWCAP, AT_PAGESZ, AT_CLKTCK, AT_PHDR, AT_PHENT, AT_PHNUM,
    AT_FLAGS, AT_ENTRY, AT_BASE, AT_UID, AT_EUID, AT_GID, AT_EGID, AT_SECURE, AT_RANDOM, AT_EXECFN, AT_SYSINFO_EHDR,
    AT_RSEQ_ALIGN, AT_RSEQ_FEATURE_SIZE]

theorem random_mem_auxEntries {filename randomPtr : ℕ} (h : randomPtr < 2 ^ 64) :
    (AT_RANDOM, randomPtr) ∈ auxEntries filename edata randomPtr hwcap := by
  have hmake : makeAuxVec AT_RANDOM randomPtr = (AT_RANDOM, randomPtr) := Prod.ext rfl (mod_eq_of_lt h)
  rw [← hmake]
  simp [auxEntries, setupAuxVec]

theorem setupAuxVec_lt (filename : ℕ) (edata : ElfData) (randomPtr hwcap : ℕ) :
    ∀ w ∈ auxWords (setupAuxVec filename edata randomPtr hwcap), w < 2 ^ 64 := by
  intro w hw
  obtain ⟨e, he, hw⟩ := mem_flatMap.mp hw
  have hval : e.1 < 2 ^ 64 ∧ e.2 < 2 ^ 64 := by
    have hmake : ∀ type val, type < 2 ^ 64 → (makeAuxVec type val).1 < 2 ^ 64 ∧ (makeAuxVec type val).2 < 2 ^ 64 :=
      fun type val h => ⟨h, mod_lt _ (by decide)⟩
    simp only [setupAuxVec, mem_cons] at he
    repeat (rcases he with rfl | he; · exact hmake _ _ (by decide))
    cases he
  rcases mem_cons.mp hw with rfl | hw
  · exact hval.1
  · obtain rfl := mem_singleton.mp hw
    exact hval.2

/-- The layout that `SetupStack` should leave below the top of the stack. -/
structure StackLaid (mem : ℕ → UInt8) (top : ℕ) (argv envp : List (List UInt8)) (random : List UInt8)
    (st : StackSetup) : Prop where
  aligned : 16 ∣ st.sp
  reads : ∃ auxv, readStack (replay mem st.log) top st.sp = some ⟨argv.length, argv, envp, auxv ++ [(AT_NULL, 0)]⟩ ∧
    (AT_RANDOM, st.randomPtr) ∈ auxv
  seeded : (Store.mk st.randomPtr random).Holds (replay mem st.log)
  table_random : st.sp + tableBytes argv envp ≤ st.randomPtr
  random_strings : st.randomPtr + 16 ≤ st.infoBlock
  strings_top : st.infoBlock + (stringBytes argv + stringBytes envp) ≤ top
  blocks : ∀ s ∈ st.log, s.Within st.sp (st.sp + tableBytes argv envp) ∨
    s.Within st.randomPtr (st.randomPtr + 16) ∨
    s.Within st.infoBlock (st.infoBlock + (stringBytes argv + stringBytes envp))
  apart : st.log.Pairwise Store.Apart
  inside : ∀ s ∈ st.log, s.Within st.sp top

theorem perm_append_last {α : Type*} {l w b : List α} (h : l.Perm (w ++ b)) (rest : List α) :
    (l ++ rest).Perm (w ++ (rest ++ b)) := by
  have hmoved : (w ++ b ++ rest).Perm (w ++ (rest ++ b)) := by
    rw [append_assoc]
    exact perm_append_comm.append_left w
  exact (h.append_right rest).trans hmoved

theorem setupStack_places (htop : top < 2 ^ 64) (hroom : stackBytes argv envp ≤ top) :
    (setupStack top argv envp edata hwcap random).sp = top - stackBytes argv envp ∧
      (setupStack top argv envp edata hwcap random).infoBlock = top - (stringBytes argv + stringBytes envp) ∧
      (setupStack top argv envp edata hwcap random).randomPtr = top - (stringBytes argv + stringBytes envp) - 16 := by
  set n := stringBytes argv + stringBytes envp with hn
  have hbytes : stackBytes argv envp = (n + 16 + tableBytes argv envp + 31) / 32 * 32 := rfl
  have htable : tableBytes argv envp = 16 * kNumAuxVectors + (argv.length + envp.length + 3) * 8 := rfl
  have hstrings : addWord (vectorBytes argv) (vectorBytes envp) = n := by
    rw [vectorBytes_eq (by omega), vectorBytes_eq (by omega), addWord_of_lt (by omega)]
  have hlen : alignUp (addWord (addWord (addWord n 16) (16 * kNumAuxVectors))
      ((argv.length + envp.length + 3) * 8)) 32 = stackBytes argv envp := by
    have h16 : addWord n 16 = n + 16 := addWord_of_lt (by omega)
    have haux : addWord (n + 16) (16 * kNumAuxVectors) = n + 16 + 16 * kNumAuxVectors := addWord_of_lt (by omega)
    rw [h16, haux, addWord_of_lt (by omega), alignUp, addWord_of_lt (by omega), hbytes, htable,
      add_assoc _ (16 * kNumAuxVectors)]
  have hinfo : subWord top n = top - n := subWord_of_le (by omega) htop
  refine ⟨?_, ?_, ?_⟩
  · simp only [setupStack, hstrings, hlen]
    exact subWord_of_le hroom htop
  · simp only [setupStack, hstrings]
    exact hinfo
  · simp only [setupStack, hstrings, hinfo]
    exact subWord_of_le (by omega) (by omega)

theorem stackLog_perm {sp infoBlock randomPtr : ℕ} (hsp : sp + tableBytes argv envp < 2 ^ 64)
    (hinfo : infoBlock + (stringBytes argv + stringBytes envp) < 2 ^ 64) :
    (stackLog sp infoBlock randomPtr argv envp edata hwcap random).Perm (⟨randomPtr, random⟩ :: (wordStores sp
      (table argv envp (setupAuxVec infoBlock edata randomPtr hwcap) infoBlock) ++
        blockStores infoBlock (argv ++ envp))) := by
  have htable : tableBytes argv envp = 16 * kNumAuxVectors + (argv.length + envp.length + 3) * 8 := rfl
  obtain ⟨hargsEnd, hargs⟩ := @pushStrings_spec argv (sp + 8) infoBlock (by omega) (by omega)
  obtain ⟨henvsEnd, henvs⟩ := @pushStrings_spec envp (sp + 8 + 8 * argv.length + 8) (infoBlock + stringBytes argv)
    (by omega) (by omega)
  have hargPtr : addWord sp 8 = sp + 8 := addWord_of_lt (by omega)
  have henvPtr : addWord (sp + 8 + 8 * argv.length) 8 = sp + 8 + 8 * argv.length + 8 := addWord_of_lt (by omega)
  have hauxPtr : addWord (sp + 8 + 8 * argv.length + 8 + 8 * envp.length) 8 =
      sp + 8 + 8 * argv.length + 8 + 8 * envp.length + 8 := addWord_of_lt (by omega)
  simp only [stackLog, hargPtr, hargsEnd, henvPtr, henvsEnd, hauxPtr, table, wordStores, wordStores_append,
    blockStores_append, length_pointers, cons_append, append_assoc]
  apply List.Perm.cons
  apply List.Perm.cons
  have hinner := perm_append_last henvs (wordStore (sp + 8 + 8 * argv.length + 8 + 8 * envp.length) 0 ::
    wordStores (sp + 8 + 8 * argv.length + 8 + 8 * envp.length + 8)
      (auxWords (setupAuxVec infoBlock edata randomPtr hwcap)))
  refine (perm_append_last hargs _).trans ?_
  apply List.Perm.append_left
  rw [cons_append]
  apply List.Perm.cons
  refine (hinner.append_right _).trans ?_
  simp only [append_assoc, cons_append]
  apply List.Perm.append_left
  apply List.Perm.cons
  apply List.Perm.append_left
  exact perm_append_comm

theorem readStack_of_holds {mem : ℕ → UInt8} {sp q : ℕ} {aux : List (ℕ × ℕ)} {e : ℕ × ℕ} (hq : 0 < q) (htop : top < 2 ^ 64)
    (hlen : (aux ++ [e]).length = kNumAuxVectors) (haux : ∀ w ∈ auxWords (aux ++ [e]), w < 2 ^ 64)
    (hne : ∀ e ∈ aux, e.1 ≠ AT_NULL) (he : e.1 = AT_NULL) (hsp : sp + tableBytes argv envp ≤ top)
    (hstrings : q + (stringBytes argv + stringBytes envp) ≤ top) (hnul : ∀ arg ∈ argv ++ envp, 0 ∉ arg)
    (htable : ∀ s ∈ wordStores sp (table argv envp (aux ++ [e]) q), s.Holds mem)
    (hblock : ∀ s ∈ blockStores q (argv ++ envp), s.Holds mem) :
    readStack mem top sp = some ⟨argv.length, argv, envp, aux ++ [e]⟩ := by
  have hbytes := @length_table argv envp (aux ++ [e]) q hlen
  have hbound : tableBytes argv envp = 16 * kNumAuxVectors + (argv.length + envp.length + 3) * 8 := rfl
  have hwords : ∀ w ∈ table argv envp (aux ++ [e]) q, w < 2 ^ 64 := by
    intro w hw
    simp only [table, mem_cons, mem_append] at hw
    rcases hw with rfl | hw | rfl | hw | rfl | hw
    · omega
    · have := mem_pointers hw
      omega
    · decide
    · have := mem_pointers hw
      omega
    · decide
    · exact haux w hw
  obtain ⟨n, hn⟩ := Nat.exists_eq_add_of_le (show (table argv envp (aux ++ [e]) q).length ≤ (top - sp) / 8 by omega)
  rw [blockStores_append] at hblock
  obtain ⟨hargs, henvs⟩ := forall_mem_append.mp hblock
  obtain ⟨hargv, henvp⟩ := forall_mem_append.mp hnul
  rw [readStack, hn, readWords_add, readWords_of_holds hwords htable, readTable_table _ hq hne he, bind_some]
  dsimp only
  rw [readStrings_pointers hargv (by omega) hargs, bind_some, readStrings_pointers henvp (by omega) henvs, map_some]

theorem setupStack_blocks (htop : top < 2 ^ 64) (hroom : stackBytes argv envp ≤ top) :
    let st := setupStack top argv envp edata hwcap random
    let words := wordStores st.sp (table argv envp (setupAuxVec st.infoBlock edata st.randomPtr hwcap) st.infoBlock)
    st.log.Perm (⟨st.randomPtr, random⟩ :: (words ++ blockStores st.infoBlock (argv ++ envp))) ∧
      (∀ s ∈ words, s.Within st.sp (st.sp + tableBytes argv envp)) ∧
      ∀ s ∈ blockStores st.infoBlock (argv ++ envp),
        s.Within st.infoBlock (st.infoBlock + (stringBytes argv + stringBytes envp)) := by
  intro st words
  obtain ⟨hsp, hinfo, -⟩ : st.sp = _ ∧ st.infoBlock = _ ∧ st.randomPtr = _ := setupStack_places htop hroom
  have hbytes : stackBytes argv envp =
      (stringBytes argv + stringBytes envp + 16 + tableBytes argv envp + 31) / 32 * 32 := rfl
  refine ⟨@stackLog_perm argv envp edata hwcap random st.sp st.infoBlock st.randomPtr (by omega) (by omega),
    fun s hs => ?_, fun s hs => ?_⟩
  · have hin := within_wordStores hs
    rwa [length_table rfl] at hin
  · simpa [stringBytes] using within_blockStores hs

/-- Below an aligned top with enough room, the stack has the layout of the ABI. -/
theorem setupStack_laid (mem : ℕ → UInt8) (top : ℕ) (argv envp : List (List UInt8)) (edata : ElfData) (hwcap : ℕ)
    (random : List UInt8) (htop : top < 2 ^ 64) (halign : 16 ∣ top) (hroom : stackBytes argv envp ≤ top)
    (hnul : ∀ arg ∈ argv ++ envp, 0 ∉ arg) (hrandom : random.length ≤ 16) :
    StackLaid mem top argv envp random (setupStack top argv envp edata hwcap random) := by
  obtain ⟨hperm, hwords, hblock⟩ := @setupStack_blocks top argv envp edata hwcap random htop hroom
  set st := setupStack top argv envp edata hwcap random
  obtain ⟨hsp, hinfo, hptr⟩ : st.sp = _ ∧ st.infoBlock = _ ∧ st.randomPtr = _ := setupStack_places htop hroom
  have hbytes : stackBytes argv envp =
      (stringBytes argv + stringBytes envp + 16 + tableBytes argv envp + 31) / 32 * 32 := rfl
  have hlen : (setupAuxVec st.infoBlock edata st.randomPtr hwcap).length = kNumAuxVectors := rfl
  have hseed : (Store.mk st.randomPtr random).Within st.randomPtr (st.randomPtr + 16) :=
    ⟨le_rfl, Nat.add_le_add_left hrandom _⟩
  have hblocks : ∀ s ∈ st.log, s.Within st.sp (st.sp + tableBytes argv envp) ∨
      s.Within st.randomPtr (st.randomPtr + 16) ∨
      s.Within st.infoBlock (st.infoBlock + (stringBytes argv + stringBytes envp)) := by
    intro s hs
    rcases mem_cons.mp (hperm.mem_iff.mp hs) with rfl | hs
    · exact .inr (.inl hseed)
    rcases mem_append.mp hs with hs | hs
    · exact .inl (hwords s hs)
    · exact .inr (.inr (hblock s hs))
  have hapart : st.log.Pairwise Store.Apart := by
    apply (hperm.pairwise_iff Store.Apart.symm).mpr
    refine pairwise_cons.mpr ⟨fun s hs => ?_, ?_⟩
    · rcases mem_append.mp hs with hs | hs
      · exact .inr ((hwords s hs).2.trans (by dsimp only; omega))
      · exact .inl (hseed.2.trans (le_trans (by omega) (hblock s hs).1))
    · exact pairwise_append_of_within (pairwise_wordStores _ _) (pairwise_blockStores _ _)
        (fun s hs => (hwords s hs).mono le_rfl (by omega)) hblock
  have hholds : ∀ s ∈ st.log, s.Holds (replay mem st.log) := holds_replay hapart
  refine ⟨by omega, ⟨auxEntries st.infoBlock edata st.randomPtr hwcap, ?_, ?_⟩, ?_, by omega, by omega, by omega, hblocks,
    hapart, fun s hs => ?_⟩
  · apply @readStack_of_holds _ _ _ _ _ st.infoBlock _ _ (by omega) htop hlen (setupAuxVec_lt _ _ _ _) (auxEntries_ne _ _ _ _) rfl
      (by omega) (by omega) hnul
    · intro s hs
      exact hholds s (hperm.mem_iff.mpr (mem_cons_of_mem _ (mem_append_left _ hs)))
    · intro s hs
      exact hholds s (hperm.mem_iff.mpr (mem_cons_of_mem _ (mem_append_right _ hs)))
  · exact random_mem_auxEntries (by omega)
  · exact hholds _ (hperm.mem_iff.mpr mem_cons_self)
  rcases hblocks s hs with hs | hs | hs
  · exact hs.mono le_rfl (by omega)
  · exact hs.mono (by omega) (by omega)
  · exact hs.mono (by omega) (by omega)

end Setup

/-- `ls -l` with one variable in its environment. -/
theorem setupStack_laid_ls : StackLaid (fun _ => 0) 0x10000 [[108, 115], [45, 108]] [[65, 61, 49]] (replicate 16 7)
      (setupStack 0x10000 [[108, 115], [45, 108]] [[65, 61, 49]] ⟨0, 0x2000, 0x1040, 0x40, 9, 56, none⟩ 0x178bfbff
        (replicate 16 7)) :=
  setupStack_laid _ _ _ _ _ _ _ (by decide) (by decide) (by decide) (by decide) (by decide)

/-- Below a top that is not aligned the stack pointer is not aligned either, and below one that leaves no room it is
above the top. -/
theorem setupStack_not_laid :
    let edata : ElfData := ⟨0, 0x2000, 0x1040, 0x40, 9, 56, none⟩
    ¬ StackLaid (fun _ => 0) 0x10008 [[108, 115]] [] [] (setupStack 0x10008 [[108, 115]] [] edata 0 []) ∧
      ¬ StackLaid (fun _ => 0) 0x100 [[108, 115]] [] [] (setupStack 0x100 [[108, 115]] [] edata 0 []) := by
  constructor
  · intro h
    exact absurd h.aligned (by decide)
  intro h
  have hle := h.table_random.trans ((le_add_right _ 16).trans (h.random_strings.trans
    ((le_add_right _ _).trans h.strings_top)))
  exact absurd hle (by decide)

end Junction
