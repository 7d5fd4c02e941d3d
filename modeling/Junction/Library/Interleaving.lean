import Junction.Library.Run

/-!
# Two threads of calls over a shared state

A program is a tree of atomic accesses to a shared state; the answer to one access selects the rest of the
program. A thread makes one call after another and keeps a log of the answers. Two threads take turns in
any order, one access at a time. A call ends with its last access. Each thread watches for a condition on
the shared state, and the log tells whether it held at some time during the call.
-/

namespace Interleaving
variable {σ ι : Type} {resp : ι → Type} {α β κ ρ κ₁ ρ₁ κ₂ ρ₂ : Type}

inductive Prog (ι : Type) (resp : ι → Type) (α : Type)
  | done (a : α)
  | act (i : ι) (k : resp i → Prog ι resp α)

namespace Prog

def bind : Prog ι resp α → (α → Prog ι resp β) → Prog ι resp β
  | .done a, f => f a
  | .act i k, f => .act i fun r => (k r).bind f

instance : Monad (Prog ι resp) where
  pure := .done
  bind := .bind

def access (i : ι) : Prog ι resp (resp i) := .act i .done

@[simp] theorem pure_eq (a : α) : (pure a : Prog ι resp α) = .done a := rfl

def isDone : Prog ι resp α → Bool
  | .done _ => true
  | .act _ _ => false

theorem isDone_bind {f : α → Prog ι resp β} (p : Prog ι resp α) (hf : ∀ a, (f a).isDone = false) :
    (p >>= f).isDone = false := by
  cases p with
  | done a => exact hf a
  | act i k => rfl

def step (exec : (i : ι) → σ → resp i × σ) : Prog ι resp α → σ → Prog ι resp α × σ
  | .done a, s => (.done a, s)
  | .act i k, s => (k (exec i s).1, (exec i s).2)

def run (exec : (i : ι) → σ → resp i × σ) : Prog ι resp α → σ → α × σ
  | .done a, s => (a, s)
  | .act i k, s => (k (exec i s).1).run exec (exec i s).2

theorem run_bind (exec : (i : ι) → σ → resp i × σ) (p : Prog ι resp α) (f : α → Prog ι resp β) (s : σ) :
    (p >>= f).run exec s = (f (p.run exec s).1).run exec (p.run exec s).2 := by
  induction p generalizing s with
  | done a => rfl
  | act i k ih => exact ih (exec i s).1 (exec i s).2

end Prog

structure Client (σ ι : Type) (resp : ι → Type) (κ ρ : Type) where
  code : κ → Prog ι resp ρ
  watch : σ → Bool

/-- A call that has ended: `seen` says that the watched condition held at some time during it. -/
structure Entry (κ ρ : Type) where
  call : κ
  answer : ρ
  seen : Bool

structure Thread (ι : Type) (resp : ι → Type) (κ ρ : Type) where
  current : Option (κ × Prog ι resp ρ × Bool)
  log : List (Entry κ ρ)

namespace Thread

def idle : Thread ι resp κ ρ := ⟨none, []⟩

/-- The call that the thread is in the middle of, or a new one. -/
def start (A : Client σ ι resp κ ρ) (call : κ) (s : σ) (t : Thread ι resp κ ρ) :
    κ × Prog ι resp ρ × Bool :=
  t.current.getD (call, A.code call, A.watch s)

def settle (log : List (Entry κ ρ)) (call : κ) (seen : Bool) : Prog ι resp ρ → Thread ι resp κ ρ
  | .done a => ⟨none, log ++ [⟨call, a, seen⟩]⟩
  | .act i k => ⟨some (call, .act i k, seen), log⟩

def step (exec : (i : ι) → σ → resp i × σ) (A : Client σ ι resp κ ρ) (call : κ) (s : σ)
    (t : Thread ι resp κ ρ) : σ × Thread ι resp κ ρ :=
  let c := t.start A call s
  let r := c.2.1.step exec s
  (r.2, settle t.log c.1 (c.2.2 || A.watch r.2) r.1)

def observe (A : Client σ ι resp κ ρ) (s : σ) (t : Thread ι resp κ ρ) : Thread ι resp κ ρ :=
  { t with current := t.current.map fun c => (c.1, c.2.1, c.2.2 || A.watch s) }

end Thread

structure System (σ ι : Type) (resp : ι → Type) (κ₁ ρ₁ κ₂ ρ₂ : Type) where
  shared : σ
  left : Thread ι resp κ₁ ρ₁
  right : Thread ι resp κ₂ ρ₂

/-- One thread takes its turn. If it is idle, it makes the given call. -/
inductive Tick (κ₁ κ₂ : Type)
  | left (call : κ₁)
  | right (call : κ₂)

namespace System

def step (exec : (i : ι) → σ → resp i × σ) (A : Client σ ι resp κ₁ ρ₁) (B : Client σ ι resp κ₂ ρ₂)
    (sys : System σ ι resp κ₁ ρ₁ κ₂ ρ₂) : Tick κ₁ κ₂ → System σ ι resp κ₁ ρ₁ κ₂ ρ₂
  | .left call =>
    let r := sys.left.step exec A call sys.shared
    ⟨r.1, r.2, sys.right.observe B r.1⟩
  | .right call =>
    let r := sys.right.step exec B call sys.shared
    ⟨r.1, sys.left.observe A r.1, r.2⟩

end System

/-!
### Rely and guarantee

A contract says what a thread expects of the other one (`rely`), what its accesses in the middle of a call do
(`silent`), what the last access of a call does, together with its answer (`commit`), and what holds between its calls
(`idle`). If both threads meet their contracts, each within the rely of the other, then what their effects keep holds in
every state of every interleaving. Accesses that are not allowed in a state are not considered.
-/

structure Contract (σ κ ρ : Type) where
  rely : σ → σ → Prop
  silent : σ → σ → Prop
  commit : κ → ρ → Bool → σ → σ → Prop
  idle : σ → Prop

def Contract.Effect (C : Contract σ κ ρ) (call : κ) (seen : Bool) (s s' : σ) :
    Prog ι resp ρ → Prop
  | .done a => C.commit call a seen s s'
  | .act _ _ => C.silent s s'

variable {call : κ} {seen : Bool} {s s' : σ} {p : Prog ι resp ρ}

theorem Contract.effect_of_silent {C : Contract σ κ ρ} (hp : p.isDone = false) (hsilent : C.silent s s') : C.Effect call seen s s' p := by
  cases p with
  | done a => cases hp
  | act i k => exact hsilent

section Programs
variable (exec : (i : ι) → σ → resp i × σ) (allow : ι → σ → Prop) (watch : σ → Bool)
  (C : Contract σ κ ρ)

def Meets (call : κ) : Prog ι resp ρ → σ → Bool → Prop
  | .done _, _, _ => True
  | .act i k, s, seen => ∀ s₁ seen₁, C.rely s s₁ → (seen = true → seen₁ = true) →
      (watch s₁ = true → seen₁ = true) → allow i s₁ →
      C.Effect call (seen₁ || watch (exec i s₁).2) s₁ (exec i s₁).2 (k (exec i s₁).1) ∧
        Meets call (k (exec i s₁).1) (exec i s₁).2 (seen₁ || watch (exec i s₁).2)

/-- Every access of the program is silent, and its answer and the state that it leaves are as given. -/
def Quiet (Q : α → σ → Prop) : Prog ι resp α → σ → Prop
  | .done a, s => Q a s
  | .act i k, s => ∀ s₁, C.rely s s₁ → allow i s₁ →
      C.silent s₁ (exec i s₁).2 ∧ Quiet Q (k (exec i s₁).1) (exec i s₁).2

variable {exec allow watch C}

theorem Meets.stable (htrans : ∀ s s₁ s₂, C.rely s s₁ → C.rely s₁ s₂ → C.rely s s₂) {seen' : Bool} (hp : Meets exec allow watch C call p s seen)
    (hrely : C.rely s s') (hseen : seen → seen') : Meets exec allow watch C call p s' seen' := by
  cases p with
  | done a => trivial
  | act i k =>
    intro s₁ seen₁ h₁ hmono hwatch hallow
    exact hp s₁ seen₁ (htrans _ _ _ hrely h₁) (fun h => hmono (hseen h)) hwatch hallow

variable {P : α → σ → Prop}

theorem Quiet.bind {Q : β → σ → Prop} {p : Prog ι resp α} {f : α → Prog ι resp β} (hp : Quiet exec allow C P p s)
    (hf : ∀ a s, P a s → Quiet exec allow C Q (f a) s) : Quiet exec allow C Q (p >>= f) s := by
  induction p generalizing s with
  | done a => exact hf a s hp
  | act i k ih =>
    intro s₁ h₁ hallow
    obtain ⟨hsilent, hrest⟩ := hp s₁ h₁ hallow
    exact ⟨hsilent, ih _ hrest⟩

variable {s₀ : σ}

theorem Quiet.bind_meets {p : Prog ι resp α} {f : α → Prog ι resp ρ} (hsilent : C.silent s₀ s) (hp : Quiet exec allow C P p s)
    (hdone : ∀ a, (f a).isDone = false) (hf : ∀ a s seen, P a s → Meets exec allow watch C call (f a) s seen) :
    C.Effect call seen s₀ s (p >>= f) ∧ Meets exec allow watch C call (p >>= f) s seen := by
  refine ⟨Contract.effect_of_silent (Prog.isDone_bind p hdone) hsilent, ?_⟩
  induction p generalizing s₀ s seen with
  | done a => exact hf a s seen hp
  | act i k ih =>
    intro s₁ seen₁ h₁ _ _ hallow
    obtain ⟨hsilent, hrest⟩ := hp s₁ h₁ hallow
    exact ⟨Contract.effect_of_silent (Prog.isDone_bind _ hdone) hsilent, ih _ hsilent hrest⟩

theorem Quiet.meets {Q : ρ → σ → Prop} (hsilent : C.silent s₀ s) (hp : Quiet exec allow C Q p s)
    (hcommit : ∀ a seen s s', C.silent s s' → Q a s' → C.commit call a seen s s') :
    C.Effect call seen s₀ s p ∧ Meets exec allow watch C call p s seen := by
  induction p generalizing s₀ s seen with
  | done a => exact ⟨hcommit a seen s₀ s hsilent hp, trivial⟩
  | act i k ih =>
    refine ⟨hsilent, fun s₁ seen₁ h₁ _ _ hallow => ?_⟩
    obtain ⟨hsilent, hrest⟩ := hp s₁ h₁ hallow
    exact ih _ hsilent hrest

theorem Meets.run {Good : σ → Prop} (hrefl : ∀ s, Good s → C.rely s s)
    (hgood : ∀ s s', Good s → C.silent s s' → Good s') (hallow : ∀ i s, allow i s) (hp : Meets exec allow watch C call p s seen) (hs : Good s)
    (hdone : p.isDone = false) : ∃ s₁ seen₁, Relation.ReflTransGen C.silent s s₁ ∧
      C.commit call (p.run exec s).1 seen₁ s₁ (p.run exec s).2 := by
  induction p generalizing s seen with
  | done a => cases hdone
  | act i k ih =>
    obtain ⟨heffect, hrest⟩ := hp s true (hrefl s hs) (fun _ => rfl) (fun _ => rfl) (hallow i s)
    rw [Prog.run]
    cases hk : k (exec i s).1 with
    | done a =>
      rw [hk] at heffect
      exact ⟨s, _, .refl, heffect⟩
    | act j k' =>
      rw [hk] at heffect
      obtain ⟨s₁, seen₁, hsilent, hcommit⟩ := ih _ hrest (hgood _ _ hs heffect) (by rw [hk]; rfl)
      rw [hk] at hcommit
      exact ⟨s₁, seen₁, .head heffect hsilent, hcommit⟩

end Programs

section Threads
variable (exec : (i : ι) → σ → resp i × σ) (allow : ι → σ → Prop) (Good : σ → Prop)
  (A : Client σ ι resp κ ρ) (C : Contract σ κ ρ) (accept : κ → Prop)

/-- The calls that are admitted meet the contract, from good states on. -/
structure Honours : Prop where
  refl : ∀ s, Good s → C.rely s s
  trans : ∀ s s₁ s₂, C.rely s s₁ → C.rely s₁ s₂ → C.rely s s₂
  idle_rely : ∀ s s', C.rely s s' → C.idle s → C.idle s'
  idle_commit : ∀ call a seen s s', C.commit call a seen s s' → C.idle s'
  not_done : ∀ call, (A.code call).isDone = false
  meets : ∀ call s, accept call → Good s → C.idle s →
    Meets exec allow A.watch C call (A.code call) s (A.watch s)

structure Thread.Ready (s : σ) (t : Thread ι resp κ ρ) : Prop where
  idle : t.current = none → C.idle s
  busy : ∀ call p seen, t.current = some (call, p, seen) →
    p.isDone = false ∧ (A.watch s = true → seen = true) ∧ Meets exec allow A.watch C call p s seen

def Prog.Allowed (s : σ) : Prog ι resp ρ → Prop
  | .done _ => True
  | .act i _ => allow i s

def Thread.May (call : κ) (s : σ) (t : Thread ι resp κ ρ) : Prop :=
  (t.current.isNone = true → accept call) ∧ (t.start A call s).2.1.Allowed allow s

instance Prog.decidableAllowed [∀ i s, Decidable (allow i s)] (s : σ) (p : Prog ι resp ρ) :
    Decidable (p.Allowed allow s) :=
  match p with
  | .done _ => .isTrue trivial
  | .act i _ => inferInstanceAs (Decidable (allow i s))

instance Thread.decidableMay [∀ i s, Decidable (allow i s)] [DecidablePred accept] (call : κ) (s : σ)
    (t : Thread ι resp κ ρ) : Decidable (t.May allow A accept call s) :=
  inferInstanceAs (Decidable (_ ∧ _))

variable {exec allow Good A C accept} {t : Thread ι resp κ ρ}

variable (h : Honours exec allow Good A C accept)
include h

theorem Thread.ready_observe (ht : t.Ready exec allow A C s) (hrely : C.rely s s') :
    (t.observe A s').Ready exec allow A C s' := by
  refine ⟨fun hnone => h.idle_rely s s' hrely (ht.idle (Option.map_eq_none_iff.1 hnone)),
    fun call p seen hcurrent => ?_⟩
  obtain ⟨⟨call, p, seen⟩, ht', heq⟩ := Option.map_eq_some_iff.1 hcurrent
  obtain ⟨hdone, _, hmeets⟩ := ht.busy call p seen ht'
  cases heq
  refine ⟨hdone, fun hw => by simp [hw], hmeets.stable h.trans hrely fun hs => by simp [hs]⟩

theorem Thread.step_effect (hgood : Good s) (ht : t.Ready exec allow A C s) (hmay : t.May allow A accept call s) :
    (t.step exec A call s).2.Ready exec allow A C (t.step exec A call s).1 ∧
      (C.silent s (t.step exec A call s).1 ∧ (t.step exec A call s).2.log = t.log ∨
        ∃ a seen, C.commit (t.start A call s).1 a seen s (t.step exec A call s).1 ∧
          (t.step exec A call s).2.log = t.log ++ [⟨(t.start A call s).1, a, seen⟩]) := by
  have hstart : (t.start A call s).2.1.isDone = false ∧
      (A.watch s → (t.start A call s).2.2) ∧
      Meets exec allow A.watch C (t.start A call s).1 (t.start A call s).2.1 s (t.start A call s).2.2 := by
    cases hcurrent : t.current with
    | none =>
      simp only [Thread.start, hcurrent, Option.getD_none]
      exact ⟨h.not_done call, id, h.meets call s (hmay.1 (by rw [hcurrent]; rfl)) hgood (ht.idle hcurrent)⟩
    | some c =>
      obtain ⟨c, p, seen⟩ := c
      simp only [Thread.start, hcurrent, Option.getD_some]
      exact ht.busy c p seen hcurrent
  obtain ⟨-, hallow⟩ := hmay
  unfold Thread.step
  generalize t.start A call s = c at hstart hallow ⊢
  obtain ⟨c, p, seen⟩ := c
  obtain ⟨hdone, hwatch, hmeets⟩ := hstart
  cases p with
  | done a => cases hdone
  | act i k =>
    obtain ⟨heffect, hrest⟩ := hmeets s seen (h.refl s hgood) id hwatch hallow
    dsimp only [Prog.step] at heffect hrest ⊢
    generalize k (exec i s).1 = p at heffect hrest ⊢
    cases p with
    | done a =>
      exact ⟨⟨fun _ => h.idle_commit _ _ _ _ _ heffect, nofun⟩, .inr ⟨a, _, heffect, rfl⟩⟩
    | act j k' =>
      refine ⟨⟨nofun, fun call p seen hsome => ?_⟩, .inl ⟨heffect, rfl⟩⟩
      cases hsome
      exact ⟨rfl, fun hw => by simp [hw], hrest⟩

end Threads

section Systems
variable (exec : (i : ι) → σ → resp i × σ) (allow : ι → σ → Prop) (Good : σ → Prop)
  (A : Client σ ι resp κ₁ ρ₁) (B : Client σ ι resp κ₂ ρ₂)
  (C₁ : Contract σ κ₁ ρ₁) (C₂ : Contract σ κ₂ ρ₂) (accept₁ : κ₁ → Prop) (accept₂ : κ₂ → Prop)
  (J : σ → List (Entry κ₁ ρ₁) → List (Entry κ₂ ρ₂) → Prop)

/-- The effects of each thread keep the invariant and stay within the rely of the other one. -/
structure Coupled : Prop where
  good : ∀ s l r, J s l r → Good s
  silent_left : ∀ s s' l r, J s l r → C₁.silent s s' → J s' l r ∧ C₂.rely s s'
  commit_left : ∀ call a seen s s' l r, J s l r → C₁.commit call a seen s s' →
    J s' (l ++ [⟨call, a, seen⟩]) r ∧ C₂.rely s s'
  silent_right : ∀ s s' l r, J s l r → C₂.silent s s' → J s' l r ∧ C₁.rely s s'
  commit_right : ∀ call a seen s s' l r, J s l r → C₂.commit call a seen s s' →
    J s' l (r ++ [⟨call, a, seen⟩]) ∧ C₁.rely s s'

def System.May (sys : System σ ι resp κ₁ ρ₁ κ₂ ρ₂) : Tick κ₁ κ₂ → Prop
  | .left call => sys.left.May allow A accept₁ call sys.shared
  | .right call => sys.right.May allow B accept₂ call sys.shared

instance System.decidableMay [∀ i s, Decidable (allow i s)] [DecidablePred accept₁]
    [DecidablePred accept₂] (sys : System σ ι resp κ₁ ρ₁ κ₂ ρ₂) (tick : Tick κ₁ κ₂) :
    Decidable (sys.May allow A B accept₁ accept₂ tick) :=
  match tick with
  | .left call => inferInstanceAs (Decidable (sys.left.May allow A accept₁ call sys.shared))
  | .right call => inferInstanceAs (Decidable (sys.right.May allow B accept₂ call sys.shared))

structure System.Inv (sys : System σ ι resp κ₁ ρ₁ κ₂ ρ₂) : Prop where
  coupled : J sys.shared sys.left.log sys.right.log
  left : sys.left.Ready exec allow A C₁ sys.shared
  right : sys.right.Ready exec allow B C₂ sys.shared

variable {exec allow Good A B C₁ C₂ accept₁ accept₂ J}

theorem System.inv_start (hs : J s [] []) (h₁ : C₁.idle s) (h₂ : C₂.idle s) :
    System.Inv exec allow A B C₁ C₂ J ⟨s, .idle, .idle⟩ :=
  ⟨hs, ⟨fun _ => h₁, nofun⟩, ⟨fun _ => h₂, nofun⟩⟩

section Steps
variable (hA : Honours exec allow Good A C₁ accept₁) (hB : Honours exec allow Good B C₂ accept₂)
  (hJ : Coupled Good C₁ C₂ J)
include hA hB hJ

theorem System.inv_step (sys : System σ ι resp κ₁ ρ₁ κ₂ ρ₂) (tick : Tick κ₁ κ₂)
    (hinv : sys.Inv exec allow A B C₁ C₂ J) (hmay : sys.May allow A B accept₁ accept₂ tick) :
    (sys.step exec A B tick).Inv exec allow A B C₁ C₂ J := by
  have hgood := hJ.good _ _ _ hinv.coupled
  cases tick with
  | left call =>
    obtain ⟨hready, heffect⟩ := Thread.step_effect hA hgood hinv.left hmay
    rcases heffect with ⟨hsilent, hlog⟩ | ⟨a, seen, hcommit, hlog⟩
    · obtain ⟨hcoupled, hrely⟩ := hJ.silent_left _ _ _ _ hinv.coupled hsilent
      exact ⟨hlog.symm ▸ hcoupled, hready, Thread.ready_observe hB hinv.right hrely⟩
    · obtain ⟨hcoupled, hrely⟩ := hJ.commit_left _ _ _ _ _ _ _ hinv.coupled hcommit
      exact ⟨hlog.symm ▸ hcoupled, hready, Thread.ready_observe hB hinv.right hrely⟩
  | right call =>
    obtain ⟨hready, heffect⟩ := Thread.step_effect hB hgood hinv.right hmay
    rcases heffect with ⟨hsilent, hlog⟩ | ⟨a, seen, hcommit, hlog⟩
    · obtain ⟨hcoupled, hrely⟩ := hJ.silent_right _ _ _ _ hinv.coupled hsilent
      exact ⟨hlog.symm ▸ hcoupled, Thread.ready_observe hA hinv.left hrely, hready⟩
    · obtain ⟨hcoupled, hrely⟩ := hJ.commit_right _ _ _ _ _ _ _ hinv.coupled hcommit
      exact ⟨hlog.symm ▸ hcoupled, Thread.ready_observe hA hinv.left hrely, hready⟩

/-- The invariant holds in every state of every interleaving of turns that may be taken. -/
theorem System.inv_exec (hs : J s [] []) (h₁ : C₁.idle s) (h₂ : C₂.idle s) {ticks : List (Tick κ₁ κ₂)}
    (hmay : Run.Admitted (System.step exec A B) (System.May allow A B accept₁ accept₂) ⟨s, .idle, .idle⟩ ticks) :
    (Run.exec (System.step exec A B) ⟨s, .idle, .idle⟩ ticks).Inv exec allow A B C₁ C₂ J :=
  Run.invariant_exec (System.inv_step hA hB hJ) (System.inv_start hs h₁ h₂) hmay

end Steps
end Systems
end Interleaving
