import Mathlib

/-!
# Support — Threads — programs that share a store, interleaved

A program is a tree of atomic acts on a shared store.  A machine runs any number of them, one act at
a time in any order; an act may have to wait.  `Safe` is the proof rule: each thread owns a ghost
value, the invariant speaks of the store and of every thread's ghost value, and each act keeps the
invariant by moving its own.  `Reach.safe` is what it gives over every run.
-/

namespace Threads
variable {L σ ρ α β : Type}

/-- A program: acts on the store, each under a label, that answer or wait. -/
inductive Prog (L σ : Type) (α : Type) : Type 1 where
  | ret (a : α)
  | act {β : Type} (label : L) (f : ℕ → σ → Option (β × σ)) (k : β → Prog L σ α)

namespace Prog

def bind : Prog L σ α → (α → Prog L σ β) → Prog L σ β
  | .ret a, g => g a
  | .act label f k, g => .act label f fun b => (k b).bind g

instance : Monad (Prog L σ) where
  pure := .ret
  bind := bind

/-- One act, and its answer. -/
def one (label : L) (f : ℕ → σ → Option (β × σ)) : Prog L σ β := .act label f .ret

/-- A read, or any act that never waits and changes nothing. -/
def read (label : L) (f : ℕ → σ → β) : Prog L σ β := one label fun t s => some (f t s, s)

/-- What a finished program answered. -/
def result? : Prog L σ α → Option α
  | .ret a => some a
  | .act _ _ _ => none

/-- The program, cancelled or failing after `n` acts: then `handler` runs in its place. -/
def cut (handler : Prog L σ α) : ℕ → Prog L σ α → Prog L σ α
  | _, .ret a => .ret a
  | 0, .act _ _ _ => handler
  | n + 1, .act label f k => .act label f fun b => cut handler n (k b)

theorem result?_eq_some {p : Prog L σ α} {a : α} : p.result? = some a ↔ p = .ret a := by
  cases p with
  | ret b => simp [result?]
  | act label f k => simp [result?]

end Prog

/-! ### Machines -/

variable {Op E : Type}

structure Thread (Op L σ ρ : Type) where
  op : Op
  prog : Prog L σ ρ

structure Machine (Op L σ ρ : Type) where
  store : σ
  threads : List (Thread Op L σ ρ)

/-- A call that has ended, and its answer. -/
def Machine.Answered (m : Machine Op L σ ρ) (op : Op) (answer : ρ) : Prop :=
  ∃ i : ℕ, m.threads[i]? = some (Thread.mk op (.ret answer))

/-- What can be run: the program of each operation, what the environment does to the store, and the
condition each act is taken under. -/
structure System (Op E L σ ρ : Type) where
  program : Op → Prog L σ ρ
  env : E → σ → Option σ
  start : σ → Prop

/-- The machines reached, where every act met `C`. -/
inductive Reach (S : System Op E L σ ρ) (C : L → σ → Prop) : Machine Op L σ ρ → Prop where
  | start {s : σ} (h : S.start s) : Reach S C ⟨s, []⟩
  | spawn {m : Machine Op L σ ρ} (h : Reach S C m) (op : Op) :
      Reach S C ⟨m.store, m.threads ++ [⟨op, S.program op⟩]⟩
  | env {m : Machine Op L σ ρ} (h : Reach S C m) {e : E} {s : σ} (he : S.env e m.store = some s) :
      Reach S C ⟨s, m.threads⟩
  | run {m : Machine Op L σ ρ} (h : Reach S C m) {i : ℕ} {op : Op} {β : Type} {label : L}
      {f : ℕ → σ → Option (β × σ)} {k : β → Prog L σ ρ} {b : β} {s : σ}
      (hi : m.threads[i]? = some ⟨op, .act label f k⟩) (hC : C label m.store)
      (hf : f i m.store = some (b, s)) : Reach S C ⟨s, m.threads.set i ⟨op, k b⟩⟩

variable {S : System Op E L σ ρ} {m : Machine Op L σ ρ}

theorem Reach.mono {C C' : L → σ → Prop} (hC : ∀ l s, C l s → C' l s)
    (h : Reach S C m) : Reach S C' m := by
  induction h with
  | start h => exact .start h
  | spawn _ op ih => exact .spawn ih op
  | env _ he ih => exact .env ih he
  | run _ hi hl hf ih => exact .run ih hi (hC _ _ hl) hf

/-! ### The proof rule -/

variable {G : Type}

/-- Every act of the program keeps the invariant of `n` threads by moving its own ghost value, and
the program ends in `Q`. -/
def Safe (I : ℕ → σ → (ℕ → G) → Prop) (C : L → σ → Prop) (t : ℕ) (Q : α → G → Prop) :
    Prog L σ α → G → Prop
  | .ret a, g => Q a g
  | .act label f k, g => ∀ n s γ b s', t < n → I n s γ → γ t = g → C label s →
      f t s = some (b, s') → ∃ g', I n s' (Function.update γ t g') ∧ Safe I C t Q (k b) g'

variable {I : ℕ → σ → (ℕ → G) → Prop} {C : L → σ → Prop} {t : ℕ}

variable {Q : α → G → Prop}

theorem Safe.mono {Q' : α → G → Prop} (hQ : ∀ a g, Q a g → Q' a g) {p : Prog L σ α} {g : G}
    (h : Safe I C t Q p g) : Safe I C t Q' p g := by
  induction p generalizing g with
  | ret a => exact hQ a g h
  | act label f k ih =>
    intro n s γ b s' ht hI hg hC hf
    obtain ⟨g', hI', hk⟩ := h n s γ b s' ht hI hg hC hf
    exact ⟨g', hI', ih b hk⟩

/-- **Sequencing.** -/
theorem Safe.bind {R : β → G → Prop} {p : Prog L σ α} {g : G}
    (h : Safe I C t Q p g) {k : α → Prog L σ β} (hk : ∀ a g, Q a g → Safe I C t R (k a) g) :
    Safe I C t R (p >>= k) g := by
  induction p generalizing g with
  | ret a => exact hk a g h
  | act label f next ih =>
    intro n s γ b s' ht hI hg hC hf
    obtain ⟨g', hI', hnext⟩ := h n s γ b s' ht hI hg hC hf
    exact ⟨g', hI', ih b hnext⟩

theorem Safe.cut {p handler : Prog L σ α} {g : G} (h : Safe I C t Q p g)
    (hhandler : ∀ g, Safe I C t Q handler g) (n : ℕ) : Safe I C t Q (Prog.cut handler n p) g := by
  induction p generalizing g n with
  | ret a => cases n <;> exact h
  | act label f k ih =>
    cases n with
    | zero => exact hhandler g
    | succ n =>
      intro m s γ b s' ht hI hg hC hf
      obtain ⟨g', hI', hk⟩ := h m s γ b s' ht hI hg hC hf
      exact ⟨g', hI', ih b hk n⟩

/-- Safety of a program that may fail: only a success promises `Q`. -/
def SafeE {ε : Type} (I : ℕ → σ → (ℕ → G) → Prop) (C : L → σ → Prop) (t : ℕ) (Q : α → G → Prop)
    (p : ExceptT ε (Prog L σ) α) (g : G) : Prop :=
  Safe I C t (fun r g' => ∀ a, r = .ok a → Q a g') p.run g

section
variable {ε : Type} {Q : α → G → Prop} {R : β → G → Prop} {g : G}

theorem SafeE.bind {p : ExceptT ε (Prog L σ) α} {k : α → ExceptT ε (Prog L σ) β}
    (h : SafeE I C t Q p g) (hk : ∀ a g, Q a g → SafeE I C t R (k a) g) :
    SafeE I C t R (p >>= k) g := by
  refine Safe.bind h fun r g' hr => ?_
  cases r with
  | ok a => exact hk a g' (hr a rfl)
  | error e => exact fun b hb => nomatch hb

theorem SafeE.pure {a : α} (h : Q a g) : SafeE I C t Q (pure a : ExceptT ε (Prog L σ) α) g := by
  intro b hb
  cases hb
  exact h

theorem SafeE.done {a : α} :
    SafeE I C t (fun _ _ => True) (Pure.pure a : ExceptT ε (Prog L σ) α) g :=
  SafeE.pure trivial

theorem SafeE.throw (e : ε) : SafeE I C t Q (throw e : ExceptT ε (Prog L σ) α) g :=
  fun _ hb => nomatch hb

theorem SafeE.lift {p : Prog L σ α} (h : Safe I C t Q p g) :
    SafeE I C t Q (ExceptT.lift p : ExceptT ε (Prog L σ) α) g := by
  refine Safe.bind h fun a g' ha => ?_
  intro b hb
  cases hb
  exact ha

end

theorem Safe.read {Q : β → G → Prop} {label : L} {f : ℕ → σ → β} {g : G}
    (h : ∀ n s γ, t < n → I n s γ → γ t = g → C label s → Q (f t s) g) :
    Safe I C t Q (Prog.read label f) g := by
  intro n s γ b s' ht hI hg hC hf
  cases hf
  refine ⟨g, ?_, h n s γ ht hI hg hC⟩
  rwa [← hg, Function.update_eq_self]

/-- **Adequacy.**  In every machine reached there are ghost values for its threads that satisfy the
invariant, and from which the rest of each thread is safe. -/
theorem Reach.safe {Q : Op → ρ → G → Prop} (idle : G)
    (hstart : ∀ s, S.start s → I 0 s fun _ => idle)
    (hspawn : ∀ n s γ, I n s γ → γ n = idle → I (n + 1) s γ)
    (henv : ∀ n s γ e s', I n s γ → S.env e s = some s' → I n s' γ)
    (hsafe : ∀ op t, Safe I C t (Q op) (S.program op) idle) (h : Reach S C m) :
    ∃ γ, I m.threads.length m.store γ ∧ (∀ i, m.threads.length ≤ i → γ i = idle) ∧
      ∀ i th, m.threads[i]? = some th → Safe I C i (Q th.op) th.prog (γ i) := by
  -- the invariant and every thread's own claim are carried together over the run
  induction h with
  | start h => exact ⟨fun _ => idle, hstart _ h, fun _ _ => rfl, fun i th hi => by cases hi⟩
  | @spawn m _ op ih =>
    obtain ⟨γ, hI, hidle, hth⟩ := ih
    have hlast := hidle _ le_rfl
    refine ⟨γ, ?_, fun i hi => hidle i ?_, fun i th hi => ?_⟩
    · rw [List.length_append]
      exact hspawn _ _ _ hI hlast
    · rw [List.length_append] at hi
      exact le_trans (Nat.le_succ _) hi
    · rw [List.getElem?_append] at hi
      split at hi
      · exact hth i th hi
      · rename_i hlt
        rw [List.getElem?_singleton] at hi
        split at hi
        · rename_i heq
          obtain rfl : i = m.threads.length := by omega
          cases hi
          rw [hlast]
          exact hsafe op _
        · cases hi
  | env _ he ih =>
    obtain ⟨γ, hI, hidle, hth⟩ := ih
    exact ⟨γ, henv _ _ _ _ _ hI he, hidle, hth⟩
  | @run m _ i op _ label f k b s hi hC hf ih =>
    obtain ⟨γ, hI, hidle, hth⟩ := ih
    have hlt : i < m.threads.length := by
      by_contra hge
      rw [List.getElem?_eq_none (not_lt.mp hge)] at hi
      cases hi
    -- the step moves the ghost of the thread that takes it, and no other
    obtain ⟨g', hI', hk⟩ := hth i _ hi _ _ _ b s hlt hI rfl hC hf
    refine ⟨Function.update γ i g', ?_, fun j hj => ?_, fun j th hj => ?_⟩
    · rwa [List.length_set]
    · rw [List.length_set] at hj
      rw [Function.update_of_ne (by omega)]
      exact hidle j hj
    · rw [List.getElem?_set] at hj
      split at hj
      · rename_i heq
        subst heq
        cases hj
        rw [Function.update_self]
        exact hk
      · rename_i hne
        rw [Function.update_of_ne (Ne.symm hne)]
        exact hth j th hj

/-! ### Running a schedule -/

/-- One choice of a scheduler. -/
inductive Choice (Op E : Type) where
  | spawn (op : Op)
  | env (e : E)
  | run (i : ℕ)

/-- The machine after a choice, where it can be taken. -/
def Machine.step (S : System Op E L σ ρ) (C : L → σ → Prop) [∀ l s, Decidable (C l s)]
    (m : Machine Op L σ ρ) : Choice Op E → Option (Machine Op L σ ρ)
  | .spawn op => some ⟨m.store, m.threads ++ [⟨op, S.program op⟩]⟩
  | .env e => (S.env e m.store).map fun s => ⟨s, m.threads⟩
  | .run i =>
    match m.threads[i]? with
    | some ⟨op, .act label f k⟩ =>
      if C label m.store then
        (f i m.store).map fun r => ⟨r.2, m.threads.set i ⟨op, k r.1⟩⟩
      else none
    | _ => none

def Machine.exec (S : System Op E L σ ρ) (C : L → σ → Prop) [∀ l s, Decidable (C l s)] :
    Machine Op L σ ρ → List (Choice Op E) → Option (Machine Op L σ ρ)
  | m, [] => some m
  | m, c :: cs => (m.step S C c).bind fun m' => m'.exec S C cs

/-- The calls of a machine, and what the finished ones answered. -/
def Machine.calls (m : Machine Op L σ ρ) : List (Op × Option ρ) :=
  m.threads.map fun th => (th.op, th.prog.result?)

theorem Machine.answered_of_calls {i : ℕ} {op : Op} {answer : ρ}
    (h : m.calls[i]? = some (op, some answer)) : m.Answered op answer := by
  rw [Machine.calls, List.getElem?_map] at h
  obtain ⟨⟨op', p⟩, hth, heq⟩ := Option.map_eq_some_iff.mp h
  obtain ⟨rfl, hp⟩ := Prod.mk.inj heq
  obtain rfl := Prog.result?_eq_some.mp hp
  exact ⟨i, hth⟩

theorem Reach.of_step {C : L → σ → Prop} [∀ l s, Decidable (C l s)]
    {m' : Machine Op L σ ρ} (h : Reach S C m) {c : Choice Op E} (hs : m.step S C c = some m') :
    Reach S C m' := by
  cases c with
  | spawn op =>
    cases hs
    exact h.spawn op
  | env e =>
    obtain ⟨s, he, rfl⟩ := Option.map_eq_some_iff.mp hs
    exact h.env he
  | run i =>
    rw [Machine.step] at hs
    split at hs
    · rename_i op β label f k hi
      split at hs
      · rename_i hC
        obtain ⟨⟨b, s⟩, hf, rfl⟩ := Option.map_eq_some_iff.mp hs
        exact h.run hi hC hf
      · cases hs
    · cases hs

/-- **A schedule that runs ends in a reached machine.** -/
theorem Reach.of_exec {C : L → σ → Prop} [∀ l s, Decidable (C l s)]
    {cs : List (Choice Op E)} {m' : Machine Op L σ ρ} (h : Reach S C m)
    (hs : m.exec S C cs = some m') : Reach S C m' := by
  induction cs generalizing m with
  | nil =>
    cases hs
    exact h
  | cons c cs ih =>
    obtain ⟨m₁, h₁, hs⟩ := Option.bind_eq_some_iff.mp hs
    exact ih (h.of_step h₁) hs

end Threads
