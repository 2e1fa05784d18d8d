import Mathlib

/-!
# Support — Raising — programs over a state that may raise

A program returns a value or an exception, with the state after it.  `Ends` says what holds where it
returns and where it raises; it is computed by one rule for each way to build a program, and
`Ends.mono` weakens it.
-/

namespace Raising

/-- A program over states `σ` that may raise an `ε`. -/
def Program (ε σ α : Type) := σ → Except ε α × σ

namespace Program
variable {ε σ α β : Type}

instance instMonad : Monad (Program ε σ) where
  pure a := fun s => (.ok a, s)
  bind x f := fun s =>
    match x s with
    | (.ok a, s) => f a s
    | (.error e, s) => (.error e, s)

def raise (e : ε) : Program ε σ α := fun s => (.error e, s)

def update (f : σ → σ) : Program ε σ Unit := fun s => (.ok (), f s)

def read (f : σ → α) : Program ε σ α := fun s => (.ok (f s), s)

/-- `try … except`: an exception the handler has no program for goes on. -/
def rescue (x : Program ε σ α) (handler : ε → Option (Program ε σ α)) : Program ε σ α := fun s =>
  match x s with
  | (.ok a, s) => (.ok a, s)
  | (.error e, s) =>
    match handler e with
    | some program => program s
    | none => (.error e, s)

/-- `try … finally`: an exception of the last part takes the place of what was before it. -/
def ensure (x : Program ε σ α) (last : Program ε σ Unit) : Program ε σ α := fun s =>
  match x s with
  | (result, s) =>
    match last s with
    | (.ok _, s) => (result, s)
    | (.error e, s) => (.error e, s)

/-- The program on the first part of a state, whose second part it leaves. -/
def onFst {τ : Type} (x : Program ε σ α) : Program ε (σ × τ) α := fun s =>
  match x s.1 with
  | (result, s') => (result, s', s.2)

/-- Where the program returns `Q` holds, and where it raises `E`. -/
def Ends (x : Program ε σ α) (s : σ) (Q : α → σ → Prop) (E : ε → σ → Prop) : Prop :=
  match x s with
  | (.ok a, s) => Q a s
  | (.error e, s) => E e s

variable {x : Program ε σ α} {s : σ} {Q Q' : α → σ → Prop} {E E' : ε → σ → Prop}

theorem Ends.mono (h : x.Ends s Q E) (hQ : ∀ a s, Q a s → Q' a s) (hE : ∀ e s, E e s → E' e s) :
    x.Ends s Q' E' := by
  rw [Ends] at h ⊢
  split
  · rename_i a s' heq
    rw [heq] at h
    exact hQ a s' h
  · rename_i e s' heq
    rw [heq] at h
    exact hE e s' h

theorem Ends.and (h : x.Ends s Q E) (h' : x.Ends s Q' E') :
    x.Ends s (fun a s => Q a s ∧ Q' a s) fun e s => E e s ∧ E' e s := by
  rw [Ends] at h h' ⊢
  split
  · rename_i a s' heq
    rw [heq] at h h'
    exact ⟨h, h'⟩
  · rename_i e s' heq
    rw [heq] at h h'
    exact ⟨h, h'⟩

@[simp] theorem ends_pure (a : α) : (pure a : Program ε σ α).Ends s Q E ↔ Q a s := Iff.rfl

@[simp] theorem ends_raise (e : ε) : (raise e : Program ε σ α).Ends s Q E ↔ E e s := Iff.rfl

@[simp] theorem ends_update (f : σ → σ) {Q : Unit → σ → Prop} :
    (update f : Program ε σ Unit).Ends s Q E ↔ Q () (f s) := Iff.rfl

@[simp] theorem ends_read (f : σ → α) : (read f : Program ε σ α).Ends s Q E ↔ Q (f s) s := Iff.rfl

@[simp] theorem ends_bind (f : α → Program ε σ β) {Q : β → σ → Prop} :
    (x >>= f).Ends s Q E ↔ x.Ends s (fun a s => (f a).Ends s Q E) E := by
  simp only [Ends, bind]
  cases x s with
  | mk result s' => cases result <;> rfl

@[simp] theorem ends_ite {p : Prop} [Decidable p] {y : Program ε σ α} :
    (if p then x else y).Ends s Q E ↔ (p → x.Ends s Q E) ∧ (¬ p → y.Ends s Q E) := by
  by_cases hp : p <;> simp [hp]

theorem ends_rescue (handler : ε → Option (Program ε σ α)) :
    (x.rescue handler).Ends s Q E ↔ x.Ends s Q fun e s =>
      match handler e with
      | some program => program.Ends s Q E
      | none => E e s := by
  simp only [Ends, rescue]
  cases x s with
  | mk result s' =>
    cases result with
    | ok a => rfl
    | error e =>
      dsimp only
      cases handler e <;> rfl

theorem ends_ensure (last : Program ε σ Unit) : (x.ensure last).Ends s Q E ↔
      x.Ends s (fun a s => last.Ends s (fun _ s => Q a s) E)
        fun e s => last.Ends s (fun _ s => E e s) E := by
  simp only [Ends, ensure]
  cases x s with
  | mk result s' =>
    cases result with
    | ok a =>
      dsimp only
      cases last s' with
      | mk result' s'' => cases result' <;> rfl
    | error e =>
      dsimp only
      cases last s' with
      | mk result' s'' => cases result' <;> rfl

@[simp] theorem ends_onFst {τ : Type} {p : σ × τ} {Q : α → σ × τ → Prop} {E : ε → σ × τ → Prop} :
    (onFst x).Ends p Q E ↔ x.Ends p.1 (fun a s => Q a (s, p.2)) fun e s => E e (s, p.2) := by
  simp only [Ends, onFst]
  cases x p.1 with
  | mk result s' => cases result <;> rfl

theorem Ends.state {P : σ → Prop} (h : x.Ends s (fun _ s => P s) fun _ s => P s) : P (x s).2 := by
  rw [Ends] at h
  split at h
  · rename_i a s' heq
    rw [heq]
    exact h
  · rename_i e s' heq
    rw [heq]
    exact h

end Program

end Raising
