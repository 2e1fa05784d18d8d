import Mathlib

/-!
# Support — Outcome — runs of fallible code

How an `Except` computation composes: it goes on with the value of a step that returned
(`ok_bind`), stops at one that raised (`error_bind`), and one that returned did so at every step
(`bind_eq_ok`).
-/

variable {ε α β : Type}

@[simp] theorem ok_bind (a : α) (f : α → Except ε β) : (Except.ok a >>= f) = f a := rfl

@[simp] theorem error_bind (e : ε) (f : α → Except ε β) : (Except.error e >>= f) = .error e := rfl

variable {x : Except ε α} {f : α → Except ε β}

theorem bind_eq_ok {b : β} : (x >>= f) = .ok b ↔ ∃ a, x = .ok a ∧ f a = .ok b := by
  cases x with
  | error e => simp
  | ok a => simp

theorem map_eq_ok {f : α → β} {b : β} : x.map f = .ok b ↔ ∃ a, x = .ok a ∧ f a = b := by
  cases x with
  | error e => simp [Except.map]
  | ok a => simp [Except.map]

theorem map_eq_error {f : α → β} {e : ε} : x.map f = .error e ↔ x = .error e := by
  cases x with
  | error e' => simp [Except.map]
  | ok a => simp [Except.map]

variable {l : List α}

theorem mapM_ok {g : α → β} (h : ∀ a ∈ l, f a = .ok (g a)) : l.mapM f = .ok (l.map g) := by
  induction l with
  | nil => rfl
  | cons a rest ih =>
    rw [List.mapM_cons, h a List.mem_cons_self, ih fun b hb => h b (List.mem_cons_of_mem _ hb)]
    rfl

theorem forall₂_of_mapM {l' : List β}
    (h : l.mapM f = .ok l') : List.Forall₂ (fun a b => f a = .ok b) l l' := by
  induction l generalizing l' with
  | nil =>
    obtain rfl : [] = l' := Except.ok.inj h
    exact .nil
  | cons a rest ih =>
    rw [List.mapM_cons] at h
    obtain ⟨b, ha, h⟩ := bind_eq_ok.mp h
    obtain ⟨bs, hrest, h⟩ := bind_eq_ok.mp h
    obtain rfl : b :: bs = l' := Except.ok.inj h
    exact .cons ha (ih hrest)

theorem exists_of_mem_mapM {l' : List β}
    (h : l.mapM f = .ok l') {b : β} (hb : b ∈ l') : ∃ a ∈ l, f a = .ok b := by
  have hall := forall₂_of_mapM h
  clear h
  induction hall with
  | nil => cases hb
  | @cons a c rest rest' hac _ ih =>
    rcases List.mem_cons.mp hb with rfl | hb
    · exact ⟨a, List.mem_cons_self, hac⟩
    · obtain ⟨a', ha', hok⟩ := ih hb
      exact ⟨a', List.mem_cons_of_mem _ ha', hok⟩

theorem mapM_returns : (∃ l', l.mapM f = .ok l') ↔ ∀ a ∈ l, ∃ b, f a = .ok b := by
  induction l with
  | nil => simp [pure, Except.pure]
  | cons a rest ih =>
    rw [List.forall_mem_cons, ← ih, List.mapM_cons]
    constructor
    · rintro ⟨l', hl'⟩
      obtain ⟨b, hb, hrest⟩ := bind_eq_ok.mp hl'
      obtain ⟨bs, hbs, -⟩ := bind_eq_ok.mp hrest
      exact ⟨⟨b, hb⟩, bs, hbs⟩
    · rintro ⟨⟨b, hb⟩, bs, hbs⟩
      exact ⟨b :: bs, bind_eq_ok.mpr ⟨b, hb, bind_eq_ok.mpr ⟨bs, hbs, rfl⟩⟩⟩

theorem foldlM_returns {σ : Type} {f : σ → α → Except ε σ} {good : α → Prop}
    (h : ∀ s a, (∃ s', f s a = .ok s') ↔ good a) (l : List α) (s : σ) :
    (∃ s', l.foldlM f s = .ok s') ↔ ∀ a ∈ l, good a := by
  induction l generalizing s with
  | nil => simp [pure, Except.pure]
  | cons a rest ih =>
    rw [List.forall_mem_cons, List.foldlM_cons]
    constructor
    · rintro ⟨s', hs'⟩
      obtain ⟨t, ht, hrest⟩ := bind_eq_ok.mp hs'
      exact ⟨(h s a).mp ⟨t, ht⟩, (ih t).mp ⟨s', hrest⟩⟩
    · rintro ⟨ha, hrest⟩
      obtain ⟨t, ht⟩ := (h s a).mpr ha
      obtain ⟨s', hs'⟩ := (ih t).mpr hrest
      exact ⟨s', bind_eq_ok.mpr ⟨t, ht, hs'⟩⟩

/-- What each turn of a loop does to the state with the items of its element, the loop does with the
items of all. -/
theorem foldlM_ok {σ : Type} {f : σ → α → Except ε σ} {s s' : σ}
    (h : l.foldlM f s = .ok s') (items : α → List β) (Does : List β → σ → σ → Prop)
    (hnil : ∀ s, Does [] s s)
    (happend : ∀ {xs ys s t u}, Does xs s t → Does ys t u → Does (xs ++ ys) s u)
    (hstep : ∀ s a s', f s a = .ok s' → Does (items a) s s') : Does (l.flatMap items) s s' := by
  induction l generalizing s with
  | nil =>
    obtain rfl : s = s' := Except.ok.inj h
    exact hnil s
  | cons a rest ih =>
    rw [List.foldlM_cons] at h
    obtain ⟨t, ht, hrest⟩ := bind_eq_ok.mp h
    rw [List.flatMap_cons]
    exact happend (hstep s a t ht) (ih hrest)
