import Otari.Inference.ClaimHistory

/-!
# Inference — OneClaim — every interleaving leaves a legal history

The calls of any number of requests on one key, act by act (`Inv`, one lemma an act): whatever the
order, the committed blocks form a legal history, a request answered with a response saw the version
that holds it, and one answered with a claim committed it.  `idempotency_safe` reads the four
guarantees off the history.
-/

namespace Otari.Inference
open Threads
open Function (update_eq_self update_of_ne update_self)

variable {box : MultiFernet}

/-- What a thread knows: the time it read, the token it drew, the version it found, what its open
block wrote, and the change its last block committed. -/
structure Ghost where
  now : Option Instant := none
  token : Option Token := none
  saw : Option IdempotencyRecord := none
  wrote : Option (Block × Option IdempotencyRecord) := none
  done : Option Change := none

/-- A block that wrote `v` may commit, now or later. -/
def Pending (box : MultiFernet) (s : Store) (block : Block) (v : Option IdempotencyRecord) : Prop :=
  ∀ at_, s.clock ≤ at_ → Legal box (⟨at_, block, current s.history, v⟩ :: s.history)

/-- What holds of the store alone. -/
structure Shared (box : MultiFernet) (s : Store) : Prop where
  legal : Legal box s.history
  times : ∀ c ∈ s.history, c.at_ ≤ s.clock
  committed : s.row.committed = current s.history
  issued : ∀ token, Issued s.history token → token < s.nextToken

/-- What a thread knows is so. -/
structure Knows (box : MultiFernet) (s : Store) (t : ℕ) (g : Ghost) : Prop where
  /-- The row is held by the thread whose open block wrote it. -/
  wrote : ∀ v, s.row.dirty = some (t, v) ↔ ∃ block, g.wrote = some (block, v)
  pending : ∀ block v, g.wrote = some (block, v) → Pending box s block v
  /-- A version written is of an issued claim, or of the token its thread drew. -/
  claim : ∀ block r, g.wrote = some (block, some r) →
    Issued s.history r.claimToken ∨ g.token = some r.claimToken
  now : ∀ now, g.now = some now → now ≤ s.clock
  fresh : ∀ token, g.token = some token → token < s.nextToken ∧ ¬ Issued s.history token
  saw : ∀ r, g.saw = some r → ∃ c ∈ s.history, c.after = some r
  done : ∀ c, g.done = some c → c ∈ s.history

/-- **The invariant of every interleaving.**  Two threads never draw one token. -/
structure Inv (box : MultiFernet) (n : ℕ) (s : Store) (γ : ℕ → Ghost) : Prop where
  shared : Shared box s
  thread : ∀ t, Knows box s t (γ t)
  apart : ∀ t u token, (γ t).token = some token → (γ u).token = some token → t = u

/-- Safety of a program of the machine. -/
abbrev Sound {α : Type} (box : MultiFernet) (t : ℕ) (Q : α → Ghost → Prop) (p : Run α)
    (g : Ghost) : Prop :=
  Safe (Inv box) (fun _ _ => True) t Q p g

variable {n t : ℕ} {s s' : Store} {γ : ℕ → Ghost} {g g' : Ghost}

/-! ### Framing -/

theorem Knows.frame (h : Knows box s t g) (hhist : s'.history = s.history)
    (hclock : s.clock ≤ s'.clock) (htoken : s.nextToken ≤ s'.nextToken)
    (hdirty : ∀ v, s'.row.dirty = some (t, v) ↔ s.row.dirty = some (t, v)) : Knows box s' t g where
  wrote v := (hdirty v).trans (h.wrote v)
  pending block v hw at_ hat := by
    rw [hhist]
    exact h.pending block v hw at_ (hclock.trans hat)
  claim := by
    rw [hhist]
    exact h.claim
  now now hn := (h.now now hn).trans hclock
  fresh token ht := by
    rw [hhist]
    exact ⟨(h.fresh token ht).1.trans_le htoken, (h.fresh token ht).2⟩
  saw := by
    rw [hhist]
    exact h.saw
  done := by
    rw [hhist]
    exact h.done

/-- One thread's act keeps the invariant: what holds of the store, what the others know, and what it
knows itself. -/
theorem Inv.update (h : Inv box n s γ) (hshared : Shared box s')
    (hother : ∀ u, u ≠ t → Knows box s' u (γ u)) (hself : Knows box s' t g')
    (htoken : ∀ token, g'.token = some token → ∀ u, u ≠ t → (γ u).token ≠ some token) :
    Inv box n s' (Function.update γ t g') := by
  refine ⟨hshared, fun u => ?_, fun u v token hu hv => ?_⟩
  · by_cases hut : u = t
    · subst hut
      rw [update_self]
      exact hself
    · rw [update_of_ne hut]
      exact hother u hut
  · by_cases hut : u = t
    · by_cases hvt : v = t
      · exact hut.trans hvt.symm
      · subst hut
        rw [update_self] at hu
        rw [update_of_ne hvt] at hv
        exact absurd hv (htoken token hu v hvt)
    · rw [update_of_ne hut] at hu
      by_cases hvt : v = t
      · subst hvt
        rw [update_self] at hv
        exact absurd hu (htoken token hv u hut)
      · rw [update_of_ne hvt] at hv
        exact h.apart u v token hu hv

theorem Inv.token_apart (h : Inv box n s γ) (hg : γ t = g) (hsame : g'.token = g.token) :
    ∀ token, g'.token = some token → ∀ u, u ≠ t → (γ u).token ≠ some token :=
  fun token ht u hut hu => hut (h.apart u t token hu (by rw [hg, ← hsame, ht]))

theorem Inv.visible (h : Inv box n s γ) (hw : (γ t).wrote = none) :
    s.row.visible t = current s.history := by
  rw [← h.shared.committed]
  rcases hd : s.row.dirty with _ | ⟨u, v⟩
  · simp [Cell.visible, hd]
  · have hu : u ≠ t := by
      rintro rfl
      obtain ⟨block, hb⟩ := ((h.thread u).wrote v).mp hd
      rw [hw] at hb
      cases hb
    simp [Cell.visible, hd, hu]

theorem Inv.clean (h : Inv box n s γ) (hw : (γ t).wrote = none)
    (hfree : s.row.heldByOther t = false) : s.row.dirty = none := by
  rcases hd : s.row.dirty with _ | ⟨u, v⟩
  · rfl
  · have hu : u = t := by simpa [Cell.heldByOther, hd] using hfree
    subst hu
    obtain ⟨block, hb⟩ := ((h.thread u).wrote v).mp hd
    rw [hw] at hb
    cases hb

/-! ### One lemma an act -/

theorem getDatabaseTime_sound :
    Sound box t (fun now g' => g' = { g with now := some now }) getDatabaseTime g := by
  intro n s γ now s' _ h hg _ hf
  cases hf
  subst hg
  have hk := h.thread t
  refine ⟨{ γ t with now := some s.clock }, h.update h.shared (fun u _ => h.thread u) ?_
    (h.token_apart rfl rfl), rfl⟩
  exact { hk with now := fun now hn => by cases hn; exact le_rfl }

theorem uuid4_sound (hw : g.wrote = none) :
    Sound box t (fun token g' => g' = { g with token := some token }) uuid4 g := by
  intro n s γ token s' _ h hg _ hf
  cases hf
  subst hg
  have hnew : ¬ Issued s.history s.nextToken := fun hi => (h.shared.issued _ hi).ne rfl
  refine ⟨{ γ t with token := some s.nextToken }, h.update ?_ (fun u _ => ?_) ?_ ?_, rfl⟩
  · exact { h.shared with issued := fun token hi => (h.shared.issued token hi).trans (Nat.lt_succ_self _) }
  · exact (h.thread u).frame rfl le_rfl (Nat.le_succ _) fun v => Iff.rfl
  · have hk : Knows box { s with nextToken := s.nextToken + 1 } t (γ t) :=
      (h.thread t).frame rfl le_rfl (Nat.le_succ _) fun v => Iff.rfl
    refine { hk with claim := fun block r hb => ?_, fresh := fun token ht => ?_ }
    · rw [hw] at hb
      cases hb
    · cases ht
      exact ⟨Nat.lt_succ_self _, hnew⟩
  · intro token ht u hut hu
    cases ht
    exact absurd ((h.thread u).fresh _ hu).1 (lt_irrefl _)

theorem find_sound (hw : g.wrote = none) :
    Sound box t (fun record g' => g' = { g with saw := record }) find g := by
  intro n s γ record s' _ h hg _ hf
  cases hf
  subst hg
  refine ⟨{ γ t with saw := s.row.visible t }, h.update h.shared (fun u _ => h.thread u) ?_
    (h.token_apart rfl rfl), rfl⟩
  refine { h.thread t with saw := fun r hr => ?_ }
  rw [h.visible hw] at hr
  cases hh : s.history with
  | nil => rw [hh] at hr; cases hr
  | cons c rest =>
    rw [hh] at hr
    exact ⟨c, List.mem_cons_self, hr⟩

variable {block : Block}

theorem Inv.write (h : Inv box n s γ) (hg : γ t = g) (hfree : s.row.dirty = none)
    {v : Option IdempotencyRecord} (hpending : Pending box s block v)
    (hclaim : ∀ r, v = some r → Issued s.history r.claimToken ∨ g.token = some r.claimToken) :
    Inv box n { s with row := s.row.write t v }
      (Function.update γ t { g with wrote := some (block, v) }) := by
  subst hg
  have hk := h.thread t
  refine h.update ⟨h.shared.legal, h.shared.times, h.shared.committed, h.shared.issued⟩
    (fun u hu => (h.thread u).frame rfl le_rfl le_rfl fun w => ?_) ?_ (h.token_apart rfl rfl)
  · simp only [Cell.write, hfree]
    constructor
    · intro hd
      cases hd
      exact absurd rfl hu
    · intro hd
      cases hd
  · refine ⟨fun w => ?_, ?_, ?_, hk.now, hk.fresh, hk.saw, hk.done⟩
    · simp only [Cell.write]
      constructor
      · intro hd
        cases hd
        exact ⟨block, rfl⟩
      · rintro ⟨b, hb⟩
        cases hb
        rfl
    · intro b w hb
      cases hb
      exact hpending
    · intro b r hb
      cases hb
      exact hclaim r rfl

/-- What a write left its thread: the version its block has written, or nothing new. -/
def Wrote (g : Ghost) (block : Block) (v : Option IdempotencyRecord) (b : Bool) (g' : Ghost) :
    Prop :=
  (b = true ∧ g' = { g with wrote := some (block, v) }) ∨ (b = false ∧ g' = g)

/-- **A conditional update**, in a block that may commit it over any row that matches. -/
theorem updateRow_sound {p : IdempotencyRecord → Bool}
    {f : IdempotencyRecord → Option IdempotencyRecord} (hw : g.wrote = none) (block : Block)
    (hp : ∀ s, Shared box s → Knows box s t g → ∀ r, current s.history = some r → p r = true →
      Pending box s block (f r) ∧ ∀ r', f r = some r' →
        Issued s.history r'.claimToken ∨ g.token = some r'.claimToken) :
    Sound box t (fun b g' => ∃ v, (b = true → ∃ r, v = f r) ∧ Wrote g block v b g')
      (updateRow p f) g := by
  intro n s γ b s' _ h hg _ hf
  obtain ⟨⟨b', row⟩, hrow, heq⟩ := Option.map_eq_some_iff.mp hf
  cases heq
  rcases Cell.updateWhere_cases hrow with ⟨rfl, hfree, hmatch, rfl⟩ | ⟨rfl, rfl, -⟩
  · have hclean := h.clean (hg ▸ hw) hfree
    have hlatest : s.row.latest = current s.history := by
      rw [← h.shared.committed, Cell.latest, hclean]
    rw [hlatest] at hmatch ⊢
    obtain ⟨r, hr, hpr⟩ := (Option.any_eq_true _ _).mp hmatch
    obtain ⟨hpending, hclaim⟩ := hp s h.shared (hg ▸ h.thread t) r hr hpr
    rw [hr]
    exact ⟨_, h.write hg hclean hpending hclaim, f r, fun _ => ⟨r, rfl⟩, .inl ⟨rfl, rfl⟩⟩
  · exact ⟨g, by rwa [← hg, update_eq_self], none, (fun hb => absurd hb Bool.false_ne_true),
      .inr ⟨rfl, rfl⟩⟩

variable {config : GatewayConfig} {request : IdempotentRequest} {token : Token} {now : Instant}

theorem insertClaim_sound
    (hw : g.wrote = none) (hn : g.now = some now) (ht : g.token = some token) :
    Sound box t (Wrote g (.admitRequest config request) (some (claimValues config request token now)))
      (insertClaim (claimValues config request token now)) g := by
  intro n s γ b s' _ h hg _ hf
  have hk := hg ▸ h.thread t
  beta_reduce at hf
  split at hf
  · cases hf
  · rename_i hfree
    rw [Bool.not_eq_true] at hfree
    have hvisible := h.visible (hg ▸ hw)
    split at hf
    · rename_i hnone
      cases hf
      rw [hvisible] at hnone
      refine ⟨_, h.write hg (h.clean (hg ▸ hw) hfree) ?_ ?_, .inl ⟨rfl, rfl⟩⟩
      · intro at_ hat
        refine .admitRequest h.shared.legal (fun c hc => (h.shared.times c hc).trans hat)
          ((hk.now now hn).trans hat) (hk.fresh token ht).2 fun r hr => ?_
        rw [hnone] at hr
        cases hr
      · intro r hr
        cases hr
        exact .inr ht
    · cases hf
      exact ⟨g, by rwa [← hg, update_eq_self], .inr ⟨rfl, rfl⟩⟩

theorem deleteExpired_sound {reached : Bool} (hw : g.wrote = none) (hn : g.now = some now) :
    Sound box t (Wrote g .sweep none) (deleteExpired now reached) g := by
  intro n s γ b s' _ h hg _ hf
  have hk := hg ▸ h.thread t
  beta_reduce at hf
  split at hf
  · rename_i hdel
    cases hf
    obtain ⟨hfree, -, hexp⟩ := hdel
    rw [Bool.not_eq_true'] at hfree
    rw [h.visible (hg ▸ hw)] at hexp
    obtain ⟨r, hr, hexpired⟩ := (Option.any_eq_true _ _).mp hexp
    refine ⟨_, h.write hg (h.clean (hg ▸ hw) hfree) (fun at_ hat => ?_) (fun r hr => nomatch hr),
      .inl ⟨rfl, rfl⟩⟩
    exact .sweep h.shared.legal (fun c hc => (h.shared.times c hc).trans hat)
      ((hk.now now hn).trans hat) hr hexpired
  · cases hf
    exact ⟨g, by rwa [← hg, update_eq_self], .inr ⟨rfl, rfl⟩⟩

/-- **A block's end** commits what the block wrote, once. -/
theorem commit_sound (hb : ∀ b v, g.wrote = some (b, v) → b = block) :
    Sound box t (fun _ g' => (g.wrote = none ∧ g' = g) ∨
      ∃ c, g.wrote = some (block, c.after) ∧ c.block = block ∧ g' = { done := some c })
      (commit block) g := by
  intro n s γ b s' _ h hg _ hf
  have hk := hg ▸ h.thread t
  beta_reduce at hf
  split at hf
  · rename_i hheld
    cases hf
    obtain ⟨v, hv⟩ : ∃ v, s.row.dirty = some (t, v) := by
      rcases hd : s.row.dirty with _ | ⟨u, v⟩
      · simp [Cell.heldBy, hd] at hheld
      · have hu : u = t := by simpa [Cell.heldBy, hd] using hheld
        exact ⟨v, by rw [hu]⟩
    obtain ⟨block', hwrote⟩ := (hk.wrote v).mp hv
    obtain rfl := hb block' v hwrote
    have hlatest : s.row.latest = v := by simp [Cell.latest, hv]
    have hlegal := hk.pending block' v hwrote s.clock le_rfl
    have hrow : s.row.commit t = ⟨v, none⟩ := by rw [Cell.commit, if_pos hheld, hlatest]
    have hissued : ∀ token, Issued (⟨s.clock, block', s.row.committed, v⟩ :: s.history) token →
        Issued s.history token ∨ g.token = some token := by
      rintro token ⟨c, hc, r, hr, rfl⟩
      rcases List.mem_cons.mp hc with rfl | hc
      · cases hr
        exact hk.claim block' r hwrote
      · exact .inl ⟨c, hc, r, hr, rfl⟩
    simp only [hlatest, hrow]
    refine ⟨{ done := some ⟨s.clock, block', s.row.committed, v⟩ }, h.update ?_ (fun u hu => ?_) ?_
      (fun token ht => by cases ht), .inr ⟨_, hwrote, rfl, rfl⟩⟩
    · refine ⟨by rwa [h.shared.committed], fun c hc => ?_, rfl, fun token hi => ?_⟩
      · rcases List.mem_cons.mp hc with rfl | hc
        · exact le_rfl
        · exact h.shared.times c hc
      · rcases hissued token hi with hi | ht
        · exact h.shared.issued token hi
        · exact (hk.fresh token ht).1
    · -- no other thread holds the row, so none has a version pending
      have hku := h.thread u
      have hnone : (γ u).wrote = none := by
        rcases hu' : (γ u).wrote with _ | ⟨b, w⟩
        · rfl
        · have hd := (hku.wrote w).mpr ⟨b, hu'⟩
          rw [hv] at hd
          cases hd
          exact absurd rfl hu
      refine ⟨fun w => ?_, ?_, ?_, hku.now, fun token ht => ?_, fun r hr => ?_, fun c hc => ?_⟩
      · rw [hnone]
        constructor
        · intro hd
          cases hd
        · rintro ⟨b, hb⟩
          cases hb
      · rw [hnone]
        intro b w hb
        cases hb
      · rw [hnone]
        intro b w hb
        cases hb
      · refine ⟨(hku.fresh token ht).1, fun hi => ?_⟩
        rcases hissued token hi with hi | hgt
        · exact (hku.fresh token ht).2 hi
        · exact hu (h.apart u t token ht (hg ▸ hgt))
      · obtain ⟨c, hc, hr⟩ := hku.saw r hr
        exact ⟨c, List.mem_cons_of_mem _ hc, hr⟩
      · exact List.mem_cons_of_mem _ (hku.done c hc)
    · refine ⟨fun w => ?_, fun b w hb => ?_, fun b r hb => ?_, fun now hn => ?_, fun token ht => ?_,
        fun r hr => ?_, fun c hc => ?_⟩
      · constructor
        · intro hd
          cases hd
        · rintro ⟨b, hb⟩
          cases hb
      · cases hb
      · cases hb
      · cases hn
      · cases ht
      · cases hr
      · cases hc
        exact List.mem_cons_self
  · rename_i hheld
    cases hf
    refine ⟨g, by rwa [← hg, update_eq_self], .inl ⟨?_, rfl⟩⟩
    rcases hw : g.wrote with _ | ⟨b, v⟩
    · rfl
    · have hd := (hk.wrote v).mpr ⟨b, hw⟩
      simp [Cell.heldBy, hd] at hheld

/-! ### The calls -/

theorem replay_eq_none {r : IdempotencyRecord} {ciphertext : String}
    (hbody : r.responseBody = some ciphertext) (h : replay box config r = none) :
    decryptSecret box config.secretKeys ciphertext = none := by
  rw [replay, hbody] at h
  exact Option.map_eq_none_iff.mp h

theorem takeOver_sound {seen : IdempotencyRecord} (hw : g.wrote = none) (hn : g.now = some now)
    (ht : g.token = some token) (hs : g.saw = some seen)
    (hover : staleAt seen ≤ now ∨ seen.state = .completed ∧ replay box config seen = none) :
    Sound box t (Wrote g (.admitRequest config request) (some (claimValues config request token now)))
      (takeOver seen now (claimValues config request token now)) g := by
  refine (updateRow_sound hw (.admitRequest config request) fun s hsh hk r hr hp => ?_).mono
    fun b g' hQ => ?_
  · refine ⟨fun at_ hat => ?_, fun r' hr' => by cases hr'; exact .inr ht⟩
    refine .admitRequest hsh.legal (fun c hc => (hsh.times c hc).trans hat) ((hk.now now hn).trans hat)
      (hk.fresh token ht).2 fun r' hr' => ?_
    obtain rfl : r = r' := Option.some.inj (hr.symm.trans hr')
    simp only [decide_eq_true_eq] at hp
    obtain ⟨htok, hstate, hlapsed⟩ := hp
    rcases state_cases seen.state with hprog | hdone
    · refine .inl ?_
      rw [staleAt, if_pos (hstate.trans hprog)]
      exact hlapsed hprog
    · -- a completed row is the one that was seen
      obtain ⟨c, hc, hcseen⟩ := hk.saw seen hs
      obtain rfl := hsh.legal.completed_current hc hcseen hdone hr htok
      refine hover.imp_right fun hnone => ⟨hdone, ?_⟩
      obtain ⟨-, -, -, ciphertext, -, -, -, hbody, -⟩ := hsh.legal.completed_by hc hcseen hdone
      exact ⟨ciphertext, hbody, replay_eq_none hbody hnone.2⟩
  · obtain ⟨v, hv, ⟨rfl, rfl⟩ | hQ⟩ := hQ
    · obtain ⟨r, rfl⟩ := hv rfl
      exact .inl ⟨rfl, rfl⟩
    · exact .inr hQ

/-- What an attempt leaves: a claim written, or a response read. -/
def Attempted (box : MultiFernet) (config : GatewayConfig) (request : IdempotentRequest) :
    Option Admission → Ghost → Prop
  | some (.claimed token), g => ∃ r, r.claimToken = token ∧
      g.wrote = some (.admitRequest config request, some r)
  | some (.replay response), g => g.wrote = none ∧ ∃ r, g.saw = some r ∧ r.state = .completed ∧
      r.requestHash = request.requestHash ∧ replay box config r = some response
  | _, g => g.wrote = none

theorem taken_attempted {b : Bool} (hw : g.wrote = none)
    (hQ : Wrote g (.admitRequest config request) (some (claimValues config request token now)) b g') :
    Attempted box config request (if b then some (.claimed token) else none) g' := by
  rcases hQ with ⟨rfl, rfl⟩ | ⟨rfl, rfl⟩
  · exact ⟨_, rfl, rfl⟩
  · exact hw

theorem tryAdmit_sound (hw : g.wrote = none) :
    Sound box t (Attempted box config request) (tryAdmit box config request) g := by
  refine Safe.bind getDatabaseTime_sound ?_
  rintro now _ rfl
  refine Safe.bind (uuid4_sound (g := { g with now := some now }) hw) ?_
  rintro token _ rfl
  have hw₂ : ({ g with now := some now, token := some token } : Ghost).wrote = none := hw
  refine Safe.bind (insertClaim_sound hw₂ rfl rfl) ?_
  rintro _ _ (⟨rfl, rfl⟩ | ⟨rfl, rfl⟩)
  · exact ⟨_, rfl, rfl⟩
  · refine Safe.bind (find_sound hw₂) ?_
    rintro record _ rfl
    cases record with
    | none => exact hw
    | some record =>
      have hw₃ : ({ g with now := some now, token := some token, saw := some record } :
        Ghost).wrote = none := hw
      dsimp only
      split
      · rename_i hstale
        refine Safe.bind (takeOver_sound hw₃ rfl rfl rfl (.inl hstale)) ?_
        intro taken g' hQ
        exact taken_attempted hw₃ hQ
      · split
        · exact hw
        · rename_i hhash
          split
          · rename_i hs
            cases hreplay : replay box config record with
            | some response => exact ⟨hw, record, rfl, hs, not_ne_iff.mp hhash, hreplay⟩
            | none =>
              refine Safe.bind (takeOver_sound hw₃ rfl rfl rfl (.inr ⟨hs, hreplay⟩)) ?_
              intro taken g' hQ
              exact taken_attempted hw₃ hQ
          · exact hw

/-- What an answer of an admission rests on: the change that claims the key, or the version that
holds the response. -/
def Admitted (box : MultiFernet) (config : GatewayConfig) (request : IdempotentRequest) :
    Admission → Ghost → Prop
  | .claimed token, g => ∃ c r, g.done = some c ∧ c.block = .admitRequest config request ∧
      c.after = some r ∧ r.claimToken = token
  | .replay response, g => ∃ r, g.saw = some r ∧ r.state = .completed ∧
      r.requestHash = request.requestHash ∧ replay box config r = some response
  | _, _ => True

theorem admitLoop_sound (attempts : ℕ) {g : Ghost} (hw : g.wrote = none) :
    Sound box t (Admitted box config request) (admitLoop box config request attempts) g := by
  induction attempts generalizing g with
  | zero => trivial
  | succ attempts ih =>
    refine Safe.bind (tryAdmit_sound hw) fun outcome g hQ => ?_
    have hblock : ∀ b v, g.wrote = some (b, v) → b = .admitRequest config request := by
      intro b v hb
      rcases outcome with _ | (token | response | _ | _ | _ | _)
      case some.claimed =>
        obtain ⟨r, -, hwrote⟩ := hQ
        rw [hwrote] at hb
        cases hb
        rfl
      case some.replay =>
        rw [hQ.1] at hb
        cases hb
      all_goals
        rw [show g.wrote = none from hQ] at hb
        cases hb
    refine Safe.bind (commit_sound hblock) fun _ g' hc => ?_
    rcases outcome with _ | (token | response | _ | _ | _ | _)
    case none =>
      refine ih ?_
      rcases hc with ⟨hn, rfl⟩ | ⟨c, -, -, rfl⟩
      · exact hn
      · rfl
    case some.claimed =>
      obtain ⟨r, ht, hwrote⟩ := hQ
      rcases hc with ⟨hn, -⟩ | ⟨c, hc, hb, rfl⟩
      · rw [hwrote] at hn
        cases hn
      · rw [hwrote, Option.some.injEq, Prod.mk.injEq] at hc
        exact ⟨c, r, rfl, hb, hc.2.symm, ht⟩
    case some.replay =>
      obtain ⟨hn, r, hr⟩ := hQ
      rcases hc with ⟨-, rfl⟩ | ⟨c, hc, -, -⟩
      · exact ⟨r, hr⟩
      · rw [hn] at hc
        cases hc
    all_goals trivial

theorem admit_sound :
    Sound box t (Admitted box config request) (admitRequest box config request) {} := by
  refine Safe.bind (Q := fun _ g' => g' = {}) (Safe.read fun _ _ _ _ _ _ _ => rfl) ?_
  rintro caller _ rfl
  rcases caller with _ | _ | _
  · trivial
  · exact admitLoop_sound _ rfl
  · trivial

theorem commit_own_sound {v : Option IdempotencyRecord} {b : Bool}
    (hw : g.wrote = none) (hQ : Wrote g block v b g') :
    Sound box t (fun _ g₂ => g₂.wrote = none) (commit block) g' := by
  refine (commit_sound fun b' w hb => ?_).mono fun _ g₂ hc => ?_
  · rcases hQ with ⟨-, rfl⟩ | ⟨-, rfl⟩
    · cases hb
      rfl
    · rw [hw] at hb
      cases hb
  · rcases hc with ⟨hn, rfl⟩ | ⟨c, -, -, rfl⟩
    · exact hn
    · rfl

theorem release_sound (hw : g.wrote = none) : Sound box t (fun _ _ => True) (release token) g := by
  refine Safe.bind (updateRow_sound hw (.release token) fun s hsh _ r hr hp => ?_) ?_
  · exact ⟨fun at_ hat => .release hsh.legal (fun c hc => (hsh.times c hc).trans hat) hr hp,
      fun r' hr' => nomatch hr'⟩
  · rintro b g' ⟨v, -, hQ⟩
    exact (commit_own_sound hw hQ).mono fun _ _ _ => trivial

theorem complete_sound {response : StoredResponse}
    {nonce : ℕ} : Sound box t (fun _ _ => True) (complete box config token response nonce) {} := by
  rw [complete]
  split
  · exact (release_sound rfl).bind fun _ _ _ => trivial
  · cases hcipher : encryptSecret box config.secretKeys nonce response.body with
    | none => exact (release_sound rfl).bind fun _ _ _ => trivial
    | some ciphertext =>
      refine Safe.bind getDatabaseTime_sound ?_
      rintro now _ rfl
      refine Safe.bind (updateRow_sound rfl (.complete config token response nonce)
        fun s hsh _ r hr hp => ?_) ?_
      · refine ⟨fun at_ hat => ?_, fun r' hr' => ?_⟩
        · exact .complete hsh.legal (fun c hc => (hsh.times c hc).trans hat) hr hp hcipher
        · cases hr'
          have hissued := issued_current hr
          exact .inl hissued
      · rintro b g' ⟨v, -, hQ⟩
        exact (commit_own_sound rfl hQ).bind fun _ _ _ => trivial

theorem renew_sound : Sound box t (fun _ _ => True) (renew config token) {} := by
  refine Safe.bind getDatabaseTime_sound ?_
  rintro now _ rfl
  refine Safe.bind (updateRow_sound rfl (.renew config token) fun s hsh _ r hr hp => ?_) ?_
  · refine ⟨fun at_ hat => ?_, fun r' hr' => ?_⟩
    · exact .renew hsh.legal (fun c hc => (hsh.times c hc).trans hat) hr hp
    · cases hr'
      have hissued := issued_current hr
      exact .inl hissued
  · rintro b g' ⟨v, -, hQ⟩
    exact (commit_own_sound rfl hQ).bind fun _ _ _ => trivial

theorem sweep_sound (batches : List Bool) {g : Ghost} (hw : g.wrote = none) :
    Sound box t (fun _ _ => True) (sweep batches) g := by
  induction batches generalizing g with
  | nil => trivial
  | cons reached batches ih =>
    refine Safe.bind getDatabaseTime_sound ?_
    rintro now _ rfl
    refine Safe.bind (deleteExpired_sound (g := { g with now := some now }) hw rfl) ?_
    intro b g' hQ
    refine Safe.bind (commit_own_sound (g := { g with now := some now }) hw hQ) ?_
    intro _ g₂ hw₂
    exact (ih hw₂).bind fun _ _ _ => trivial

def Rests (box : MultiFernet) : Call → Answer → Ghost → Prop
  | .admitRequest config request, .admission admission, g => Admitted box config request admission g
  | _, _, _ => True

theorem program_sound (call : Call) : Sound box t (Rests box call) (program box call) {} := by
  cases call with
  | admitRequest config request => exact admit_sound.bind fun _ _ hQ => hQ
  | complete config token response nonce => exact complete_sound.bind fun _ _ _ => trivial
  | renew config token => exact renew_sound.bind fun _ _ _ => trivial
  | release token => exact (release_sound rfl).bind fun _ _ _ => trivial
  | sweep batches => exact (sweep_sound batches rfl).bind fun _ _ _ => trivial

/-! ### Every interleaving -/

theorem start_inv (h : (system box).start s) : Inv box 0 s fun _ => {} := by
  obtain ⟨hrow, hhist⟩ := h
  refine ⟨⟨?_, ?_, ?_, ?_⟩, fun t => ⟨fun v => ?_, fun b v hb => ?_, fun b r hb => ?_,
    fun now hn => ?_, fun token ht => ?_, fun r hr => ?_, fun c hc => ?_⟩, fun t u token ht => ?_⟩
  · rw [hhist]
    exact .nil
  · rw [hhist]
    exact fun c hc => nomatch hc
  · rw [hhist, hrow]
    rfl
  · rw [hhist]
    exact fun token ⟨c, hc, _⟩ => nomatch hc
  · rw [hrow]
    exact ⟨(fun hd => nomatch hd), fun ⟨b, hb⟩ => nomatch hb⟩
  · cases hb
  · cases hb
  · cases hn
  · cases ht
  · cases hr
  · cases hc
  · cases ht

theorem env_inv {e : Elsewhere} (h : Inv box n s γ) (he : (system box).env e s = some s') :
    Inv box n s' γ := by
  cases e with
  | clock now =>
    simp only [system] at he
    split at he
    · rename_i hle
      cases he
      have htimes : ∀ c ∈ s.history, c.at_ ≤ now := fun c hc => (h.shared.times c hc).trans hle
      exact ⟨⟨h.shared.legal, htimes, h.shared.committed, h.shared.issued⟩,
        fun t => (h.thread t).frame rfl hle le_rfl fun v => Iff.rfl, h.apart⟩
    · cases he
  | callers callers =>
    cases he
    exact ⟨⟨h.shared.legal, h.shared.times, h.shared.committed, h.shared.issued⟩,
      fun t => (h.thread t).frame rfl le_rfl le_rfl fun v => Iff.rfl, h.apart⟩

/-- **Every interleaving keeps the invariant**, and each finished call rests on the history. -/
theorem reach_inv {m : Machine Call Unit Store Answer}
    (h : Reach (system box) (fun _ _ => True) m) : ∃ γ, Inv box m.threads.length m.store γ ∧
      ∀ i th, m.threads[i]? = some th → Sound box i (Rests box th.op) th.prog (γ i) := by
  obtain ⟨γ, hI, -, hth⟩ := h.safe (I := Inv box) (Q := Rests box) {}
    (fun s hs => start_inv hs) (fun n s γ hI _ => ⟨hI.shared, hI.thread, hI.apart⟩)
    (fun n s γ e s' hI he => env_inv hI he) (fun call t => program_sound call)
  exact ⟨γ, hI, hth⟩

/-! ### The four guarantees -/

/-- A claim within its lease, neither completed nor given back. -/
def Live (s : Store) (token : Token) : Prop :=
  ∃ r, lastVersion s.history token = some r ∧ r.state = .inProgress ∧ s.clock < r.lockedUntil ∧
    ¬ Released s.history token

/-- A claim with this request hash completed with this response. -/
def CompletedWith (history : List Change) (requestHash : String) (response : StoredResponse) :
    Prop :=
  ∃ c ∈ history, ∃ config token nonce, c.block = .complete config token response nonce ∧
    AdmittedAs history token requestHash

/-- An admission wrote its claim over the row of this one. -/
def Change.takesOver (c : Change) (token : Token) : Prop :=
  (∃ config request, c.block = .admitRequest config request) ∧ ∃ r, c.before = some r ∧
    r.claimToken = token

theorem replay_stored {config' : GatewayConfig} {nonce : ℕ} {r : IdempotencyRecord}
    {response stored : StoredResponse} {ciphertext : String}
    (hstatus : r.statusCode = some stored.statusCode)
    (hheaders : r.responseHeaders = some stored.headers) (hbody : r.responseBody = some ciphertext)
    (hcipher : encryptSecret box config'.secretKeys nonce stored.body = some ciphertext)
    (h : replay box config r = some response) : response = stored := by
  rw [replay, hbody] at h
  obtain ⟨body, hopen, rfl⟩ := Option.map_eq_some_iff.mp h
  rw [encryptSecret] at hcipher
  rw [decryptSecret] at hopen
  split at hcipher
  · cases hcipher
    split at hopen
    · have hsame := box.authentic _ _ _ _ _ hopen
      have hcode : statusOr200 r.statusCode = stored.statusCode := by
        rw [hstatus]
        obtain ⟨n, hn⟩ := Nat.exists_eq_succ_of_ne_zero stored.status_ne_zero
        rw [hn]
        rfl
      cases stored
      simp only [StoredResponse.mk.injEq]
      exact ⟨hcode, hsame, by rw [hheaders]; rfl⟩
    · cases hopen
  · cases hcipher

theorem Legal.takesOver {earlier : List Change} {c : Change} (hh : Legal box (c :: earlier))
    (hc : c.takesOver token) :
    Issued (c :: earlier) token ∧ ∀ r, c.after = some r → r.claimToken ≠ token := by
  obtain ⟨⟨config, request, hblock⟩, r, hbefore, rfl⟩ := hc
  rw [hh.before_eq] at hbefore
  have hi := issued_current hbefore
  refine ⟨hi.cons c, fun r' hr' ht => ?_⟩
  rw [← ht] at hi
  exact hh.admit_fresh hblock hr' hi

/-- **Idempotency-key safety.**  In every state of every interleaving on one key: at most one claim
is live; a replayed response is one a claim of the same hash completed with; once a claim has been
taken over, nothing called with its token changes the row; and every claim before one that was
answered was given back, or its lease lapsed, or its retention passed, or its body did not open. -/
theorem idempotency_safe (box : MultiFernet) {m : Machine Call Unit Store Answer}
    (h : Reach (system box) (fun _ _ => True) m) :
    (∀ token token', Live m.store token → Live m.store token' → token = token') ∧
    (∀ config request response,
      m.Answered (.admitRequest config request) (.admission (.replay response)) →
      CompletedWith m.store.history request.requestHash response) ∧
    (∀ later c earlier token, m.store.history = later ++ c :: earlier → c.takesOver token →
      ∀ c' ∈ later, c'.block.token? ≠ some token) ∧ ∀ config request token,
      m.Answered (.admitRequest config request) (.admission (.claimed token)) →
      ∃ later c earlier r, m.store.history = later ++ c :: earlier ∧
        c.block = .admitRequest config request ∧ c.after = some r ∧ r.claimToken = token ∧
        ∀ token', Issued earlier token' → Over box (c :: earlier) c.at_ token' := by
  obtain ⟨γ, hinv, hth⟩ := reach_inv h
  have hlegal := hinv.shared.legal
  refine ⟨fun token token' hl hl' => ?_, fun config request response ⟨i, hi⟩ => ?_,
    fun later c earlier token heq hover => ?_, fun config request token ⟨i, hi⟩ => ?_⟩
  · obtain ⟨r, hlast, hs, hlease, hkept⟩ := hl
    obtain ⟨r', hlast', hs', hlease', hkept'⟩ := hl'
    have hrow := hlegal.live_current hinv.shared.times hlast hs hlease hkept
    have hrow' := hlegal.live_current hinv.shared.times hlast' hs' hlease' hkept'
    obtain rfl : r = r' := Option.some.inj (hrow.symm.trans hrow')
    exact (lastVersion_token hlast).symm.trans (lastVersion_token hlast')
  · obtain ⟨r, hsaw, hs, hhash, hreplay⟩ := hth i _ hi
    obtain ⟨c, hc, hr⟩ := (hinv.thread i).saw r hsaw
    obtain ⟨config', stored, nonce, ciphertext, hblock, hstatus, hheaders, hbody, hcipher⟩ :=
      hlegal.completed_by hc hr hs
    obtain rfl := replay_stored hstatus hheaders hbody hcipher hreplay
    exact ⟨c, hc, config', _, nonce, hblock, hhash ▸ hlegal.admittedAs hc hr⟩
  · rw [heq] at hlegal
    obtain ⟨hi, hleft⟩ := hlegal.suffix.takesOver hover
    exact (hlegal.silent hi hleft).2
  · obtain ⟨c, r, hdone, hblock, hr, ht⟩ := hth i _ hi
    obtain ⟨later, earlier, heq⟩ := List.append_of_mem ((hinv.thread i).done c hdone)
    refine ⟨later, c, earlier, r, heq, hblock, hr, ht, fun token' hi' => ?_⟩
    have hlegal' := hlegal
    rw [heq] at hlegal'
    have htimes : ∀ c' ∈ c :: earlier, c'.at_ ≤ c.at_ := hlegal'.suffix.times
    refine (hlegal'.suffix.current_or_over htimes (hi'.cons c)).resolve_left ?_
    rintro ⟨r', hr', rfl⟩
    exact hlegal'.suffix.admit_fresh hblock hr' hi'

/-! ### A claim taken over, completed and replayed -/

def plainBox : MultiFernet where
  validKey := fun _ => true
  encrypt := fun _ _ body => body
  decrypt := fun _ ciphertext => some ciphertext
  authentic := fun _ _ _ _ _ h => (Option.some.inj h).symm

def sampleConfig : GatewayConfig where
  idempotencyLeaseSec := 60
  idempotencyRetentionSec := 86400
  secretKeys := ["k"]

def sampleRequest : IdempotentRequest where
  requestHash := "h"
  userId := "u"
  apiKeyId := none

def sampleResponse : StoredResponse where
  statusCode := 200
  body := "b"
  headers := []
  status_ne_zero := by decide

def emptyStore : Store where
  clock := 0
  row := ⟨none, none⟩
  callers := fun _ => some false
  nextToken := 0
  history := []

/-- A claim lapses at 60 and is taken over at 100; its own completion then stores nothing, and the
taker's is replayed. -/
def takeoverRun : List (Choice Call Elsewhere) :=
  List.flatten
    [[.spawn (.admitRequest sampleConfig sampleRequest)], List.replicate 5 (.run 0),
     [.env (.clock 100), .spawn (.admitRequest sampleConfig sampleRequest)], List.replicate 7 (.run 1),
     [.spawn (.complete sampleConfig 0 sampleResponse 0)], List.replicate 3 (.run 2),
     [.spawn (.complete sampleConfig 1 sampleResponse 0)], List.replicate 3 (.run 3),
     [.spawn (.admitRequest sampleConfig sampleRequest)], List.replicate 6 (.run 4)]

theorem takeoverRun_calls :
    ((Machine.exec (system plainBox) (fun _ _ => True) ⟨emptyStore, []⟩ takeoverRun).map
      Machine.calls) = some
        [(.admitRequest sampleConfig sampleRequest, some (.admission (.claimed 0))),
         (.admitRequest sampleConfig sampleRequest, some (.admission (.claimed 1))),
         (.complete sampleConfig 0 sampleResponse 0, some (.stored false)),
         (.complete sampleConfig 1 sampleResponse 0, some (.stored true)),
         (.admitRequest sampleConfig sampleRequest, some (.admission (.replay sampleResponse)))] := rfl

theorem idempotency_safe_takeover : ∃ m : Machine Call Unit Store Answer,
    m.calls.map Prod.snd = [some (.admission (.claimed 0)), some (.admission (.claimed 1)),
      some (.stored false), some (.stored true), some (.admission (.replay sampleResponse))] ∧
    CompletedWith m.store.history "h" sampleResponse := by
  obtain ⟨m, hm, hcalls⟩ := Option.map_eq_some_iff.mp takeoverRun_calls
  have hreach : Reach (system plainBox) (fun _ _ => True) m :=
    .of_exec (.start ⟨rfl, rfl⟩) hm
  refine ⟨m, by rw [hcalls]; rfl, ?_⟩
  have hanswer := Machine.answered_of_calls (m := m) (i := 4) (by rw [hcalls]; rfl)
  exact (idempotency_safe plainBox hreach).2.1 sampleConfig sampleRequest sampleResponse hanswer

end Otari.Inference
