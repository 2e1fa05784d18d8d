import Otari.Inference.Idempotency

/-!
# Inference — ClaimHistory — what the committed blocks of one key can be

A history is legal when each block of it found the row as the block before left it, and changed it
as that block may: an admission writes a fresh claim over no row or a superseded one, and a call
with a claim's token moves the row while it holds that claim in progress.  Everything claimed of a
key is read off its legal histories here; that the machine's histories are legal is another module.
-/

namespace Otari.Inference
open List

/-! ### Histories -/

def current : List Change → Option IdempotencyRecord
  | [] => none
  | c :: _ => c.after

/-- Some committed version of the row carried the claim. -/
def Issued (history : List Change) (token : Token) : Prop :=
  ∃ c ∈ history, ∃ r, c.after = some r ∧ r.claimToken = token

/-- The newest version of the row that carried the claim. -/
def lastVersion (history : List Change) (token : Token) : Option IdempotencyRecord :=
  history.findSome? fun c => c.after.filter (·.claimToken = token)

def Released (history : List Change) (token : Token) : Prop :=
  ∃ c ∈ history, c.block = .release token

/-- A stored body the configured keys do not open. -/
def Undecryptable (box : MultiFernet) (config : GatewayConfig) (record : IdempotencyRecord) :
    Prop :=
  ∃ ciphertext, record.responseBody = some ciphertext ∧
    decryptSecret box config.secretKeys ciphertext = none

/-- A row an admission may write its claim over. -/
def Superseded (box : MultiFernet) (config : GatewayConfig) (now : Instant)
    (record : IdempotencyRecord) : Prop :=
  staleAt record ≤ now ∨ record.state = .completed ∧ Undecryptable box config record

/-- **A legal history**, newest first. -/
inductive Legal (box : MultiFernet) : List Change → Prop where
  | nil : Legal box []
  | admitRequest {h : List Change} {at_ now : Instant} {config : GatewayConfig}
      {request : IdempotentRequest} {token : Token} (hh : Legal box h)
      (htime : ∀ c ∈ h, c.at_ ≤ at_) (hnow : now ≤ at_) (hfresh : ¬ Issued h token)
      (hover : ∀ r, current h = some r → Superseded box config now r) :
      Legal box (⟨at_, .admitRequest config request, current h,
        some (claimValues config request token now)⟩ :: h)
  | complete {h : List Change} {at_ expiresAt : Instant} {config : GatewayConfig} {token : Token}
      {response : StoredResponse} {nonce : ℕ} {ciphertext : String} {r : IdempotencyRecord}
      (hh : Legal box h) (htime : ∀ c ∈ h, c.at_ ≤ at_) (hrow : current h = some r)
      (hholds : holds token r = true)
      (hcipher : encryptSecret box config.secretKeys nonce response.body = some ciphertext) :
      Legal box (⟨at_, .complete config token response nonce, current h,
        some { r with
          state := .completed
          statusCode := some response.statusCode
          responseBody := some ciphertext
          responseHeaders := some response.headers
          expiresAt := expiresAt }⟩ :: h)
  | renew {h : List Change} {at_ lockedUntil : Instant} {config : GatewayConfig} {token : Token}
      {r : IdempotencyRecord} (hh : Legal box h) (htime : ∀ c ∈ h, c.at_ ≤ at_)
      (hrow : current h = some r) (hholds : holds token r = true) :
      Legal box (⟨at_, .renew config token, current h,
        some { r with lockedUntil := lockedUntil }⟩ :: h)
  | release {h : List Change} {at_ : Instant} {token : Token} {r : IdempotencyRecord}
      (hh : Legal box h) (htime : ∀ c ∈ h, c.at_ ≤ at_) (hrow : current h = some r)
      (hholds : holds token r = true) :
      Legal box (⟨at_, .release token, current h, none⟩ :: h)
  | sweep {h : List Change} {at_ now : Instant} {r : IdempotencyRecord} (hh : Legal box h)
      (htime : ∀ c ∈ h, c.at_ ≤ at_) (hnow : now ≤ at_) (hrow : current h = some r)
      (hexpired : expired now r = true) :
      Legal box (⟨at_, .sweep, current h, none⟩ :: h)

variable {token : Token} {r : IdempotencyRecord}

theorem holds_iff : holds token r = true ↔ r.claimToken = token ∧ r.state = .inProgress := by
  simp [holds]

theorem expired_iff {now : Instant} :
    expired now r = true ↔ r.expiresAt ≤ now ∧ (r.state = .completed ∨ r.lockedUntil ≤ now) := by
  simp [expired]

theorem state_cases (state : IdempotencyState) : state = .inProgress ∨ state = .completed := by
  cases state with
  | inProgress => exact .inl rfl
  | completed => exact .inr rfl

variable {h : List Change} {c : Change}

theorem lastVersion_cons_of_token
    (hr : c.after = some r) : lastVersion (c :: h) r.claimToken = some r := by
  simp [lastVersion, hr]

theorem lastVersion_cons_of_ne (hne : ∀ r, c.after = some r → r.claimToken ≠ token) :
    lastVersion (c :: h) token = lastVersion h token := by
  have hnone : c.after.filter (·.claimToken = token) = none := by
    cases hr : c.after with
    | none => rfl
    | some r => simpa using hne r hr
  simp [lastVersion, hnone]

theorem lastVersion_current (hr : current h = some r) : lastVersion h r.claimToken = some r := by
  cases h with
  | nil => cases hr
  | cons c h => exact lastVersion_cons_of_token hr

theorem lastVersion_token (hr : lastVersion h token = some r) : r.claimToken = token := by
  obtain ⟨c, -, hc⟩ := exists_of_findSome?_eq_some hr
  simpa using (Option.filter_eq_some_iff.mp hc).2

theorem issued_current (hr : current h = some r) : Issued h r.claimToken := by
  cases h with
  | nil => cases hr
  | cons c h => exact ⟨c, mem_cons_self, r, hr, rfl⟩

theorem Issued.cons (hi : Issued h token) (c : Change) : Issued (c :: h) token := by
  obtain ⟨c', hc', hr⟩ := hi
  exact ⟨c', mem_cons_of_mem _ hc', hr⟩

theorem Released.cons (hr : Released h token) (c : Change) : Released (c :: h) token := by
  obtain ⟨c', hc', hb⟩ := hr
  exact ⟨c', mem_cons_of_mem _ hc', hb⟩

variable {box : MultiFernet}

theorem Legal.tail (hh : Legal box (c :: h)) : Legal box h := by
  cases hh with
  | admitRequest hh => exact hh
  | complete hh => exact hh
  | renew hh => exact hh
  | release hh => exact hh
  | sweep hh => exact hh

theorem Legal.times (hh : Legal box (c :: h)) : ∀ c' ∈ c :: h, c'.at_ ≤ c.at_ := by
  intro c' hmem
  rcases mem_cons.mp hmem with rfl | hc'
  · exact le_rfl
  · clear hmem
    cases hh with
    | admitRequest hh htime => exact htime c' hc'
    | complete hh htime => exact htime c' hc'
    | renew hh htime => exact htime c' hc'
    | release hh htime => exact htime c' hc'
    | sweep hh htime => exact htime c' hc'

theorem Legal.before_eq (hh : Legal box (c :: h)) : c.before = current h := by
  cases hh with
  | admitRequest => rfl
  | complete => rfl
  | renew => rfl
  | release => rfl
  | sweep => rfl

theorem Legal.admit_fresh
    (hh : Legal box (c :: h)) {config : GatewayConfig} {request : IdempotentRequest}
    (hblock : c.block = .admitRequest config request) (hr : c.after = some r) :
    ¬ Issued h r.claimToken := by
  cases hh with
  | admitRequest hh htime hnow hfresh hover =>
    cases hr
    exact hfresh
  | complete => cases hblock
  | renew => cases hblock
  | release => cases hblock
  | sweep => cases hblock

theorem Legal.suffix {later : List Change} (hh : Legal box (later ++ h)) : Legal box h := by
  induction later with
  | nil => exact hh
  | cons c later ih => exact ih hh.tail

/-! ### What becomes of a claim -/

/-- **How the row leaves a claim**: it is given back, or its lease has lapsed, or its retention has
passed, or an admission could not open its body. -/
theorem Legal.leaves (hh : Legal box (c :: h)) (hrow : current h = some r)
    (hleft : ∀ r', c.after = some r' → r'.claimToken ≠ r.claimToken) :
    c.block = .release r.claimToken ∨ (r.state = .inProgress ∧ r.lockedUntil ≤ c.at_) ∨
    (r.state = .completed ∧ r.expiresAt ≤ c.at_) ∨
    (r.state = .completed ∧ ∃ config request, c.block = .admitRequest config request ∧
      Undecryptable box config r) := by
  cases hh with
  | @admitRequest _ at_ now config request token hh htime hnow hfresh hover =>
    rcases hover r hrow with hstale | ⟨hs, hbody⟩
    · rw [staleAt] at hstale
      split at hstale
      · rename_i hs
        exact .inr (.inl ⟨hs, hstale.trans hnow⟩)
      · rename_i hs
        exact .inr (.inr (.inl ⟨(state_cases r.state).resolve_left hs, hstale.trans hnow⟩))
    · exact .inr (.inr (.inr ⟨hs, config, request, rfl, hbody⟩))
  | complete hh htime hrow' hholds hcipher =>
    rw [hrow] at hrow'
    cases hrow'
    exact (hleft _ rfl rfl).elim
  | renew hh htime hrow' hholds =>
    rw [hrow] at hrow'
    cases hrow'
    exact (hleft _ rfl rfl).elim
  | release hh htime hrow' hholds =>
    rw [hrow] at hrow'
    cases hrow'
    exact .inl (by rw [(holds_iff.mp hholds).1])
  | sweep hh htime hnow hrow' hexpired =>
    rw [hrow] at hrow'
    cases hrow'
    obtain ⟨hexpires, hs⟩ := expired_iff.mp hexpired
    rcases state_cases r.state with hp | hc
    · have hlapsed := hs.resolve_left fun hc => by rw [hp] at hc; cases hc
      exact .inr (.inl ⟨hp, hlapsed.trans hnow⟩)
    · exact .inr (.inr (.inl ⟨hc, hexpires.trans hnow⟩))

/-- **A live claim holds the row**: the newest version of a claim that was not given back and whose
lease has not lapsed is the committed row. -/
theorem Legal.live_current (hh : Legal box h) {clock : Instant} (hclock : ∀ c ∈ h, c.at_ ≤ clock)
    (hlast : lastVersion h token = some r) (hs : r.state = .inProgress)
    (hlease : clock < r.lockedUntil) (hkept : ¬ Released h token) : current h = some r := by
  induction h with
  | nil => cases hlast
  | cons c h ih =>
    by_cases hc : ∃ r', c.after = some r' ∧ r'.claimToken = token
    · obtain ⟨r', hr', rfl⟩ := hc
      rw [lastVersion_cons_of_token hr'] at hlast
      exact hr'.trans hlast
    · have hne : ∀ r', c.after = some r' → r'.claimToken ≠ token := fun r' hr' ht =>
        hc ⟨r', hr', ht⟩
      rw [lastVersion_cons_of_ne hne] at hlast
      have hrow := ih hh.tail (fun c' hc' => hclock c' (mem_cons_of_mem _ hc')) hlast
        fun hr => hkept (hr.cons c)
      have htoken := lastVersion_token hlast
      have hat := hclock c mem_cons_self
      -- the block that took the row from the claim would have found it lapsed or given it back
      rcases hh.leaves hrow (htoken ▸ hne) with hb | ⟨-, hlapsed⟩ | ⟨hcompleted, -⟩ | ⟨hcompleted, -⟩
      · exact absurd ⟨c, mem_cons_self, htoken ▸ hb⟩ hkept
      · exact absurd (hlapsed.trans hat) (not_le.mpr hlease)
      · rw [hs] at hcompleted
        cases hcompleted
      · rw [hs] at hcompleted
        cases hcompleted

/-- What ends a claim: it was given back, its lease lapsed, its retention passed, or an admission
could not open its body. -/
def Over (box : MultiFernet) (history : List Change) (now : Instant) (token : Token) : Prop :=
  Released history token ∨ ∃ r, lastVersion history token = some r ∧
    ((r.state = .inProgress ∧ r.lockedUntil ≤ now) ∨
     (r.state = .completed ∧ r.expiresAt ≤ now) ∨
     (r.state = .completed ∧ ∃ c ∈ history, ∃ config request, c.block = .admitRequest config request ∧
       Undecryptable box config r))

/-- **A claim that does not hold the row is over.** -/
theorem Legal.current_or_over (hh : Legal box h)
    {now : Instant} (hnow : ∀ c ∈ h, c.at_ ≤ now) (hi : Issued h token) :
    (∃ r, current h = some r ∧ r.claimToken = token) ∨ Over box h now token := by
  induction h with
  | nil =>
    obtain ⟨c, hc, -⟩ := hi
    cases hc
  | cons c h ih =>
    by_cases hc : ∃ r', c.after = some r' ∧ r'.claimToken = token
    · exact .inl hc
    · have hne : ∀ r', c.after = some r' → r'.claimToken ≠ token := fun r' hr' ht =>
        hc ⟨r', hr', ht⟩
      have hi' : Issued h token := by
        obtain ⟨c', hc', r', hr', ht⟩ := hi
        rcases mem_cons.mp hc' with rfl | hc'
        · exact absurd ht (hne r' hr')
        · exact ⟨c', hc', r', hr', ht⟩
      have hlast := lastVersion_cons_of_ne hne (h := h)
      refine .inr ?_
      rcases ih hh.tail (fun c' hc' => hnow c' (mem_cons_of_mem _ hc')) hi' with
        ⟨r, hrow, rfl⟩ | hr | ⟨r, hr, hend⟩
      · have hat := hnow c mem_cons_self
        rw [lastVersion_current hrow] at hlast
        rcases hh.leaves hrow hne with hb | ⟨hs, hlapsed⟩ | ⟨hs, hexpires⟩ | ⟨hs, hbody⟩
        · exact .inl ⟨c, mem_cons_self, hb⟩
        · exact .inr ⟨r, hlast, .inl ⟨hs, hlapsed.trans hat⟩⟩
        · exact .inr ⟨r, hlast, .inr (.inl ⟨hs, hexpires.trans hat⟩)⟩
        · exact .inr ⟨r, hlast, .inr (.inr ⟨hs, c, mem_cons_self, hbody⟩)⟩
      · exact .inl (hr.cons c)
      · refine .inr ⟨r, hlast.trans hr, ?_⟩
        rcases hend with hend | hend | ⟨hs, c', hc', hbody⟩
        · exact .inl hend
        · exact .inr (.inl hend)
        · exact .inr (.inr ⟨hs, c', mem_cons_of_mem _ hc', hbody⟩)

/-! ### A superseded claim is silent -/

def Block.token? : Block → Option Token
  | .complete _ token _ _ => some token
  | .renew _ token => some token
  | .release token => some token
  | _ => none

theorem Legal.holds_of_token (hh : Legal box (c :: h)) (ht : c.block.token? = some token) :
    ∃ r, current h = some r ∧ holds token r = true := by
  cases hh with
  | admitRequest => cases ht
  | complete hh htime hrow hholds hcipher =>
    cases ht
    exact ⟨_, hrow, hholds⟩
  | renew hh htime hrow hholds =>
    cases ht
    exact ⟨_, hrow, hholds⟩
  | release hh htime hrow hholds =>
    cases ht
    exact ⟨_, hrow, hholds⟩
  | sweep => cases ht

theorem Legal.stays_gone (hh : Legal box (c :: h)) (hi : Issued h token)
    (hgone : ∀ r, current h = some r → r.claimToken ≠ token) :
    ∀ r, c.after = some r → r.claimToken ≠ token := by
  cases hh with
  | admitRequest hh htime hnow hfresh hover =>
    intro r hr ht
    cases hr
    obtain rfl := ht
    exact hfresh hi
  | complete hh htime hrow hholds hcipher =>
    intro r hr ht
    cases hr
    exact hgone _ hrow ht
  | renew hh htime hrow hholds =>
    intro r hr ht
    cases hr
    exact hgone _ hrow ht
  | release => exact fun r hr => nomatch hr
  | sweep => exact fun r hr => nomatch hr

/-- **Once the row has left a claim, nothing called with its token changes it.** -/
theorem Legal.silent {later : List Change} (hh : Legal box (later ++ h)) (hi : Issued h token)
    (hgone : ∀ r, current h = some r → r.claimToken ≠ token) :
    (∀ r, current (later ++ h) = some r → r.claimToken ≠ token) ∧
      ∀ c ∈ later, c.block.token? ≠ some token := by
  induction later with
  | nil => exact ⟨hgone, fun c hc => by cases hc⟩
  | cons c later ih =>
    obtain ⟨hrow, hlater⟩ := ih hh.tail
    have hi' : Issued (later ++ h) token := by
      obtain ⟨c', hc', hr⟩ := hi
      exact ⟨c', mem_append_right _ hc', hr⟩
    refine ⟨hh.stays_gone hi' hrow, fun c' hc' ht => ?_⟩
    rcases mem_cons.mp hc' with rfl | hc'
    · obtain ⟨r, hr, hholds⟩ := hh.holds_of_token ht
      exact hrow r hr (holds_iff.mp hholds).1
    · exact hlater c' hc' ht

/-! ### What is stored -/

theorem Legal.completed_by (hh : Legal box h)
    (hc : c ∈ h) (hr : c.after = some r) (hs : r.state = .completed) :
    ∃ config response nonce ciphertext, c.block = .complete config r.claimToken response nonce ∧
      r.statusCode = some response.statusCode ∧ r.responseHeaders = some response.headers ∧
      r.responseBody = some ciphertext ∧
      encryptSecret box config.secretKeys nonce response.body = some ciphertext := by
  induction hh with
  | nil => cases hc
  | admitRequest hh htime hnow hfresh hover ih =>
    rcases mem_cons.mp hc with rfl | hc
    · cases hr
      cases hs
    · exact ih hc
  | @complete h at_ expiresAt config token response nonce ciphertext r' hh htime hrow hholds hcipher
      ih =>
      rcases mem_cons.mp hc with rfl | hc
      · cases hr
        refine ⟨config, response, nonce, ciphertext, ?_, rfl, rfl, rfl, hcipher⟩
        rw [(holds_iff.mp hholds).1]
      · exact ih hc
  | renew hh htime hrow hholds ih =>
    rcases mem_cons.mp hc with rfl | hc
    · cases hr
      rw [(holds_iff.mp hholds).2] at hs
      cases hs
    · exact ih hc
  | release hh htime hrow hholds ih =>
    rcases mem_cons.mp hc with rfl | hc
    · cases hr
    · exact ih hc
  | sweep hh htime hnow hrow hexpired ih =>
    rcases mem_cons.mp hc with rfl | hc
    · cases hr
    · exact ih hc

def AdmittedAs (history : List Change) (token : Token) (requestHash : String) : Prop :=
  ∃ c ∈ history, ∃ config request, c.block = .admitRequest config request ∧
    request.requestHash = requestHash ∧ ∃ r, c.after = some r ∧ r.claimToken = token

theorem AdmittedAs.cons {requestHash : String}
    (ha : AdmittedAs h token requestHash) (c : Change) : AdmittedAs (c :: h) token requestHash := by
  obtain ⟨c', hc', ha⟩ := ha
  exact ⟨c', mem_cons_of_mem _ hc', ha⟩

theorem Legal.admittedAs (hh : Legal box h) (hc : c ∈ h) (hr : c.after = some r) :
    AdmittedAs h r.claimToken r.requestHash := by
  -- a block that keeps the claim also keeps its hash, so it is the row before that was admitted
  have hcur : ∀ {h : List Change} {r : IdempotencyRecord},
      (∀ {c : Change}, c ∈ h → ∀ {r : IdempotencyRecord}, c.after = some r →
        AdmittedAs h r.claimToken r.requestHash) →
      current h = some r → AdmittedAs h r.claimToken r.requestHash := by
    intro h r ih hrow
    cases h with
    | nil => cases hrow
    | cons c h => exact ih mem_cons_self hrow
  induction hh generalizing c r with
  | nil => cases hc
  | @admitRequest h at_ now config request token hh htime hnow hfresh hover ih =>
    rcases mem_cons.mp hc with rfl | hc
    · cases hr
      exact ⟨_, mem_cons_self, config, request, rfl, rfl, _, rfl, rfl⟩
    · exact (ih hc hr).cons _
  | complete hh htime hrow hholds hcipher ih =>
    rcases mem_cons.mp hc with rfl | hc
    · cases hr
      exact (hcur (fun hc _ hr => ih hc hr) hrow).cons _
    · exact (ih hc hr).cons _
  | renew hh htime hrow hholds ih =>
    rcases mem_cons.mp hc with rfl | hc
    · cases hr
      exact (hcur (fun hc _ hr => ih hc hr) hrow).cons _
    · exact (ih hc hr).cons _
  | release hh htime hrow hholds ih =>
    rcases mem_cons.mp hc with rfl | hc
    · cases hr
    · exact (ih hc hr).cons _
  | sweep hh htime hnow hrow hexpired ih =>
    rcases mem_cons.mp hc with rfl | hc
    · cases hr
    · exact (ih hc hr).cons _

theorem Legal.completed_current (hh : Legal box h)
    (hc : c ∈ h) {seen : IdempotencyRecord} (hseen : c.after = some seen)
    (hs : seen.state = .completed) (hrow : current h = some r)
    (ht : r.claimToken = seen.claimToken) : r = seen := by
  induction hh generalizing r with
  | nil => cases hc
  | admitRequest hh htime hnow hfresh hover ih =>
    rcases mem_cons.mp hc with rfl | hc
    · exact Option.some.inj (hrow.symm.trans hseen)
    · cases hrow
      exact absurd ⟨c, hc, seen, hseen, ht.symm⟩ hfresh
  | complete hh htime hrow' hholds hcipher ih =>
    rcases mem_cons.mp hc with rfl | hc
    · exact Option.some.inj (hrow.symm.trans hseen)
    · cases hrow
      rw [ih hc hrow' ht, holds_iff, hs] at hholds
      exact nomatch hholds.2
  | renew hh htime hrow' hholds ih =>
    rcases mem_cons.mp hc with rfl | hc
    · exact Option.some.inj (hrow.symm.trans hseen)
    · cases hrow
      rw [ih hc hrow' ht, holds_iff, hs] at hholds
      exact nomatch hholds.2
  | release => cases hrow
  | sweep => cases hrow

end Otari.Inference
