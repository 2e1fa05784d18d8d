import Otari.Support.Json

/-!
# Guardrails — Layers — the checks a request runs

`_pipeline.py`: `merge_guardrail_layers`.  The caller's own guardrails, the ones its organization
mandates and the ones the routing policy mandates fold, in that order, over a dictionary keyed by
profile; the credentials and definitions of the organization's entries are kept beside it.
-/

namespace Otari.Guardrails
open Documents

/-- `Literal["block", "monitor"]`. -/
inductive Enforcement where
  | block
  | monitor
deriving DecidableEq

inductive GuardrailDirection where
  | input
  | output
deriving DecidableEq

structure GuardrailConfig where
  profile : String
  url : Option String := none
  directions : List GuardrailDirection := [.input]
  mode : Enforcement := .monitor
  onUnavailable : Enforcement := .block
  validateKwargs : Fields := []

structure ResolvedOrganizationGuardrail where
  config : GuardrailConfig
  credential : Option String
  definitionId : Option String

/-- What a request runs, and what the runner needs to know about it. -/
structure EffectiveGuardrails where
  configs : Option (List GuardrailConfig)
  credentials : List (String × String) := []
  mandated : Finset String := ∅
  inProcess : List (String × String) := []

/-- `"block" if "block" in (own, below) else "monitor"`. -/
def stricter (own below : Enforcement) : Enforcement :=
  if own = .block ∨ below = .block then .block else .monitor

/-- A mandated guardrail over the entry of its profile: the stricter setting on both axes, the rest
the mandate's own. -/
def tightened (guardrail below : GuardrailConfig) : GuardrailConfig :=
  { guardrail with
    mode := stricter guardrail.mode below.mode
    onUnavailable := stricter guardrail.onUnavailable below.onUnavailable }

/-- The entry of a profile once a mandated guardrail of that profile is over it. -/
def laidOver (below : Option GuardrailConfig) (guardrail : GuardrailConfig) : GuardrailConfig :=
  below.elim guardrail (tightened guardrail)

/-- `_overlay_mandate`. -/
def overlayMandate (merged : List (String × GuardrailConfig)) (mandated : List GuardrailConfig) :
    List (String × GuardrailConfig) :=
  mandated.foldl (fun merged guardrail =>
    set merged guardrail.profile (laidOver (get merged guardrail.profile) guardrail)) merged

/-- `{guardrail.profile: guardrail for guardrail in requested or []}`. -/
def byProfile (requested : Option (List GuardrailConfig)) : List (String × GuardrailConfig) :=
  (requested.getD []).foldl (fun merged guardrail => set merged guardrail.profile guardrail) []

structure Merge where
  merged : List (String × GuardrailConfig)
  credentials : List (String × String) := []
  mandated : Finset String := ∅
  inProcess : List (String × String) := []

def overlayOrganization (m : Merge) (entry : ResolvedOrganizationGuardrail) : Merge where
  merged := overlayMandate m.merged [entry.config]
  credentials := setSome m.credentials entry.config.profile (entry.credential.filter (· ≠ ""))
  mandated := insert entry.config.profile m.mandated
  inProcess := setSome m.inProcess entry.config.profile entry.definitionId

/-- A profile the policy claims is the organization's no more. -/
def claimed (m : Merge) (guardrail : GuardrailConfig) : Merge :=
  { m with
    credentials := without [guardrail.profile] m.credentials
    mandated := insert guardrail.profile m.mandated
    inProcess := without [guardrail.profile] m.inProcess }

/-- `merge_guardrail_layers`, of the request's plan its guardrails. -/
def mergeGuardrailLayers (plan : Option (List GuardrailConfig))
    (requested : Option (List GuardrailConfig))
    (organization : List ResolvedOrganizationGuardrail) : EffectiveGuardrails :=
  let policy := plan.getD []
  if organization.isEmpty && policy.isEmpty then { configs := requested }
  else
    let mandate := organization.foldl overlayOrganization { merged := byProfile requested }
    let m := policy.foldl claimed { mandate with merged := overlayMandate mandate.merged policy }
    { configs := some (m.merged.map Prod.snd)
      credentials := m.credentials
      mandated := m.mandated
      inProcess := m.inProcess }

end Otari.Guardrails
