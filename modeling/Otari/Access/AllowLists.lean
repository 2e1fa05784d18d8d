import Otari.Pricing.CurrentRates

/-!
# Access — AllowLists — which models a key may use

`services/model_access.py`: the allow-lists of keys and of users, how a write of one is validated,
which models one permits, and when a key's list grants no more than its user's.
`split_selector` is from `provider_kwargs.py`.
-/

namespace Otari.Access
open Pricing (Key partition selectorKey)

/-! ### Text -/

/-- `str.isspace`, of a character. -/
def isSpace (c : Char) : Bool :=
  (0x9 ≤ c.toNat && c.toNat ≤ 0xd) || (0x1c ≤ c.toNat && c.toNat ≤ 0x20) ||
    (0x2000 ≤ c.toNat && c.toNat ≤ 0x200a) ||
    c.toNat ∈ [0x85, 0xa0, 0x1680, 0x2028, 0x2029, 0x202f, 0x205f, 0x3000]

/-- `str.strip`. -/
def strip (text : Key) : Key :=
  (text.dropWhile isSpace).rdropWhile isSpace

/-- `str.endswith("*")`. -/
def endsWithStar (text : Key) : Bool :=
  text.getLast? = some '*'

/-- A selector on its first `:` or `/`, neither part empty. -/
def splitSelector (modelSelector : Key) : Option (Key × Key) :=
  (modelSelector.find? fun c => c = ':' ∨ c = '/').bind fun delimiter =>
    let (pre, rest) := partition delimiter modelSelector
    rest.bind fun remainder =>
      if pre.isEmpty || remainder.isEmpty then none else some (pre, remainder)

/-- `instance, _, model = key.partition(":")`. -/
def halves (key : Key) : Key × Key :=
  let (instanceName, model) := partition ':' key
  (instanceName, model.getD [])

/-! ### What a list permits -/

/-- The list that governs a request: the key's own, or else its user's. -/
def effectiveAllowlist (keyList userList : Option (List Key)) : Option (List Key) :=
  keyList.or userList

/-- Whether one entry matches a canonical `instance:model` key. -/
def entryMatches (entry canonicalKey : Key) : Bool :=
  let (entryInstance, entryModel) := halves entry
  let (keyInstance, keyModel) := halves canonicalKey
  if entryInstance.isEmpty || keyInstance.isEmpty then false
  else if entryInstance ≠ keyInstance then false
  else if entryModel = ['*'] then true
  else if endsWithStar entryModel then entryModel.dropLast.isPrefixOf keyModel
  else entryModel = keyModel

/-- `None` permits every key, the empty list none. -/
def isModelAllowed (allowlist : Option (List Key)) (canonicalKey : Key) : Bool :=
  allowlist.elim true fun entries => entries.any fun entry => entryMatches entry canonicalKey

/-- Whether a parent list permits everything an entry could match. -/
def covers (parent : List Key) (entry : Key) : Bool :=
  let (instanceName, model) := halves entry
  if endsWithStar model then
    parent.any fun candidate =>
      let (candidateInstance, candidateModel) := halves candidate
      if candidateInstance ≠ instanceName then false
      else if candidateModel = ['*'] then true
      else endsWithStar candidateModel && candidateModel.dropLast.isPrefixOf model.dropLast
  else isModelAllowed (some parent) entry

/-- Whether `child` grants no more than `parent`. -/
def isAllowlistSubset (child parent : Option (List Key)) (toolKeys : List Key) : Bool :=
  child.elim true fun child => parent.elim true fun parent =>
    child.all fun entry => if entry ∈ toolKeys then entry ∈ parent else covers parent entry

/-! ### Writing a list -/

structure GatewayConfig where
  providers : List Key
  decisionProviders : List Key
  llmProviders : List Key
  aliasNames : List Key
  legacySearchToolKeys : List Key
  searchToolProviders : List Key

/-- Whether a prefix names something an entry can gate. -/
def knownPrefix (config : GatewayConfig) (pre : Key) : Bool :=
  pre ∈ config.providers || pre ∈ config.decisionProviders || pre ∈ config.llmProviders

/-- `f"'{entry}'"`. -/
def quoted (entry : Key) : String :=
  "'" ++ String.ofList entry ++ "'"

def validateEntry (config : GatewayConfig) (entry : Key) : Except String Key :=
  let entry := strip entry
  if entry.isEmpty then .error "an allowed_models entry cannot be empty"
  else if entry ∈ config.aliasNames then
    .error (quoted entry ++ " is an alias name; use its canonical instance:model target")
  else match splitSelector entry with
    | none => .error (quoted entry ++
        " must be instance:model (e.g. openai:gpt-4o, openai:*, or openai:gpt-4*)")
    | some (pre, model) =>
      if '*' ∈ pre then
        .error (quoted entry ++ ": wildcards are not allowed in the provider part")
      else if '*' ∈ model ∧ (1 < model.count '*' ∨ ¬ endsWithStar model) then
        .error (quoted entry ++
          ": only a single trailing '*' is allowed (openai:* or openai:gpt-4*)")
      else if knownPrefix config pre || selectorKey pre model ∈ config.legacySearchToolKeys then
        .ok (selectorKey pre model)
      else if pre ∈ config.searchToolProviders then
        .error (quoted entry ++ " grants no model, and allowed_models grants a search tool only " ++
          "by its exact <provider>:<tool> key; name tools in allowed_tools")
      else .error (quoted entry ++ ": unknown provider or instance " ++ quoted pre)

def validateEntries (config : GatewayConfig) : List Key → List Key → Except String (List Key)
  | canonical, [] => .ok canonical
  | canonical, entry :: entries => do
    let normalized ← validateEntry config entry
    validateEntries config (if normalized ∈ canonical then canonical else canonical ++ [normalized])
      entries

/-- `None` and `[]` pass through. -/
def validateAllowedModels (config : GatewayConfig) :
    Option (List Key) → Except String (Option (List Key))
  | none => .ok none
  | some entries => do
    let canonical ← validateEntries config [] entries
    return some canonical

end Otari.Access
