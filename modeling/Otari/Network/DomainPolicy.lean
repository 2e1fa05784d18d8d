import Otari.Access.AllowLists
import Otari.Network.Gates
import Otari.Support.Distinct
import Otari.Support.Forest
import Otari.Support.Json

/-!
# Network — DomainPolicy — domain rules

`web_retrieval_policy.py`: the rules of a domain list, what a rule covers, and how two lists compose.
A rule is a host, which covers itself and, where it is a name, its subdomains.
-/

namespace Otari.Network
open Access (strip)
open Documents (Json)

/-! ### Rules -/

section
variable (platform : Platform)

/-- `canonicalize_domain_rule`. -/
def canonicalizeDomainRule (value : String) : Except String CanonicalHost :=
  let opened : Bool := value.toList.head? = some '['
  let closed : Bool := value.toList.getLast? = some ']'
  if value = "" then
    .error "domain rule must be a non-empty string"
  else if containsControlCharacter value then
    .error "domain rule contains a control character"
  else if value.toList.any (· ∈ ['/', '?', '#', '@']) then
    .error "domain rule must not include URL syntax"
  else if opened ≠ closed then
    .error "domain rule has malformed IPv6 brackets"
  else if opened then
    canonicalizeHost platform (String.ofList value.toList.tail.dropLast)
  else
    canonicalizeHost platform value

/-- `_canonical_host`. -/
def canonicalHostOf (raw : String) : Except String String :=
  let candidate := strip raw.toList
  let candidate := if candidate.head? = some '.' then candidate.tail else candidate
  (canonicalizeDomainRule platform (String.ofList candidate)).map (·.value)

inductive DomainListError where
  | notAList
  | tooMany
  | notAHost (raw : String)

def readDomain : Json → Except DomainListError String
  | .str raw => (canonicalHostOf platform raw).mapError fun _ => .notAHost raw
  | _ => .error .notAList

/-- `read_domain_list`: `none` is no list. -/
def readDomainList : Json → Except DomainListError (Option (List String))
  | .null => .ok none
  | .arr items =>
    if 100 < items.length then
      .error .tooMany
    else do
      let hosts ← items.mapM (readDomain platform)
      return if hosts = [] then none else some (Distinct.firsts id hosts)
  | _ => .error .notAList

/-- `(rule.value, rule.is_ip)`. -/
def CanonicalHost.key (rule : CanonicalHost) : String × Bool := (rule.value, rule.ip.isSome)

/-- `canonicalize_domain_rules`. -/
def canonicalizeDomainRules (values : List String) : Except String (List CanonicalHost) := do
  let rules ← values.mapM (canonicalizeDomainRule platform)
  return Distinct.firsts CanonicalHost.key rules

end

/-- `domain_rule_matches`. -/
def domainRuleMatches (rule host : CanonicalHost) : Bool :=
  if rule.ip.isSome || host.ip.isSome then
    rule.ip.isSome && host.ip.isSome && rule.ip = host.ip
  else
    host.value = rule.value || ('.' :: rule.value.toList).isSuffixOf host.value.toList

/-! ### Composition -/

/-- The narrower of two rules, one of which covers the other. -/
def narrowerRule (left right : CanonicalHost) : Option CanonicalHost :=
  if domainRuleMatches left right then some right
  else if domainRuleMatches right left then some left
  else none

/-- `intersect_domain_allow_lists`; `none` is `DisjointDomainAllowListsError`. -/
def intersectDomainAllowLists :
    Option (List CanonicalHost) → Option (List CanonicalHost) → Option (Option (List CanonicalHost))
  | none, second => some second
  | first, none => some first
  | some first, some second =>
    if first = [] then some (some second)
    else if second = [] then some (some first)
    else
      let result := Distinct.firsts CanonicalHost.key
        (first.flatMap fun left => second.filterMap (narrowerRule left))
      if result = [] then none else some (some result)

/-- `union_domain_block_lists`. -/
def unionDomainBlockLists (first second : Option (List CanonicalHost)) : List CanonicalHost :=
  Distinct.firsts CanonicalHost.key (first.getD [] ++ second.getD [])

/-- `rules or None`. -/
def orNone {α : Type*} (l : List α) : Option (List α) := if l.isEmpty then none else some l

structure DomainPolicy where
  allowed : List CanonicalHost := []
  blocked : List CanonicalHost := []

/-- `DomainPolicy.permits`: no allow list permits every host. -/
def DomainPolicy.permits (policy : DomainPolicy) (host : CanonicalHost) : Bool :=
  if policy.blocked.any (domainRuleMatches · host) then false
  else policy.allowed.isEmpty || policy.allowed.any (domainRuleMatches · host)

end Otari.Network
