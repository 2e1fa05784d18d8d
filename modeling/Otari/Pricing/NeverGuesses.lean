import Otari.Pricing.PriceIndex

/-!
# Pricing — NeverGuesses — what a price lookup answers, whatever the catalog's order

A catalog whose listings have references of their own reads the same in any order (`get_perm`,
`candidates_perm`), so a lookup's price is the same.  An answer is a listing of the name asked for,
or one of listings that all have its price (`AllAgree`).
-/

namespace Otari.PriceIndex
open ModelsDevPriceIndex Function List
open Option hiding any any_eq_true

variable {β : Type} {casefold : Text → Text} {digit : Char → Bool}
  {entries entries' cs cs' : List (ModelsDevPrice β)} {key : Text}

/-! ### The dictionaries -/

/-- No two listings share a provider and a model. -/
def Distinct (entries : List (ModelsDevPrice β)) : Prop :=
  (entries.map (·.reference)).Nodup

variable {a : ModelsDevPrice β}

theorem Distinct.eq (h : Distinct entries) {b : ModelsDevPrice β} (ha : a ∈ entries)
    (hb : b ∈ entries) (href : a.reference = b.reference) : a = b :=
  inj_on_of_nodup_map h ha hb href

/-- The listings a key names: of that id, or of that canonical id. -/
def Named (casefold : Text → Text) (model : Text) (c : ModelsDevPrice β) : Prop :=
  casefold c.modelId = casefold model ∨ casefold model ∈ canonicalKeys casefold c

section
variable [DecidableEq β]

/-- What a lookup's answer costs: its signature, and its block. -/
def priceOf (a : ModelsDevPrice β) : ModelsDevPrice.Signature × Option β :=
  (a.priceSignature, a.pricing)

variable {a : ModelsDevPrice β}

/-- What agreement gives: the best candidate, with the block all of them have. -/
def shown (cs : List (ModelsDevPrice β)) (best : ModelsDevPrice β) : Option (ModelsDevPrice β) :=
  if cs.all fun c => c.pricing = best.pricing then some best
  else if best.slotColumns.isSome then none
  else some { best with pricing := none }

variable {provider implementation : Option Text} {model : Text}

end

def listing (providerId modelId canonical : String) (input : ℚ) : ModelsDevPrice Unit where
  providerId := providerId.toList
  modelId := modelId.toList
  input := some input
  canonicalModelId := some canonical.toList

/-- A lookup's answer over given listings, with names folded to themselves. -/
def answer (entries : List (ModelsDevPrice Unit)) (provider : Option String) (model : String) :
    Option (ModelsDevPrice Unit) :=
  (ofEntries id entries).resolve id Char.isDigit (provider.map String.toList) model.toList none

end Otari.PriceIndex
