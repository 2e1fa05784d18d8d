import Otari.Support.Json

/-!
# Pricing — CatalogCodec — the stored copy of the models.dev catalog

`_encoded`, `catalog_document`, `_load` and `read_catalog_document` of `types/models_dev.py`: a
catalog as a document, a dataclass without the fields left at their default, and the document back
as a catalog.  Both go by the classes' fields alone (`Class.fields`, `Class.readers`), so a value is
the value Python has: a frozen document, or an object of a class.

Numbers are of any type `ν` that compares as Python's do.
-/

namespace Otari.CatalogCodec
open Documents (get update without)

/-! ### Documents and values -/

/-- A JSON document, as `dict` and `list` hold it. -/
inductive Document (ν : Type) where
  | null
  | bool (b : Bool)
  | number (n : ν)
  | str (s : String)
  | list (items : List (Document ν))
  | dict (entries : List (String × Document ν))

inductive Class where
  | rates | tier | cost | cachePrices | override | unitPrice | modalityCost | multiplier | pricing
  | api | model | provider | issues | catalog
deriving DecidableEq

/-- A value of a catalog: a frozen document, or an object of a class with its fields. -/
inductive Value (ν : Type) where
  | null
  | bool (b : Bool)
  | number (n : ν)
  | str (s : String)
  | tuple (items : List (Value ν))
  | mapping (entries : List (String × Value ν))
  | object (cls : Class) (fields : List (String × Value ν))

variable {ν : Type}

mutual

/-- `_frozen`. -/
def frozen : Document ν → Value ν
  | .null => .null
  | .bool b => .bool b
  | .number n => .number n
  | .str s => .str s
  | .list items => .tuple (frozenItems items)
  | .dict entries => .mapping (frozenMapping entries)

def frozenItems : List (Document ν) → List (Value ν)
  | [] => []
  | item :: rest => frozen item :: frozenItems rest

/-- `_frozen_mapping`. -/
def frozenMapping : List (String × Document ν) → List (String × Value ν)
  | [] => []
  | (key, item) :: rest => (key, frozen item) :: frozenMapping rest

end

mutual

/-- `==` of two values. -/
def same [DecidableEq ν] : Value ν → Value ν → Bool
  | .null, .null => true
  | .bool b, .bool c => b = c
  | .number n, .number m => n = m
  | .str s, .str t => s = t
  | .tuple items, .tuple others => sameItems items others
  | .mapping entries, .mapping others => sameEntries entries others
  | .object cls fields, .object other others => cls = other && sameEntries fields others
  | _, _ => false

def sameItems [DecidableEq ν] : List (Value ν) → List (Value ν) → Bool
  | [], [] => true
  | item :: rest, other :: others => same item other && sameItems rest others
  | _, _ => false

def sameEntries [DecidableEq ν] : List (String × Value ν) → List (String × Value ν) → Bool
  | [], [] => true
  | (key, item) :: rest, (key', other) :: others =>
    key = key' && same item other && sameEntries rest others
  | _, _ => false

end

/-! ### Classes -/

def required (name : String) : String × Option (Value ν) := (name, none)

/-- A field whose default is `None`. -/
def absent (name : String) : String × Option (Value ν) := (name, some .null)

/-- A field whose default is `()`. -/
def empty (name : String) : String × Option (Value ν) := (name, some (.tuple []))

/-- A field whose default is `False`. -/
def unset (name : String) : String × Option (Value ν) := (name, some (.bool false))

def zero [OfNat ν 0] (name : String) : String × Option (Value ν) := (name, some (.number 0))

/-- `ModelsDevIssues()`. -/
def noIssues [OfNat ν 0] : Value ν :=
  .object .issues [("count", .number 0), ("examples", .tuple []), ("models", .number 0),
    ("damaged_models", .number 0), ("unknown_units", .tuple [])]

/-- `fields(cls)`: each field and its default, where it has one. -/
def Class.fields [OfNat ν 0] : Class → List (String × Option (Value ν))
  | .rates =>
    [absent "input", absent "output", absent "cache_read", absent "cache_write", empty "malformed"]
  | .tier => [required "kind", required "size", required "rates"]
  | .cost => [required "rates", empty "tiers", absent "context_over_200k"]
  | .cachePrices => [absent "read", absent "write", empty "write_ttls", absent "storage"]
  | .override =>
    [required "when", absent "price", absent "reasoning", absent "cache", absent "explicit_cache",
      empty "malformed"]
  | .unitPrice =>
    [required "price", absent "unit", absent "reasoning", absent "cache", absent "explicit_cache",
      empty "overrides", empty "malformed"]
  | .modalityCost => [absent "input", absent "output"]
  | .multiplier => [required "when", required "factor"]
  | .pricing => [required "modalities", absent "web_search", empty "multipliers"]
  | .api => [required "protocol", absent "base_url", absent "path"]
  | .model =>
    [required "id", absent "name", absent "description", absent "family",
      absent "canonical_model_id", absent "status", empty "input_modalities",
      empty "output_modalities", unset "reasoning", unset "tool_call", unset "structured_output",
      unset "attachment", unset "temperature", unset "open_weights", absent "context_window",
      absent "max_output_tokens", absent "knowledge", absent "release_date", absent "last_updated",
      absent "cost", ("type", some (.str "chat")), empty "api", absent "pricing"]
  | .provider => [required "id", required "name", required "doc", required "models"]
  | .issues =>
    [zero "count", empty "examples", zero "models", zero "damaged_models", empty "unknown_units"]
  | .catalog => [required "providers", ("issues", some noIssues)]

/-- How a stored field is read: an object of a class, a list of them (`_each`), a dictionary of them
(`_keyed`), or frozen. -/
inductive Reader where
  | plain
  | one (cls : Class)
  | each (cls : Class)
  | keyed (cls : Class)

/-- The readers each `_stored_*` gives `_load`; a field not named here reads frozen. -/
def Class.readers : Class → List (String × Reader)
  | .tier => [("rates", .one .rates)]
  | .cost =>
    [("rates", .one .rates), ("tiers", .each .tier), ("context_over_200k", .one .rates)]
  | .override => [("cache", .one .cachePrices), ("explicit_cache", .one .cachePrices)]
  | .unitPrice =>
    [("cache", .one .cachePrices), ("explicit_cache", .one .cachePrices),
      ("overrides", .each .override)]
  | .modalityCost => [("input", .one .unitPrice), ("output", .one .unitPrice)]
  | .pricing =>
    [("modalities", .keyed .modalityCost), ("web_search", .one .unitPrice),
      ("multipliers", .each .multiplier)]
  | .model => [("cost", .one .cost), ("api", .each .api), ("pricing", .one .pricing)]
  | .provider => [("models", .keyed .model)]
  | .catalog => [("providers", .keyed .provider), ("issues", .one .issues)]
  | .rates | .cachePrices | .multiplier | .api | .issues => []

def Class.reader (cls : Class) (name : String) : Reader := (get cls.readers name).getD .plain

/-! ### Encoding -/

section
variable [DecidableEq ν] [OfNat ν 0]

def atDefault (cls : Class) (name : String) (item : Value ν) : Bool :=
  match get (Class.fields cls) name with
  | some (some default) => same item default
  | _ => false

mutual

/-- `_encoded`. -/
def encoded : Value ν → Document ν
  | .null => .null
  | .bool b => .bool b
  | .number n => .number n
  | .str s => .str s
  | .tuple items => .list (encodedItems items)
  | .mapping entries => .dict (encodedEntries entries)
  | .object cls fields => .dict (encodedFields cls fields)

def encodedItems : List (Value ν) → List (Document ν)
  | [] => []
  | item :: rest => encoded item :: encodedItems rest

def encodedEntries : List (String × Value ν) → List (String × Document ν)
  | [] => []
  | (key, item) :: rest => (key, encoded item) :: encodedEntries rest

/-- The fields of an object that are not left at their default. -/
def encodedFields (cls : Class) : List (String × Value ν) → List (String × Document ν)
  | [] => []
  | (name, item) :: rest =>
    if atDefault cls name item then encodedFields cls rest
    else (name, encoded item) :: encodedFields cls rest

end

def metaKey : String := "_meta"

/-- The entries of a document that is an object. -/
def Document.entries : Document ν → List (String × Document ν)
  | .dict entries => entries
  | _ => []

/-- `catalog_document`. -/
def catalogDocument [OfNat ν 2] (catalog : Value ν) (info : List (String × Document ν)) :
    Document ν :=
  .dict (update [(metaKey, .dict (update [("format", .number 2)] info))] (encoded catalog).entries)

/-! ### Reading -/

/-- What `_load` and the readers raise. -/
inductive Failure where
  | typeError
  | attributeError

/-- The value a field is given, or its default. -/
def given (kwargs : List (String × Value ν)) (field : String × Option (Value ν)) :
    Except Failure (String × Value ν) :=
  match (get kwargs field.1).or field.2 with
  | some value => .ok (field.1, value)
  | none => .error .typeError

/-- `cls(**kwargs)`. -/
def construct (cls : Class) (kwargs : List (String × Value ν)) : Except Failure (Value ν) :=
  let declared : List (String × Option (Value ν)) := cls.fields
  if kwargs.all fun entry => entry.1 ∈ declared.map Prod.fst then do
    let fields ← declared.mapM (given kwargs)
    pure (.object cls fields)
  else .error .typeError

mutual

/-- What a stored value reads as: `_load` for an object of a class. -/
def load : Reader → Document ν → Except Failure (Value ν)
  | .plain, raw => .ok (frozen raw)
  | .one cls, .dict entries => do
    let kwargs ← loadFields cls entries
    construct cls kwargs
  | .one _, _ => .error .typeError
  | .each cls, .list items => do
    let values ← loadItems cls items
    pure (.tuple values)
  -- iterating a dictionary or a string gives strings, which are no object
  | .each _, .dict entries => if entries = [] then .ok (.tuple []) else .error .typeError
  | .each _, .str s => if s = "" then .ok (.tuple []) else .error .typeError
  | .each _, _ => .error .typeError
  | .keyed cls, .dict entries => do
    let values ← loadEntries cls entries
    pure (.mapping values)
  | .keyed _, _ => .error .attributeError

def loadFields (cls : Class) :
    List (String × Document ν) → Except Failure (List (String × Value ν))
  | [] => .ok []
  | (name, raw) :: rest => do
    let value ← load (cls.reader name) raw
    let values ← loadFields cls rest
    pure ((name, value) :: values)

def loadItems (cls : Class) : List (Document ν) → Except Failure (List (Value ν))
  | [] => .ok []
  | raw :: rest => do
    let value ← load (.one cls) raw
    let values ← loadItems cls rest
    pure (value :: values)

def loadEntries (cls : Class) :
    List (String × Document ν) → Except Failure (List (String × Value ν))
  | [] => .ok []
  | (key, raw) :: rest => do
    let value ← load (.one cls) raw
    let values ← loadEntries cls rest
    pure ((key, value) :: values)

end

/-- Why a stored catalog is refused, each a `ValueError`. -/
inductive Refusal (ν : Type) where
  | notAnObject
  | otherFormat (found : Document ν)
  | unreadable (failure : Failure)

/-- `read_catalog_document`; a document without the format marker is read as `parseCatalog` does. -/
def readCatalogDocument [OfNat ν 2]
    (parseCatalog : List (String × Document ν) → Except (Refusal ν) (Value ν)) :
    Document ν → Except (Refusal ν) (Value ν)
  | .dict entries =>
    let body := without [metaKey] entries
    match get entries metaKey with
    | some (.dict info) =>
      match get info "format" with
      | none => parseCatalog body
      | some (.number n) =>
        if n = 2 then
          match load (.one .catalog) (.dict body) with
          | .ok catalog => .ok catalog
          | .error failure => .error (.unreadable failure)
        else .error (.otherFormat (.number n))
      | some found => .error (.otherFormat found)
    | _ => parseCatalog body
  | _ => .error .notAnObject

end

end Otari.CatalogCodec
