import Otari.Support.PyValue

/-!
# Settings — SecretFields — masking credentials in a settings object

`models/secret_fields.py`: a read of an object masks what stands under a name that looks like a
credential's (`redactNode`), and an update with the mask in it restores what is stored there
(`restoreNode`), by name in a dictionary and by content in a list.
-/

namespace Otari.SecretFields
open PyValue (get)

/-- `_SECRET_LOOKING_KEY_SUBSTRINGS`. -/
def secretLookingKeySubstrings : List (List Char) :=
  ["key".toList, "secret".toList, "token".toList, "password".toList, "authorization".toList,
    "credential".toList]

/-- `REDACTED_VALUE`. -/
def redactedValue : PyValue := .scalar (.str "***")

/-- `_MAX_NESTING_DEPTH`. -/
def maxNestingDepth : ℕ := 16

/-- `str.lower`, of a character whose lower case a marker may hold: the Kelvin sign's is a `k`. -/
def lower (c : Char) : Char := if c.toNat = 0x212A then 'k' else c.toLower

/-- `_looks_secret`. -/
def looksSecret (key : String) : Bool :=
  secretLookingKeySubstrings.any fun marker => decide (marker <:+: key.toList.map lower)

/-- A settings object. -/
structure Values where
  keys : Finset String
  vals : {k // k ∈ keys} → PyValue

def Values.value (values : Values) : PyValue := .obj values.keys values.vals

/-- `cast`: a dictionary as the settings object it is. -/
def asValues : PyValue → Values
  | .obj keys vals => ⟨keys, vals⟩
  | _ => ⟨∅, fun _ => .none⟩

/-! ### Masking -/

/-- `_redact_node`. -/
def redactNode : PyValue → ℕ → PyValue
  | .scalar a, depth => if maxNestingDepth ≤ depth then redactedValue else .scalar a
  | .arr n items, depth =>
    if maxNestingDepth ≤ depth then redactedValue
    else .arr n fun i => redactNode (items i) (depth + 1)
  | .obj keys vals, depth =>
    if maxNestingDepth ≤ depth then redactedValue
    else
      .obj keys fun k =>
        if looksSecret k then redactedValue else redactNode (vals k) (depth + 1)

/-- `redact_secret_like_values`. -/
def redactSecretLikeValues (values : Option Values) : Option Values :=
  values.map fun values => asValues (redactNode values.value 0)

/-! ### Restoring -/

/-- `UnresolvedRedactionError`. -/
inductive UnresolvedRedactionError where
  | unresolved
deriving DecidableEq

/-- The values of a family, where none of them raised. -/
def gather {ι : Type} [Fintype ι] (f : ι → Except UnresolvedRedactionError PyValue) :
    Except UnresolvedRedactionError (ι → PyValue) :=
  if ∀ i, (f i).isOk = true then .ok fun i => (f i).toOption.getD .none else .error .unresolved

/-- `_carries_mask`. -/
def carriesMask : PyValue → ℕ → Bool
  | .scalar a, depth =>
    depth ≤ maxNestingDepth && ((PyValue.scalar a).pyEq redactedValue && maxNestingDepth ≤ depth)
  | .arr n items, depth =>
    depth ≤ maxNestingDepth && decide (∃ i : Fin n, carriesMask (items i) (depth + 1) = true)
  | .obj keys vals, depth =>
    depth ≤ maxNestingDepth && decide (∃ k : {k // k ∈ keys},
      (vals k).pyEq redactedValue = true ∨ carriesMask (vals k) (depth + 1) = true)

/-- The turn of the loop over a submitted list's entries. -/
def restoreItem (stored : List PyValue) (depth : ℕ) (item : PyValue) :
    Except UnresolvedRedactionError PyValue :=
  let unmatched := if carriesMask item (depth + 1) then .error .unresolved else .ok item
  match stored.filter fun entry => (redactNode entry (depth + 1)).pyEq item with
  | [] => unmatched
  | first :: rest => if (first :: rest).all fun entry => entry.pyEq first then .ok first else unmatched

/-- `_restore_list`. -/
def restoreList (incoming : PyValue) (stored : List PyValue) (depth : ℕ) :
    Except UnresolvedRedactionError PyValue :=
  let masked := stored.map fun item => redactNode item (depth + 1)
  if (PyValue.ofList masked).pyEq incoming then .ok (.ofList stored)
  else (incoming.items.mapM (restoreItem stored depth)).map .ofList

/-- What is stored under a name whose submitted value is the mask, and else what that is restored to. -/
def orStored (value : PyValue) (stored : Option PyValue)
    (restored : Except UnresolvedRedactionError PyValue) : Except UnresolvedRedactionError PyValue :=
  match stored with
  | some storedValue => if value.pyEq redactedValue then .ok storedValue else restored
  | none => restored

/-- `_restore_node`.  What is stored is a dictionary or a list only where the submitted value is one;
elsewhere it has no names and no items. -/
def restoreNode : PyValue → PyValue → ℕ → Except UnresolvedRedactionError PyValue
  | .scalar a, _, _ => .ok (.scalar a)
  | .arr n items, stored, depth =>
    if maxNestingDepth ≤ depth then .ok (.arr n items)
    else restoreList (.arr n items) stored.items depth
  | .obj keys vals, stored, depth =>
    if maxNestingDepth ≤ depth then .ok (.obj keys vals)
    else
      (gather fun k : {k // k ∈ keys} =>
        orStored (vals k) (get stored k)
          (restoreNode (vals k) ((get stored k).getD .none) (depth + 1))).map (.obj keys)

/-- `restore_redacted_values`. -/
def restoreRedactedValues (incoming stored : Option Values) :
    Except UnresolvedRedactionError (Option Values) :=
  match incoming with
  | none => .ok none
  | some incoming =>
    match stored.filter fun stored => stored.keys ≠ ∅ with
    | none => .ok (some incoming)
    | some stored =>
      (restoreNode incoming.value stored.value 0).map fun restored => some (asValues restored)

end Otari.SecretFields
