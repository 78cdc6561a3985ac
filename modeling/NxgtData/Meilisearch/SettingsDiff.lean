import Mathlib.Data.List.Sort
import NxgtData.Lib.CodeUnits
import NxgtData.Lib.Meaning

/-!
Which settings of a definition an index does not have yet. Settings are compared in order,
as sets, by the fields a definition gives, or as JSON, and `diffSettings` is what is sent.
-/
namespace NxgtData.Meilisearch

open Plain CodeUnits

/-- `ORDERED` -/
def ordered : List String := ["searchableAttributes", "displayedAttributes", "rankingRules"]

/-- `MERGED` -/
def merged : List String := ["typoTolerance", "faceting", "pagination", "embedders"]

/-- The array index that a name is. -/
def arrayIndex (name : String) : Option Nat :=
  name.toNat?.filter fun n => toString n = name ∧ n < 4294967295

def ByName (f g : String × Option Value) : Prop := AtMost f.1 g.1

instance : DecidableRel ByName := fun f g => inferInstanceAs (Decidable (AtMost f.1 g.1))

def ByIndex (f g : String × Option Value) : Prop :=
  (arrayIndex f.1).getD 0 ≤ (arrayIndex g.1).getD 0

instance : DecidableRel ByIndex := fun _ _ => inferInstanceAs (Decidable (_ ≤ _))

/-- `Object.fromEntries`: an object lists the array indexes among its names first, in
ascending order. -/
def fromEntries (entries : Fields) : Fields :=
  (entries.filter fun f => (arrayIndex f.1).isSome).insertionSort ByIndex ++
    entries.filter fun f => (arrayIndex f.1).isNone

mutual
/-- What the replacer of `canonical` makes of a value: object keys sorted, at every depth. -/
def sorted : Value → Value
  | .scalar s => .scalar s
  | .arr items => .arr (sortedItems items)
  | .obj fields => .obj (fromEntries ((sortedFields fields).insertionSort ByName))

def sortedItems : List Value → List Value
  | [] => []
  | v :: rest => sorted v :: sortedItems rest

def sortedFields : Fields → Fields
  | [] => []
  | (name, none) :: rest => (name, none) :: sortedFields rest
  | (name, some v) :: rest => (name, some (sorted v)) :: sortedFields rest
end

/-- JSON with sorted object keys, so key order never counts. -/
def canonical (value : Value) : String := stringify (sorted value)

/-- An array as a set: its canonical elements, sorted. -/
def asSet : Value → Value
  | .arr items => .arr (((items.map canonical).insertionSort AtMost).map Value.str)
  | value => value

mutual
/-- Does `live` hold everything `wanted` sets? -/
def contains : Value → Option Value → Bool
  | .arr items, live => some (canonical (asSet (.arr items))) = live.map fun l => canonical (asSet l)
  | .obj wanted, some (.obj live) => containsFields wanted live
  | .obj _, _ => false
  | .scalar wanted, some (.scalar live) => wanted = live
  | .scalar _, _ => false

def containsFields : Fields → Fields → Bool
  | [], _ => true
  | (_, none) :: rest, live => containsFields rest live
  | (key, some value) :: rest, live =>
      (key = "apiKey" || contains value (get live key)) && containsFields rest live
end

/-- Does the live value of one setting already match the wanted one? -/
def settingMatches (name : String) (wanted : Value) (live : Option Value) : Bool :=
  if ordered.contains name then some (canonical wanted) = live.map canonical
  else if merged.contains name then contains wanted live
  else some (canonical (asSet wanted)) = live.map fun l => canonical (asSet l)

/-- `withoutUndefined` -/
abbrev withoutUndefined : Value → Value := kept

/-- The settings of `wanted` that `live` does not match yet. -/
def diffSettings (wanted : Fields) (live : String → Option Value) : List (String × Value) :=
  wanted.filterMap fun setting =>
    match setting with
    | (_, none) => none
    | (name, some value) =>
        if settingMatches name value (live name) then none
        else some (name, withoutUndefined value)

end NxgtData.Meilisearch
