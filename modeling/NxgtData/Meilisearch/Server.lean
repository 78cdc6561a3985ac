import NxgtData.Meilisearch.SettingsDiff

/-!
What the server makes of a settings update. It keeps three lists in order, every other list
of attributes or words as a set, and the fields given of the merged settings in what it
holds; a null puts a field back to its default. Of the lists and objects further down it is
not said which are sets and which are merged. A report is compared place by place, an
embedder's own key apart.
-/
namespace NxgtData.Meilisearch

open Plain

/-! Places of a setting. -/

/-- The value under field names. -/
def under (v : Value) (path : List String) : Option Value := follow v (path.map Step.key)

/-- A setting is looked at as a whole, or, where it is merged, field by field. -/
def Within (name : String) (path : List String) : Prop := merged.contains name = true ∨ path = []

/-- How a server keeps what it is given, place by place. -/
structure Rules where
  /-- What is reported of a field, by its path, that is back at its default. -/
  reset : List String → Option Value
  /-- Of an object sent here the fields given are put into what is held; else it replaces it. -/
  merges : List String → Bool
  merges_merged : ∀ name, merged.contains name = true → merges [name] = true
  merges_embedder : ∀ embedder, merges ["embedders", embedder] = true
  /-- What is below a replaced object is replaced with it. -/
  merges_above : ∀ name path key,
    merges (name :: (path ++ [key])) = true → merges (name :: path) = true
  /-- A list here is kept as a set; else in order. -/
  isSet : List String → Bool
  isSet_ordered : ∀ name, ordered.contains name = true → isSet [name] = false
  isSet_other : ∀ name, ordered.contains name = false → merged.contains name = false →
    isSet [name] = true
  isSet_typos : ∀ field, field = "disableOnWords" ∨ field = "disableOnAttributes" →
    isSet ["typoTolerance", field] = true

inductive Shown where
  | value (m : Meaning)
  | set (entries : Set Meaning)
  | fields

/-- A key of this embedder, or of one that it is made of. -/
def ownedIn : List String → Bool
  | [] => false
  | key :: path =>
      key = "apiKey" || (key = "searchEmbedder" || key = "indexingEmbedder") && ownedIn path

/-- An embedder's own key, which is never reported as it was given. -/
def owned (name : String) : List String → Bool
  | [] => false
  | _ :: path => name = "embedders" && ownedIn path

section Rules

variable (rules : Rules)

/-- What the server shows at a place of a setting. -/
def shown (name : String) (path : List String) : Value → Shown
  | .scalar s => .value (meaning (.scalar s))
  | .arr items =>
      if rules.isSet (name :: path) then .set (entries items) else .value (meaning (.arr items))
  | .obj fields => if merged.contains name then .fields else .value (meaning (.obj fields))

/-- Two reports show the same below a place of a setting. -/
def Agree (name : String) (base : List String) (a b : Option Value) : Prop :=
  ∀ path, Within name path → owned name (base ++ path) = false →
    (a.bind fun v => under v path).map (shown rules name (base ++ path)) =
      (b.bind fun v => under v path).map (shown rules name (base ++ path))

/-- What the server can report of a place: an object's names once, nothing undefined, the
entries of a set once, and null only where that is the default. -/
structure Reported (name : String) (base : List String) (v : Value) : Prop where
  distinct : Distinct v
  defined : Defined v
  once : ∀ path items, Within name path → under v path = some (.arr items) →
    rules.isSet (name :: (base ++ path)) = true → Once items
  null : ∀ path, Within name path → under v path = some .null →
    rules.reset (name :: (base ++ path)) = some .null

/-- Sending a value for a setting changes what is reported of it. -/
def Changes (name : String) (before after : Option Value) : Prop :=
  ¬ Agree rules name [] after before

end Rules

structure Server extends Rules where
  reset_reported : ∀ name base v, reset (name :: base) = some v → Reported toRules name base v
  /-- A set's entries in the order they are reported. -/
  arrange : List Value → List Value
  arrange_subset : ∀ items, arrange items ⊆ items
  arrange_entries : ∀ items, entries (arrange items) = entries items
  arrange_once : ∀ items, Once (arrange items)

def fieldsOf : Option Value → Fields
  | some (.obj fields) => fields
  | _ => []

def put (fields : Fields) (name : String) (value : Option Value) : Fields :=
  (fields.filter fun f => f.1 ≠ name) ++ value.toList.map fun v => (name, some v)

namespace Server

variable (server : Server)

/-- A list as it is kept. -/
def keep (path : List String) (items : List Value) : List Value :=
  if server.isSet path then server.arrange items else items

mutual
/-- What is reported of a place of a merged setting once a value is sent for it. -/
def merge (path : List String) : Value → Option Value → Option Value
  | .scalar .null, _ => server.reset path
  | .scalar s, _ => some (.scalar s)
  | .arr items, _ => some (.arr (server.keep path items))
  | .obj fields, held =>
      some (.obj (mergeFields path fields (if server.merges path then fieldsOf held else [])))

def mergeFields (path : List String) : Fields → Fields → Fields
  | [], held => held
  | (_, none) :: rest, held => mergeFields path rest held
  | (name, some v) :: rest, held =>
      mergeFields path rest (put held name (merge (path ++ [name]) v (get held name)))
end

/-- What is reported of a setting once a value is sent for it. -/
def store (name : String) (held : Option Value) (v : Value) : Option Value :=
  if merged.contains name then server.merge [name] v held
  else
    match v with
    | .scalar .null => server.reset [name]
    | .scalar s => some (.scalar s)
    | .arr items => some (.arr (server.keep [name] items))
    | .obj fields => some (.obj fields)

end Server

end NxgtData.Meilisearch
