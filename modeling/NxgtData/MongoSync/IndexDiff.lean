import NxgtData.Lib.Canonical

/-!
What an index sync has to do: an index reduced to what makes two of them the same, and the
difference between those a definition wants and those the server has. A number, and every
value that is no string, boolean or null, is the text `JSON.stringify` writes it as.
-/
namespace NxgtData.MongoSync
open Bson

abbrev Json := Value String
abbrev Field := Name × Json

def jsonBool (b : Bool) : Json := .scalar (.boolean b)
def jsonNumber (text : String) : Json := .scalar (.bson text)
def jsonText (s : String) : Json := .scalar (.string s.toList)

/-- `fields[name]`. -/
def lookup (fields : List Field) (name : Name) : Option Json :=
  (fields.find? (·.1 = name)).map Prod.snd

/-- `fields[name] ?? fallback`. -/
def lookupOr (fields : List Field) (name : Name) (fallback : Json) : Json :=
  match lookup fields name with
  | none | some (.scalar .null) => fallback
  | some value => value

/-- What MongoDB fills a collation in with. -/
def COLLATION_DEFAULTS : List Field :=
  [("caseLevel".toList, jsonBool false), ("caseFirst".toList, jsonText "off"),
    ("strength".toList, jsonNumber "3"), ("numericOrdering".toList, jsonBool false),
    ("alternate".toList, jsonText "non-ignorable"), ("maxVariable".toList, jsonText "punct"),
    ("normalization".toList, jsonBool false), ("backwards".toList, jsonBool false)]

/-- The options compared against their default whether they are read back or not: all false. -/
def OPTION_DEFAULTS : List Name :=
  ["unique".toList, "sparse".toList, "hidden".toList, "background".toList]

def IGNORED : List Name := ["v".toList, "ns".toList, "key".toList, "name".toList]

def collation : Name := "collation".toList
def locale : Name := "locale".toList

/-- An index as the driver describes one: its key, its name if it has one, and its other
options, those that are undefined left out. -/
structure Index where
  key : List (Name × Scalar String)
  name : Option Name := none
  options : List Field := []
  nodup : (options.map Prod.fst).Nodup := by decide

/-- The text of a direction in an index's name. -/
def directionText : Scalar String → Name
  | .string s => s
  | .bson json => json.toList
  | .boolean b => if b then "true".toList else "false".toList
  | .null => "null".toList
  | .date ms => (toString ms).toList

/-- The name MongoDB gives an index that names none. -/
def indexNameOf (key : List (Name × Scalar String)) : Name :=
  List.intercalate ['_'] (key.map fun f => f.1 ++ '_' :: directionText f.2)

def canonicalCollation : Json → Json
  | .document fields => .document
      ((COLLATION_DEFAULTS.map fun d => (d.1, lookupOr fields d.1 d.2)) ++
        ((lookup fields locale).map fun v => (locale, v)).toList)
  | value => value

/-- `OPTION_DEFAULTS[name] === value` -/
def isDefault (name : Name) : Json → Bool
  | .scalar (.boolean false) => OPTION_DEFAULTS.contains name
  | _ => false

/-- An option as two indexes are compared by it. -/
def normalizeOption (f : Field) : Option Field :=
  if IGNORED.contains f.1 then none
  else if f.1 = collation then some (collation, canonicalCollation f.2)
  else if isDefault f.1 f.2 then none
  else some f

def normalizeOptions (options : List Field) : List Field := options.filterMap normalizeOption

namespace Index

def nameOf (index : Index) : Name := index.name.getD (indexNameOf index.key)

/-- The index with its name written out. -/
def named (index : Index) : Index := { index with name := some index.nameOf }

end Index

/-- `canonical(a.options) === canonical(b.options)`, and the same key in the same order. The
text that `JSON.stringify` writes of a value says which it is. -/
def indexMatches (wanted live : Index) : Prop :=
  wanted.key = live.key ∧
    canonical (.document (normalizeOptions wanted.options)) =
      canonical (.document (normalizeOptions live.options))

instance (wanted live : Index) : Decidable (indexMatches wanted live) := by
  unfold indexMatches
  exact inferInstance

structure IndexDiff where
  /-- Not on the server yet. -/
  create : List Index
  /-- There under this name, with other options. -/
  recreate : List Index
  unchanged : List Name
  extra : List Name

def idIndex : Name := "_id_".toList

/-- The index of a name among those of a collection, whose names are distinct. -/
def byName (live : List Index) (name : Name) : Option Index := live.find? (·.nameOf = name)

/-- What an index sync has to do. Indexes are matched by name. -/
def diffIndexes (wanted live : List Index) : IndexDiff where
  create := (wanted.filter fun w => (byName live w.nameOf).isNone).map Index.named
  recreate := (wanted.filter fun w =>
    (byName live w.nameOf).any fun l => !decide (indexMatches w l)).map Index.named
  unchanged := (wanted.filter fun w =>
    (byName live w.nameOf).any fun l => decide (indexMatches w l)).map Index.nameOf
  extra := (live.map Index.nameOf).filter fun n =>
    n ≠ idIndex && !(wanted.map Index.nameOf).contains n

end NxgtData.MongoSync
