import NxgtData.Lib.JsonRead

/-!
Canonical Extended JSON. A BSON value is written as an object with a type key, and
any other object key by key; reading takes the innermost object first and makes a
BSON value of each one that a type key tells to be one. Nothing escapes a key, so a
value is read back exactly when no document in it is told to be a BSON value.
-/
namespace NxgtData.Ejson
open JsonText (parse_stringify)

abbrev Json := JsonText.Value

/-- A value as the driver gives it. A number or a date is the BSON value it stands
for; `σ` is the kinds of these. A string of BSON is UTF-8, so no half of a surrogate
pair is in one. -/
inductive Value (σ : Type) where
  | null
  | bool (b : Bool)
  | str (s : String)
  | bson (s : σ)
  | arr (items : List (Value σ))
  | doc (fields : List (String × Value σ))

abbrev Document (σ : Type) := List (String × Value σ)

/-- What an object that was read is: a document, a BSON value, or neither, which
throws. -/
inductive Verdict (σ : Type) where
  | document
  | value (s : σ)
  | refused

/-- The type keys. -/
def typeKeys : List String :=
  ["$oid", "$binary", "$uuid", "$symbol", "$numberInt", "$numberLong", "$numberDouble",
    "$numberDecimal", "$minKey", "$maxKey", "$regex", "$regularExpression", "$timestamp",
    "$date", "$code", "$ref", "$id", "$dbPointer"]

/-- js-bson's part: the object each BSON value is written as, what a bare number is
read as, and what an object with its fields read is told to be. -/
structure Codec (σ : Type) where
  keyed : σ → List (String × Json)
  natural : Nat → σ
  real : JsonText.Number → σ
  typed : Document σ → Verdict σ

namespace Codec
variable {σ : Type} (e : Codec σ)

mutual
/-- The object tree `EJSON.stringify` hands to `JSON.stringify`. -/
def encode : Value σ → Json
  | .null => .null
  | .bool b => .bool b
  | .str s => .text s
  | .bson s => .obj (e.keyed s)
  | .arr items => .arr (encodeItems items)
  | .doc fields => .obj (encodeFields fields)

def encodeItems : List (Value σ) → List Json
  | [] => []
  | v :: vs => encode v :: encodeItems vs

def encodeFields : Document σ → List (String × Json)
  | [] => []
  | (k, v) :: fs => (k, encode v) :: encodeFields fs
end

mutual
/-- The reviver over what `JSON.parse` gave, from the inside out. -/
def revive : Json → Option (Value σ)
  | .null => some .null
  | .bool b => some (.bool b)
  | .num n => some (.bson (e.natural n))
  | .float x => some (.bson (e.real x))
  | .str s => some (.str s.text)
  | .arr items => (reviveItems items).map .arr
  | .obj fields =>
      (reviveFields fields).bind fun read =>
        match e.typed read with
        | .document => some (.doc read)
        | .value s => some (.bson s)
        | .refused => none

def reviveItems : List Json → Option (List (Value σ))
  | [] => some []
  | v :: vs => (revive v).bind fun read => (reviveItems vs).map fun rest => read :: rest

def reviveFields : List (String × Json) → Option (Document σ)
  | [] => some []
  | (k, v) :: fs => (revive v).bind fun read => (reviveFields fs).map fun rest => (k, read) :: rest
end

/-- `EJSON.stringify(value, { relaxed: false })`. -/
def stringify (v : Value σ) : String := JsonText.stringify false (e.encode v)

/-- `EJSON.parse(text, { relaxed: false })`, `none` where it throws. -/
def parse (text : String) : Option (Value σ) := (JsonText.parse text).bind e.revive

/-- A BSON value is read back from its object, and an object without a type key is a
document. -/
structure Lawful : Prop where
  canonical : ∀ s, e.revive (.obj (e.keyed s)) = some (.bson s)
  plain : ∀ fields : Document σ, (∀ f ∈ fields, f.1 ∉ typeKeys) → e.typed fields = .document

mutual
/-- No document, at any depth, is told to be anything else. -/
def Plain : Value σ → Prop
  | .null | .bool _ | .str _ | .bson _ => True
  | .arr items => PlainItems items
  | .doc fields => e.typed fields = .document ∧ PlainFields fields

def PlainItems : List (Value σ) → Prop
  | [] => True
  | v :: vs => Plain v ∧ PlainItems vs

def PlainFields : Document σ → Prop
  | [] => True
  | (_, v) :: fs => Plain v ∧ PlainFields fs
end

theorem parse_stringify (v : Value σ) : e.parse (e.stringify v) = e.revive (e.encode v) := by
  rw [parse, stringify, JsonText.parse_stringify, Option.bind_some]

variable {e}

mutual
theorem revive_encode_iff (lawful : e.Lawful) :
    ∀ v : Value σ, e.revive (e.encode v) = some v ↔ e.Plain v
  | .null | .bool _ => by
      simp [encode, revive, Plain]
  | .str s => by
      simp [encode, revive, Plain, JsonText.Value.text, Utf16.text_ofString]
  | .bson s => by
      rw [encode, lawful.canonical, Plain]
      exact iff_of_true rfl trivial
  | .arr items => by
      have inner := reviveItems_encode_iff lawful items
      rw [encode, revive, Plain, ← inner]
      simp
  | .doc fields => by
      have inner := reviveFields_encode_iff lawful fields
      rw [encode, revive, Plain, ← inner]
      constructor
      next =>
        intro back
        obtain ⟨read, is, verdict⟩ := Option.bind_eq_some_iff.mp back
        rw [is]
        revert verdict
        split
        next document =>
          intro same
          cases same
          exact ⟨document, rfl⟩
        next => intro same; cases same
        next => intro same; cases same
      next =>
        rintro ⟨document, back⟩
        rw [back, Option.bind_some, document]

theorem reviveItems_encode_iff (lawful : e.Lawful) :
    ∀ vs : List (Value σ), e.reviveItems (e.encodeItems vs) = some vs ↔ e.PlainItems vs
  | [] => by simp [encodeItems, reviveItems, PlainItems]
  | v :: vs => by
      have first := revive_encode_iff lawful v
      have others := reviveItems_encode_iff lawful vs
      rw [encodeItems, reviveItems, PlainItems, ← first, ← others]
      simp [Option.bind_eq_some_iff]

theorem reviveFields_encode_iff (lawful : e.Lawful) :
    ∀ fs : Document σ, e.reviveFields (e.encodeFields fs) = some fs ↔ e.PlainFields fs
  | [] => by simp [encodeFields, reviveFields, PlainFields]
  | (k, v) :: fs => by
      have first := revive_encode_iff lawful v
      have others := reviveFields_encode_iff lawful fs
      rw [encodeFields, reviveFields, PlainFields, ← first, ← others]
      simp [Option.bind_eq_some_iff]
end

end Codec
end NxgtData.Ejson
