import NxgtData.Lib.Ejson

/-!
What a backup records of a collection or a view besides its documents, as canonical
Extended JSON. It is read back exactly when nothing in its options or its indexes is
an object that is taken for a BSON value.
-/
namespace NxgtData.MongoBackup.Format
open Ejson (Codec)

abbrev Extended := Ejson.Value

/-- `METADATA_FORMAT`. -/
def metadataFormat : String := "nxgt-mongo-backup-metadata/1"

inductive CollectionType where
  | collection
  | view
deriving DecidableEq

def CollectionType.text : CollectionType → String
  | collection => "collection"
  | view => "view"

def collectionType (text : String) : Option CollectionType :=
  if text = "collection" then some .collection
  else if text = "view" then some .view
  else none

variable {σ : Type}

/-- `isDocument`, of an object that was read: a BSON value has `_bsontype`. -/
def isDocument (fields : Ejson.Document σ) : Bool := (fields.lookup "_bsontype").isNone

/-- `typeof index['name'] === 'string'`. -/
def isNamed (index : Ejson.Document σ) : Bool :=
  match index.lookup "name" with
  | some (.str _) => true
  | _ => false

/-- The server gives each index with its name. -/
structure Metadata (σ : Type) where
  type : CollectionType
  options : Ejson.Document σ
  indexes : List (Ejson.Document σ)
  named : ∀ index ∈ indexes, isNamed index = true

def writeMetadata (e : Codec σ) (metadata : Metadata σ) : String :=
  e.stringify (.doc [("format", .str metadataFormat), ("type", .str metadata.type.text),
    ("options", .doc metadata.options), ("indexes", .arr (metadata.indexes.map .doc))])

/-- The indexes, when each is a document with a name. -/
def readIndexes : List (Extended σ) →
    Option { indexes : List (Ejson.Document σ) // ∀ index ∈ indexes, isNamed index = true }
  | [] => some ⟨[], by simp⟩
  | .doc index :: rest =>
      if named : isDocument index = true ∧ isNamed index = true then
        (readIndexes rest).map fun read =>
          ⟨index :: read.1, List.forall_mem_cons.mpr ⟨named.2, read.2⟩⟩
      else none
  | _ :: _ => none

/-- `readMetadata`, of what was parsed. -/
def metadataOf : Extended σ → Option (Metadata σ)
  | .doc value =>
      match value.lookup "format", value.lookup "type", value.lookup "options",
        value.lookup "indexes" with
      | some (.str format), some (.str type), some (.doc options), some (.arr indexes) =>
          if isDocument value ∧ format = metadataFormat ∧ isDocument options then do
            let type ← collectionType type
            let indexes ← readIndexes indexes
            some ⟨type, options, indexes.1, indexes.2⟩
          else none
      | _, _, _, _ => none
  | _ => none

def readMetadata (e : Codec σ) (text : String) : Option (Metadata σ) :=
  (e.parse text).bind metadataOf

/-- Nothing in the options or the indexes is taken for a BSON value. -/
def Metadata.Plain (e : Codec σ) (m : Metadata σ) : Prop :=
  (e.Plain (.doc m.options) ∧ isDocument m.options = true) ∧
    ∀ index ∈ m.indexes, e.Plain (.doc index) ∧ isDocument index = true

theorem readIndexes_map {indexes : List (Ejson.Document σ)}
    (named : ∀ index ∈ indexes, isNamed index = true)
    (documents : ∀ index ∈ indexes, isDocument index = true) :
    readIndexes (indexes.map .doc) = some ⟨indexes, named⟩ := by
  induction indexes with
  | nil => rfl
  | cons index rest ih =>
      obtain ⟨first, others⟩ := List.forall_mem_cons.mp named
      obtain ⟨first', others'⟩ := List.forall_mem_cons.mp documents
      rw [List.map_cons, readIndexes, dif_pos ⟨first', first⟩, ih others others', Option.map_some]

theorem map_of_readIndexes {items : List (Extended σ)}
    {read : { indexes : List (Ejson.Document σ) // ∀ index ∈ indexes, isNamed index = true }}
    (is : readIndexes items = some read) :
    items = read.1.map .doc ∧ ∀ index ∈ read.1, isDocument index = true := by
  fun_induction readIndexes items generalizing read with
  | case1 =>
      cases is
      exact ⟨rfl, nofun⟩
  | case2 index rest named ih =>
      obtain ⟨others, rest', made⟩ := Option.map_eq_some_iff.mp is
      cases made
      obtain ⟨same, documents⟩ := ih rest'
      exact ⟨by rw [List.map_cons, same], List.forall_mem_cons.mpr ⟨named.1, documents⟩⟩
  | case3 => cases is
  | case4 => cases is

theorem collectionType_text (t : CollectionType) : collectionType t.text = some t := by
  cases t with
  | collection => rfl
  | view => rfl

/-- What `writeMetadata` writes, with its options and its indexes as they may be read. -/
def record (m : Metadata σ) (options : Extended σ) (items : List (Extended σ)) : Ejson.Document σ :=
  [("format", .str metadataFormat), ("type", .str m.type.text), ("options", options),
    ("indexes", .arr items)]

theorem metadataOf_record {m : Metadata σ} {options : Extended σ} {items : List (Extended σ)} :
    metadataOf (.doc (record m options items)) = some m ↔
      (options = .doc m.options ∧ isDocument m.options = true) ∧
        items = m.indexes.map .doc ∧ ∀ index ∈ m.indexes, isDocument index = true := by
  have whole : isDocument (record m options items) = true := rfl
  have format : (record m options items).lookup "format" = some (.str metadataFormat) := rfl
  have type : (record m options items).lookup "type" = some (.str m.type.text) := rfl
  have given : (record m options items).lookup "options" = some options := rfl
  have listed : (record m options items).lookup "indexes" = some (.arr items) := rfl
  constructor
  next =>
    intro read
    rw [metadataOf, format, type, given, listed] at read
    cases options with
    | doc options =>
        simp only [whole, true_and, collectionType_text, Option.bind_eq_bind,
          Option.bind_some] at read
        split at read
        next document =>
          obtain ⟨indexes, made, same⟩ := Option.bind_eq_some_iff.mp read
          have parts := Option.some.inj same
          have given := congrArg Metadata.options parts
          have listed := congrArg Metadata.indexes parts
          exact ⟨⟨congrArg Ejson.Value.doc given, given ▸ document⟩, listed ▸ map_of_readIndexes made⟩
        next => cases read
    | null | bool _ | str _ | bson _ | arr _ => cases read
  next =>
    rintro ⟨⟨rfl, document⟩, rfl, documents⟩
    rw [metadataOf, format, type, given, listed]
    simp only [whole, document, true_and, if_true, collectionType_text, Option.bind_eq_bind,
      Option.bind_some, readIndexes_map m.named documents]

/-- The record is written and read key by key. -/
theorem parse_writeMetadata {e : Codec σ} (lawful : e.Lawful) (m : Metadata σ) :
    e.parse (writeMetadata e m) = (e.revive (e.encode (.doc m.options))).bind fun options =>
      (e.reviveItems (e.encodeItems (m.indexes.map .doc))).map fun items =>
        .doc (record m options items) := by
  have keys : ∀ k ∈ ["format", "type", "options", "indexes"], k ∉ Ejson.typeKeys := by decide
  have plain (options : Extended σ) (items : List (Extended σ)) :
      e.typed (record m options items) = .document :=
    lawful.plain _ fun f mem => keys f.1 (List.mem_map_of_mem mem)
  have text (s : String) : e.revive (e.encode (.str s)) = some (.str s) := by
    rw [Codec.encode, JsonText.Value.text, Codec.revive, Utf16.text_ofString]
  have list (vs : List (Extended σ)) :
      e.revive (e.encode (.arr vs)) = (e.reviveItems (e.encodeItems vs)).map .arr := by
    rw [Codec.encode, Codec.revive]
  rw [writeMetadata, Codec.parse_stringify, Codec.encode, Codec.revive]
  simp only [Codec.encodeFields, Codec.reviveFields, text, list, Option.bind_some]
  cases e.revive (e.encode (.doc m.options)) with
  | none => rfl
  | some options =>
      cases e.reviveItems (e.encodeItems (m.indexes.map .doc)) with
      | none => rfl
      | some items =>
          have document := plain options items
          simp only [record] at document
          simp only [Option.map_some, Option.bind_some, document, record]

theorem plainItems_map (e : Codec σ) (indexes : List (Ejson.Document σ)) :
    e.PlainItems (indexes.map .doc) ↔ ∀ index ∈ indexes, e.Plain (.doc index) := by
  induction indexes with
  | nil => simp [Codec.PlainItems]
  | cons index rest ih => rw [List.map_cons, Codec.PlainItems, ih, List.forall_mem_cons]

/-- Metadata is read back as it was exactly when nothing in it is taken for a BSON
value. -/
theorem readMetadata_writeMetadata_iff {e : Codec σ} (lawful : e.Lawful) (m : Metadata σ) :
    readMetadata e (writeMetadata e m) = some m ↔ m.Plain e := by
  have options := Codec.revive_encode_iff lawful (.doc m.options)
  have items := Codec.reviveItems_encode_iff lawful (m.indexes.map .doc)
  rw [readMetadata, parse_writeMetadata lawful, Metadata.Plain]
  simp only [forall_and, ← plainItems_map, ← options, ← items]
  constructor
  next =>
    intro back
    obtain ⟨value, parsed, read⟩ := Option.bind_eq_some_iff.mp back
    obtain ⟨given, revived, rest⟩ := Option.bind_eq_some_iff.mp parsed
    obtain ⟨listed, revived', made⟩ := Option.map_eq_some_iff.mp rest
    subst made
    obtain ⟨⟨rfl, document⟩, rfl, documents⟩ := metadataOf_record.mp read
    exact ⟨⟨revived, document⟩, revived', documents⟩
  next =>
    rintro ⟨⟨given, document⟩, listed, documents⟩
    rw [given, listed, Option.bind_some, Option.map_some, Option.bind_some]
    exact metadataOf_record.mpr ⟨⟨rfl, document⟩, rfl, documents⟩

/-! A codec of numbers and regular expressions, and a validator that names `$regex`. -/

inductive Kind where
  | number (text : String)
  | regex (pattern options : String)

/-- The text of a field, empty without one. -/
def textOf (fields : Ejson.Document Kind) (name : String) : String :=
  match fields.lookup name with
  | some (.str s) => s
  | _ => ""

def kindCodec : Codec Kind where
  keyed
    | .number text => [("$numberInt", .text text)]
    | .regex pattern options =>
        [("$regularExpression", .obj [("pattern", .text pattern), ("options", .text options)])]
  natural n := .number (toString n)
  real x := .number (JsonText.stringify false (.float x))
  typed fields :=
    match fields.lookup "$numberInt", fields.lookup "$regularExpression",
      fields.lookup "$regex" with
    | some (.str text), _, _ => .value (.number text)
    | _, some (.doc read), _ => .value (.regex (textOf read "pattern") (textOf read "options"))
    | _, _, some (.str pattern) => .value (.regex pattern (textOf fields "$options"))
    | _, _, _ => .document

theorem kindCodec_lawful : kindCodec.Lawful where
  canonical
    | .number text => by
        simp only [kindCodec, Codec.revive, Codec.reviveFields, JsonText.Value.text,
          Utf16.text_ofString]
        rfl
    | .regex pattern options => by
        simp only [kindCodec, Codec.revive, Codec.reviveFields, JsonText.Value.text,
          Utf16.text_ofString]
        rfl
  plain fields free := by
    have none (key : String) (is : key ∈ Ejson.typeKeys) : fields.lookup key = none := by
      refine List.lookup_eq_none_iff.mpr fun f mem => ?_
      have other : key ≠ f.1 := fun same => free f mem (same ▸ is)
      exact bne_iff_ne.mpr other
    simp only [kindCodec, none "$numberInt" (by decide), none "$regularExpression" (by decide),
      none "$regex" (by decide)]

/-- A collection with a validator and one index. -/
def described (validator : Ejson.Document Kind) : Metadata Kind where
  type := .collection
  options := [("validator", .doc validator)]
  indexes := [[("name", .str "a_1")]]
  named := by
    intro index mem
    cases List.mem_singleton.mp mem
    rfl

theorem readMetadata_bool : readMetadata kindCodec (writeMetadata kindCodec
      (described [("a", .doc [("$exists", .bool true)])])) =
    some (described [("a", .doc [("$exists", .bool true)])]) ↔
    (described [("a", .doc [("$exists", .bool true)])]).Plain kindCodec :=
  readMetadata_writeMetadata_iff kindCodec_lawful _

/-- The validator `a: { $regex: '^x', $options: 'i' }` is read back as a regular
expression. -/
theorem metadata_regex : ¬ ∀ (σ : Type) (e : Codec σ), e.Lawful → ∀ m : Metadata σ,
    readMetadata e (writeMetadata e m) = some m := by
  intro survives
  have back := survives Kind kindCodec kindCodec_lawful
    (described [("a", .doc [("$regex", .str "^x"), ("$options", .str "i")])])
  have options : kindCodec.revive (kindCodec.encode (.doc (described
      [("a", .doc [("$regex", .str "^x"), ("$options", .str "i")])]).options)) =
      some (.doc [("validator", .doc [("a", .bson (.regex "^x" "i"))])]) := rfl
  have items : kindCodec.reviveItems (kindCodec.encodeItems ((described
      [("a", .doc [("$regex", .str "^x"), ("$options", .str "i")])]).indexes.map .doc)) =
      some [.doc [("name", .str "a_1")]] := rfl
  rw [readMetadata, parse_writeMetadata kindCodec_lawful, options, items, Option.bind_some,
    Option.map_some, Option.bind_some] at back
  have same := (metadataOf_record.mp back).1.1
  simp [described] at same

end NxgtData.MongoBackup.Format
