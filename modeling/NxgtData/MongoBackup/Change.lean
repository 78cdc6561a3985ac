import NxgtData.Lib.Bson

/-!
The two ways of a document through a backup. A full one reads it raw, and a restore
inserts the object it is read as, in batches; an incremental one writes the object the
change stream gave into a change record, and replays what it reads back of that record.
A backup's bytes are here the value they encode.
-/
namespace NxgtData.MongoBackup
open Bson

variable {σ : Type}

abbrev Document (σ : Type) := List (Name × Value σ)

def object (fields : List (String × JsValue σ)) : JsValue σ :=
  .object (fields.map fun f => (f.1.toList, f.2)) [] .plain

def text (s : Name) : JsValue σ := .scalar (.string s)

/-- `value[name]`, `none` for `undefined`. -/
def get (value : JsValue σ) (name : String) : Option (JsValue σ) :=
  match value with
  | .object own inherited _ => ((own ++ inherited).find? (·.1 = name.toList)).map Prod.snd
  | _ => none

def isDocument : JsValue σ → Bool
  | .scalar (.date _) => true
  | .scalar _ | .array _ => false
  | .object own inherited ends =>
      !((own ++ inherited).map Prod.fst).contains bsontype && ends ≠ .bson

inductive Put where
  | insert | replace

def Put.text : Put → String
  | insert => "insert"
  | replace => "replace"

inductive Change (σ : Type) where
  | put (op : Put) (coll : Name) (key doc : JsValue σ)
  | update (coll : Name) (key set : JsValue σ) (unset : List Name) (truncated : List (Name × Int))
  | delete (coll : Name) (key : JsValue σ)
  | create (coll : Name) (options : JsValue σ)
  | createIndexes (coll : Name) (indexes : List (JsValue σ))
  | dropIndexes (coll : Name) (names : List Name)
  | modify (coll : Name) (changes : JsValue σ)
  | drop (coll : Name)
  | rename (coll to_ : Name) (dropTarget : Bool)
  | dropDatabase

/-! `number` is the BSON value that a JavaScript number is written as, and `toNumber` is
`Number(value)` where that is a safe integer. -/
section Record
variable (defines : Bool) (number : Int → σ) (toNumber : Option (JsValue σ) → Option Int)

/-- The fields of the object literal that makes a change. -/
def Change.fields : Change σ → List (String × JsValue σ)
  | put op coll key doc =>
      [("op", text op.text.toList), ("coll", text coll), ("key", key), ("doc", doc)]
  | update coll key set unset truncated =>
      [("op", text "update".toList), ("coll", text coll), ("key", key), ("set", set),
        ("unset", .array (unset.map text)),
        ("truncated", .array (truncated.map fun cut =>
          object [("field", text cut.1), ("newSize", .scalar (.bson (number cut.2)))]))]
  | delete coll key => [("op", text "delete".toList), ("coll", text coll), ("key", key)]
  | create coll options =>
      [("op", text "create".toList), ("coll", text coll), ("options", options)]
  | createIndexes coll indexes =>
      [("op", text "createIndexes".toList), ("coll", text coll),
        ("indexes", .array indexes)]
  | dropIndexes coll names =>
      [("op", text "dropIndexes".toList), ("coll", text coll),
        ("names", .array (names.map text))]
  | modify coll changes =>
      [("op", text "modify".toList), ("coll", text coll), ("changes", changes)]
  | drop coll => [("op", text "drop".toList), ("coll", text coll)]
  | rename coll to_ dropTarget =>
      [("op", text "rename".toList), ("coll", text coll), ("to", text to_),
        ("dropTarget", .scalar (.boolean dropTarget))]
  | dropDatabase => [("op", text "dropDatabase".toList)]

def Change.toObject (change : Change σ) : JsValue σ := object (change.fields number)

def writeChange (change : Change σ) : Value σ := serialize (change.toObject number)

def text? : Option (JsValue σ) → Option Name
  | some (.scalar (.string s)) => some s
  | _ => none

/-- The value, where `isDocument` holds of it. -/
def document? (value : Option (JsValue σ)) : Option (JsValue σ) := value.filter isDocument

/-- The value, where `isStrings` holds of it. -/
def strings? : Option (JsValue σ) → Option (List Name)
  | some (.array items) => items.mapM fun item => text? (some item)
  | _ => none

def readUpdate (coll : Name) (value : JsValue σ) : Option (Change σ) := do
  let key ← document? (get value "key")
  let set ← document? (get value "set")
  let unset ← strings? (get value "unset")
  let some (.array cuts) := get value "truncated" | none
  let truncated ← cuts.mapM fun cut => do
    let size ← toNumber (get cut "newSize")
    let field ← text? (get cut "field")
    return (field, size)
  return .update coll key set unset truncated

def readPut (op : Put) (coll : Name) (value : JsValue σ) : Option (Change σ) := do
  let key ← document? (get value "key")
  let doc ← document? (get value "doc")
  return .put op coll key doc

/-- The change of a record on a collection, by its `op`. -/
def readOp (op : Option Name) (coll : Name) (value : JsValue σ) : Option (Change σ) :=
  if op = some "insert".toList then readPut .insert coll value
  else if op = some "replace".toList then readPut .replace coll value
  else if op = some "update".toList then readUpdate toNumber coll value
  else if op = some "delete".toList then return .delete coll (← document? (get value "key"))
  else if op = some "create".toList then return .create coll (← document? (get value "options"))
  else if op = some "createIndexes".toList then do
    let some (.array indexes) := get value "indexes" | none
    if indexes.all isDocument then return .createIndexes coll indexes else none
  else if op = some "dropIndexes".toList then
    return .dropIndexes coll (← strings? (get value "names"))
  else if op = some "modify".toList then return .modify coll (← document? (get value "changes"))
  else if op = some "drop".toList then some (.drop coll)
  else if op = some "rename".toList then do
    let to_ ← text? (get value "to")
    let some (.scalar (.boolean dropTarget)) := get value "dropTarget" | none
    return .rename coll to_ dropTarget
  else none

def readObject (value : JsValue σ) : Option (Change σ) :=
  if text? (get value "op") = some "dropDatabase".toList then some .dropDatabase
  else do
    let coll ← text? (get value "coll")
    if coll = [] then none else readOp toNumber (text? (get value "op")) coll value

/-- The change a record holds, if it is one. -/
def readChange (bytes : Value σ) : Option (Change σ) :=
  readObject toNumber (deserialize defines bytes)

/-- What a document change does to its collection, as one bulk operation. -/
inductive Operation (σ : Type) where
  | replaceOne (filter replacement : JsValue σ)
  | deleteOne (filter : JsValue σ)
  | updateOne (filter update : JsValue σ)

/-- The writes one document change makes; of any other change, none. -/
def operationsOf : Change σ → List (Operation σ)
  | .put _ _ key doc => [.replaceOne key doc]
  | .delete _ key => [.deleteOne key]
  | .update _ key set unset truncated =>
      let cuts := truncated.map fun cut =>
        .updateOne key (object [("$push", .object [(cut.1, object [("$each", .array []),
          ("$slice", .scalar (.bson (number cut.2)))])] [] .plain)])
      let sets := match set with
        | .object (_ :: _) _ _ => [("$set", set)]
        | _ => []
      let unsets := if unset = [] then [] else
        [("$unset", .object (unset.foldl (fun own f => setOwn own f (text [])) []) [] .plain)]
      if sets ++ unsets = [] then cuts else cuts ++ [.updateOne key (object (sets ++ unsets))]
  | _ => []

/-- The whole documents that replaying a change record writes, if it is one. -/
def replayed (bytes : Value σ) : Option (List (Value σ)) := do
  let change ← readChange defines toNumber bytes
  return (operationsOf number change).filterMap fun
    | .replaceOne _ replacement => some (serialize replacement)
    | _ => none

end Record

section InsertAll

def BATCH_DOCUMENTS : Nat := 1000
def BATCH_BYTES : Nat := 8 * 1024 * 1024

/-! A restore inserts with `insertMany`, and reads its entry with `read` before each document
and at the end. -/

variable {m : Type → Type} [Monad m] (defines : Bool) (size : Value σ → Nat)
  (insertMany : List (JsValue σ) → m Unit) (read : m Unit)

def flushBatch (batch : List (JsValue σ)) : m Unit :=
  if batch.isEmpty then pure () else insertMany batch

def insertFrom (batch : List (JsValue σ)) (bytes : Nat) : List (Value σ) → m Unit
  | [] => do
      read
      flushBatch insertMany batch
  | raw :: later => do
      read
      let batch := batch ++ [deserialize defines raw]
      let bytes := bytes + size raw
      if batch.length ≥ BATCH_DOCUMENTS ∨ bytes ≥ BATCH_BYTES then
        flushBatch insertMany batch
        insertFrom [] 0 later
      else insertFrom batch bytes later

/-- Inserts an entry's documents into a collection, in batches. -/
def insertAll (entry : List (Value σ)) : m Unit :=
  insertFrom defines size insertMany read [] 0 entry

end InsertAll

/-- The batches inserted from an entry read without a failure. -/
def inserted (defines : Bool) (size : Value σ → Nat) (entry : List (Value σ)) :
    List (List (JsValue σ)) :=
  (StateT.run (insertAll defines size (fun batch => modify (· ++ [batch])) (pure ()) entry :
    StateM (List (List (JsValue σ))) Unit) []).2

end NxgtData.MongoBackup
