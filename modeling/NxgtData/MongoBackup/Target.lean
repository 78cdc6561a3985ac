import NxgtData.MongoBackup.Record
import NxgtData.Lib.Triple
import Mathlib.Logic.Function.Basic

/-!
A restore into a database, call by call. The database is what each name of it holds, and
every call to the server may fail, before it takes effect or after, or be the last of the
process.
-/
namespace NxgtData.MongoBackup
open Bson

variable {σ : Type}

inductive Error where
  /-- `EXISTS` -/
  | taken
  | malformed
  | namespaceExists
  | namespaceNotFound
  | indexNotFound
  | other
deriving DecidableEq

/-- What a name of the database holds. -/
inductive Item (σ : Type) where
  | collection (options : JsValue σ) (indexes : List (JsValue σ)) (documents : List (Value σ))
  | view (options : JsValue σ)

abbrev Db (σ : Type) := Name → Option (Item σ)

/-- A command on one collection or view. -/
inductive Write (σ : Type) where
  | insertMany (docs : List (JsValue σ))
  | bulkWrite (ops : List (Operation σ))
  | createIndexes (indexes : List (JsValue σ))
  | dropIndex (name : Name)
  | collMod (changes : JsValue σ)

/-- The server: the options it creates with, and what a command makes of the one name it is
about, failing or not. No command removes what is there. -/
structure Server (σ : Type) where
  accepts : JsValue σ → Bool
  write : Write σ → Option (Item σ) → Except Error Unit × Option (Item σ)
  keeps : ∀ w item, (write w (some item)).2.isSome

structure Target (σ : Type) where
  db : Db σ
  metadata : List (Name × Metadata σ) := []
  /-- How many staging names were drawn. -/
  staged : Nat := 0
  /-- Whether the database was dropped. -/
  dropped : Bool := false

inductive Fault where
  | none
  | fails (applied : Bool)
  | stops

structure World (σ : Type) where
  target : Target σ
  faults : List Fault
  stopped : Bool := false

abbrev Restore (σ α : Type) := Program (World σ) Error α

/-- A call, which may fail instead of being answered. -/
def call {α : Type} (effect : Target σ → Except Error α × Target σ) : Restore σ α :=
  ExceptT.mk fun w =>
    if w.stopped then (.error .other, w)
    else match w.faults with
      | [] => ((effect w.target).1, { w with target := (effect w.target).2 })
      | .none :: later =>
          ((effect w.target).1, { w with target := (effect w.target).2, faults := later })
      | .fails false :: later => (.error .other, { w with faults := later })
      | .fails true :: later =>
          (.error .other, { w with target := (effect w.target).2, faults := later })
      | .stops :: later => (.error .other, { w with faults := later, stopped := true })

/-- Reading on of an entry's stream. -/
def read : Restore σ Unit := call fun t => (.ok (), t)

section Calls
variable (server : Server σ)

def exists_ (name : Name) : Restore σ Bool := call fun t => (.ok (t.db name).isSome, t)

def isView (name : Name) : Restore σ Bool := call fun t =>
  (.ok (match t.db name with
    | some (.view _) => true
    | _ => false), t)

/-- `createCollection`, of a view if the options have `viewOn`. -/
def createCollection (name : Name) (options : JsValue σ) : Restore σ Unit := call fun t =>
  if (t.db name).isSome then (.error .namespaceExists, t)
  else if server.accepts options then
    let item := if (get options "viewOn").isSome then .view options
      else .collection options [] []
    (.ok (), { t with db := Function.update t.db name (some item) })
  else (.error .other, t)

def write (name : Name) (w : Write σ) : Restore σ Unit := call fun t =>
  ((server.write w (t.db name)).1,
    { t with db := Function.update t.db name (server.write w (t.db name)).2 })

def moved (db : Db σ) (from_ to_ : Name) (item : Item σ) : Db σ :=
  Function.update (Function.update db from_ none) to_ (some item)

/-- `renameCollection`: over a collection with `dropTarget`, over a view never. -/
def rename (from_ to_ : Name) (dropTarget : Bool) : Restore σ Unit := call fun t =>
  match t.db from_, t.db to_ with
  | none, _ => (.error .namespaceNotFound, t)
  | some (.view _), _ => (.error .other, t)
  | some (.collection ..), some (.view _) => (.error .namespaceExists, t)
  | some (.collection o i d), some (.collection ..) =>
      if from_ = to_ then (.error .other, t)
      else if dropTarget then
        (.ok (), { t with db := moved t.db from_ to_ (.collection o i d) })
      else (.error .namespaceExists, t)
  | some (.collection o i d), none =>
      (.ok (), { t with db := moved t.db from_ to_ (.collection o i d) })

def dropCollection (name : Name) : Restore σ Unit := call fun t =>
  if (t.db name).isSome then (.ok (), { t with db := Function.update t.db name none })
  else (.error .namespaceNotFound, t)

def dropDatabase : Restore σ Unit := call fun t =>
  (.ok (), { t with db := fun _ => none, dropped := true })

/-- `.catch(ignoring(...codes))` -/
def ignoring (codes : List Error) (m : Restore σ Unit) : Restore σ Unit :=
  tryCatch m fun error => if error ∈ codes then pure () else throw error

def dropIfThere (name : Name) : Restore σ Unit :=
  ignoring [.namespaceNotFound] (dropCollection name)

end Calls

section Restores
variable (server : Server σ) (defines : Bool) (size : Value σ → Nat) (number : Int → σ)
  (toNumber : Option (JsValue σ) → Option Int) (staging : Nat → Name) (replace : Bool)

/-- A view, created from its metadata: in place of one there, with `replace`. -/
def restoreView (name : Name) (metadata : Metadata σ) : Restore σ Unit := do
  if ← exists_ name then
    if !replace then throw .taken
    dropIfThere name
  createCollection server name metadata.options

/-- A fresh `nxgt-restore-<uuid>`. -/
def freshStaging : Restore σ Name := call fun t =>
  (.ok (staging t.staged), { t with staged := t.staged + 1 })

/-- The collection made apart, filled, indexed and renamed into place. -/
def landCollection (apart name : Name) (metadata : Metadata σ) (raws : List (Value σ)) :
    Restore σ Unit := do
  createCollection server apart metadata.options
  insertAll defines size (fun batch => write server apart (.insertMany batch)) read raws
  if metadata.indexes.length > 0 then
    write server apart (.createIndexes metadata.indexes)
  if replace then
    if ← isView name then dropIfThere name
  tryCatch (rename apart name replace) fun error =>
    throw (if error = .namespaceExists then .taken else error)

/-- One collection, landed whole or not at all. -/
def restoreCollection (name : Name) (metadata : Metadata σ) (raws : List (Value σ)) :
    Restore σ Unit := do
  if !replace then
    if ← exists_ name then throw .taken
  let apart ← freshStaging staging
  tryCatch (landCollection server defines size replace apart name metadata raws) fun error => do
    tryCatch (dropIfThere apart) fun _ => pure ()
    throw error

/-- A change to a collection itself, or to the database. -/
def applyToCollection : Change σ → Restore σ Unit
  | .create coll options => do
      if ← exists_ coll then
        if !replace then throw .taken
        dropIfThere coll
      createCollection server coll options
  | .createIndexes coll indexes => write server coll (.createIndexes indexes)
  | .dropIndexes coll names => names.forM fun name =>
      ignoring [.indexNotFound, .namespaceNotFound] (write server coll (.dropIndex name))
  | .modify coll changes => ignoring [.namespaceNotFound] (write server coll (.collMod changes))
  | .drop coll => dropIfThere coll
  | .rename coll to_ dropTarget =>
      tryCatch (rename coll to_ (dropTarget || replace)) fun error =>
        if error = .namespaceExists then throw .taken
        else if error = .namespaceNotFound then pure () else throw error
  | .dropDatabase => dropDatabase
  | .put .. | .update .. | .delete .. => pure ()

def BATCH : Nat := 1000

/-- The collection of a change to a document. -/
def Change.document : Change σ → Option Name
  | put _ coll _ _ | update coll _ _ _ _ | delete coll _ => some coll
  | _ => none

def flushWrites (coll : Name) (pending : List (Operation σ)) : Restore σ Unit :=
  if pending.isEmpty then pure () else write server coll (.bulkWrite pending)

/-- The changes of a staged file from a record on, with the writes pending on `coll`. -/
def applyRecords (coll : Name) (pending : List (Operation σ)) :
    List (Value σ) → Restore σ Unit
  | [] => do
      read
      flushWrites server coll pending
  | bytes :: later => do
      read
      match readChange defines toNumber bytes with
      | none => throw .malformed
      | some change =>
          match change.document with
          | none => do
              flushWrites server coll pending
              applyToCollection server replace change
              applyRecords coll [] later
          | some coll' =>
              if coll' ≠ coll ∨ pending.length ≥ BATCH then do
                flushWrites server coll pending
                applyRecords coll' (operationsOf number change) later
              else applyRecords coll' (pending ++ operationsOf number change) later

/-- A `changes/<n>` entry, applied once its stream has ended cleanly. -/
def restoreChanges (records : List (Value σ)) : Restore σ Unit := do
  read
  applyRecords server defines number toNumber replace [] [] records

/-- `mongoTarget`'s `write`. -/
def writeEntry : Entry σ → Restore σ Unit
  | .changes records => restoreChanges server defines number toNumber replace records
  | .metadata coll metadata => do
      read
      call fun t => (.ok (), { t with metadata := (coll, metadata) :: t.metadata })
      if metadata.type = .view then restoreView server replace coll metadata
  | .documents coll raws => do
      let known ← call fun t => (.ok (t.metadata.find? (·.1 = coll)), t)
      match known with
      | none => throw .malformed
      | some (_, metadata) =>
          restoreCollection server defines size staging replace coll metadata raws

/-- A restore of a backup's entries, which stops at its first error. -/
def restore (entries : List (Entry σ)) : Restore σ Unit :=
  entries.forM (writeEntry server defines size number toNumber staging replace)

end Restores

end NxgtData.MongoBackup
