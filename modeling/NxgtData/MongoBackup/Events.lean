import NxgtData.MongoBackup.Change
import Mathlib.Data.Finset.SDiff
import Mathlib.Data.Finset.Erase
import Mathlib.Data.Finset.Insert

/-!
What an incremental backup records of a change stream: the change each event is, and the
names it follows, brought up to date event by event and carried from one backup to the
next as a difference from the full one.
-/
namespace NxgtData.MongoBackup
open Bson

variable {σ : Type}

inductive CollectionFilter where
  | names (list : List Name)
  | test (f : Name → Bool)

/-- Whether `name` is one the filter takes; `system.*` never is. -/
def takes (filter : Option CollectionFilter) (name : Name) : Bool :=
  if "system.".toList.isPrefixOf name then false
  else match filter with
    | none => true
    | some (.test f) => f name
    | some (.names list) => list.contains name

inductive OperationType where
  | insert | replace | update | delete
  | create | createIndexes | dropIndexes | modify | drop | rename
  | dropDatabase | invalidate
deriving DecidableEq

inductive NsType where
  | collection | view | timeseries
deriving DecidableEq

structure UpdateDescription (σ : Type) where
  updatedFields : Option (JsValue σ) := none
  removedFields : Option (List Name) := none
  truncatedArrays : Option (List (Name × Int)) := none
  disambiguatedPaths : Option (JsValue σ) := none

/-- A change-stream event: the fields read from it. -/
structure Event (σ : Type) where
  operationType : OperationType
  clusterTime : Nat := 0
  coll : Option Name := none
  nsType : Option NsType := none
  documentKey : Option (JsValue σ) := none
  fullDocument : Option (JsValue σ) := none
  /-- Where a rename goes: a database and a name in it. -/
  to_ : Option (Name × Name) := none
  updateDescription : Option (UpdateDescription σ) := none
  operationDescription : Option (JsValue σ) := none

/-- `UNSUPPORTED`, or what reading an ill-formed event throws. -/
inductive Refusal where
  | unsupported | typeError
deriving DecidableEq

def emptyObject : JsValue σ := object []

/-- `Object.keys(value).length > 0`. -/
def hasKeys : JsValue σ → Bool
  | .object (_ :: _) _ _ => true
  | _ => false

/-- `const { a, b, ...rest } = value`, of an object. -/
def rest (removed : List String) : JsValue σ → JsValue σ
  | .object own _ _ =>
      .object (own.filter fun f => !(removed.map String.toList).contains f.1) [] .plain
  | _ => emptyObject

/-- `value[name] ?? []`, which must be an array to be mapped. -/
def itemsOf (value : JsValue σ) (name : String) : Except Refusal (List (JsValue σ)) :=
  match get value name with
  | none | some (.scalar .null) => .ok []
  | some (.array items) => .ok items
  | some _ => .error .typeError

/-- The update an event records: its post-image if it has one, its description otherwise. -/
def updateOf (event : Event σ) (coll : Name) (key : JsValue σ) : Except Refusal (Change σ) :=
  match event.fullDocument with
  | some doc => .ok (.put .replace coll key doc)
  | none =>
      let update := event.updateDescription.getD {}
      if hasKeys (update.disambiguatedPaths.getD emptyObject) then .error .unsupported
      else .ok (.update coll key (update.updatedFields.getD emptyObject)
        (update.removedFields.getD []) (update.truncatedArrays.getD []))

/-- A change to a collection itself, from its expanded event. -/
def ddlOf (event : Event σ) (coll db : Name) : Except Refusal (Option (Change σ)) :=
  let described := event.operationDescription.getD emptyObject
  match event.operationType with
  | .create =>
      if event.nsType = some .timeseries then .error .unsupported
      else .ok (some (.create coll (rest ["idIndex"] described)))
  | .createIndexes =>
      return some (.createIndexes coll ((← itemsOf described "indexes").map (rest ["v", "ns"])))
  | .dropIndexes =>
      return some (.dropIndexes coll ((← itemsOf described "indexes").map fun index =>
        (text? (get index "name")).getD "undefined".toList))
  | .modify => .ok (some (.modify coll described))
  | .drop => .ok (some (.drop coll))
  | .rename =>
      match event.to_ with
      | some (db', to_) =>
          if db' = db then
            .ok (some (.rename coll to_ (get described "dropTarget").isSome))
          else .ok (some (.drop coll))
      | none => .ok (some (.drop coll))
  | _ => .ok none

/-- The change an event records, or nothing when it is not one to keep. -/
def changeOf (event : Event σ) (db : Name) : Except Refusal (Option (Change σ)) :=
  let coll := event.coll.getD []
  let key := event.documentKey.getD emptyObject
  match event.operationType with
  | .insert => .ok (some (.put .insert coll key (event.fullDocument.getD emptyObject)))
  | .replace => .ok (some (.put .replace coll key (event.fullDocument.getD emptyObject)))
  | .update => some <$> updateOf event coll key
  | .delete => .ok (some (.delete coll key))
  | .dropDatabase => .ok (some .dropDatabase)
  | _ => ddlOf event coll db

section Followed
variable (filter : Option CollectionFilter) (held : Finset Name)

/-- Whether an event is passed over before it is translated. -/
def passedOver (event : Event σ) : Bool :=
  match event.coll with
  | none => false
  | some coll =>
      if event.operationType = .rename then false
      else if event.operationType = .create then !takes filter coll
      else decide (coll ∉ held)

def renamed (coll to_ : Name) (dropTarget : Bool) :
    Except Refusal (Option (Change σ) × Finset Name) :=
  if coll ∈ held then
    if takes filter to_ then
      .ok (some (.rename coll to_ dropTarget), insert to_ (held.erase coll))
    else .ok (some (.drop coll), held.erase coll)
  else if takes filter to_ then .error .unsupported
  else .ok (none, held)

/-- The change as the backup keeps it, and the names it follows brought up to date. -/
def followed (change : Change σ) : Except Refusal (Option (Change σ) × Finset Name) :=
  match change with
  | .dropDatabase => .ok (some change, ∅)
  | .create coll _ => .ok (some change, insert coll held)
  | .drop coll => .ok (some change, held.erase coll)
  | .rename coll to_ dropTarget => renamed filter held coll to_ dropTarget
  | _ => .ok (some change, held)

/-- What is kept of an event that is not passed over. -/
def recorded (db : Name) (event : Event σ) :
    Except Refusal (Option (Change σ) × Finset Name) := do
  match ← changeOf event db with
  | some change => followed filter held change
  | none => return (none, held)

end Followed

/-- Where a backup's change stream stopped, and how the names it follows differ from those
of the full backup. -/
structure Position where
  resume : Nat
  added : Finset Name := ∅
  removed : Finset Name := ∅

def followedFrom (full : Finset Name) (position : Position) : Finset Name :=
  (full ∪ position.added) \ position.removed

def differenceOf (full held : Finset Name) (resume : Nat) : Position :=
  { resume, added := held \ full, removed := full \ held }

theorem followedFrom_differenceOf (full held : Finset Name) (resume : Nat) :
    followedFrom full (differenceOf full held resume) = held := by
  ext name
  simp only [followedFrom, differenceOf, Finset.mem_sdiff, Finset.mem_union, not_and, not_not]
  constructor
  · rintro ⟨there | ⟨there, -⟩, kept⟩
    · exact kept there
    · exact there
  · intro there
    by_cases mem : name ∈ full
    · exact ⟨.inl mem, fun _ => there⟩
    · exact ⟨.inr ⟨there, mem⟩, fun mem' => absurd mem' mem⟩

/-- What a change stream gives of `events`, up to `until`: the changes, the names followed
after them, and how many events were read. -/
def changesOf (filter : Option CollectionFilter) (db : Name) (until_ : Nat)
    (held : Finset Name) :
    List (Event σ) → Except Refusal (List (Change σ) × Finset Name × Nat)
  | [] => .ok ([], held, 0)
  | event :: rest =>
      if event.operationType = .invalidate then .ok ([], held, 1)
      else if event.clusterTime > until_ then .ok ([], held, 0)
      else if passedOver filter held event then do
        let (changes, held, read) ← changesOf filter db until_ held rest
        return (changes, held, read + 1)
      else do
        let (kept, held) ← recorded filter held db event
        let (changes, held, read) ← changesOf filter db until_ held rest
        return (kept.toList ++ changes, held, read + 1)

end NxgtData.MongoBackup
