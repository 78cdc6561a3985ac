import NxgtData.MongoSync.Stable
import NxgtData.MongoSync.Options

/-!
`syncCollection`: the collection as the server has it, what each step of a sync reads of it
and sends, and the report. What the server makes of an option or an index it is sent is
taken from it; a call that it refuses ends the sync.
-/
namespace NxgtData.MongoSync
open Bson CollectionOption

/-- A collection as the server has it. Its indexes have distinct names. -/
structure Live where
  options : Reported
  validation : LiveValidation
  indexes : List Index

inductive Command
  | createCollection
  /-- `collMod` of the options. -/
  | writeOptions
  /-- `collMod` of the validator. -/
  | writeValidation
  | dropIndex (name : Name)
  | createIndexes (names : List Name)

structure Server extends IndexServer where
  /-- An option as it is read back once it was written. -/
  readOption : CollectionOption → Json → Option Json
  /-- What an option not asked for is read back as, in a collection created so. -/
  fill : MongoCollectionOptions → CollectionOption → Option Json
  /-- The indexes a collection is created with. -/
  initial : MongoCollectionOptions → List Index
  /-- Whether an index asked for is the one there under its name, so that nothing is done. -/
  identical : Index → Index → Bool
  refuses : Command → Option Live → Bool

structure Definition where
  options : MongoCollectionOptions
  level : ValidationLevel
  action : ValidationAction
  /-- The fields `toMongoJsonSchema` makes of the schema. -/
  jsonSchema : List Field
  indexes : List Index

structure SyncOptions where
  dryRun : Bool := false
  dropUnknownIndexes : Bool := false

inductive ValidatorOutcome
  | unchanged | created | updated | removed
  deriving DecidableEq

structure OptionsReport where
  changed : List CollectionOption := []
  immutable : List OptionMismatch := []

structure IndexesReport where
  created : List Name
  recreated : List Name
  dropped : List Name
  unchanged : List Name
  deriving DecidableEq

structure SyncReport where
  created : Bool
  validator : ValidatorOutcome
  options : OptionsReport
  indexes : IndexesReport
  dryRun : Bool

/-- The collection, if there is one, and what the sync has sent. -/
structure World where
  collection : Option Live
  sent : List Command := []

def validationFor (definition : Definition) : WantedValidation where
  validator :=
    if definition.level = .off then none
    else some [("$jsonSchema".toList, .document definition.jsonSchema)]
  level := definition.level
  action := definition.action

section Server
variable (server : Server)

/-- A command, unless the server refuses it. -/
def send (command : Command) (world : World) : Option World :=
  if server.refuses command world.collection then none
  else some { world with sent := world.sent ++ [command] }

/-- The collection the server creates for a definition. -/
def createdFor (definition : Definition) : Live where
  options option :=
    match option.of definition.options with
    | some want => server.readOption option want
    | none => server.fill definition.options option
  validation :=
    match (validationFor definition).validator with
    | some validator => ⟨some validator, some definition.level, some definition.action⟩
    | none => {}
  indexes := server.initial definition.options

/-- Creates the collection, unless a rival created it first. Answers what is there then. -/
def createCollection (definition : Definition) (rival : Option Live) (world : World) :
    Option (Option Live × World) :=
  match rival with
  | some theirs => some (theirs, ⟨theirs, world.sent ++ [.createCollection]⟩)
  | none => (send server .createCollection world).map fun world =>
      (none, { world with collection := some (createdFor server definition) })

/-- `collMod`: each option it is sent is read back as the server keeps it. -/
def modified (live : Live) (command : CollectionOption → Option Json) : Live :=
  { live with options := fun option =>
      match command option with
      | some want => server.readOption option want
      | none => live.options option }

/-- Throws on a difference MongoDB cannot change, before writing anything. -/
def applyOptions (definition : Definition) (dryRun : Bool) (live : Option Live) (world : World) :
    Option (OptionsReport × World) :=
  let mismatches := match live with
    | some live => diffCollectionOptions definition.options live.options
    | none => []
  let immutable := mismatches.filter (!·.mutable)
  let changed := (mismatches.filter (·.mutable)).map (·.option)
  if !immutable.isEmpty && !dryRun then none
  else if !changed.isEmpty && !dryRun then
    (send server .writeOptions world).map fun world =>
      (⟨changed, []⟩, { world with
        collection := world.collection.map (modified server · (collModForOptions mismatches)) })
  else some (⟨changed, if dryRun then immutable else []⟩, world)

/-- What `collMod` leaves of a validation: an empty validator is none, and leaves the level and
the action behind. -/
def validated (wanted : WantedValidation) (live : Live) : Live :=
  { live with validation :=
      match wanted.validator with
      | some validator => ⟨some validator, some wanted.level, some wanted.action⟩
      | none => { live.validation with validator := none } }

def applyValidation (wanted : WantedValidation) (dryRun : Bool) (live : Option Live)
    (world : World) : Option (Option ValidatorOutcome × World) :=
  match live with
  | none => some (none, world)
  | some live =>
      if validationMatches wanted live.validation then some (none, world)
      else
        let outcome : ValidatorOutcome :=
          if wanted.validator = none then .removed
          else if hasValidator live.validation then .updated
          else .created
        if dryRun then some (outcome, world)
        else (send server .writeValidation world).map fun world =>
          (outcome, { world with collection := world.collection.map (validated wanted) })

def dropIndex (name : Name) (indexes : List Index) : Option (List Index) :=
  if name = idIndex || (byName indexes name).isNone then none
  else some (indexes.filter (·.nameOf ≠ name))

/-- An index asked for under a name that is there is the same one, or an error. -/
def createIndex (default_ : Option Json) (index : Index) (indexes : List Index) :
    Option (List Index) :=
  match byName indexes index.nameOf with
  | some existing => if server.identical index existing then some indexes else none
  | none => some (indexes ++ [readBack server.toIndexServer default_ index])

def eachIndex {α : Type} (f : α → List Index → Option (List Index)) :
    List α → List Index → Option (List Index)
  | [], indexes => some indexes
  | a :: rest, indexes => (f a indexes).bind (eachIndex f rest)

/-- A change of the indexes of the collection that is there. -/
def onIndexes (change : Live → Option (List Index)) (world : World) : Option World :=
  match world.collection with
  | none => none
  | some live => (change live).map fun indexes =>
      { world with collection := some { live with indexes } }

def dropIndexes : List Name → World → Option World
  | [], world => some world
  | name :: rest, world =>
      ((send server (.dropIndex name) world).bind
        (onIndexes fun live => dropIndex name live.indexes)).bind (dropIndexes rest)

def createIndexes (build : List Index) (world : World) : Option World :=
  if build.isEmpty then some world
  else (send server (.createIndexes (build.map Index.nameOf)) world).bind
    (onIndexes fun live =>
      eachIndex (createIndex server (live.options .collation)) build live.indexes)

def liveIndexes (world : World) : List Index :=
  match world.collection with
  | some live => live.indexes
  | none => []

/-- Creates the missing indexes, and rebuilds those whose options changed. -/
def applyIndexes (definition : Definition) (options : SyncOptions) (created : Bool)
    (world : World) : Option (IndexesReport × World) :=
  let existing := if options.dryRun && created then [] else liveIndexes world
  let diff := diffIndexes definition.indexes existing
  let dropped := if options.dropUnknownIndexes then diff.extra else []
  let recreated := diff.recreate.map Index.nameOf
  let report : IndexesReport :=
    ⟨diff.create.map Index.nameOf, recreated, dropped, diff.unchanged⟩
  if options.dryRun then some (report, world)
  else ((dropIndexes server (recreated ++ dropped) world).bind
    (createIndexes server (diff.create ++ diff.recreate))).map fun world => (report, world)

/-- The live options, after the collection was created if there was none. -/
def findOrCreate (definition : Definition) (dryRun : Bool) (rival start : Option Live) :
    Option (Option Live × World) :=
  if start.isNone && !dryRun then createCollection server definition rival ⟨start, []⟩
  else some (start, ⟨start, []⟩)

/-- Brings a collection in line with its definition. `rival` is the collection another sync
creates between the lookup and the creation, if one does. -/
def syncCollection (definition : Definition) (options : SyncOptions) (rival : Option Live)
    (start : Option Live) : Option (SyncReport × World) := do
  let wanted := validationFor definition
  let (live, world) ← findOrCreate server definition options.dryRun rival start
  let created := live.isNone
  let (optionsReport, world) ← applyOptions server definition options.dryRun live world
  let (outcome, world) ← applyValidation server wanted options.dryRun live world
  let (indexes, world) ← applyIndexes server definition options created world
  return (
    { created
      validator := outcome.getD
        (if created && wanted.validator.isSome then .created else .unchanged)
      options := optionsReport
      indexes
      dryRun := options.dryRun }, world)

end Server

end NxgtData.MongoSync
