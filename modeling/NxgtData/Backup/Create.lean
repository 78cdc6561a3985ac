import Mathlib.Data.List.AList
import NxgtData.Backup.Read
import NxgtData.Lib.Triple

/-!
`create`, which writes one backup to every repository: the entries, the catalog, the
signature, and the manifest last. What a repository, a lease, the source or the staging folder
answers is given; a file of the staging folder is taken to be removed when it is asked to be.
The run's log says what was put in each repository, and how it ended.
-/
namespace NxgtData.Backup
open CodeUnits

/-- A staged file, by what it holds. -/
inductive File where
  /-- An entry's bytes, sealed. -/
  | entry (bytes sealed : Bytes)
  | catalog (catalog : Catalog) (sealed : Bytes)
  /-- Over the bytes of this manifest, with this key. -/
  | signature (manifest : Manifest) (key : String)
  | manifest (manifest : Manifest)
deriving DecidableEq

structure SourceEntry where
  name : Utf16
  fingerprint : Option Utf16
  bytes : Bytes
  /-- What age drew to seal them, or what `open` or `sealToFile` threw. -/
  sealed : Except Failure Nat

/-- What iterating over a source gives next. -/
inductive Step where
  | entry (entry : SourceEntry)
  | throws (error : Failure)

/-- A source's entries, as far as they are ever read. -/
structure Stream where
  steps : List Step
  /-- What it threw when it was left before its end. -/
  left : Option Failure

/-- An entry of the backup built on, and where its object is. -/
structure Known extends Measured where
  fingerprint : Option Utf16
  /-- `in` -/
  held : String
  object : String
deriving DecidableEq

/-- What the source is given of the backup built on. -/
structure Since where
  id : String
  position : Option Utf16
  entries : List (Utf16 × Measured × Option Utf16)

structure BackupSource where
  kind : Utf16
  entries : Option Since → Stream
  position : Except Failure (Option Utf16)
  /-- What age drew to seal the catalog, or what `sealToFile` threw. -/
  catalog : Catalog → Except Failure Nat

structure Base where
  manifest : Manifest
  since : Since
  known : AList fun _ : Utf16 => Known

/-- What a backup that is not full builds on. -/
inductive Chained where
  | incremental
  | differential
deriving DecidableEq

def Chained.kind : Chained → BackupKind
  | incremental => .incremental
  | differential => .differential

structure Context extends Settings where
  sys : System
  repositories : List Repository
  /-- What `mkdtemp` threw. -/
  staging : Option Failure
  /-- What writing a staged file threw, by its key. -/
  write : String → Option Failure
  /-- As `bindBackup` checks. -/
  some : repositories ≠ []
  distinct : (repositories.map Repository.name).Nodup

inductive CreateOptions where
  | full
  /-- `refused` is what `decrypterFor` threw on the identities. -/
  | chained (kind : Chained) (identities : List String) (refused : Option Failure)
      (source : Option String)

def CreateOptions.kind : CreateOptions → BackupKind
  | full => .full
  | chained kind _ _ _ => kind.kind

/-- How one repository took a backup: stored, or the error that stopped it. -/
structure RepositoryOutcome where
  repository : String
  error : Option Failure
deriving DecidableEq

def RepositoryOutcome.stored (outcome : RepositoryOutcome) : Bool := outcome.error.isNone

structure Created where
  id : String
  createdAt : Int
  kind : BackupKind
  parent : Option String
  entries : Nat
  reused : Nat
  size : Nat
  storedSize : Nat
  signed : Bool
  outcomes : List RepositoryOutcome
deriving DecidableEq

/-- What `create` rejects with. -/
inductive Thrown where
  | error (error : Failure)
  /-- The `BackupError` of `settle`. -/
  | unsettled (code : Code) (message : String) (outcomes : List RepositoryOutcome)
deriving DecidableEq

/-- What happened to one repository. -/
inductive Event where
  /-- Its lock was refused. -/
  | refused (repository : String) (error : Failure)
  /-- It does not hold what the backup builds on. -/
  | lacking (repository : String) (error : Failure)
  /-- The lease was not held when a file was to be put. -/
  | lost (repository : String) (number : Nat) (error : Failure)
  | put (repository : String) (number : Nat) (key : String) (file : File) (error : Option Failure)
deriving DecidableEq

namespace Event

def repository : Event → String
  | refused r _ | lacking r _ | lost r _ _ | put r _ _ _ _ => r

/-- What `failed` is told of it. -/
def error : Event → Option Failure
  | refused _ e | lacking _ e | lost _ _ e => some e
  | put _ _ _ _ e => e

def isPut : Event → Bool
  | put .. => true
  | _ => false

end Event

structure Run where
  failed : AList fun _ : String => Failure
  /-- The repositories whose lock it holds. -/
  leases : List String
  log : List Event
  /-- How many files were put. -/
  puts : Nat

def Run.start : Run := ⟨∅, [], [], 0⟩

/-- `failed.set` -/
def noted (failed : AList fun _ : String => Failure) (event : Event) :
    AList fun _ : String => Failure :=
  match event.error with
  | some error => failed.insert event.repository error
  | none => failed

/-- What happened at once in some repositories, in any order. -/
def Run.record (run : Run) (events : List Event) : Run :=
  { run with failed := events.foldl noted run.failed, log := run.log ++ events }

abbrev Making (α : Type) := Program Run Thrown α

open Program

/-- What was thrown, if anything. -/
def check : Option Failure → Making Unit
  | none => pure ()
  | some error => throw (.error error)

/-- What was given, or thrown. -/
def given {α : Type} : Except Failure α → Making α
  | .ok a => pure a
  | .error error => throw (.error error)

/-- The bytes of a staged file. -/
def File.bytes (sys : System) : File → Bytes
  | .entry _ sealed | .catalog _ sealed => sealed
  | .signature signed key => sys.sign key (Utf8.encode signed.text)
  | .manifest written => Utf8.encode written.text

section Creating
variable (ctx : Context) (id : String)

def nowhereLeft (run : Run) : Bool := run.failed.keys.length = ctx.repositories.length

/-- The repositories still in the run. -/
def Run.left (run : Run) : List Repository :=
  ctx.repositories.filter fun repository => repository.name ∉ run.failed

def leaseLost (repository : String) : Failure :=
  .backup .leaseLost (s!"create on \"{ctx.sys.backup}\": the lock's lease ran out before it was " ++
    s!"done (repository \"{repository}\")")

/-- What comes, in one repository, of putting a file. -/
def putOne (run : Run) (key : String) (file : File) (repository : Repository) : Event :=
  if repository.name ∈ run.leases ∧ repository.held run.puts then
    .put repository.name run.puts key file (repository.put run.puts)
  else .lost repository.name run.puts (leaseLost ctx repository.name)

def putAll (key : String) (file : File) : Making Unit := change fun run =>
  { run.record ((run.left ctx).map (putOne ctx run key file)) with puts := run.puts + 1 }

/-- What comes of asking for one repository's lock, when it refuses. -/
def refusal (repository : Repository) : Option Event :=
  repository.locked.map (.refused repository.name)

def lockAll : Making Unit := change fun run =>
  { run.record (ctx.repositories.filterMap refusal) with
    leases := (ctx.repositories.filter fun r => r.locked.isNone).map Repository.name }

/-- The repository to read the base from: the named one, or the first still in the run. -/
def sourceRepository (source : Option String) : Making Repository := do
  let run ← asks fun run : Run => run
  let named : Option Repository := match source with
    | none => (run.left ctx).head?
    | some name => ctx.repositories.find? fun r => r.name = name
  match named with
  | none => throw (.error (.typeError
      s!"create on \"{ctx.sys.backup}\": no repository has that name"))
  | some repository => do
      check (run.failed.lookup repository.name)
      pure repository

/-- The newest of these that reads and that a backup may build on. -/
def newestOf (repository : Repository) (kind : Chained) :
    List String → Except Failure (Option Manifest)
  | [] => .ok none
  | id :: older =>
      match fetchManifest ctx.sys ctx.toSettings ⟨"create", id, repository⟩ with
      | .ok manifest =>
          if kind = .incremental ∨ manifest.kind = .full then .ok (some manifest)
          else newestOf repository kind older
      | .error (.backup _ _) => newestOf repository kind older
      | .error error => .error error

def newestFor (repository : Repository) (kind : Chained) : Except Failure Manifest := do
  let ids ← manifestIds repository
  match ← newestOf ctx repository kind (ids.filter fun i => Less i id).reverse with
  | some manifest => .ok manifest
  | none =>
      let which := if kind = .differential then "full " else ""
      .error (.backup .notFound (s!"create on \"{ctx.sys.backup}\": no {which}backup to build " ++
        s!"on (repository \"{repository.name}\")"))

def sameRecipients (a b : List Utf16) : Bool :=
  a.dedup.length = b.dedup.length && b.all fun r => r ∈ a

/-- The chain of the backup built on, in a repository. -/
def chainIn (manifest : Manifest) (repository : Repository) : Except Failure (List Manifest) := do
  let at_ : At := ⟨"create", manifest.id, repository⟩
  let manifest ← fetchManifest ctx.sys ctx.toSettings at_
  chainOf ctx.sys ctx.toSettings at_ manifest

/-- What comes of looking for the backup built on in another repository, when it is not whole
there. -/
def lack (manifest : Manifest) (repository : Repository) : Option Event :=
  match chainIn ctx manifest repository with
  | .ok _ => none
  | .error (.backup .notFound _) => some (.lacking repository.name
      (failure ctx.sys ⟨"create", id, repository⟩ .notFound
        "the backup it builds on is not in this repository"))
  | .error error => some (.lacking repository.name error)

def requireEverywhere (manifest : Manifest) (source : Repository) : Making Unit :=
  change fun run => run.record
    (((run.left ctx).filter fun r => r.name ≠ source.name).filterMap (lack ctx id manifest))

/-- What a catalog says of its entries, in the manifest's own backup or in another. -/
def knownOf (manifest : Manifest) (catalog : Catalog) : AList fun _ : Utf16 => Known :=
  catalog.entries.foldl (fun known entry => known.insert entry.name
    ⟨entry.toMeasured, entry.fingerprint, entry.held.getD manifest.id, entry.object⟩) ∅

def sinceOf (manifest : Manifest) (catalog : Catalog) : Since where
  id := manifest.id
  position := catalog.position
  entries := catalog.entries.map fun entry =>
    (entry.name, entry.toMeasured, entry.fingerprint)

def baseOf (kind : Chained) (identities : List String) (source : Option String)
    (sourceKind : Utf16) : Making Base := do
  let repository ← sourceRepository ctx source
  let manifest ← given (newestFor ctx id repository kind)
  let at_ : At := ⟨"create", manifest.id, repository⟩
  let _ ← given (chainOf ctx.sys ctx.toSettings at_ manifest)
  check (if sameRecipients manifest.recipients ctx.recipients then none
    else some (.typeError (s!"create on \"{ctx.sys.backup}\": the backup it builds on is " ++
      "encrypted to other recipients; make a full backup first")))
  let catalog ← given (fetchCatalog ctx.sys at_ manifest identities)
  check (if catalog.kind = sourceKind then none
    else some (.typeError (s!"create on \"{ctx.sys.backup}\": the source is not of the kind " ++
      "the backup it builds on was made from")))
  requireEverywhere ctx id manifest repository
  pure ⟨manifest, sinceOf manifest catalog, knownOf manifest catalog⟩

/-- Why the source may not give this entry, after those of these names. -/
def entryProblem (entry : SourceEntry) (names : List Utf16) : Option Failure :=
  if !isEntryName entry.name || entry.name ∈ names then
    some (.typeError (s!"create on \"{ctx.sys.backup}\": the source gave an entry name that is " ++
      "empty, over 4096 characters, holds a NUL, or was given twice"))
  else if !isOptionalText entry.fingerprint FINGERPRINT_MAX then
    some (.typeError (s!"create on \"{ctx.sys.backup}\": the source gave a fingerprint that is " ++
      "not a string of at most 1024 bytes"))
  else none

def checkEntry (entry : SourceEntry) (names : List Utf16) : Making Unit :=
  check (entryProblem ctx entry names)

/-- An entry pointing to the object the backup built on already has. -/
def pointer (entry : SourceEntry) (known : Known) : CatalogEntry :=
  { known.toMeasured with
    name := entry.name, object := known.object, held := some known.held
    fingerprint := entry.fingerprint }

/-- What `sealToFile` writes, with what age drew. -/
def sealed (bytes : Bytes) (draw : Nat) : Bytes := ctx.sys.encrypt ctx.recipients draw bytes

def storeOne (entry : SourceEntry) (key : String) (known : Option Known) :
    Making (CatalogEntry × Option StoredObject) := do
  let draw ← given entry.sealed
  match known.filter fun known => known.sha256 = ctx.sys.sha256 entry.bytes with
  | some known => pure (pointer entry known, none)
  | none => do
      let file := sealed ctx entry.bytes draw
      putAll ctx key (.entry entry.bytes file)
      pure ({ ctx.sys.measure entry.bytes with
          name := entry.name, object := key, held := none, fingerprint := entry.fingerprint },
        some { ctx.sys.measure file with key })

structure Stored where
  entries : List CatalogEntry := []
  objects : List StoredObject := []
  reused : Nat := 0
  position : Option Utf16 := none

/-- With one entry more, and its object if it has one of its own. -/
def Stored.add (stored : Stored) (one : CatalogEntry × Option StoredObject) : Stored :=
  { stored with
    entries := stored.entries ++ [one.1]
    objects := stored.objects ++ one.2.toList
    reused := if one.2.isSome then stored.reused else stored.reused + 1 }

/-- The loop of `storeEntries`. -/
def storeSteps (base : Option Base) (left : Option Failure) : List Step → Stored → Making Stored
  | [], stored => pure stored
  | .throws error :: _, _ => throw (.error error)
  | .entry entry :: rest, stored => do
      checkEntry ctx entry (stored.entries.map CatalogEntry.name)
      let known := base.bind fun base => base.known.lookup entry.name
      match known.filter fun known =>
          entry.fingerprint.isSome && entry.fingerprint = known.fingerprint with
      | some known => storeSteps base left rest (stored.add (pointer entry known, none))
      | none => do
          let one ← storeOne ctx entry (objectKey stored.objects.length) known
          if ← asks (nowhereLeft ctx) then do
            check left
            pure (stored.add one)
          else storeSteps base left rest (stored.add one)

def storeEntries (source : BackupSource) (base : Option Base) : Making Stored := do
  let stream := source.entries (base.map Base.since)
  let stored ← storeSteps ctx base stream.left stream.steps {}
  let position ← given source.position
  check (if isOptionalText position POSITION_MAX then none
    else some (.typeError (s!"create on \"{ctx.sys.backup}\": the source gave a position that " ++
      "is not a string of at most 64 KiB")))
  pure { stored with position }

/-- `store`, of the catalog. -/
def storeCatalog (source : BackupSource) (catalog : Catalog) : Making StoredObject := do
  let draw ← given (source.catalog catalog)
  let file := sealed ctx (Utf8.encode catalog.text) draw
  putAll ctx "catalog.age" (.catalog catalog file)
  pure { ctx.sys.measure file with key := "catalog.age" }

def outcomesOf (run : Run) : List RepositoryOutcome :=
  ctx.repositories.map fun repository => ⟨repository.name, run.failed.lookup repository.name⟩

def settle (created : Created) : Making Created :=
  let stored := (created.outcomes.filter RepositoryOutcome.stored).length
  if stored = created.outcomes.length then pure created
  else throw (.unsettled (if stored = 0 then .notStored else .inPart)
    (s!"create on \"{ctx.sys.backup}\": stored in {stored} of {created.outcomes.length} " ++
      "repositories")
    created.outcomes)

/-- The signature of a manifest, when there is a key to sign with. -/
def putSignature (manifest : Manifest) : Making Unit :=
  match ctx.signer with
  | none => pure ()
  | some key => do
      check (ctx.write SIGNATURE)
      putAll ctx SIGNATURE (.signature manifest key)

/-- Why this manifest may not be written: it could not be read back. -/
@[irreducible] def manifestProblem (manifest : Manifest) : Option Failure :=
  if (Utf8.encode manifest.text).length ≤ MANIFEST_MAX_BYTES then none
  else some (.typeError (s!"create on \"{ctx.sys.backup}\": the manifest would be larger than " ++
    "64 MiB; split the source into several backups"))

def putManifest (manifest : Manifest) : Making Unit := do
  check (manifestProblem ctx manifest)
  check (ctx.write MANIFEST)
  putSignature ctx manifest
  putAll ctx MANIFEST (.manifest manifest)

def finish (kind : BackupKind) (source : BackupSource) (at_ : Moment) (stored : Stored)
    (base : Option Base) : Making Created := do
  let catalog ← storeCatalog ctx source ⟨source.kind, stored.entries, stored.position⟩
  let parent := base.map fun base => base.manifest.id
  putManifest ctx ⟨ctx.sys.backup, id, at_.time, kind, parent, ctx.recipients, catalog,
    stored.objects⟩
  let outcomes ← asks (outcomesOf ctx)
  settle ctx ⟨id, at_.time, kind, parent, stored.entries.length, stored.reused,
    (stored.entries.map fun entry => entry.size).sum,
    ((stored.objects ++ [catalog]).map fun object => object.size).sum, ctx.signer.isSome, outcomes⟩

/-- What a backup that is not full builds on, unless no repository is left to hold it. -/
def findBase (options : CreateOptions) (sourceKind : Utf16) : Making (Option Base) := do
  match options with
  | .full => pure none
  | .chained kind identities _ source =>
      if ← asks (nowhereLeft ctx) then pure none
      else some <$> baseOf ctx id kind identities source sourceKind

/-- What is stored, unless no repository is left to store it in. -/
def gather (source : BackupSource) (base : Option Base) : Making Stored := do
  if ← asks (nowhereLeft ctx) then pure {} else storeEntries ctx source base

end Creating

/-- `createBackup`. The locks are released after it, whatever it did, and nothing comes of how
that goes. -/
def createBackup (ctx : Context) (source : BackupSource) (options : CreateOptions)
    (at_ : Moment) : Making Created := do
  check (if ctx.trusted ≠ [] ∧ ctx.signer = none then
    some (.typeError (s!"create on \"{ctx.sys.backup}\": trusted keys are set but no signing " ++
      "key, so this backup could not read what it writes")) else none)
  check (match options with
    | .full => none
    | .chained _ _ refused _ => refused)
  check ctx.staging
  let id := newBackupId at_
  lockAll ctx
  let base ← findBase ctx id options source.kind
  let stored ← gather ctx source base
  if ← asks (nowhereLeft ctx) then
    let outcomes ← asks (outcomesOf ctx)
    settle ctx ⟨id, at_.time, options.kind, base.map fun base => base.manifest.id,
      stored.entries.length, 0, 0, 0, false, outcomes⟩
  else finish ctx id options.kind source at_ stored base

end NxgtData.Backup
