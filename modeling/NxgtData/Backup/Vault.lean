import NxgtData.Backup.Origin
import NxgtData.Backup.Prune

/-!
Repositories over whole runs: creates, prunes, holds and their lifting, one after another as the
locks make them, with any faults and each cut anywhere. A manifest that is in a repository is one
that a create put there, with all of its files and the manifest of what it builds on.
-/
namespace NxgtData.Backup
open Checked CodeUnits IsoDate JsonText

/-- What a repository holds under `<backup>/`, but for its lock. -/
abbrev Vault := AList fun _ : String × String => Bytes

/-- What fails in a repository during one operation. -/
structure Faults where
  list : Option String
  get : String → String → Option String
  locked : Option Failure
  held : Nat → Bool
  put : Nat → Option Failure

/-- A fault if there is one, or the answer. -/
def orFault {α : Type} (fault : Option String) (answer : α) : Except Failure α :=
  fault.elim (.ok answer) fun why => .error (.other why)

def Vault.repository (vault : Vault) (name : String) (faults : Faults) : Repository where
  name := name
  list := orFault faults.list vault.keys
  get folder key := orFault (faults.get folder key) (vault.lookup (folder, key))
  locked := faults.locked
  held := faults.held
  put := faults.put

abbrev World := String → Vault

section Acts
variable (sys : System)

/-- A run of `create`, whose process may end after any put. -/
structure Creation where
  settings : Settings
  repositories : List (String × Faults)
  source : BackupSource
  options : CreateOptions
  at_ : Moment
  staging : Option Failure
  write : String → Option Failure
  /-- How many puts were done in a repository. -/
  cut : String → Nat
  given : repositories ≠ []
  distinct : (repositories.map Prod.fst).Nodup
  stamped : Stamped at_.time
  fits : Fits sys settings.recipients source

/-- A run of `prune` in one repository, in which this many deletes were done. -/
structure Pruning where
  settings : Settings
  name : String
  faults : Faults
  met : Conditions
  options : PruneOptions
  cut : Nat

/-- A run of `hold` or of `unhold`. -/
structure Holding where
  settings : Settings
  repositories : List (String × Faults)
  id : String
  heldAt : Int
  /-- What writing the record threw. -/
  write : String → Option Failure
  /-- Whether what was asked of a repository was done. -/
  done : String → Bool

inductive Act where
  | create (creation : Creation sys)
  | prune (pruning : Pruning)
  | hold (holding : Holding)
  | unhold (holding : Holding)

end Acts

section Holds
variable (sys : System) (settings : Settings) (id : String)

def HOLD_FORMAT : String := "nxgt-backup-hold/1"

/-- `holdKey`, under `<backup>/`. -/
def holdKey : String × String := (HOLDS, id ++ ".json")

def holdText (heldAt : Int) : String :=
  stringify false (.obj [("format", .text HOLD_FORMAT), ("id", .text id),
    ("heldAt", .text (toISOString heldAt))]) ++ "\n"

/-- Whether the hold was asked of the repository, and what came of it. -/
def holdIn (write : Option Failure) (repository : Repository) : Bool × Except Failure Bool :=
  match repository.locked with
  | some error => (false, .error error)
  | none =>
      match fetchManifest sys settings ⟨"hold", id, repository⟩, write with
      | .error (.backup .notFound _), _ => (false, .ok false)
      | .error error, _ => (false, .error error)
      | .ok _, some error => (false, .error error)
      | .ok _, none =>
          if repository.held 0 then (true, (repository.put 0).elim (.ok true) .error)
          else (false, .error (failure sys ⟨"hold", id, repository⟩ .leaseLost
            "the lock's lease ran out before it was done"))

/-- The same of `unhold`, whose delete is the first thing it asks. -/
def unholdIn (repository : Repository) : Bool × Except Failure Bool :=
  match repository.locked with
  | some error => (false, .error error)
  | none =>
      if repository.held 0 then (true, (repository.put 0).elim (.ok true) .error)
      else (false, .error (failure sys ⟨"unhold", id, repository⟩ .leaseLost
        "the lock's lease ran out before it was done"))

/-- One repository after another: those it was asked of, and those it was done in. -/
def inTurn (one : Repository → Bool × Except Failure Bool) :
    List Repository → List String × Except Failure (List String)
  | [] => ([], .ok [])
  | repository :: rest =>
      let asked := if (one repository).1 then [repository.name] else []
      match (one repository).2 with
      | .error error => (asked, .error error)
      | .ok held =>
          let (others, outcome) := inTurn one rest
          (asked ++ others,
            outcome.map fun names => if held then repository.name :: names else names)

/-- `targets` refuses an id that is none. -/
def holdBackup (write : String → Option Failure) (repositories : List Repository) :
    List String × Except Failure (List String) :=
  if isBackupId id then
    let (asked, outcome) :=
      inTurn (fun r => holdIn sys settings id (write r.name) r) repositories
    (asked, outcome.bind fun names => if names = [] then .error (.backup .notFound
      s!"hold on \"{sys.backup}\": no repository holds that backup") else .ok names)
  else ([], .error (.typeError s!"hold on \"{sys.backup}\": the id is not a backup id"))

def unholdBackup (repositories : List Repository) : List String × Except Failure (List String) :=
  if isBackupId id then inTurn (unholdIn sys id) repositories
  else ([], .error (.typeError s!"unhold on \"{sys.backup}\": the id is not a backup id"))

end Holds

section Steps
variable {sys : System} (world : World)

def repositoriesOf (given : List (String × Faults)) : List Repository :=
  given.map fun r => Vault.repository (world r.1) r.1 r.2

theorem names_repositoriesOf (given : List (String × Faults)) :
    (repositoriesOf world given).map Repository.name = given.map Prod.fst := by
  rw [repositoriesOf, List.map_map]
  rfl

def Creation.id (c : Creation sys) : String := newBackupId c.at_

def Creation.context (c : Creation sys) : Context :=
  { c.settings with
    sys := sys
    repositories := repositoriesOf world c.repositories
    staging := c.staging
    write := c.write
    some := fun none => c.given (List.map_eq_nil_iff.mp none)
    distinct := by
      rw [names_repositoriesOf]
      exact c.distinct }

def putIn (name : String) : Event → Option (String × File)
  | .put repository _ key file _ => if repository = name then some (key, file) else none
  | _ => none

/-- The puts that were done in a repository. -/
def Creation.done (c : Creation sys) (name : String) : List (String × File) :=
  ((logOf (c.context world) c.source c.options c.at_).filterMap (putIn name)).take (c.cut name)

/-- These files, put under an id one by one. -/
def putUnder (sys : System) (id : String) (puts : List (String × File)) (vault : Vault) : Vault :=
  puts.foldl (fun vault put => vault.insert (id, put.1) (put.2.bytes sys)) vault

/-- These keys, deleted one by one. -/
def without (deleted : List (String × String)) (vault : Vault) : Vault :=
  deleted.foldl (fun vault key => vault.erase key) vault

/-- The deletes that were done. -/
def Pruning.done (sys : System) (p : Pruning) : List (String × String) :=
  (pruneBackups sys p.settings (Vault.repository (world p.name) p.name p.faults) p.met
    p.options).1.take p.cut

/-- What an operation makes of the repositories. -/
def step : Act sys → World
  | .create c => fun name => putUnder sys c.id (c.done world name) (world name)
  | .prune p => fun name => if name = p.name then without (p.done world sys) (world name)
      else world name
  | .hold h => fun name =>
      if name ∈ (holdBackup sys h.settings h.id h.write (repositoriesOf world h.repositories)).1 ∧
          h.done name then
        (world name).insert (holdKey h.id) (Utf8.encode (holdText h.id h.heldAt))
      else world name
  | .unhold h => fun name =>
      if name ∈ (unholdBackup sys h.id (repositoriesOf world h.repositories)).1 ∧ h.done name then
        (world name).erase (holdKey h.id)
      else world name

end Steps

def World.empty : World := fun _ => ∅

def run {sys : System} (acts : List (Act sys)) : World := acts.foldl step World.empty

/-- The ids that the creates of a run were given. -/
def createdIds {sys : System} (acts : List (Act sys)) : List String :=
  acts.filterMap fun
    | .create c => some c.id
    | _ => none

end NxgtData.Backup
