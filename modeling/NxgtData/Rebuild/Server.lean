import NxgtData.Lib.TaskLog
import NxgtData.Token.Tenant
import Mathlib.Logic.Function.Basic

/-!
What a rebuild asks of Meilisearch: its indexes and the tasks it runs on them. An index is
its primary key, its settings and its documents; what an index is born with and what an
update makes of its settings are the engine's.
-/
namespace NxgtData.Rebuild
open TaskLog

variable {S F D : Type}

structure Index (S D : Type) where
  primaryKey : Option Utf16
  settings : S
  documents : D

abbrev Indexes (S D : Type) := Utf16 → Option (Index S D)

structure Engine (S F D : Type) where
  defaults : S
  empty : D
  apply : List F → S → S

/-- The error code of a task that failed, of those this program reads. -/
inductive Code where
  | indexNotFound
  | indexAlreadyExists
  deriving DecidableEq

inductive Kind (S F D : Type) where
  | indexCreation (uid primaryKey : Utf16)
  | indexUpdate (uid primaryKey : Utf16)
  | indexDeletion (uid : Utf16)
  | indexSwap (first second : Utf16) (rename : Bool)
  | settingsUpdate (uid : Utf16) (update : List F)
  /-- Any task of a caller's on one index. -/
  | write (uid : Utf16) (effect : Option (Index S D) → Option (Index S D))

/-- `task.indexUid`, which the lists of tasks are filtered by: a swap has none. -/
def Kind.indexUid : Kind S F D → Option Utf16
  | .indexCreation uid _ => some uid
  | .indexUpdate uid _ => some uid
  | .indexDeletion uid => some uid
  | .indexSwap _ _ _ => none
  | .settingsUpdate uid _ => some uid
  | .write uid _ => some uid

def Engine.born (engine : Engine S F D) (primaryKey : Option Utf16) : Index S D :=
  ⟨primaryKey, engine.defaults, engine.empty⟩

/-- A swap with a missing index fails, unless it is a rename and the existing one comes first. -/
def perform (engine : Engine S F D) :
    Kind S F D → Indexes S D → Except Code (Indexes S D)
  | .indexCreation uid primaryKey, indexes =>
      match indexes uid with
      | some _ => .error .indexAlreadyExists
      | none => .ok (Function.update indexes uid (some (engine.born (some primaryKey))))
  | .indexUpdate uid primaryKey, indexes =>
      match indexes uid with
      | some index =>
          .ok (Function.update indexes uid (some { index with primaryKey := some primaryKey }))
      | none => .error .indexNotFound
  | .indexDeletion uid, indexes =>
      match indexes uid with
      | some _ => .ok (Function.update indexes uid none)
      | none => .error .indexNotFound
  | .indexSwap first second rename, indexes =>
      match indexes first, indexes second with
      | some a, some b =>
          if rename then .error .indexAlreadyExists
          else .ok (Function.update (Function.update indexes first (some b)) second (some a))
      | some a, none =>
          if rename then
            .ok (Function.update (Function.update indexes first none) second (some a))
          else .error .indexNotFound
      | none, _ => .error .indexNotFound
  | .settingsUpdate uid update, indexes =>
      -- The server creates an index whose settings are set.
      let index := (indexes uid).getD (engine.born none)
      .ok (Function.update indexes uid
        (some { index with settings := engine.apply update index.settings }))
  | .write uid effect, indexes => .ok (Function.update indexes uid (effect (indexes uid)))

/-- A task changes the index it is listed under and no other. -/
theorem perform_other (engine : Engine S F D) {kind : Kind S F D} {uid other : Utf16}
    (on : kind.indexUid = some uid) (ne : other ≠ uid) {a b : Indexes S D}
    (h : perform engine kind a = .ok b) : b other = a other := by
  cases kind with
  | indexCreation v _ | indexUpdate v _ | indexDeletion v =>
      cases on
      simp only [perform] at h
      split at h <;> cases h
      exact Function.update_of_ne ne _ _
  | indexSwap _ _ _ => cases on
  | settingsUpdate v _ | write v _ =>
      cases on
      cases h
      exact Function.update_of_ne ne _ _

theorem perform_creation (engine : Engine S F D) {uid key : Utf16} {a b : Indexes S D}
    (h : perform engine (.indexCreation uid key) a = .ok b) :
    b uid = some (engine.born (some key)) := by
  simp only [perform] at h
  split at h <;> cases h
  exact Function.update_self _ _ _

theorem creation_missing (engine : Engine S F D) {uid key : Utf16} {a : Indexes S D}
    (missing : a uid = none) :
    perform engine (.indexCreation uid key) a ≠ .error .indexAlreadyExists := by
  simp [perform, missing]

theorem perform_deletion (engine : Engine S F D) {uid : Utf16} {a b : Indexes S D}
    (h : perform engine (.indexDeletion uid) a = .ok b) : b uid = none := by
  simp only [perform] at h
  split at h <;> cases h
  exact Function.update_self _ _ _

/-- A rename leaves nothing under the uid it takes the index from. -/
theorem perform_rename (engine : Engine S F D) {first second : Utf16} (ne : first ≠ second)
    {a b : Indexes S D} (h : perform engine (.indexSwap first second true) a = .ok b) :
    (a first).isSome ∧ b second = a first ∧ b first = none := by
  simp only [perform] at h
  split at h
  next => cases h
  next x there _ =>
    cases h
    exact ⟨by rw [there]; rfl, by rw [Function.update_self, there],
      by rw [Function.update_of_ne ne, Function.update_self]⟩
  next => cases h

theorem perform_swap (engine : Engine S F D) {first second : Utf16}
    {a b : Indexes S D} (ne : first ≠ second)
    (h : perform engine (.indexSwap first second false) a = .ok b) :
    (a second).isSome ∧ b first = a second ∧ b second = a first := by
  simp only [perform] at h
  split at h
  next x y there here =>
    cases h
    exact ⟨by rw [here]; rfl, by rw [Function.update_of_ne ne, Function.update_self, here],
      by rw [Function.update_self, there]⟩
  next => cases h
  next => cases h

end NxgtData.Rebuild
