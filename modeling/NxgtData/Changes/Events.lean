import Mathlib.Data.List.Basic

/-!
A change event of the server and the change it becomes. The values of documents are
abstract: what is read of one is whether it is set, and its text as an id.
-/
namespace NxgtData.Changes

variable {V τ : Type}

/-- The fields of a document, in order. -/
abbrev Fields (V : Type) := List (String × V)

/-- The value of a field, `none` where it is `undefined`. -/
def Fields.get (fields : Fields V) (name : String) : Option V :=
  (fields.find? (·.1 = name)).map (·.2)

/-- What the values of documents answer. -/
structure Values (V : Type) where
  isNull : V → Bool
  /-- `String(value)`. -/
  text : V → V

/-- What is read here of a collection's context. -/
structure Collection (V : Type) where
  values : Values V
  /-- `ctx.softDeletes ? ctx.stamps.deletedAt : false`. -/
  deletedAt : Option String
  hasOwnId : Bool

namespace Collection
variable (ctx : Collection V)

def isSet (value : Option V) : Bool := value.any fun v => !ctx.values.isNull v

/-- `id` on a document: its `_id` as a string. -/
def withId (document : Fields V) : Fields V :=
  match document.get "_id" with
  | none => document
  | some id =>
      if ctx.hasOwnId || (document.get "id").isSome then document
      else document ++ [("id", ctx.values.text id)]

end Collection

inductive Operation where
  | insert | update | replace | delete | invalidate
  /-- One the package does not describe. -/
  | other
deriving DecidableEq

inductive ChangeType where
  | create | update | delete | restore
deriving DecidableEq

structure UpdateDescription (V : Type) where
  updatedFields : Fields V
  removedFields : List String
deriving DecidableEq

/-- A change event, less the `_id` that is its token. -/
structure Event (V : Type) where
  operationType : Operation
  fullDocument : Option (Fields V) := none
  fullDocumentBeforeChange : Option (Fields V) := none
  updateDescription : Option (UpdateDescription V) := none
  /-- `documentKey._id`. -/
  documentKey : V
  wallTime : Option Nat := none

structure Change (V τ : Type) where
  type : ChangeType
  id : V
  /-- `none` is the moment the event was read. -/
  at_ : Option Nat
  resumeToken : τ
  document : Option (Fields V)
  before : Option (Fields V)
  hard : Option Bool
  fields : Option (Option (UpdateDescription V))
deriving DecidableEq

structure ChangeOptions (τ : Type) where
  events : Option (List ChangeType) := none
  withDeleted : Bool := false
  retries : Nat := 5
  /-- Whether there is an `onError`. -/
  onError : Bool := false
  startAfter : Option τ := none

def all : List ChangeType := [.create, .update, .delete, .restore]

namespace Collection
variable (ctx : Collection V)

/-- Whether the write leaves the soft-delete field set, where the event tells. -/
def deletedNow (event : Event V) (document : Option (Fields V)) (field : String) : Option Bool :=
  match event.operationType with
  | .replace => document.map fun d => ctx.isSet (d.get field)
  | _ =>
      match event.updateDescription with
      | none => none
      | some description =>
          match description.updatedFields.get field with
          | some value => some (ctx.isSet (some value))
          | none => if field ∈ description.removedFields then some false else none

/-- What an update or a replacement is, once a soft delete and a restore are told
apart from other writes. -/
def writeTypeOf (event : Event V) (document before : Option (Fields V)) : ChangeType :=
  match ctx.deletedAt with
  | none => .update
  | some field =>
      match ctx.deletedNow event document field, before with
      | none, _ => .update
      | some deleted, some before =>
          if ctx.isSet (before.get field) = deleted then .update
          else if deleted then .delete
          else .restore
      | some deleted, none =>
          if deleted then .delete
          else if event.operationType = .replace then .update
          else .restore

/-- The type of the change, before what was asked for is looked at. -/
def typeOf (event : Event V) (document before : Option (Fields V)) : Option ChangeType :=
  match event.operationType with
  | .insert => some .create
  | .delete => some .delete
  | .update | .replace => some (ctx.writeTypeOf event document before)
  | .invalidate | .other => none

/-- A server event as this package's change, or `none` for one the subscription does
not deliver: an operation it does not describe, a type it was not asked for, or an
update to a soft-deleted document. -/
def toChange (options : ChangeOptions τ) (token : τ) (event : Event V) :
    Option (Change V τ) :=
  let document := event.fullDocument.map ctx.withId
  let before := event.fullDocumentBeforeChange.map ctx.withId
  match ctx.typeOf event document before with
  | none => none
  | some type =>
      if type ∉ options.events.getD all then none
      else if type = .update && !options.withDeleted &&
          ctx.deletedAt.any fun field => ctx.isSet (document.bind (·.get field)) then none
      else some {
        type, document, before
        id := event.documentKey
        at_ := event.wallTime
        resumeToken := token
        hard := if type = .delete then some (event.operationType = .delete) else none
        fields := if type = .update then some event.updateDescription else none }

variable {ctx} {options : ChangeOptions τ} {token : τ} {event : Event V} {change : Change V τ}

/-- A change carries the token of its event and a type that was asked for. -/
theorem toChange_asked (h : ctx.toChange options token event = some change) :
    change.resumeToken = token ∧ change.type ∈ options.events.getD all := by
  simp only [toChange] at h
  split at h
  · cases h
  next type _ =>
    split at h
    · cases h
    next asked =>
      split at h
      · cases h
      · cases h
        exact ⟨rfl, not_not.mp asked⟩

end Collection
end NxgtData.Changes
