import NxgtData.MongoSync.IndexDiff

/-!
The options of a collection and its validation, compared with those of the live one. Only
what a definition asks for is compared, and a live value need only carry it: the server
fills its own defaults in.
-/
namespace NxgtData.MongoSync
open Bson

structure CappedOption where
  size : Json
  max : Option Json := none

structure TimeseriesOption where
  timeField : Json
  metaField : Option Json := none
  granularity : Option Json := none
  bucketMaxSpanSeconds : Option Json := none
  bucketRoundingSeconds : Option Json := none

structure MongoCollectionOptions where
  capped : Option CappedOption := none
  timeseries : Option TimeseriesOption := none
  expireAfterSeconds : Option Json := none
  collation : Option Json := none
  clusteredIndex : Option Json := none
  changeStreamPreAndPostImages : Option Json := none

/-- The options compared, each under a name of its own. -/
inductive CollectionOption
  | capped | cappedSize | cappedMax
  | timeField | metaField | granularity | bucketMaxSpanSeconds | bucketRoundingSeconds
  | expireAfterSeconds | collation | clusteredIndex | changeStreamPreAndPostImages
  deriving DecidableEq

namespace CollectionOption

/-- What the definition asks for, or nothing. -/
def of (wanted : MongoCollectionOptions) : CollectionOption → Option Json
  | capped => wanted.capped.map fun _ => jsonBool true
  | cappedSize => wanted.capped.map (·.size)
  | cappedMax => wanted.capped.bind (·.max)
  | timeField => wanted.timeseries.map (·.timeField)
  | metaField => wanted.timeseries.bind (·.metaField)
  | granularity => wanted.timeseries.bind (·.granularity)
  | bucketMaxSpanSeconds => wanted.timeseries.bind (·.bucketMaxSpanSeconds)
  | bucketRoundingSeconds => wanted.timeseries.bind (·.bucketRoundingSeconds)
  | expireAfterSeconds => wanted.expireAfterSeconds
  | collation => wanted.collation
  | clusteredIndex => wanted.clusteredIndex
  | changeStreamPreAndPostImages => wanted.changeStreamPreAndPostImages

/-- The options of the live collection, each where the server reports it. -/
abbrev Reported := CollectionOption → Option Json

/-- What the live collection has for an option. -/
def on (live : Reported) : CollectionOption → Option Json
  | capped => if live capped = some (jsonBool true) then some (jsonBool true) else none
  | option => live option

/-- Whether `collMod` can still change it on an existing collection. -/
def mutable : CollectionOption → Bool
  | cappedSize | cappedMax | granularity | bucketMaxSpanSeconds | bucketRoundingSeconds
  | expireAfterSeconds | changeStreamPreAndPostImages => true
  | capped | timeField | metaField | collation | clusteredIndex => false

end CollectionOption

open CollectionOption (Reported)

def SPECS : List CollectionOption :=
  [.capped, .cappedSize, .cappedMax, .timeField, .metaField, .granularity,
    .bucketMaxSpanSeconds, .bucketRoundingSeconds, .expireAfterSeconds, .collation,
    .clusteredIndex, .changeStreamPreAndPostImages]

theorem mem_SPECS (option : CollectionOption) : option ∈ SPECS := by
  cases option <;> decide

/-- `live[name]`, of an object or an array. -/
def child (live : Json) (name : Name) : Option Json :=
  match live with
  | .scalar _ => none
  | .array items => (items.zipIdx.find? fun p => (toString p.2).toList = name).map Prod.fst
  | .document fields => lookup fields name

mutual
/-- Does the live value carry everything the definition asked for? -/
def covers (live : Option Json) : Json → Bool
  | .scalar s => live = some (.scalar s)
  | .array items =>
      match live with
      | none | some (.scalar _) => false
      | some value => coversItems value 0 items
  | .document fields =>
      match live with
      | none | some (.scalar _) => false
      | some value => coversFields value fields

def coversItems (live : Json) (i : Nat) : List Json → Bool
  | [] => true
  | item :: rest => covers (child live (toString i).toList) item && coversItems live (i + 1) rest

def coversFields (live : Json) : List (Name × Json) → Bool
  | [] => true
  | (name, value) :: rest => covers (child live name) value && coversFields live rest
end

theorem covers_none (wanted : Json) : covers none wanted = false := by
  cases wanted <;> simp [covers]

structure OptionMismatch where
  option : CollectionOption
  wanted : Json
  live : Option Json
  mutable : Bool

/-- What the live collection does not agree with the definition on. -/
def diffCollectionOptions (wanted : MongoCollectionOptions) (live : Reported) :
    List OptionMismatch :=
  SPECS.filterMap fun spec =>
    match spec.of wanted with
    | none => none
    | some want =>
        if covers (spec.on live) want then none
        else some ⟨spec, want, spec.on live, spec.mutable⟩

/-- What `collMod` is sent for each option: the wanted value of those it can change. -/
def collModForOptions (mismatches : List OptionMismatch) (option : CollectionOption) :
    Option Json :=
  (mismatches.find? fun m => m.mutable && m.option = option).map (·.wanted)

section Mismatches
variable {wanted : MongoCollectionOptions} {live : Reported}

theorem mem_diffCollectionOptions {m : OptionMismatch} :
    m ∈ diffCollectionOptions wanted live ↔ m.option.of wanted = some m.wanted ∧
      covers (m.option.on live) m.wanted = false ∧ m.live = m.option.on live ∧
        m.mutable = m.option.mutable := by
  rw [diffCollectionOptions, List.mem_filterMap]
  constructor
  · rintro ⟨spec, -, is⟩
    split at is
    · exact absurd is nofun
    next want asks =>
      split at is
      · exact absurd is nofun
      next uncovered =>
        cases is
        exact ⟨asks, Bool.not_eq_true _ ▸ uncovered, rfl, rfl⟩
  · intro ⟨asks, uncovered, has, can⟩
    refine ⟨m.option, mem_SPECS _, ?_⟩
    simp only [asks, uncovered, Bool.false_eq_true, if_false]
    rw [← has, ← can]

/-- The options agree when every one wanted is covered. -/
theorem diffCollectionOptions_eq_nil : diffCollectionOptions wanted live = [] ↔
    ∀ (option : CollectionOption) (want : Json), option.of wanted = some want →
      covers (option.on live) want = true := by
  rw [List.eq_nil_iff_forall_not_mem]
  constructor
  · intro none_ option want asks
    refine Decidable.byContradiction fun uncovered => ?_
    exact none_ ⟨option, want, option.on live, option.mutable⟩
      (mem_diffCollectionOptions.mpr ⟨asks, Bool.not_eq_true _ ▸ uncovered, rfl, rfl⟩)
  · intro all m mem
    obtain ⟨asks, uncovered, -, -⟩ := mem_diffCollectionOptions.mp mem
    exact Bool.false_ne_true (uncovered ▸ all _ _ asks)

theorem collModForOptions_some {option : CollectionOption} {want : Json}
    (sent : collModForOptions (diffCollectionOptions wanted live) option = some want) :
    option.of wanted = some want ∧ option.mutable = true := by
  rw [collModForOptions, Option.map_eq_some_iff] at sent
  obtain ⟨m, found, rfl⟩ := sent
  have is := List.find?_some found
  rw [Bool.and_eq_true, decide_eq_true_eq] at is
  obtain ⟨asks, -, -, can⟩ := mem_diffCollectionOptions.mp (List.mem_of_find?_eq_some found)
  exact ⟨is.2 ▸ asks, by rw [← is.2, ← can, is.1]⟩

theorem collModForOptions_none {option : CollectionOption}
    (unsent : collModForOptions (diffCollectionOptions wanted live) option = none)
    {m : OptionMismatch} (mem : m ∈ diffCollectionOptions wanted live)
    (is : m.option = option) : m.mutable = false := by
  rw [collModForOptions, Option.map_eq_none_iff, List.find?_eq_none] at unsent
  have other := unsent m mem
  rwa [decide_eq_true is, Bool.and_true, Bool.not_eq_true] at other

end Mismatches

/-- Which documents the validator applies to. -/
inductive ValidationLevel
  | off | moderate | strict
  deriving DecidableEq

/-- What MongoDB does with a document that fails the validator. -/
inductive ValidationAction
  | error | warn
  deriving DecidableEq

structure LiveValidation where
  validator : Option (List Field) := none
  validationLevel : Option ValidationLevel := none
  validationAction : Option ValidationAction := none

structure WantedValidation where
  validator : Option (List Field)
  level : ValidationLevel
  action : ValidationAction

def hasValidator (live : LiveValidation) : Bool := live.validator.any (!·.isEmpty)

/-- Does the collection already validate the way the definition says? -/
def validationMatches (wanted : WantedValidation) (live : LiveValidation) : Bool :=
  match wanted.validator with
  | none => !hasValidator live
  | some validator =>
      hasValidator live &&
        live.validator.map (fun v => canonical (.document v)) =
          some (canonical (.document validator)) &&
        live.validationLevel.getD .strict = wanted.level &&
        live.validationAction.getD .error = wanted.action

end NxgtData.MongoSync
