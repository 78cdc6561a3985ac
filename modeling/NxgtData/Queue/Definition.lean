import NxgtData.Queue.Duration
import NxgtData.Rate.Values

/-!
`defineQueue`: the checks of a definition, in the order they are made, and the
values it resolves to, each kept with what its check found. The schema and JSON
are the caller's, and so are the cron grammar and the zones: what is said here
holds whatever they accept.
-/
namespace NxgtData.Queue
open Gcra

variable {V : Type}

/-- A schema, by its verdict on a value: its output, or the codes of its issues. -/
structure Schema (V : Type) where
  check : V → Except String V

/-- `JSON.stringify`, `none` for a value without a JSON form, and `JSON.parse` of
what it wrote. -/
structure Json (V : Type) where
  stringify : V → Option String
  parse : String → V

/-- What a schedule's cron is read with: the zone's check, the parser, and the
first occurrence after an instant. -/
structure Calendar where
  checkZone : Utf16 → Except Message Unit
  parseCron : Utf16 → Except Message Unit
  nextAfter : Utf16 → Utf16 → Nat → Nat

/-- `toJson` under a schema: the JSON a value is stored as, read back through it. -/
def toJson (json : Json V) (schema : Schema V) (value : V) (refused : Message → Refusal)
    (subject schemaName : String) : Except Refusal String :=
  match schema.check value with
  | .error codes => .error (refused [.text s!"{subject}does not match {schemaName} {codes}"])
  | .ok output =>
      match json.stringify output with
      | none => .error (refused [.text s!"{subject}has no JSON form"])
      | some text =>
          match schema.check (json.parse text) with
          | .error codes => .error (refused
              [.text s!"{subject}does not match {schemaName} once stored as JSON {codes}"])
          | .ok _ => .ok text

/-- The texts a value of the queue may be stored as. -/
def Stores (json : Json V) (schema : Schema V) (text : String) : Prop :=
  ∃ value output, schema.check value = .ok output ∧ json.stringify output = some text ∧
    ∃ again, schema.check (json.parse text) = .ok again

theorem toJson_stores {json : Json V} {schema : Schema V} {value : V}
    {refused : Message → Refusal} {subject schemaName text : String}
    (h : toJson json schema value refused subject schemaName = .ok text) :
    Stores json schema text := by
  unfold toJson at h
  split at h
  next => cases h
  next output checked =>
    split at h
    next => cases h
    next stored stringified =>
      split at h
      next => cases h
      next again back =>
        cases h
        exact ⟨value, output, checked, stringified, again, back⟩

theorem stores_toJson {json : Json V} {schema : Schema V} {text : String}
    (h : Stores json schema text) (refused : Message → Refusal) (subject schemaName : String) :
    ∃ value, toJson json schema value refused subject schemaName = .ok text := by
  obtain ⟨value, output, checked, stringified, again, back⟩ := h
  refine ⟨value, ?_⟩
  simp only [toJson, checked, stringified, back]

/-! Schedules. -/

/-- An interval: `MIN_EVERY` to `MAX_EVERY`. -/
abbrev Interval := { n : Nat // 1000 ≤ n ∧ n ≤ 999999999999999 }

inductive Recurrence where
  | cron (spec timezone : Utf16)
  | every (everyMs : Interval)

/-- `isScheduleId`, of a string. -/
def isScheduleId (s : Utf16) : Bool := isName s && colon ∉ s

abbrev ScheduleId := { s : Utf16 // isScheduleId s = true }

/-- `isScheduleId`, with the id. -/
def toScheduleId : Js → Option ScheduleId
  | .string s => if h : isScheduleId s = true then some ⟨s, h⟩ else none
  | _ => none

/-- A schedule, resolved. -/
structure ScheduleDefinition where
  id : ScheduleId
  recurrence : Recurrence
  data : String

namespace ScheduleDefinition

def kind (s : ScheduleDefinition) : String :=
  match s.recurrence with
  | .cron _ _ => "cron"
  | .every _ => "every"

def spec (s : ScheduleDefinition) : String :=
  match s.recurrence with
  | .cron spec _ => spec.text
  | .every everyMs => toString everyMs.1

def timezone (s : ScheduleDefinition) : String :=
  match s.recurrence with
  | .cron _ timezone => timezone.text
  | .every _ => ""

/-- `firstNext`. -/
def firstNext (calendar : Calendar) (now : Nat) (s : ScheduleDefinition) : Nat :=
  match s.recurrence with
  | .cron spec timezone => calendar.nextAfter spec timezone now
  | .every everyMs => now + everyMs

end ScheduleDefinition

/-- A schedule as it is given; one that is not an object is `none`. -/
structure ScheduleInput (V : Type) where
  cron : Js := .undefined
  every : Js := .undefined
  timezone : Js := .undefined
  data : V

def everyOf (every : Js) (refuse : String → Refusal) : Except Refusal Interval :=
  match durationMs every with
  | none => .error (refuse ("has an every that is not a duration; it is a whole number of " ++
      "milliseconds or a string such as '10m'"))
  | some ms =>
      if least : 1000 ≤ ms.1 then
        if most : ms.1 ≤ 999999999999999 then .ok ⟨ms, least, most⟩
        else .error (refuse "has an every above 999999999999999 ms")
      else .error (refuse "has an every under 1 second; it is at least 1s")

def idRule : String := "a string of 1 to 256 characters without braces or colons"

def resolveSchedule (json : Json V) (calendar : Calendar) (id : Js)
    (schedule : Option (ScheduleInput V)) (schema : Schema V) (lead : Message) (queue : Utf16) :
    Except Refusal ScheduleDefinition :=
  match toScheduleId id with
  | none => .error (.typeError (lead ++ [.text (" a schedule id is " ++ idRule)]))
  | some id =>
      let opening : Message := lead ++ [.text " schedule "] ++ quoted id
      let refuse := fun what => Refusal.typeError (opening ++ [.text (" " ++ what)])
      let rethrow := fun message => Refusal.typeError (opening ++ [.text ": "] ++ message)
      let refused := fun detail => Refusal.queueError "INVALID" queue (opening ++ [.text " "] ++ detail)
      match schedule with
      | none => .error (refuse "is not an object with cron or every, and data")
      | some given =>
          if !given.cron.isUndefined && !given.every.isUndefined then
            .error (refuse "has both cron and every; give one")
          else if given.cron.isUndefined && given.every.isUndefined then
            .error (refuse "has neither cron nor every; give one")
          else if !given.every.isUndefined && !given.timezone.isUndefined then
            .error (refuse "has a timezone with every; a timezone goes with a cron")
          else if !given.every.isUndefined then do
            let everyMs ← everyOf given.every refuse
            let data ← toJson json schema given.data refused "data " "the schema"
            .ok { id, recurrence := .every everyMs, data }
          else
            match given.cron with
            | .string cron =>
                match if given.timezone.isUndefined then .string (.ofText "UTC") else given.timezone with
                | .string zone => do
                    (calendar.checkZone zone).mapError rethrow
                    let data ← toJson json schema given.data refused "data " "the schema"
                    (calendar.parseCron cron).mapError rethrow
                    .ok { id, recurrence := .cron cron zone, data }
                | _ => .error (refuse "has a timezone that is not text")
            | _ => .error (refuse "has a cron that is not text")

/-- The static schedules as they are given. -/
inductive SchedulesInput (V : Type) where
  | undefined
  /-- A list, `null`, or no object at all. -/
  | notObject
  | entries (list : List (Utf16 × Option (ScheduleInput V)))

/-- `MAX_SCHEDULES`. -/
def maxSchedules : Nat := 1000

def resolveSchedules (json : Json V) (calendar : Calendar) (input : SchedulesInput V)
    (schema : Schema V) (call : String) (name : Utf16) : Except Refusal (List ScheduleDefinition) :=
  let lead : Message := [.text (call ++ ": ")] ++ quoted name
  match input with
  | .undefined => .ok []
  | .notObject => .error (refuseDefinition call name
      [.text " schedules is an object of schedule id to schedule"])
  | .entries list =>
      if list.length > maxSchedules then
        .error (refuseDefinition call name
          [.text s!" has {list.length} schedules; at most {maxSchedules}, which is what one sync takes"])
      else
        list.mapM fun (id, schedule) =>
          resolveSchedule json calendar (.string id) schedule schema lead name

/-! The definition. -/

structure Backoff where
  base : Count 0
  max : Count 0
  ordered : base.1 ≤ max.1

inductive KeepCompleted where
  | off
  | kept (age count : Count 0)

/-- `concurrency` is 0 for no cap. -/
structure QueueGroups where
  concurrency : Count 0

/-! `DEFAULTS`. -/

namespace Defaults

def attempts : Count 1 := ⟨3, by decide⟩
def backoffBase : Count 0 := ⟨1000, by decide⟩
def backoffMax : Count 0 := ⟨3600000, by decide⟩
def lease : Count 0 := ⟨30000, by decide⟩
def keepCompletedAge : Count 0 := ⟨3600000, by decide⟩
def keepCompletedCount : Count 0 := ⟨1000, by decide⟩
def keepFailed : Count 0 := ⟨604800000, by decide⟩

end Defaults

/-- `MIN_LEASE`. -/
def minLease : Nat := 30

/-- A definition, resolved. -/
structure QueueDefinition (V : Type) where
  name : Utf16
  schema : Schema V
  result : Option (Schema V)
  attempts : Count 1
  backoff : Backoff
  lease : Count minLease
  keepCompleted : KeepCompleted
  keepFailed : Count 0
  timeout : Option (Count 1)
  rateLimit : Option RateValues
  groups : Option QueueGroups
  schedules : List ScheduleDefinition

/-- What `defineQueue` takes. A schema is `none` when it has no `safeParse`. -/
structure QueueInput (V : Type) where
  name : Js
  schema : Option (Schema V)
  /-- `none` when left out. -/
  result : Option (Option (Schema V)) := none
  attempts : Js := .undefined
  backoff : Js := .undefined
  lease : Js := .undefined
  keepCompleted : Js := .undefined
  keepFailed : Js := .undefined
  timeout : Js := .undefined
  rateLimit : Js := .undefined
  groups : Js := .undefined
  schedules : SchedulesInput V := .undefined

/-- `ms`: a span of the definition, or its default. -/
def spanOr (value : Js) (fallback : Count 0) (call : String) (name : Utf16) (what : String) :
    Except Refusal (Count 0) :=
  if value.isUndefined then .ok fallback
  else toMs value ([.text (call ++ ": ")] ++ quoted name ++ [.text (" " ++ what)])

def timeoutOf (value : Js) (call : String) (name : Utf16) : Except Refusal (Option (Count 1)) :=
  if value.isUndefined then .ok none
  else do
    let timeout ← toMs value ([.text (call ++ ": ")] ++ quoted name ++ [.text " timeout"])
    match atLeastOne timeout with
    | some timeout => .ok (some timeout)
    | none => .error (refuseDefinition call name [.text " has a timeout of ", shown timeout,
        .text "ms; it must be at least 1ms, or left out for no limit"])

def resolveKeepCompleted (value : Js) (call : String) (name : Utf16) :
    Except Refusal KeepCompleted :=
  match value with
  | .boolean false => .ok .off
  | value =>
      let count := (value.get "count").orElse (.number (.ofNat Defaults.keepCompletedCount))
      match count.count 0 with
      | none => .error (refuseDefinition call name [.text " has a keepCompleted count of ",
          .value count, .text "; it is a whole number of jobs, from 0"])
      | some count => do
          let age ← spanOr (value.get "age") Defaults.keepCompletedAge call name "keepCompleted age"
          .ok (.kept age count)

def resolveRateLimit (value : Js) (call : String) (name : Utf16) :
    Except Refusal (Option RateValues) :=
  if value.isUndefined then .ok none
  else if !value.isObject then
    .error (refuseDefinition call name
      [.text " has a rateLimit that is not an object; it is \x7b limit, per, burst? \x7d"])
  else do
    let lead : Message := [.text (call ++ ": ")] ++ quoted name ++ [.text " rateLimit"]
    let per ← toMs (value.get "per") (lead ++ [.text " per"])
    some <$> checkRateValues lead (value.get "limit") (.number (.ofNat per)) (value.get "burst")

def resolveGroups (value : Js) (call : String) (name : Utf16) :
    Except Refusal (Option QueueGroups) :=
  if value.isUndefined then .ok none
  else if !value.isObject then
    .error (refuseDefinition call name
      [.text " has groups that is not an object; it is \x7b concurrency? \x7d"])
  else if (value.get "concurrency").isUndefined then .ok (some ⟨0, by decide⟩)
  else
    match (value.get "concurrency").count 1 with
    | some n => .ok (some ⟨n.1, Nat.zero_le _, n.2.2⟩)
    | none => .error (refuseDefinition call name [.text (" has groups concurrency; it is a whole " ++
        "number of jobs per group, at least 1, or left out for no cap")])

/-- The name's checks. -/
def resolveName (call : String) : Js → Except Refusal Utf16
  | .string (u :: us) =>
      let name := u :: us
      if openBrace ∈ name ∨ closeBrace ∈ name then
        .error (refuseDefinition call name [.text
          " has braces; the name is the keys' hash tag, so it cannot hold any"])
      else if colon ∈ name then
        .error (refuseDefinition call name [.text (" has a colon; job.key joins the queue name, " ++
          "job id and step name with colons, so the name cannot hold one")])
      else .ok name
  | _ => .error (.typeError [.text (call ++ ": a queue needs a name, for its keys")])

def resolveSchema (schema : Option (Schema V)) (call : String) (name : Utf16) :
    Except Refusal (Schema V) :=
  match schema with
  | some schema => .ok schema
  | none => .error (refuseDefinition call name
      [.text " has no schema; a payload is checked against one both ways"])

/-- `checkResult`, with the schema. -/
def resolveResult (result : Option (Option (Schema V))) (call : String) (name : Utf16) :
    Except Refusal (Option (Schema V)) :=
  match result with
  | none => .ok none
  | some (some result) => .ok (some result)
  | some none => .error (refuseDefinition call name
      [.text " has a result that is not a schema; a result is checked against one both ways"])

def resolveAttempts (value : Js) (call : String) (name : Utf16) : Except Refusal (Count 1) :=
  let given := value.orElse (.number (.ofNat Defaults.attempts))
  match given.count 1 with
  | some attempts => .ok attempts
  | none => .error (refuseDefinition call name [.text " has attempts of ", .value given,
      .text "; it is a whole number of runs, and must be at least 1"])

def resolveBackoff (value : Js) (call : String) (name : Utf16) : Except Refusal Backoff := do
  let base ← spanOr (value.get "base") Defaults.backoffBase call name "backoff base"
  let max ← spanOr (value.get "max") Defaults.backoffMax call name "backoff max"
  if ordered : base.1 ≤ max.1 then .ok { base, max, ordered }
  else .error (refuseDefinition call name [.text " has a backoff base of ", shown base,
    .text "ms above its max of ", shown max, .text "ms"])

def resolveLease (value : Js) (call : String) (name : Utf16) : Except Refusal (Count minLease) := do
  let lease ← spanOr value Defaults.lease call name "lease"
  if least : minLease ≤ lease.1 then .ok ⟨lease.1, least, lease.2.2⟩
  else .error (refuseDefinition call name [.text " has a lease of ", shown lease,
    .text s!"ms; it is renewed every third of itself, so it must be at least {minLease}ms"])

/-- `resolve`, of what `defineQueue` is given. -/
def resolveQueue (json : Json V) (calendar : Calendar) (input : QueueInput V) (call : String) :
    Except Refusal (QueueDefinition V) := do
  let name ← resolveName call input.name
  let schema ← resolveSchema input.schema call name
  let result ← resolveResult input.result call name
  let attempts ← resolveAttempts input.attempts call name
  let backoff ← resolveBackoff input.backoff call name
  let lease ← resolveLease input.lease call name
  let keepFailed ← spanOr input.keepFailed Defaults.keepFailed call name "keepFailed"
  let timeout ← timeoutOf input.timeout call name
  let keepCompleted ← resolveKeepCompleted input.keepCompleted call name
  let rateLimit ← resolveRateLimit input.rateLimit call name
  let groups ← resolveGroups input.groups call name
  let schedules ← resolveSchedules json calendar input.schedules schema call name
  .ok { name, schema, result, attempts, backoff, lease, keepCompleted, keepFailed, timeout,
        rateLimit, groups, schedules }

def defineQueue (json : Json V) (calendar : Calendar) (input : QueueInput V) :
    Except Refusal (QueueDefinition V) := resolveQueue json calendar input "defineQueue"

end NxgtData.Queue
