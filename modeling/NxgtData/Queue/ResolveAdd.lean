import NxgtData.Queue.Definition
import NxgtData.Queue.Script

/-!
`add`'s options, checked and resolved, and the arguments a bound queue sends with
its calls: a job of `ADD`, a fire, an upsert and a sync. Every number and name a
script is given carries the check it passed.
-/
namespace NxgtData.Queue
open Gcra

variable {V : Type}

/-- What `add` takes beside the payload. -/
structure AddOptions where
  id : Js := .undefined
  priority : Js := .undefined
  delay : Js := .undefined
  atDate : Js := .undefined
  timeout : Js := .undefined
  debounce : Js := .undefined
  throttle : Js := .undefined
  group : Js := .undefined

/-- `DEBOUNCE_GRACE_MS`. -/
def debounceGraceMs : Nat := 86400000

structure ResolvedDedupe where
  mode : DedupeMode
  key : Utf16
  ttlMs : Nat
  waitMs : Nat

/-- The key and the span of a `debounce` or a `throttle`. -/
def resolveKeyed (given : Js) (name span : String) (refuse : String → Refusal) :
    Except Refusal (Name × Count 1) :=
  if !given.isObject then
    .error (refuse s!"{name} is an object \x7b key, {span} \x7d")
  else
    match toName (given.get "key") with
    | none => .error (refuse s!"{name}.key is {nameRule}")
    | some key =>
        match positiveMs (given.get span) with
        | some ms => .ok (key, ms)
        | none => .error (refuse (s!"{name}.{span} is at least 1 millisecond, as a whole number " ++
            "or a string such as '10m'"))

def resolveDedupe (options : AddOptions) (call : String) (queue : Utf16) :
    Except Refusal ResolvedDedupe :=
  let refuse := refuseCall call queue
  let { debounce, throttle, id, delay, atDate, .. } := options
  if debounce.isUndefined && throttle.isUndefined then
    .ok { mode := .none, key := [], ttlMs := 0, waitMs := 0 }
  else if !debounce.isUndefined && !throttle.isUndefined then
    .error (refuse "debounce and throttle cannot be combined; give one")
  else if !debounce.isUndefined then
    if !id.isUndefined then
      .error (refuse "debounce and id cannot be combined; the key names the job")
    else if !delay.isUndefined then
      .error (refuse "debounce and delay cannot be combined; wait sets the run time")
    else if !atDate.isUndefined then
      .error (refuse "debounce and at cannot be combined; wait sets the run time")
    else do
      let (key, ms) ← resolveKeyed debounce "debounce" "wait" refuse
      .ok { mode := .debounce, key, ttlMs := ms.1 + debounceGraceMs, waitMs := ms }
  else if !id.isUndefined then
    .error (refuse "throttle and id cannot be combined; the key names the job")
  else do
    let (key, ms) ← resolveKeyed throttle "throttle" "window" refuse
    .ok { mode := .throttle, key, ttlMs := ms, waitMs := 0 }

/-- A group as `resolveGroup` answers it: none, or a name without a colon. -/
abbrev GroupName := { s : Utf16 // s = [] ∨ isName s = true ∧ colon ∉ s }

def toGroup (group : Js) : Option GroupName :=
  (toName group).bind fun name =>
    if free : colon ∉ name.1 then some ⟨name, Or.inr ⟨name.2, free⟩⟩ else none

def resolveGroup (group : Js) (grouped : Bool) (call : String) (queue : Utf16) :
    Except Refusal GroupName :=
  let refuse := refuseCall call queue
  if group.isUndefined then .ok ⟨[], Or.inl rfl⟩
  else if !grouped then .error (refuse "group needs groups in defineQueue")
  else
    match toGroup group with
    | some name => .ok name
    | none => .error (refuse "group is a string of 1 to 256 characters without braces or colons")

structure ResolvedAdd where
  id : Utf16
  priority : { n : Nat // n ≤ 1000 }
  delayMs : Nat
  /-- `-1` when the job has no `at`. -/
  atMs : Int
  timeoutMs : Option { n : Nat // 1 ≤ n ∧ n ≤ maxTimerMs }
  dedupe : ResolvedDedupe
  group : GroupName

/-- The id's checks; a job without one takes `uuid`. -/
def resolveId (id : Js) (uuid : Utf16) (refuse : String → Refusal) : Except Refusal Utf16 :=
  if id.isUndefined then .ok uuid
  else
    match toName id with
    | none => .error (refuse ("id is " ++ nameRule))
    | some name =>
        if (Utf16.ofText "schedule:").isPrefixOf name then
          .error (refuse "id cannot start with \"schedule:\", which names scheduled occurrences")
        else .ok name

def toPriority : Js → Option { n : Nat // n ≤ 1000 }
  | .number n => n.integer.bind fun
      | .ofNat k => if h : k ≤ 1000 then some ⟨k, h⟩ else none
      | .negSucc _ => none
  | _ => none

def resolvePriority (priority : Js) (refuse : String → Refusal) :
    Except Refusal { n : Nat // n ≤ 1000 } :=
  if priority.isUndefined then .ok ⟨0, Nat.zero_le _⟩
  else
    match toPriority priority with
    | some n => .ok n
    | none => .error (refuse "priority is a whole number from 0 to 1000")

/-- `at`, as the milliseconds it names; a time before 1970 is 0. -/
def resolveAt (atDate : Js) (refuse : String → Refusal) : Except Refusal Int :=
  if atDate.isUndefined then .ok (-1)
  else
    match atDate with
    | .date (some ms) => .ok (max 0 ms)
    | _ => .error (refuse "at is a valid Date")

def resolveDelay (delay : Js) (refuse : String → Refusal) : Except Refusal Nat :=
  if delay.isUndefined then .ok 0
  else
    match durationMs delay with
    | some ms => .ok ms
    | none => .error (refuse "delay is a whole number of milliseconds or a string such as '10m'")

/-- The job's own timeout, capped at the longest timer. -/
def resolveTimeout (timeout : Js) (refuse : String → Refusal) :
    Except Refusal (Option { n : Nat // 1 ≤ n ∧ n ≤ maxTimerMs }) :=
  if timeout.isUndefined then .ok none
  else
    match positiveMs timeout with
    | some ms => .ok (some (clampTimeout ms))
    | none => .error (refuse ("timeout is at least 1 millisecond, as a whole number " ++
        "or a string such as '10m'"))

def resolveAdd (options : AddOptions) (uuid : Utf16) (call : String) (queue : Utf16)
    (grouped : Bool) : Except Refusal ResolvedAdd := do
  let refuse := refuseCall call queue
  let id ← resolveId options.id uuid refuse
  let priority ← resolvePriority options.priority refuse
  if !options.delay.isUndefined && !options.atDate.isUndefined then
    .error (refuse "delay and at say the same thing; give one")
  let atMs ← resolveAt options.atDate refuse
  let delayMs ← resolveDelay options.delay refuse
  let timeoutMs ← resolveTimeout options.timeout refuse
  let dedupe ← resolveDedupe options call queue
  let group ← resolveGroup options.group grouped call queue
  .ok { id, priority, timeoutMs, dedupe, group, atMs
        delayMs := if dedupe.mode = .debounce then dedupe.waitMs else delayMs }

/-! What a bound queue sends. -/

/-- `ADD_CHUNK`. -/
def addChunk : Nat := 500

/-- `encodeData`. -/
def encodeData (json : Json V) (d : QueueDefinition V) (data : V) (call : String) :
    Except Refusal String :=
  let refused := fun detail => Refusal.queueError "INVALID" d.name
    ([.text (call ++ " on ")] ++ quoted d.name ++ [.text ": "] ++ detail)
  toJson json d.schema data refused "the data " "the schema"

/-- A number of milliseconds as a script takes it: `-1` for none. -/
def orNone : Option Nat → Int
  | some ms => ms
  | none => -1

namespace QueueDefinition

/-- `groupArgs`. -/
def groupArgs (d : QueueDefinition V) : GroupArgs :=
  match d.groups with
  | some groups => ⟨true, groups.concurrency⟩
  | none => ⟨false, 0⟩

/-- The eleven arguments of one job. -/
def addArgs (d : QueueDefinition V) (options : ResolvedAdd) (data : String) : AddJob where
  id := options.id.text
  data := data
  priority := options.priority
  attempts := d.attempts
  delayMs := options.delayMs
  atMs := options.atMs
  timeoutMs := orNone (options.timeoutMs.map Subtype.val)
  mode := options.dedupe.mode
  dedupeKey := options.dedupe.key.text
  ttlMs := options.dedupe.ttlMs
  group := options.group.1.text

/-- What `fireDue` sends for a due schedule: the definition's own timeout, as it
was resolved. -/
def fireArgs (d : QueueDefinition V) (id : String) (due next : Nat) : Call :=
  .fire id due next d.attempts (orNone (d.timeout.map Subtype.val))

end QueueDefinition

/-- A schedule as `UPSERT` and `SYNC` are given it. -/
def ScheduleDefinition.args (calendar : Calendar) (now : Nat) (s : ScheduleDefinition) :
    ScheduleArgs where
  id := s.id.1.text
  kind := s.kind
  spec := s.spec
  timezone := s.timezone
  data := s.data
  next := s.firstNext calendar now

/-- The calls a queue bound to `d` and its workers send. Only what writes a job or
a schedule is asked about; the rest may be anything. -/
def Sent (json : Json V) (calendar : Calendar) (d : QueueDefinition V) : Call → Prop
  | .add jobs => jobs.length ≤ addChunk ∧ ∀ j ∈ jobs, ∃ options uuid call resolved value data,
      resolveAdd options uuid call d.name d.groups.isSome = .ok resolved ∧
      encodeData json d value call = .ok data ∧ j = d.addArgs resolved data
  | .fire id due next attempts timeout =>
      .fire id due next attempts timeout = d.fireArgs id due next
  | .upsert args => ∃ id schedule lead now resolved,
      resolveSchedule json calendar id schedule d.schema lead d.name = .ok resolved ∧
      args = resolved.args calendar now
  | .sync list => ∃ now, list = d.schedules.map (·.args calendar now)
  | _ => True

end NxgtData.Queue
