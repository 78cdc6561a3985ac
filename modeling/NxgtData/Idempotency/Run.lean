import Mathlib.Logic.Function.Basic
import NxgtData.Idempotency.Scripts

/-!
`run` on one key, with any number of others: each run is where its code stands,
commands and answers are in flight, and a command reaches the server at any time
after it was sent, in any order, or never. Every act says in an entry what the
history counts: who took the key, called `work`, stored, released or replayed.
-/
namespace NxgtData.Idempotency

variable {J : Type}

/-- The schema of a definition: its output, or the codes of its issues. -/
structure Schema (J : Type) where
  safeParse : J → Except String J

/-- `JSON.stringify`, `none` for a value without a JSON form, and `JSON.parse`,
`none` when it throws. -/
structure Json (J : Type) where
  stringify : J → Option String
  parse : String → Option J

inductive GuardErrorCode where
  | inProgress
  | mismatch
  | invalid
  | leaseLost
  | timeout
  deriving DecidableEq, Repr

structure GuardError where
  code : GuardErrorCode
  definition : String
  message : String
  retryAfter : Option Nat := none
  deriving DecidableEq, Repr

/-- What a run throws: an error of its own, or another's as it came. -/
inductive Failure where
  | guard (error : GuardError)
  | other
  deriving DecidableEq, Repr

/-- What a bound operation resolved from its definition. -/
structure Context (J : Type) where
  name : String
  ttl : Nat
  lease : Nat
  schema : Schema J
  json : Json J

section Result
variable (ctx : Context J)

def Context.invalid (detail : String) : GuardError :=
  ⟨.invalid, ctx.name, s!"run on \"{ctx.name}\": {detail}", none⟩

def Context.corrupt : GuardError :=
  ctx.invalid "the stored record is not one this package wrote, and the work was not run again"

/-- `toStored`: the JSON, and the value it reads back as. -/
def toStored (result : J) : Except GuardError (String × J) :=
  match ctx.schema.safeParse result with
  | .error codes => .error (ctx.invalid
      s!"the result does not match the schema, so it was not stored {codes}")
  | .ok data =>
      match ctx.json.stringify data with
      | none => .error (ctx.invalid "the result has no JSON form, so it was not stored")
      | some json =>
          match (ctx.json.parse json).map ctx.schema.safeParse with
          | some (.ok value) => .ok (json, value)
          | some (.error codes) => .error (ctx.invalid
              ("the result does not match the schema once stored as JSON, so it was not stored " ++
                codes))
          | none => .error (ctx.invalid "the result has no JSON form, so it was not stored")

/-- `fromStored`. -/
def fromStored (json : String) : Except GuardError J :=
  match (ctx.json.parse json).map ctx.schema.safeParse with
  | none => .error ctx.corrupt
  | some (.error codes) => .error (ctx.invalid
      ("the stored result no longer matches the schema, and the work was not run again " ++ codes))
  | some (.ok value) => .ok value

variable {ctx}

/-- What is stored is read back as the value the first caller is handed. -/
theorem fromStored_toStored {result value : J} {json : String}
    (h : toStored ctx result = .ok (json, value)) : fromStored ctx json = .ok value := by
  unfold toStored at h
  split at h
  next => cases h
  next =>
    split at h
    next => cases h
    next =>
      split at h
      next back =>
        cases h
        simp only [fromStored, back]
      next => cases h
      next => cases h

end Result

/-- `newToken`: 32 lowercase hex. -/
abbrev Token := { s : String // isHex 32 s = true }

/-- `fingerprintOf`: a SHA-256 in lowercase hex, or none. -/
abbrev Fingerprint := { s : String // s = "" ∨ isHex 64 s = true }

def firstPoll : Nat := 25

def lastPoll : Nat := 250

/-- Where a run stands. -/
inductive Phase (J : Type) where
  /-- A `BEGIN` is awaited; the next pause is `pause`. -/
  | beginning (pause : Nat)
  | sleeping (ms pause : Nat)
  /-- `work` was called, and the lease is renewed. -/
  | working
  /-- `work` or its result failed, and the release is awaited. -/
  | releasing (error : Failure)
  | completing (json : String) (value : J)
  | returned (value : J) (replayed : Bool)
  | threw (error : Failure)

/-- One `run`, with the host's reading at which its `wait` is spent. -/
structure Run (J : Type) where
  token : Token
  fp : Fingerprint
  deadline : Nat
  timeoutMs : Option Nat
  phase : Phase J
  /-- The heartbeat found the key gone, or another run's. -/
  lost : Bool := false

inductive Command where
  | begin
  | complete (json : String)
  | renew
  | release
  deriving DecidableEq, Repr

inductive Answer where
  | begun (found : Begun)
  | completed (stored : Bool)
  | renewed (held : Bool)
  | released (freed : Bool)
  deriving DecidableEq, Repr

/-- The key, the runs, and what is in flight to the server and back. -/
structure World (J : Type) where
  key : Option Key := none
  runs : Nat → Option (Run J) := fun _ => none
  used : List Token := []
  sent : List (Nat × Command) := []
  answers : List (Nat × Answer) := []

def World.empty : World J := {}

/-- What a history tells of. -/
inductive Entry (J : Type) where
  /-- A `BEGIN` of the run wrote the running record. -/
  | took (i : Nat)
  /-- Its `work` was called. -/
  | called (i : Nat)
  /-- Its `work` gave a result that is stored as `json`. -/
  | worked (i : Nat) (json : String) (value : J)
  /-- Its `work` threw, or gave a result that was refused. -/
  | failed (i : Nat)
  /-- Its `BEGIN` failed, and a release was sent behind it. -/
  | abandoned (i : Nat)
  | stored (i : Nat) (fp json : String)
  | released (i : Nat)
  | replayed (i : Nat) (fp : String) (value : J)
  | expired
  /-- `forget`, or any other `DEL`. -/
  | deleted

inductive Act (J : Type) where
  | start (i : Nat) (token : Token) (fp : Fingerprint) (now wait : Nat) (timeoutMs : Option Nat)
  | wake (i : Nat)
  | beat (i : Nat)
  /-- `work` and the checks of its result settle. -/
  | work (i : Nat) (result : Except Unit J)
  /-- A command reaches the server, at its clock in ms. -/
  | exec (i : Nat) (command : Command) (now : Nat)
  /-- An answer reaches the run, at the host's clock. -/
  | answer (i : Nat) (answer : Answer) (now : Nat)
  /-- What the run awaits rejects: at its timeout, or as the connection fails. -/
  | fail (i : Nat) (late : Bool)
  | expire (now : Nat)
  | forget

section Step
variable (ctx : Context J)

/-- `timedOut`. -/
def timedOut (ms : Nat) (consequence : String) : GuardError :=
  ⟨.timeout, ctx.name,
    s!"run on \"{ctx.name}\": Redis did not answer within {ms}ms; {consequence}", none⟩

/-- A rejection: the timeout when it is late, else the client's own. -/
def Run.rejection (r : Run J) (late : Bool) (consequence : String) : Failure :=
  match r.timeoutMs with
  | some ms => if late then .guard (timedOut ctx ms consequence) else .other
  | none => .other

def leaseLost : GuardError :=
  ⟨.leaseLost, ctx.name, s!"run on \"{ctx.name}\": the key was taken from this run before it finished " ++
    s!"(forgotten, or its lease of {ctx.lease}ms went unrenewed), so a " ++
    "repeat may have run it too; its result was not stored", none⟩

/-- `notStarted`, of an answer that is not `done`. -/
def refusal : Begun → GuardError
  | .running pttl => ⟨.inProgress, ctx.name, s!"run on \"{ctx.name}\": the same key is still running; " ++
      "retryAfter is when its lease lapses unless renewed", some pttl⟩
  | .mismatch => ⟨.mismatch, ctx.name, s!"run on \"{ctx.name}\": this key was first used with a " ++
      "different fingerprint; a repeat must send the same request", none⟩
  | _ => ctx.corrupt

def World.put (w : World J) (i : Nat) (r : Run J) : World J :=
  { w with runs := Function.update w.runs i (some r) }

def World.send (w : World J) (i : Nat) (c : Command) : World J :=
  { w with sent := (i, c) :: w.sent }

/-- The answer of a `BEGIN`: poll again, run, replay or refuse. -/
def onBegun (i : Nat) (r : Run J) (pause now : Nat) : Begun → Option (Entry J) × Phase J
  | .running pttl =>
      if now < r.deadline then
        (none, .sleeping (max 1 (min pttl (min pause (r.deadline - now)))) pause)
      else (none, .threw (.guard (refusal ctx (.running pttl))))
  | .started => (some (.called i), .working)
  | .done json =>
      match fromStored ctx json with
      | .ok value => (some (.replayed i r.fp.1 value), .returned value true)
      | .error error => (none, .threw (.guard error))
  | found => (none, .threw (.guard (refusal ctx found)))

/-- A command at the server, under its run's token. -/
def Command.exec (c : Command) (i : Nat) (r : Run J) (now : Nat) (key : Option Key) :
    Option (Entry J) × Answer × Option Key :=
  match c with
  | .begin =>
      let (found, key) := Idempotency.begin now r.token.1 r.fp.1 ctx.lease key
      (if found = .started then some (.took i) else none, .begun found, key)
  | .complete json =>
      let (stored, key) := Idempotency.complete now r.token.1 json ctx.ttl key
      (if stored then some (.stored i r.fp.1 json) else none, .completed stored, key)
  | .renew =>
      let (held, key) := Idempotency.renew now r.token.1 ctx.lease key
      (none, .renewed held, key)
  | .release =>
      let (freed, key) := Idempotency.release r.token.1 key
      (if freed then some (.released i) else none, .released freed, key)

/-- An answer at its run, which takes none but the one it awaits. -/
def Run.take (r : Run J) (i now : Nat) (a : Answer) : Option (Entry J) × Run J :=
  match a, r.phase with
  | .begun found, .beginning pause =>
      let (entry, phase) := onBegun ctx i r pause now found
      (entry, { r with phase })
  | .renewed held, .working => (none, if held then r else { r with lost := true })
  | .completed stored, .completing _ value =>
      (none, { r with
        phase := if stored then .returned value false else .threw (.guard (leaseLost ctx)) })
  | .released _, .releasing error => (none, { r with phase := .threw error })
  | _, _ => (none, r)

/-- What the run awaits rejects. -/
def Run.reject (r : Run J) (i : Nat) (late : Bool) (w : World J) : Option (Entry J) × World J :=
  match r.phase with
  | .beginning _ =>
      let error := r.rejection ctx late "`work` was not called; a key it took is released"
      (some (.abandoned i), (w.put i { r with phase := .threw error }).send i .release)
  | .releasing error => (none, w.put i { r with phase := .threw error })
  | .completing _ _ =>
      let error := r.rejection ctx late ("`work` ran, and its result may or may not be stored: a repeat " ++
        "replays it if it was, or runs `work` again once the lease lapses")
      (none, w.put i { r with phase := .threw error })
  | _ => (none, w)

/-- `work` settled, and its result was stored as JSON or refused. -/
def Run.settle (r : Run J) (i : Nat) (result : Except Unit J) (w : World J) :
    Option (Entry J) × World J :=
  match r.phase, result with
  | .working, .error _ =>
      (some (.failed i), (w.put i { r with phase := .releasing .other }).send i .release)
  | .working, .ok result =>
      match toStored ctx result with
      | .error error =>
          (some (.failed i), (w.put i { r with phase := .releasing (.guard error) }).send i .release)
      | .ok (json, value) =>
          if r.lost then (none, w.put i { r with phase := .threw (.guard (leaseLost ctx)) })
          else
            (some (.worked i json value),
              (w.put i { r with phase := .completing json value }).send i (.complete json))
  | _, _ => (none, w)

/-- One act; one that cannot happen changes nothing. -/
def World.step (a : Act J) (w : World J) : Option (Entry J) × World J :=
  match a with
  | .start i token fp now wait timeoutMs =>
      if (w.runs i).isSome ∨ token ∈ w.used then (none, w)
      else
        let r : Run J :=
          { token, fp, deadline := now + wait, timeoutMs, phase := .beginning firstPoll }
        (none, ({ w with used := token :: w.used }.put i r).send i .begin)
  | .wake i =>
      match w.runs i with
      | none => (none, w)
      | some r =>
          match r.phase with
          | .sleeping _ pause =>
              (none, (w.put i { r with phase := .beginning (min (pause * 2) lastPoll) }).send i .begin)
          | _ => (none, w)
  | .beat i =>
      match w.runs i with
      | none => (none, w)
      | some r =>
          match r.phase with
          | .working => if r.lost then (none, w) else (none, w.send i .renew)
          | _ => (none, w)
  | .work i result =>
      match w.runs i with
      | none => (none, w)
      | some r => r.settle ctx i result w
  | .exec i c now =>
      match w.runs i with
      | none => (none, w)
      | some r =>
          if (i, c) ∈ w.sent then
            let (entry, answer, key) := c.exec ctx i r now w.key
            (entry, { w with key, sent := w.sent.erase (i, c), answers := (i, answer) :: w.answers })
          else (none, w)
  | .answer i a now =>
      match w.runs i with
      | none => (none, w)
      | some r =>
          if (i, a) ∈ w.answers then
            let (entry, r) := r.take ctx i now a
            (entry, { w with answers := w.answers.erase (i, a) }.put i r)
          else (none, w)
  | .fail i late =>
      match w.runs i with
      | none => (none, w)
      | some r => r.reject ctx i late w
  | .expire now =>
      match w.key with
      | some ⟨_, some expires⟩ =>
          if expires < now then (some .expired, { w with key := none }) else (none, w)
      | _ => (none, w)
  | .forget => if w.key.isSome then (some .deleted, { w with key := none }) else (none, w)

end Step
end NxgtData.Idempotency
