import NxgtData.Refusal

/-!
The checks of an instance, made by `defineRedis` and again by `openRedis`. A
module is given by the definitions `wiredOf` finds in it: the key each one is
exported under, and its name.
-/
namespace NxgtData.Wiring

/-- One Redis: where it is, and what is wired on it. A client and its options are
only asked whether they are given. -/
structure InstanceConfig where
  uri : Option Utf16 := none
  client : Bool := false
  clientOptions : Bool := false
  keyPrefix : Option Utf16 := none
  caches : List (Utf16 × Utf16) := []
  channels : List (Utf16 × Utf16) := []
  limits : List (Utf16 × Utf16) := []
  idempotency : List (Utf16 × Utf16) := []
  queues : List (Utf16 × Utf16) := []

/-- `{ kind, key }`, what `seen` keeps of a name. -/
structure Seen where
  kind : String
  key : Utf16

/-- One definition against the names seen before it. -/
def refuseName (place : Message) (seen : List (Utf16 × Seen)) (kind : String)
    (wired : Utf16 × Utf16) : Except Refusal (List (Utf16 × Seen)) :=
  let (key, name) := wired
  match seen.lookup name with
  | none => .ok ((name, ⟨kind, key⟩) :: seen)
  | some first =>
      if first.kind = kind then
        .error (.typeError (place ++ [.text s!" wires the {kind} named "] ++ quoted name ++
          [.text " twice, under "] ++ quoted first.key ++ [.text " and "] ++ quoted key ++
          [.text (". They would share every key in Redis. Export one of them, or give it " ++
            "a name of its own.")]))
      else
        let why := if kind = "queue" then "One name means one thing on an instance."
          else "They would share every key in Redis."
        .error (.typeError (place ++ [.text s!" wires the {first.kind} "] ++ quoted first.key ++
          [.text s!" and the {kind} "] ++ quoted key ++ [.text " under one name, "] ++
          quoted name ++ [.text s!". {why} Give one of them a name of its own."]))

/-- `refuseClash`: a name used twice among the groups. -/
def refuseClash (place : Message) (groups : List (String × List (Utf16 × Utf16))) :
    Except Refusal Unit := do
  let wired := groups.flatMap fun group => group.2.map fun entry => (group.1, entry)
  let _ ← wired.foldlM (fun seen entry => refuseName place seen entry.1 entry.2) []
  .ok ()

def checkNothingWired (place : Message) (i : InstanceConfig) : Except Refusal Unit :=
  if i.caches.isEmpty && i.channels.isEmpty && i.limits.isEmpty && i.idempotency.isEmpty &&
      i.queues.isEmpty then
    .error (.typeError (place ++ [.text (" wires no cache, no channel, no rate limit, no " ++
      "idempotency and no queue. Pass the module that exports them, or drop the instance.")]))
  else .ok ()

/-- `/[{}]/.test`. -/
def hasBraces (s : Utf16) : Bool := s.any fun u => u = 123 || u = 125

def checkPrefixBraces (place : Message) (i : InstanceConfig) : Except Refusal Unit :=
  match i.keyPrefix with
  | none => .ok ()
  | some given =>
      if !hasBraces given || i.queues.isEmpty then .ok ()
      else .error (.typeError (place ++ [.text (" has a prefix with braces, and it wires " ++
        "queues; a queue's name is its keys' hash tag, so the prefix in front of it cannot " ++
        "hold any.")]))

def checkNoClash (place : Message) (i : InstanceConfig) : Except Refusal Unit := do
  refuseClash place [("cache", i.caches), ("rate limit", i.limits),
    ("idempotency", i.idempotency), ("queue", i.queues)]
  refuseClash place [("channel", i.channels)]

/-- `checkInstance`: refuses a configuration that cannot be honoured. -/
def checkInstance (call : String) (name : Utf16) (i : InstanceConfig) : Except Refusal Unit := do
  let place : Message := [.text (call ++ ": instance ")] ++ quoted name
  let refuse := fun (what : String) =>
    Except.error (Refusal.typeError (place ++ [.text what]) : Refusal)
  if i.uri.isNone && !i.client then
    refuse " has neither uri nor client. Give it one."
  if i.uri.isSome && i.client then
    refuse (" has both uri and client. Pass the URI to connect to, or the client you " ++
      "already opened.")
  if i.client && i.clientOptions then
    refuse (" has clientOptions beside a client. The client was opened with its own; pass " ++
      "a uri, or drop the options.")
  if i.keyPrefix.any fun given => given.trim = [] then
    refuse " has an empty prefix. Leave it out, or give it a name."
  checkNothingWired place i
  checkPrefixBraces place i
  checkNoClash place i

end NxgtData.Wiring
