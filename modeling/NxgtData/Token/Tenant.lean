import NxgtData.Lib.Realm
import NxgtData.Refusal

/-!
`tenantToken`: the uids, the seconds of `expiresAt`, and the copy of the rules that is signed.
The caller's objects are read as JavaScript reads them, so a read may throw or run code.
-/
namespace NxgtData.Token
open Realm

inductive Failure (Thrown : Type) where
  | thrown (e : Thrown)
  | typeError (message : Message)
  /-- A `SearchIndexError`. -/
  | indexError (code : String) (indexUid : List Utf16) (message : Message)
  /-- The module's own `Refusal`, the end of a sentence. -/
  | refusal (problem : String)

/-- A copied filter: plain strings and arrays. -/
inductive Filter where
  | text (s : Utf16)
  | list (entries : List Filter)

inductive Rule where
  | null
  /-- `{}`. -/
  | bare
  | filter (f : Filter)

/-- What is signed. -/
structure Signed where
  rules : List (Utf16 × Rule)
  exp : Int

variable {Obj World Thrown : Type} (realm : Realm Obj World Thrown)

abbrev Reading (World Thrown : Type) := Run World (Failure Thrown)

def read {α : Type} (run : Run World Thrown α) : Reading World Thrown α := run.trap .thrown

def refuseIf (c : Prop) [Decidable c] (e : Failure Thrown) : Reading World Thrown Unit :=
  if c then throw e else pure ()

/-! uid.ts -/

def isUidUnit (u : UInt16) : Bool :=
  let n := u.toNat
  65 ≤ n && n ≤ 90 || 97 ≤ n && n ≤ 122 || 48 ≤ n && n ≤ 57 || n = 95 || n = 45

/-- `/^[A-Za-z0-9_-]{1,400}$/`. -/
def isIndexUid (s : Utf16) : Bool := 1 ≤ s.length && s.length ≤ 400 && s.all isUidUnit

/-! rules.ts -/

def filterKey : Key := .string (Utf16.ofText "filter")

def toJsonKey : Key := .string (Utf16.ofText "toJSON")

/-- A unit of `/[\s\u0085]/`. -/
def isBlank (u : UInt16) : Bool := Utf16.isSpace u || u.toNat = 0x85

mutual

/-- Whether a copied filter filters nothing. -/
def Filter.isEmpty : Filter → Bool
  | .text s => s.all isBlank
  | .list entries => Filter.allEmpty entries

def Filter.allEmpty : List Filter → Bool
  | [] => true
  | f :: rest => f.isEmpty && Filter.allEmpty rest

end

def Rule.isEmpty : Rule → Bool
  | .null => false
  | .bare => true
  | .filter f => f.isEmpty

/-- `shapeOf`, of an object by whether it is an array. -/
def shapeOf (array : Bool) : Value Obj → String
  | .undefined => "undefined"
  | .null => "null"
  | .boolean _ => "a boolean"
  | .number _ => "a number"
  | .string _ => "a string"
  | .symbol _ => "a symbol"
  | .bigint _ => "a bigint"
  | .object o => if array then "an array" else if realm.callable o then "a function" else "an object"

/-- `Array.from({ length }, (_, i) => copyFilter(value[i], depth + 1))`, from the `i`th on. -/
def copyEntries (copy : Value Obj → Reading World Thrown Filter) (o : Obj) :
    Nat → Nat → Reading World Thrown (List Filter)
  | 0, _ => pure []
  | n + 1, i => do
      let value ← read (realm.get o i)
      let entry ← copy value
      let rest ← copyEntries copy o n (i + 1)
      pure (entry :: rest)

/-- The refusal of a filter, or of an entry of it. -/
def refuseFilter (left : Nat) (array : Bool) (value : Value Obj) : Reading World Thrown Filter :=
  throw (.refusal ("whose filter " ++ (if left = 2 then "is" else "holds") ++ " " ++
    shapeOf realm array value))

/-- `copyFilter` at depth `2 - left`. -/
def copyFilter : Nat → Value Obj → Reading World Thrown Filter
  | _, .string s => pure (.text s)
  | 0, .object o => do
      let array ← read (realm.isArray o)
      refuseFilter realm 0 array (.object o)
  | left + 1, .object o => do
      let array ← read (realm.isArray o)
      if array then do
        let shadowed ← read (realm.hasOwn o toJsonKey)
        if shadowed then throw (.refusal "whose filter has a toJSON")
        else do
          let length ← read (realm.length o)
          let entries ← copyEntries realm (copyFilter left) o length 0
          pure (.list entries)
      else refuseFilter realm (left + 1) array (.object o)
  | left, value => refuseFilter realm left false value

/-- A descriptor of a list of them by its key. -/
def descriptorOf (own : List (Key × Descriptor Obj)) (key : Key) : Option (Descriptor Obj) :=
  own.lookup key

def copyRule (value : Value Obj) : Reading World Thrown Rule :=
  match value with
  | .null => pure .null
  | .object o => do
      refuseIf (realm.callable o) (.refusal "that is a function")
      let array ← read (realm.isArray o)
      refuseIf array (.refusal "that is an array")
      let proto ← read (realm.getPrototypeOf o)
      refuseIf (proto = .other) (.refusal "that is not a plain object")
      let own ← read (realm.getOwnPropertyDescriptors o)
      refuseIf ((descriptorOf own toJsonKey).isSome) (.refusal "that has a toJSON")
      refuseIf (∃ property ∈ own, property.1 ≠ filterKey)
        (.refusal "that has a key other than filter")
      match descriptorOf own filterKey with
      | none => pure .bare
      | some (.accessor _) => throw (.refusal "whose filter is a getter")
      | some (.data _ false) => throw (.refusal "whose filter is not enumerable")
      | some (.data .undefined true) => pure .bare
      | some (.data .null true) => pure .bare
      | some (.data filter true) => do
          let f ← copyFilter realm 2 filter
          pure (.filter f)
  | other => throw (.refusal ("that is " ++ shapeOf realm false other))

/-- `"movies", "people"`. -/
def quotedUids (uids : List Utf16) : Message := ([.text ", "] : Message).intercalate (uids.map quoted)

/-- A rule of a uid, with a `Refusal` told as a `TypeError`. -/
def copyRuleOf (call : Message) (own : List (Key × Descriptor Obj)) (uid : Utf16) :
    Reading World Thrown Rule := fun w =>
  let rule : Reading World Thrown Rule :=
    match descriptorOf own (.string uid) with
    | some (.data value true) => copyRule realm value
    | some (.data _ false) => throw (.refusal "that is not enumerable")
    | some (.accessor _) => throw (.refusal "that is a getter")
    | none => throw (.refusal "that is missing")
  match rule w with
  | .error (.refusal problem) => .error (.typeError (call ++
      [.text ": searchRules has a rule for \"", .units uid, .text ("\" " ++ problem ++
        "; give it \x7b filter: … \x7d, or null to search it with no filter")]))
  | out => out

def copyEach (call : Message) (own : List (Key × Descriptor Obj)) :
    List Utf16 → Reading World Thrown (List (Utf16 × Rule))
  | [] => pure []
  | uid :: uids => do
      let rule ← copyRuleOf realm call own uid
      let rest ← copyEach call own uids
      pure ((uid, rule) :: rest)

/-- The prototype of what is given: a missing value stands for no rules. -/
def prototypeOf : Value Obj → Reading World Thrown Prototype
  | .undefined | .null => pure .plain
  | .object o => read (realm.getPrototypeOf o)
  | _ => pure .other

def descriptorsOf : Value Obj → Reading World Thrown (List (Key × Descriptor Obj))
  | .object o => read (realm.getOwnPropertyDescriptors o)
  | _ => pure []

/-- No rule, or `undefined`. -/
def isMissing (own : List (Key × Descriptor Obj)) (uid : Utf16) : Bool :=
  match descriptorOf own (.string uid) with
  | none | some (.data .undefined _) => true
  | _ => false

def unmatchedKeys (own : List (Key × Descriptor Obj)) (uids : List Utf16) : List Utf16 :=
  own.filterMap fun
    | (.string s, _) => if s ∈ uids then none else some s
    | (.symbol _, _) => none

def copyRules (given : Value Obj) (uids : List Utf16) (call : Message) :
    Reading World Thrown (List (Utf16 × Rule)) := do
  let proto ← prototypeOf realm given
  refuseIf (proto = .other)
    (.typeError (call ++ [.text ": searchRules must be a plain object"]))
  let own ← descriptorsOf realm given
  let unmatched := unmatchedKeys own uids
  refuseIf (unmatched ≠ [])
    (.typeError (call ++ [.text ": searchRules names "] ++ quotedUids unmatched ++
      [.text ", which is not the uid of any of its indexes"]))
  let missing := uids.filter (isMissing own)
  refuseIf (missing ≠ [])
    (.typeError (call ++ [.text ": searchRules has no rule for "] ++ quotedUids missing ++
      [.text ("; give each index \x7b filter: … \x7d, or null to search it with no filter")]))
  let signed ← copyEach realm call own uids
  let empty := (signed.filter fun rule => rule.2.isEmpty).map Prod.fst
  refuseIf (empty ≠ [])
    (.typeError (call ++ [.text ": searchRules has an empty rule for "] ++ quotedUids empty ++
      [.text ("; give it \x7b filter: … \x7d, or null to search it with no filter")]))
  pure signed

/-! expiry.ts -/

/-- `1e11`. -/
def maxSeconds : Int := 100000000000

/-- `secondsOf`: the seconds to sign, or the problem. -/
def secondsOf (expiresAt : Value Obj) (now : Int) (w : World) : Except String Int :=
  match expiresAt with
  | .undefined | .null =>
      .error "is missing; it takes a Date, or whole seconds since the epoch"
  | .number n =>
      match n with
      | .finite _ =>
          match n.integer with
          | none => .error "is not a whole number of seconds"
          | some seconds =>
              if maxSeconds < seconds then
                .error "is a number of milliseconds; it takes seconds, or a Date"
              else if seconds * 1000 ≤ now then .error "is in the past"
              else .ok seconds
      | _ => .error "is neither a Date nor a finite number"
  | .object o =>
      match realm.timeOf o w with
      | none => .error "is neither a Date nor a finite number"
      | some none => .error "is an invalid Date"
      | some (some time) =>
          if time ≤ now then .error "is in the past"
          else if maxSeconds < time / 1000 then
            .error "is a Date past the year 5138; was it built from milliseconds times 1000?"
          else .ok (time / 1000)
  | _ => .error "is neither a Date nor a finite number"

def expirySeconds (expiresAt : Value Obj) (now : Int) (uids : List Utf16) (call : Message) :
    Reading World Thrown Int := fun w =>
  match secondsOf realm expiresAt now w with
  | .ok seconds => .ok (seconds, w)
  | .error problem =>
      .error (.indexError "INVALID_EXPIRES_AT" uids (call ++ [.text (": expiresAt " ++ problem)]))

/-! tenant-token.ts -/

def uidOf : Value Obj → Option Utf16
  | .string s => if isIndexUid s then some s else none
  | _ => none

/-- `[...new Set(uids)]`. -/
def distinct (uids : List Utf16) : List Utf16 := uids.reverse.dedup.reverse

/-- The uids of the indexes, the options' rules and time, and the clock's time. A value that
is no index uid is refused, whichever of the distinct values it is. -/
def tenantToken (indexUids : List (Value Obj)) (searchRules expiresAt : Value Obj) (now : Int) :
    Reading World Thrown Signed := do
  match indexUids.mapM uidOf with
  | none =>
      throw (.typeError [.text ("tenantToken: an index uid is not a valid Meilisearch uid " ++
        "(letters, digits, - and _ only), and a * in it would widen the token to other indexes")])
  | some all =>
      let uids := distinct all
      let call : Message := .text "tenantToken for " :: quotedUids uids
      let seconds ← expirySeconds realm expiresAt now uids call
      let rules ← copyRules realm searchRules uids call
      pure ⟨rules, seconds⟩

end NxgtData.Token
