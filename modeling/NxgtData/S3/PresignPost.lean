import NxgtData.Lib.Calendar
import NxgtData.Refusal

/-!
`presignPostForm`: the checks of its options, and the policy it signs. The policy is kept as the
document it is, beside the fields that carry it: base64 of its JSON, and the signature of that
text.
-/
namespace NxgtData.S3

/-- A definition that `defineBucket` accepts. -/
structure BucketDefinition (P : Type) where
  bucket : Utf16
  key : P → Utf16
  /-- The content types accepted, as a list. -/
  accepted : Option (List Utf16) := none
  maxSize : Option ℚ := none
  named : bucket ≠ []
  some : accepted ≠ some []
  positive : ∀ size, maxSize = Option.some size → 0 < size

/-- The options, as a caller may give them. -/
structure PresignPostOptions where
  expiresIn : Js := .undefined
  maxSize : Js := .undefined
  minSize : Js := .undefined
  type : Js := .undefined
  acl : Js := .undefined
  contentDisposition : Js := .undefined

/-- Who signs, as Bun's own signed URL says. -/
structure PostSigner where
  url : Utf16
  accessKeyId : Utf16
  region : Utf16
  sessionToken : Option Utf16

inductive Failure where
  | s3Error (code : String) (key : Utf16) (message : Message)
  | rangeError

/-- A condition of a policy, and the bucket it is for. A field's name has no `$` here. -/
inductive PolicyCondition where
  | bucket (name : Utf16)
  | eq (field value : Utf16)
  | startsWith (field value : Utf16)
  | contentLengthRange (min max : Nat)
  deriving DecidableEq

structure PolicyDocument where
  /-- In milliseconds, as the text of a date. -/
  expiration : Int
  conditions : List PolicyCondition

structure PresignedPost where
  url : Utf16
  fields : List (Utf16 × Utf16)
  /-- What `fields` has as `policy`. -/
  document : PolicyDocument

/-! shape.ts, disposition.ts and guards.ts -/

def shapeOf : Js → String
  | .null => "null"
  | .undefined => "undefined"
  | .number .nan => "NaN"
  | .number (.infinite _) => "an infinite number"
  | .number (.finite x) =>
      if x.den ≠ 1 then "a fraction"
      else if x = 0 then "zero"
      else if x < 0 then "a negative number"
      else if x ≤ maxSafeInteger then "a number"
      else "a number too large"
  | .string s => if s = [] then "an empty string" else "a string"
  | .boolean _ => "a boolean"
  | .function => "a function"
  | .date _ | .object _ => "an object"

variable {P : Type} (definition : BucketDefinition P)

/-- `presignPost on "<bucket>"`. -/
def callOn : Message := .text "presignPost on " :: quoted definition.bucket

/-- ` (<where>)`. -/
def suffix : Message := .text " (" :: callOn definition ++ [.text ")"]

def acls : List Utf16 :=
  ["private", "public-read", "public-read-write", "aws-exec-read", "authenticated-read",
    "bucket-owner-read", "bucket-owner-full-control", "log-delivery-write"].map Utf16.ofText

/-- `MAX_EXPIRES_IN`, in seconds. -/
def maxExpiresIn : ℚ := 604800

def checkExpiresIn (key : Utf16) (value : Js) : Except Failure ℚ :=
  let refuse (got : String) : Except Failure ℚ := .error (.s3Error "WRONG_OPTION" key
    ([.text ("expiresIn is seconds, and must be above 0 and at most 604800 (seven days, which is " ++
      "S3's own limit); got " ++ got)] ++ suffix definition))
  match value with
  | .number (.finite x) =>
      if x ≤ 0 then refuse (shapeOf value)
      else if maxExpiresIn < x then refuse "a number above that"
      else .ok x
  | _ => refuse (shapeOf value)

def checkAcl (key : Utf16) (value : Js) : Except Failure Utf16 :=
  let refuse (got : String) : Except Failure Utf16 := .error (.s3Error "WRONG_OPTION" key
    ([.text "acl must be one of "] ++ ([.text ", "] : Message).intercalate
      (acls.map fun acl => [.units acl]) ++ [.text ("; got " ++ got)] ++ suffix definition))
  match value with
  | .string s => if s ∈ acls then .ok s else refuse "another string"
  | _ => refuse (shapeOf value)

def isPrintable (u : UInt16) : Bool := 0x20 ≤ u.toNat && u.toNat ≤ 0x7E

def checkDisposition (key : Utf16) (value : Js) : Except Failure Utf16 :=
  let refuse (got : String) : Except Failure Utf16 := .error (.s3Error "WRONG_OPTION" key
    ([.text ("contentDisposition must be a non-empty string of printable ASCII, with no line " ++
      "break or control character (spell a non-ASCII filename as filename*=UTF-8''...); got " ++
      got)] ++ suffix definition))
  match value with
  | .string s =>
      if s = [] then refuse (shapeOf value)
      else if s.all isPrintable then .ok s
      else refuse "a string with other characters"
  | _ => refuse (shapeOf value)

/-- A content type without its parameters; `lower` is `toLowerCase`. -/
def essenceOf (lower : Utf16 → Utf16) (type : Utf16) : Utf16 :=
  lower (Utf16.trim (type.takeWhile (· ≠ 59)))

/-- `accepted.join(', ')`. -/
def listed (accepted : List Utf16) : Message :=
  ([.text ", "] : Message).intercalate (accepted.map fun type => [.units type])

def checkType (lower : Utf16 → Utf16) (key : Utf16) (type : Option Utf16) :
    Except Failure Unit :=
  match definition.accepted with
  | none => .ok ()
  | some accepted =>
      match type with
      | none | some [] => .error (.s3Error "WRONG_TYPE" key (quoted definition.bucket ++
          [.text " accepts "] ++ listed accepted ++
          [.text ", and no content type was named. Pass \x60type\x60"] ++ suffix definition))
      | some type =>
          if accepted.any fun one => essenceOf lower one = essenceOf lower type then .ok ()
          else .error (.s3Error "WRONG_TYPE" key (quoted definition.bucket ++ [.text " accepts "] ++
            listed accepted ++ [.text ", not the type given"] ++ suffix definition))

/-! presign-post.ts -/

def wrongOption {α : Type} (key : Utf16) (what : String) : Except Failure α :=
  .error (.s3Error "WRONG_OPTION" key (callOn definition ++ [.text (": " ++ what)]))

def checkBytes (key : Utf16) (name : String) (value : Js) (least : Nat) :
    Except Failure (Count least) :=
  match value.count least with
  | some bytes => .ok bytes
  | none => wrongOption definition key
      s!"{name} is a whole number of bytes, at least {least}; got {shapeOf value}"

/-- The bucket's own bound, as a value. -/
def bound : Js :=
  match definition.maxSize with
  | none => .undefined
  | some size => .number (.finite size)

/-- The size range asked for, the most first: the bucket's own bound is what is left out. -/
def sizeRange (key : Utf16) (options : PresignPostOptions) :
    Except Failure (Count 0 × Count 1) := do
  let max := options.maxSize.orElse (bound definition)
  if max.isUndefined then
    wrongOption definition key ("this bucket has no maxSize, and a presigned POST is a bound on " ++
      "what a browser uploads. Pass \x60maxSize\x60, in bytes")
  else
    let max ← checkBytes definition key "maxSize" max 1
    match definition.maxSize.filter fun size => size < (max.1 : ℚ) with
    | some size =>
        .error (.s3Error "WRONG_OPTION" key (callOn definition ++
          [.text ": maxSize cannot be above the bucket's own ", .value (.number (.finite size)),
            .text " bytes; got a larger number"]))
    | none =>
        let min ← checkBytes definition key "minSize"
          (options.minSize.orElse (.number (.ofNat 0))) 0
        if max.1 < min.1 then
          wrongOption definition key "minSize is above maxSize, so no body could be posted"
        else .ok (min, max)

/-- A `Content-Type` field fixed by `eq`, or a `starts-with`. -/
inductive TypeRule where
  | field (type : Utf16)
  | condition (start : Utf16)

def typeRule (lower : Utf16 → Utf16) (key : Utf16) (type : Js) : Except Failure TypeRule :=
  let wrong : Except Failure TypeRule :=
    wrongOption definition key s!"type is a content type or \x7b startsWith \x7d; got {shapeOf type}"
  match type with
  | .undefined =>
      match definition.accepted with
      | none => .ok (.condition [])
      | some [one] => .ok (.field one)
      | some _ => do
          checkType definition lower key none
          wrong
  | .string s =>
      if s = [] then wrong
      else do
        checkType definition lower key (some s)
        .ok (.field s)
  | type =>
      match type.get "startsWith" with
      | .string start =>
          match definition.accepted with
          | some accepted =>
              .error (.s3Error "WRONG_TYPE" key (callOn definition ++
                [.text ": this bucket accepts "] ++ listed accepted ++
                [.text (", and a prefix would let another type through. Pass one of them as " ++
                  "\x60type\x60")]))
          | none => .ok (.condition start)
      | _ => wrong

/-! post-policy.ts -/

def keyField : Utf16 := Utf16.ofText "key"

def typeField : Utf16 := Utf16.ofText "Content-Type"

def aclField : Utf16 := Utf16.ofText "acl"

def dispositionField : Utf16 := Utf16.ofText "Content-Disposition"

def algorithm : Utf16 := Utf16.ofText "AWS4-HMAC-SHA256"

/-- A number in at least `width` digits. -/
def padded (width n : Nat) : Utf16 :=
  Utf16.ofText (String.ofList (List.replicate (width - (toString n).length) '0' ++ (toString n).toList))

/-- `20151229T000000Z`, of an instant in milliseconds. -/
def amzDateOf (now : Int) : Utf16 :=
  let d := Calendar.date (now / 86400000)
  let s := (now / 1000 % 86400).toNat
  let year := if 0 ≤ d.year ∧ d.year ≤ 9999 then padded 4 d.year.toNat
    else (if d.year < 0 then [] else Utf16.ofText "+") ++ padded 6 d.year.natAbs
  year ++ padded 2 d.month ++ padded 2 d.day ++ Utf16.ofText "T" ++ padded 2 (s / 3600) ++
    padded 2 (s / 60 % 60) ++ padded 2 (s % 60) ++ Utf16.ofText "Z"

/-- The fields of a signature. -/
def signing (signer : PostSigner) (amzDate : Utf16) : List (Utf16 × Utf16) :=
  [(Utf16.ofText "x-amz-algorithm", algorithm),
    (Utf16.ofText "x-amz-credential", signer.accessKeyId ++ Utf16.ofText "/" ++ amzDate.take 8 ++
      Utf16.ofText "/" ++ signer.region ++ Utf16.ofText "/s3/aws4_request"),
    (Utf16.ofText "x-amz-date", amzDate)] ++
  match signer.sessionToken with
  | none | some [] => []
  | some token => [(Utf16.ofText "x-amz-security-token", token)]

/-- `new Date(now + expiresIn * 1000)`. Rounding a double keeps the order and the integers, so
it moves no whole millisecond to the other side of the exact sum. -/
def expirationOf (now : Int) (expiresIn : ℚ) : Except Failure Int :=
  let ms : ℚ := now + expiresIn * 1000
  let clipped := if 0 ≤ ms then ⌊ms⌋ else ⌈ms⌉
  if -8640000000000000 ≤ clipped ∧ clipped ≤ 8640000000000000 then .ok clipped
  else .error .rangeError

/-- `encode` is base64 of the document's JSON, and `sign` the signature of that text. -/
def signPostPolicy (encode : PolicyDocument → Utf16) (sign : Utf16 → Utf16) (signer : PostSigner)
    (bucket : Utf16) (fields : List (Utf16 × Utf16)) (conditions : List PolicyCondition)
    (expiresIn : ℚ) (now : Int) : Except Failure PresignedPost := do
  let fields := fields ++ signing signer (amzDateOf now)
  let expiration ← expirationOf now expiresIn
  let document : PolicyDocument := {
    expiration
    conditions := .bucket bucket :: fields.map (fun f => .eq f.1 f.2) ++ conditions }
  .ok {
    url := signer.url
    fields := fields ++ [(Utf16.ofText "policy", encode document),
      (Utf16.ofText "x-amz-signature", sign (encode document))]
    document }

/-- `DEFAULT_EXPIRES_IN`. -/
def defaultExpiresIn : Js := .number (.ofNat 86400)

/-- A field of an option that is given. -/
def optionField (name : Utf16) (check : Js → Except Failure Utf16) (value : Js) :
    Except Failure (List (Utf16 × Utf16)) :=
  if value.isUndefined then .ok []
  else do
    let text ← check value
    .ok [(name, text)]

def TypeRule.fields : TypeRule → List (Utf16 × Utf16)
  | field type => [(typeField, type)]
  | condition _ => []

def TypeRule.conditions : TypeRule → List PolicyCondition
  | field _ => []
  | condition start => [.startsWith typeField start]

def presignPostForm (lower : Utf16 → Utf16) (encode : PolicyDocument → Utf16)
    (sign : Utf16 → Utf16) (signer : PostSigner) (params : P) (options : PresignPostOptions)
    (now : Int) : Except Failure PresignedPost := do
  let key := definition.key params
  let expiresIn ← checkExpiresIn definition key (options.expiresIn.orElse defaultExpiresIn)
  let (min, max) ← sizeRange definition key options
  let rule ← typeRule definition lower key options.type
  let acl ← optionField aclField (checkAcl definition key) options.acl
  let disposition ← optionField dispositionField (checkDisposition definition key)
    options.contentDisposition
  signPostPolicy encode sign signer definition.bucket
    ((keyField, key) :: rule.fields ++ acl ++ disposition)
    (.contentLengthRange min max :: rule.conditions) expiresIn now

end NxgtData.S3
