import NxgtData.Backup.Ids
import NxgtData.Lib.Binary64
import NxgtData.Lib.Checked
import NxgtData.Lib.JsonRead

/-!
What a repository holds in the clear for one backup. A manifest is read as untrusted input, field
by field; what is read is of the form that `create` writes, and is read back as it is.
-/
namespace NxgtData.Backup
open Checked CodeUnits IsoDate JsonText
open Utf16 (ofString)

inductive BackupKind where
  | full
  | incremental
  | differential
deriving DecidableEq

def BackupKind.text : BackupKind → String
  | full => "full"
  | incremental => "incremental"
  | differential => "differential"

structure Measured where
  size : Nat
  sha256 : String
deriving DecidableEq

/-- An object of a backup, as the repository holds it: encrypted bytes. -/
structure StoredObject extends Measured where
  key : String
deriving DecidableEq

structure Manifest where
  backup : String
  id : String
  /-- When it started. -/
  createdAt : Int
  kind : BackupKind
  parent : Option String
  recipients : List Utf16
  catalog : StoredObject
  objects : List StoredObject
deriving DecidableEq

def MANIFEST : String := "manifest.json"

def SIGNATURE : String := "manifest.sig"

def MANIFEST_MAX_BYTES : Nat := 64 * 1024 * 1024

/-- `${n}.age` -/
def objectKey (n : Nat) : String := toString n ++ ".age"

/-- `/^[a-z0-9][a-z0-9._-]{0,99}$/`, and no `.partial-` in it. -/
def isBackupName (name : String) : Bool :=
  let plain (c : Char) : Bool := c.isDigit || 'a' ≤ c && c ≤ 'z'
  match name.toList with
  | [] => false
  | c :: cs => plain c && cs.length ≤ 99 && cs.all (fun c => plain c || c ∈ ['.', '_', '-']) &&
      !(c :: cs).tails.any fun t => ".partial-".toList.isPrefixOf t

/-- `/^[0-9a-f]{64}$/` -/
def isSha256 (s : String) : Bool := s.toList.length = 64 && s.toList.all isHexDigit

/-- `/^\d{1,9}\.age$/` -/
def isNumberKey (key : String) : Bool :=
  let ds := key.toList.takeWhile Char.isDigit
  1 ≤ ds.length && ds.length ≤ 9 && key.toList.drop ds.length = ".age".toList

/-- `/^(?:\d{1,9}|catalog)\.age$/` -/
def isObjectKey (key : String) : Bool := isNumberKey key || key = "catalog.age"

def isRecipient (r : Utf16) : Bool := (ofString "age1").isPrefixOf r

section Writing

def StoredObject.json (object : StoredObject) : Value :=
  .obj [("key", .text object.key), ("size", .num object.size), ("sha256", .text object.sha256)]

def Manifest.json (manifest : Manifest) : Value :=
  .obj [("format", .text "nxgt-backup/1"), ("backup", .text manifest.backup),
    ("id", .text manifest.id), ("createdAt", .text (toISOString manifest.createdAt)),
    ("kind", .text manifest.kind.text), ("parent", (manifest.parent.map .text).getD .null),
    ("recipients", .arr (manifest.recipients.map .str)), ("compression", .text "zstd"),
    ("catalog", manifest.catalog.json), ("objects", .arr (manifest.objects.map StoredObject.json))]

/-- What `putManifest` writes. -/
def Manifest.text (manifest : Manifest) : String := stringify true manifest.json ++ "\n"

end Writing

section Reading

/-- Why a text is not a manifest. -/
abbrev Problem := String

def isRecord : Value → Bool
  | .obj _ => true
  | _ => false

/-- The text that a value is, if it is one: a string with a lone surrogate is none. -/
def asText : Option Value → Option String
  | some (.str s) => s.string?
  | _ => none

/-- A text that passes a test, as no string with a lone surrogate does. -/
def textIn (value : Option Value) (test : String → Bool) (why : Problem) : Except Problem String :=
  ((asText value).filter test).elim (.error why) .ok

/-- `Number.isSafeInteger(size) && size >= 0`, of the double that a number is read as: up to
2^53, digits alone are the number itself. -/
def sizeIn (value : Option Value) (why : Problem) : Except Problem Nat :=
  match value with
  | some (.num n) => if n < 2 ^ 53 then .ok n else .error why
  | some (.float x) =>
      let size := Binary64.round x.value
      if size.den = 1 ∧ 0 ≤ size ∧ size < 2 ^ 53 then .ok size.num.toNat else .error why
  | _ => .error why

/-- `objectProblem`, and what is kept of an object that has none. -/
def readObject (value : Value) : Except Problem StoredObject := do
  require (isRecord value) "an object is not a record"
  let key ← textIn (value.field "key") isObjectKey "an object key is not one this format writes"
  let size ← sizeIn (value.field "size") "an object size is not a whole number of bytes"
  let sha256 ← textIn (value.field "sha256") isSha256 "an object sha256 is not 64 hex digits"
  pure { key, size, sha256 }

def readFormat (value : Value) : Except Problem Unit :=
  match value.field "format" with
  | some (.str format) =>
      if format = ofString "nxgt-backup/1" then .ok ()
      else if (ofString "nxgt-backup/").isPrefixOf format then
        .error "its format is one this version does not read"
      else .error "it is not an nxgt-backup manifest"
  | _ => .error "it is not an nxgt-backup manifest"

def readCreatedAt (value : Value) : Except Problem Int :=
  ((asText (value.field "createdAt")).bind ofISOString).elim
    (.error "its createdAt is not an ISO date") .ok

def readKind (value : Value) : Except Problem BackupKind :=
  match asText (value.field "kind") with
  | some "full" => .ok .full
  | some "incremental" => .ok .incremental
  | some "differential" => .ok .differential
  | _ => .error "its kind is not one this version reads"

/-- None of a full backup; an older one of any other. -/
def readParent (value : Value) (kind : BackupKind) (id : String) :
    Except Problem (Option String) :=
  match kind, value.field "parent" with
  | .full, some .null => .ok none
  | .full, _ => .error "its parent does not fit its kind"
  | .incremental, parent | .differential, parent => do
      let parent ← textIn parent (fun parent => isBackupId parent && Less parent id)
        "its parent does not fit its kind"
      pure (some parent)

def recipientsIn : List Value → Option (List Utf16)
  | [] => some []
  | .str r :: rest => if isRecipient r then (recipientsIn rest).map (r :: ·) else none
  | _ :: _ => none

def readRecipients (value : Value) : Except Problem (List Utf16) :=
  match value.field "recipients" with
  | some (.arr (first :: rest)) =>
      (recipientsIn (first :: rest)).elim (.error "its recipients are not age public keys") .ok
  | _ => .error "its recipients are not age public keys"

def readCatalogObject (value : Value) : Except Problem StoredObject := do
  let catalog ← (value.field "catalog").elim (.error "an object is not a record") readObject
  require (catalog.key = "catalog.age") "its catalog key is not catalog.age"
  pure catalog

/-- The objects from this number on. -/
def readObjectsFrom : Nat → List Value → Except Problem (List StoredObject)
  | _, [] => .ok []
  | n, value :: rest => do
      let object ← readObject value
      require (object.key = objectKey n) "its objects are not numbered in order"
      let objects ← readObjectsFrom (n + 1) rest
      pure (object :: objects)

def readObjects (value : Value) : Except Problem (List StoredObject) :=
  match value.field "objects" with
  | some (.arr objects) => readObjectsFrom 0 objects
  | _ => .error "its objects are not a list"

/-- `shapeProblem` and `objectsProblem`, and the known fields of what has neither. -/
def readFields (value : Value) : Except Problem Manifest := do
  require (isRecord value) "it is not a JSON object"
  readFormat value
  let backup ← textIn (value.field "backup") isBackupName "its backup name is not one"
  let id ← textIn (value.field "id") isBackupId "its id is not a backup id"
  let createdAt ← readCreatedAt value
  let kind ← readKind value
  let parent ← readParent value kind id
  let _ ← textIn (value.field "compression") (· = "zstd") "its compression is not zstd"
  let recipients ← readRecipients value
  let catalog ← readCatalogObject value
  let objects ← readObjects value
  pure { backup, id, createdAt, kind, parent, recipients, catalog, objects }

def readManifest (text : String) : Except Problem Manifest :=
  (parse text).elim (.error "it is not JSON") readFields

end Reading

/-- An object as this format writes it. -/
structure StoredObject.Sound (object : StoredObject) : Prop where
  key : isObjectKey object.key
  size : object.size < 2 ^ 53
  sha256 : isSha256 object.sha256

/-- A parent fits the kind: none of a full backup, an older one of any other. -/
def FitsKind (kind : BackupKind) (parent : Option String) (id : String) : Prop :=
  match kind with
  | .full => parent = none
  | .incremental | .differential => ∃ p, parent = some p ∧ isBackupId p ∧ Less p id

structure Manifest.Sound (manifest : Manifest) : Prop where
  backup : isBackupName manifest.backup
  id : isBackupId manifest.id
  low : -last ≤ manifest.createdAt
  high : manifest.createdAt ≤ last
  parent : FitsKind manifest.kind manifest.parent manifest.id
  given : manifest.recipients ≠ []
  recipients : ∀ r ∈ manifest.recipients, isRecipient r
  catalog : manifest.catalog.Sound ∧ manifest.catalog.key = "catalog.age"
  objects : ∀ o ∈ manifest.objects, o.Sound
  numbered : ∀ (i : Nat) (o : StoredObject), manifest.objects[i]? = some o → o.key = objectKey i

section Read

theorem asText_eq_some {value : Option Value} {s : String} :
    asText value = some s ↔ value = some (.text s) := by
  unfold asText
  split
  next t => rw [Utf16.string?_eq_some, Option.some.injEq, Value.text, Value.str.injEq]
  next other => exact iff_of_false (fun is => by cases is) (other _)

@[simp] theorem asText_text (s : String) : asText (some (.text s)) = some s :=
  asText_eq_some.mpr rfl

theorem textIn_ok {value : Option Value} {test : String → Bool} {why : Problem} {s : String} :
    textIn value test why = .ok s ↔ value = some (.text s) ∧ test s := by
  unfold textIn
  rw [← asText_eq_some]
  cases asText value with
  | none => exact iff_of_false (fun is => by cases is) fun is => by cases is.1
  | some t =>
      rw [Option.some.injEq]
      by_cases passes : test t = true
      · rw [Option.filter_some_pos passes]
        constructor
        · intro is
          cases is
          exact ⟨rfl, passes⟩
        · rintro ⟨rfl, -⟩
          rfl
      · rw [Option.filter_some_neg (Bool.not_eq_true _ ▸ passes)]
        refine iff_of_false (fun is => by cases is) ?_
        rintro ⟨rfl, passes'⟩
        exact passes passes'

theorem sizeIn_small {value : Option Value} {why : Problem} {n : Nat}
    (read : sizeIn value why = .ok n) : n < 2 ^ 53 := by
  unfold sizeIn at read
  split at read
  next =>
    split at read
    next safe => cases read; exact safe
    next => cases read
  next x =>
    dsimp only at read
    generalize Binary64.round x.value = size at read
    split at read
    next safe =>
      obtain ⟨whole, -, less⟩ := safe
      rw [← Except.ok.inj read]
      rw [← Rat.coe_int_num_of_den_eq_one whole] at less
      have less : size.num < 2 ^ 53 := by exact_mod_cast less
      omega
    next => cases read
  next => cases read

theorem sizeIn_num {why : Problem} {n : Nat} (safe : n < 2 ^ 53) :
    sizeIn (some (.num n)) why = .ok n := if_pos safe

/-- A size is read from its value, however that is written. -/
example : sizeIn (some (.float ⟨false, 1, 1⟩)) "" = .ok 10 ∧
    sizeIn (some (.float ⟨true, 0, 0⟩)) "" = .ok 0 := by
  decide +kernel

theorem readObject_sound {value : Value} {object : StoredObject}
    (read : readObject value = .ok object) : object.Sound := by
  obtain ⟨-, read⟩ := bind_require.mp read
  obtain ⟨key, keyIn, read⟩ := bind_ok.mp read
  obtain ⟨size, sizeIn, read⟩ := bind_ok.mp read
  obtain ⟨sha256, hashIn, read⟩ := bind_ok.mp read
  cases read
  exact ⟨(textIn_ok.mp keyIn).2, sizeIn_small sizeIn, (textIn_ok.mp hashIn).2⟩

theorem readObject_json {object : StoredObject} (h : object.Sound) :
    readObject object.json = .ok object := by
  refine bind_require.mpr ⟨rfl, ?_⟩
  refine bind_ok.mpr ⟨_, textIn_ok.mpr ⟨rfl, h.key⟩, ?_⟩
  refine bind_ok.mpr ⟨_, sizeIn_num h.size, ?_⟩
  exact bind_ok.mpr ⟨_, textIn_ok.mpr ⟨rfl, h.sha256⟩, rfl⟩

theorem readFormat_ok {value : Value} {u : Unit} :
    readFormat value = .ok u ↔ value.field "format" = some (.text "nxgt-backup/1") := by
  unfold readFormat
  split
  next format eq =>
    rw [eq, Option.some.injEq, Value.text, Value.str.injEq]
    split
    next same => exact iff_of_true rfl same
    next other => split <;> exact iff_of_false (fun is => by cases is) other
  next none =>
    exact iff_of_false (fun is => by cases is) fun is => none _ is

theorem readCreatedAt_ok {value : Value} {t : Int} : readCreatedAt value = .ok t ↔
    value.field "createdAt" = some (.text (toISOString t)) ∧ -last ≤ t ∧ t ≤ last := by
  unfold readCreatedAt
  rw [← asText_eq_some]
  cases asText (value.field "createdAt") with
  | none => exact iff_of_false (fun is => by cases is) fun is => by cases is.1
  | some text =>
      rw [Option.some.injEq, Option.bind_some]
      cases read : ofISOString text with
      | none =>
          refine iff_of_false (fun is => by cases is) ?_
          rintro ⟨rfl, low, high⟩
          rw [ofISOString_iff.mpr ⟨low, high, rfl⟩] at read
          cases read
      | some u =>
          obtain ⟨low, high, rfl⟩ := ofISOString_iff.mp read
          constructor
          · intro is
            cases is
            exact ⟨rfl, low, high⟩
          · rintro ⟨same, low', high'⟩
            rw [same, ofISOString_iff.mpr ⟨low', high', rfl⟩] at read
            rw [Option.some.inj read]
            rfl

theorem readKind_ok {value : Value} {kind : BackupKind} :
    readKind value = .ok kind ↔ value.field "kind" = some (.text kind.text) := by
  unfold readKind
  rw [← asText_eq_some]
  split
  next eq => rw [eq]; cases kind <;> simp [BackupKind.text]
  next eq => rw [eq]; cases kind <;> simp [BackupKind.text]
  next eq => rw [eq]; cases kind <;> simp [BackupKind.text]
  next full incremental differential =>
    refine iff_of_false (fun is => by cases is) fun is => ?_
    cases kind with
    | full => exact full is
    | incremental => exact incremental is
    | differential => exact differential is

theorem readParent_sound {value : Value} {kind : BackupKind} {id : String}
    {parent : Option String} (read : readParent value kind id = .ok parent) :
    FitsKind kind parent id := by
  have older {given : Option Value} (read : (do
      let parent ← textIn given (fun parent => isBackupId parent && Less parent id)
        "its parent does not fit its kind"
      pure (some parent)) = Except.ok parent) :
      ∃ p, parent = some p ∧ isBackupId p ∧ Less p id := by
    obtain ⟨p, is, read⟩ := bind_ok.mp read
    cases read
    obtain ⟨form, less⟩ := Bool.and_eq_true_iff.mp (textIn_ok.mp is).2
    exact ⟨p, rfl, form, of_decide_eq_true less⟩
  cases kind with
  | full =>
      unfold readParent at read
      split at read
      next => cases read; exact rfl
      next => cases read
      next is => cases is
      next is => cases is
  | incremental => exact older read
  | differential => exact older read

theorem readParent_json {value : Value} {kind : BackupKind} {id : String} {parent : Option String}
    (field : value.field "parent" = some ((parent.map .text).getD .null))
    (fits : FitsKind kind parent id) : readParent value kind id = .ok parent := by
  unfold readParent
  rw [field]
  have older (h : ∃ p, parent = some p ∧ isBackupId p ∧ Less p id) : (do
      let parent ← textIn (some ((parent.map Value.text).getD .null))
        (fun parent => isBackupId parent && Less parent id) "its parent does not fit its kind"
      pure (some parent)) = Except.ok parent := by
    obtain ⟨p, rfl, form, less⟩ := h
    refine bind_ok.mpr ⟨p, textIn_ok.mpr ⟨rfl, ?_⟩, rfl⟩
    rw [form, decide_eq_true less]
    rfl
  cases kind with
  | full =>
      obtain rfl : parent = none := fits
      rfl
  | incremental => exact older fits
  | differential => exact older fits

theorem recipientsIn_ok {values : List Value} {recipients : List Utf16} :
    recipientsIn values = some recipients ↔
      values = recipients.map .str ∧ ∀ r ∈ recipients, isRecipient r := by
  induction values generalizing recipients with
  | nil => cases recipients <;> simp [recipientsIn]
  | cons value rest ih =>
      cases recipients with
      | nil =>
          refine iff_of_false (fun is => ?_) fun is => by cases is.1
          cases value <;> try cases is
          rw [recipientsIn] at is
          split at is
          next => cases tail : recipientsIn rest <;> rw [tail] at is <;> cases is
          next => cases is
      | cons r others =>
          cases value <;> simp [recipientsIn, ih]
          next s =>
            constructor
            · rintro ⟨ok, ⟨rfl, all⟩, rfl⟩
              exact ⟨⟨rfl, rfl⟩, ok, all⟩
            · rintro ⟨⟨rfl, rfl⟩, ok, all⟩
              exact ⟨ok, ⟨rfl, all⟩, rfl⟩

theorem readRecipients_ok {value : Value} {recipients : List Utf16} :
    readRecipients value = .ok recipients ↔
      value.field "recipients" = some (.arr (recipients.map .str)) ∧ recipients ≠ [] ∧
        ∀ r ∈ recipients, isRecipient r := by
  unfold readRecipients
  split
  next first rest eq =>
    rw [eq, Option.some.injEq, Value.arr.injEq]
    have read := @recipientsIn_ok (first :: rest) recipients
    cases eq' : recipientsIn (first :: rest) with
    | none =>
        refine iff_of_false (fun is => by cases is) fun is => ?_
        rw [eq'] at read
        cases read.mpr ⟨is.1, is.2.2⟩
    | some found =>
        rw [eq', Option.some.injEq] at read
        constructor
        · intro is
          cases is
          obtain ⟨same, all⟩ := read.mp rfl
          refine ⟨same, ?_, all⟩
          rintro rfl
          cases same
        · rintro ⟨same, -, all⟩
          rw [read.mpr ⟨same, all⟩]
          rfl
  next other =>
    refine iff_of_false (fun is => by cases is) ?_
    rintro ⟨is, some, -⟩
    obtain ⟨r, rest, rfl⟩ := List.exists_cons_of_ne_nil some
    exact other _ _ is

theorem readObjectsFrom_sound {values : List Value} {n : Nat} {objects : List StoredObject}
    (read : readObjectsFrom n values = .ok objects) :
    (∀ o ∈ objects, o.Sound) ∧ ∀ (i : Nat) o, objects[i]? = some o → o.key = objectKey (n + i) := by
  induction values generalizing n objects with
  | nil =>
      cases read
      simp
  | cons value rest ih =>
      obtain ⟨object, first, read⟩ := bind_ok.mp read
      obtain ⟨key, read⟩ := bind_require.mp read
      obtain ⟨others, tail, read⟩ := bind_ok.mp read
      cases read
      obtain ⟨sound, numbered⟩ := ih tail
      refine ⟨List.forall_mem_cons.mpr ⟨readObject_sound first, sound⟩, fun i o is => ?_⟩
      cases i with
      | zero =>
          cases is
          exact of_decide_eq_true key
      | succ i =>
          rw [numbered i o is]
          congr 1
          omega

theorem readObjectsFrom_json {objects : List StoredObject} {n : Nat}
    (sound : ∀ o ∈ objects, o.Sound)
    (numbered : ∀ (i : Nat) o, objects[i]? = some o → o.key = objectKey (n + i)) :
    readObjectsFrom n (objects.map StoredObject.json) = .ok objects := by
  induction objects generalizing n with
  | nil => rfl
  | cons object rest ih =>
      obtain ⟨first, others⟩ := List.forall_mem_cons.mp sound
      refine bind_ok.mpr ⟨object, readObject_json first, ?_⟩
      refine bind_require.mpr ⟨decide_eq_true (numbered 0 object rfl), ?_⟩
      refine bind_ok.mpr ⟨rest, ih others fun i o is => ?_, rfl⟩
      rw [numbered (i + 1) o is]
      congr 1
      omega

theorem readCatalogObject_sound {value : Value} {catalog : StoredObject}
    (read : readCatalogObject value = .ok catalog) :
    catalog.Sound ∧ catalog.key = "catalog.age" := by
  obtain ⟨object, first, read⟩ := bind_ok.mp read
  obtain ⟨key, read⟩ := bind_require.mp read
  cases read
  refine ⟨?_, of_decide_eq_true key⟩
  cases eq : value.field "catalog" with
  | none =>
      rw [eq] at first
      cases first
  | some object =>
      rw [eq] at first
      exact readObject_sound first

theorem readCatalogObject_json {value : Value} {catalog : StoredObject}
    (field : value.field "catalog" = some catalog.json) (sound : catalog.Sound)
    (key : catalog.key = "catalog.age") : readCatalogObject value = .ok catalog := by
  refine bind_ok.mpr ⟨catalog, ?_, bind_require.mpr ⟨decide_eq_true key, rfl⟩⟩
  rw [field]
  exact readObject_json sound

theorem readFields_sound {value : Value} {manifest : Manifest}
    (read : readFields value = .ok manifest) : manifest.Sound := by
  obtain ⟨-, read⟩ := bind_require.mp read
  obtain ⟨-, -, read⟩ := bind_ok.mp read
  obtain ⟨backup, backupIn, read⟩ := bind_ok.mp read
  obtain ⟨id, idIn, read⟩ := bind_ok.mp read
  obtain ⟨createdAt, createdIn, read⟩ := bind_ok.mp read
  obtain ⟨kind, -, read⟩ := bind_ok.mp read
  obtain ⟨parent, parentIn, read⟩ := bind_ok.mp read
  obtain ⟨-, -, read⟩ := bind_ok.mp read
  obtain ⟨recipients, recipientsIn, read⟩ := bind_ok.mp read
  obtain ⟨catalog, catalogIn, read⟩ := bind_ok.mp read
  obtain ⟨objects, objectsIn, read⟩ := bind_ok.mp read
  cases read
  obtain ⟨-, low, high⟩ := readCreatedAt_ok.mp createdIn
  obtain ⟨-, some, ages⟩ := readRecipients_ok.mp recipientsIn
  have listed : (∀ o ∈ objects, o.Sound) ∧
      ∀ (i : Nat) o, objects[i]? = .some o → o.key = objectKey i := by
    unfold readObjects at objectsIn
    split at objectsIn
    next =>
      obtain ⟨sound, numbered⟩ := readObjectsFrom_sound objectsIn
      refine ⟨sound, fun i o is => ?_⟩
      rw [numbered i o is, Nat.zero_add]
    next => cases objectsIn
  exact ⟨(textIn_ok.mp backupIn).2, (textIn_ok.mp idIn).2, low, high, readParent_sound parentIn,
    some, ages, readCatalogObject_sound catalogIn, listed.1, listed.2⟩

theorem readFields_json {manifest : Manifest} (h : manifest.Sound) :
    readFields manifest.json = .ok manifest := by
  refine bind_require.mpr ⟨rfl, ?_⟩
  refine bind_ok.mpr ⟨(), readFormat_ok.mpr rfl, ?_⟩
  refine bind_ok.mpr ⟨_, textIn_ok.mpr ⟨rfl, h.backup⟩, ?_⟩
  refine bind_ok.mpr ⟨_, textIn_ok.mpr ⟨rfl, h.id⟩, ?_⟩
  refine bind_ok.mpr ⟨_, readCreatedAt_ok.mpr ⟨rfl, h.low, h.high⟩, ?_⟩
  refine bind_ok.mpr ⟨_, readKind_ok.mpr rfl, ?_⟩
  refine bind_ok.mpr ⟨_, readParent_json rfl h.parent, ?_⟩
  refine bind_ok.mpr ⟨_, textIn_ok.mpr ⟨rfl, rfl⟩, ?_⟩
  refine bind_ok.mpr ⟨_, readRecipients_ok.mpr ⟨rfl, h.given, h.recipients⟩, ?_⟩
  refine bind_ok.mpr ⟨_, readCatalogObject_json rfl h.catalog.1 h.catalog.2, ?_⟩
  refine bind_ok.mpr ⟨_, readObjectsFrom_json h.objects fun i o is => ?_, rfl⟩
  rw [h.numbered i o is, Nat.zero_add]

/-- Space after a text does not matter. -/
theorem readManifest_text {manifest : Manifest} (h : manifest.Sound) :
    readManifest manifest.text = .ok manifest := by
  rw [readManifest, Manifest.text, parse_line]
  exact readFields_json h

/-- What is read is a manifest of the form, and a manifest of the form is read back. -/
theorem readManifest_exact :
    (∀ text manifest, readManifest text = .ok manifest → manifest.Sound) ∧
    ∀ manifest : Manifest, manifest.Sound ↔ readManifest manifest.text = .ok manifest := by
  have sound : ∀ text manifest, readManifest text = .ok manifest → manifest.Sound := by
    intro text manifest read
    unfold readManifest at read
    cases eq : parse text with
    | none =>
        rw [eq] at read
        cases read
    | some value =>
        rw [eq] at read
        exact readFields_sound read
  exact ⟨sound, fun manifest => ⟨readManifest_text, sound _ _⟩⟩

end Read

end NxgtData.Backup
