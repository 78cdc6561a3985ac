import NxgtData.Backup.Manifest

/-!
What a backup holds, encrypted like its data: the source's kind and every entry, with the object
that has it, here or in an older backup. It is read field by field too, and read back as it is.
-/
namespace NxgtData.Backup
open Checked CodeUnits JsonText

structure CatalogEntry extends Measured where
  name : Utf16
  object : String
  /-- `in` -/
  held : Option String
  fingerprint : Option Utf16
deriving DecidableEq

structure Catalog where
  kind : Utf16
  entries : List CatalogEntry
  position : Option Utf16
deriving DecidableEq

def FINGERPRINT_MAX : Nat := 1024

def POSITION_MAX : Nat := 64 * 1024

def isEntryName (name : Utf16) : Bool :=
  0 < name.length && name.length ≤ 4096 && 0 ∉ name

def isOptionalText (value : Option Utf16) (max : Nat) : Bool :=
  value.all fun text => text.text.utf8ByteSize ≤ max

section Writing

/-- A field that is written if it is there. -/
def optional (name : String) (value : Option Value) : List (String × Value) :=
  (value.map fun value => (name, value)).toList

def CatalogEntry.json (entry : CatalogEntry) : Value :=
  .obj ([("name", .str entry.name), ("object", .text entry.object)] ++
    optional "in" (entry.held.map .text) ++
    [("size", .num entry.size), ("sha256", .text entry.sha256)] ++
    optional "fingerprint" (entry.fingerprint.map .str))

def Catalog.json (catalog : Catalog) : Value :=
  .obj ([("format", .text "nxgt-backup-catalog/1"), ("source", .obj [("kind", .str catalog.kind)]),
    ("entries", .arr (catalog.entries.map CatalogEntry.json))] ++
    optional "position" (catalog.position.map .str))

def Catalog.text (catalog : Catalog) : String := stringify false catalog.json

end Writing

section Reading

/-- A string that passes a test. -/
def stringIn (value : Option Value) (test : Utf16 → Bool) (why : Problem) : Except Problem Utf16 :=
  match value with
  | some (.str s) => if test s then .ok s else .error why
  | _ => .error why

/-- A string of this many bytes at most, or nothing. -/
def optionalIn (value : Option Value) (max : Nat) (why : Problem) :
    Except Problem (Option Utf16) :=
  match value with
  | none => .ok none
  | some (.str s) => if isOptionalText (some s) max then .ok (some s) else .error why
  | _ => .error why

/-- Where an entry is: in this backup, its next object; or in another. -/
def readPlace (value : Value) (own : Nat) : Except Problem (String × Option String) :=
  match value.field "in" with
  | none => do
      let object ← textIn (value.field "object") (· = objectKey own)
        "its entries do not follow the objects"
      pure (object, none)
  | some held => do
      let held ← textIn (some held) isBackupId "an entry stored elsewhere does not say where"
      let object ← textIn (value.field "object") isNumberKey
        "an entry stored elsewhere does not say where"
      pure (object, some held)

/-- `entryProblem`, and what is kept of an entry that has none. -/
def readEntry (value : Value) (own : Nat) : Except Problem CatalogEntry := do
  require (isRecord value) "an entry is not a record"
  let name ← stringIn (value.field "name") isEntryName "an entry name is not one"
  let (object, held) ← readPlace value own
  let size ← sizeIn (value.field "size") "an entry size is not a whole number of bytes"
  let sha256 ← textIn (value.field "sha256") isSha256 "an entry sha256 is not 64 hex digits"
  let fingerprint ← optionalIn (value.field "fingerprint") FINGERPRINT_MAX
    "an entry fingerprint is not one"
  pure { size, sha256, name, object, held, fingerprint }

/-- The loop of `entriesProblem`: `own` entries before are stored in this backup, and `names` are
theirs all. -/
def readEntriesFrom (objects : Nat) :
    Nat → List Utf16 → List Value → Except Problem (List CatalogEntry)
  | own, _, [] => do
      require (own = objects) "its entries do not match the manifest"
      pure []
  | own, names, value :: rest => do
      let entry ← readEntry value own
      require (entry.name ∉ names) "two entries have the same name"
      let entries ← readEntriesFrom objects (if entry.held.isNone then own + 1 else own)
        (names ++ [entry.name]) rest
      pure (entry :: entries)

def readEntries (value : Value) (objects : Nat) : Except Problem (List CatalogEntry) :=
  match value.field "entries" with
  | some (.arr entries) => readEntriesFrom objects 0 [] entries
  | _ => .error "its entries do not match the manifest"

def readSourceKind (value : Value) : Except Problem Utf16 :=
  match value.field "source" with
  | some (.obj fields) =>
      stringIn ((Value.obj fields).field "kind") (fun _ => true) "its source has no kind"
  | _ => .error "its source has no kind"

def readCatalogFields (value : Value) (objects : Nat) : Except Problem Catalog := do
  let _ ← textIn (value.field "format") (· = "nxgt-backup-catalog/1")
    "it is not an nxgt-backup catalog"
  let kind ← readSourceKind value
  let position ← optionalIn (value.field "position") POSITION_MAX "its position is not one"
  let entries ← readEntries value objects
  pure { kind, entries, position }

/-- The catalog of a backup whose manifest lists this many objects. -/
def readCatalog (text : String) (objects : Nat) : Except Problem Catalog :=
  (parse text).elim (.error "it is not JSON") fun value => readCatalogFields value objects

end Reading

structure CatalogEntry.Sound (entry : CatalogEntry) : Prop where
  name : isEntryName entry.name
  size : entry.size < 2 ^ 53
  sha256 : isSha256 entry.sha256
  fingerprint : isOptionalText entry.fingerprint FINGERPRINT_MAX
  elsewhere : ∀ id ∈ entry.held, isBackupId id ∧ isNumberKey entry.object

/-- The entries that the backup itself stores. -/
def ownOf (entries : List CatalogEntry) : List CatalogEntry :=
  entries.filter fun entry => entry.held.isNone

/-- They have the objects from this number up to that, in order. -/
structure Numbered (entries : List CatalogEntry) (first objects : Nat) : Prop where
  length : first + (ownOf entries).length = objects
  object : ∀ (i : Nat) e, (ownOf entries)[i]? = some e → e.object = objectKey (first + i)

structure Catalog.Sound (catalog : Catalog) (objects : Nat) : Prop where
  position : isOptionalText catalog.position POSITION_MAX
  entries : ∀ e ∈ catalog.entries, e.Sound
  distinct : (catalog.entries.map CatalogEntry.name).Nodup
  numbered : Numbered catalog.entries 0 objects

section Read

theorem stringIn_ok {value : Option Value} {test : Utf16 → Bool} {why : Problem} {s : Utf16} :
    stringIn value test why = .ok s ↔ value = some (.str s) ∧ test s := by
  unfold stringIn
  split
  next t =>
    split
    next passes =>
      constructor
      · intro is
        cases is
        exact ⟨rfl, passes⟩
      · rintro ⟨is, -⟩
        cases is
        rfl
    next fails =>
      refine iff_of_false (fun is => by cases is) ?_
      rintro ⟨is, passes⟩
      cases is
      exact fails passes
  next other => exact iff_of_false (fun is => by cases is) fun is => other s is.1

theorem optionalIn_ok {value : Option Value} {max : Nat} {why : Problem} {text : Option Utf16} :
    optionalIn value max why = .ok text ↔ value = text.map .str ∧ isOptionalText text max := by
  unfold optionalIn
  split
  next =>
    cases text with
    | none => exact iff_of_true rfl ⟨rfl, rfl⟩
    | some text => exact iff_of_false (fun is => by cases is) fun is => by cases is.1
  next s =>
    cases text with
    | none => exact iff_of_false (fun is => by split at is <;> cases is) fun is => by cases is.1
    | some text =>
        split
        next short =>
          constructor
          · intro is
            cases is
            exact ⟨rfl, short⟩
          · rintro ⟨is, -⟩
            cases is
            rfl
        next long =>
          refine iff_of_false (fun is => by cases is) ?_
          rintro ⟨is, short⟩
          cases is
          exact long short
  next value none str =>
    refine iff_of_false (fun is => by cases is) fun is => ?_
    cases text with
    | none => exact none is.1
    | some text => exact str _ is.1

/-- Where an entry may be, after so many of the backup's own. -/
def PlaceFits (object : String) (held : Option String) (own : Nat) : Prop :=
  match held with
  | none => object = objectKey own
  | some id => isBackupId id ∧ isNumberKey object

theorem readPlace_ok {value : Value} {own : Nat} {object : String} {held : Option String} :
    readPlace value own = .ok (object, held) ↔ value.field "object" = some (.text object) ∧
      value.field "in" = held.map .text ∧ PlaceFits object held own := by
  unfold readPlace
  split
  next eq =>
    rw [eq]
    constructor
    · intro is
      obtain ⟨object, here, is⟩ := bind_ok.mp is
      cases is
      obtain ⟨field, key⟩ := textIn_ok.mp here
      have same : object = objectKey own := of_decide_eq_true key
      exact ⟨field, rfl, same⟩
    · rintro ⟨field, is, fits⟩
      cases held with
      | none =>
          change object = objectKey own at fits
          exact bind_ok.mpr ⟨_, textIn_ok.mpr ⟨field, decide_eq_true fits⟩, rfl⟩
      | some id => cases is
  next v eq =>
    rw [eq]
    constructor
    · intro is
      obtain ⟨id, there, is⟩ := bind_ok.mp is
      obtain ⟨object, here, is⟩ := bind_ok.mp is
      cases is
      obtain ⟨field, key⟩ := textIn_ok.mp here
      obtain ⟨same, form⟩ := textIn_ok.mp there
      exact ⟨field, same, form, key⟩
    · rintro ⟨field, is, fits⟩
      cases held with
      | none => cases is
      | some id =>
          exact bind_ok.mpr ⟨id, textIn_ok.mpr ⟨is, fits.1⟩, bind_ok.mpr
            ⟨object, textIn_ok.mpr ⟨field, fits.2⟩, rfl⟩⟩

theorem readEntry_sound {value : Value} {own : Nat} {entry : CatalogEntry}
    (read : readEntry value own = .ok entry) :
    entry.Sound ∧ PlaceFits entry.object entry.held own := by
  obtain ⟨-, read⟩ := bind_require.mp read
  obtain ⟨name, nameIn, read⟩ := bind_ok.mp read
  obtain ⟨⟨object, held⟩, place, read⟩ := bind_ok.mp read
  obtain ⟨size, sizeIn, read⟩ := bind_ok.mp read
  obtain ⟨sha256, hashIn, read⟩ := bind_ok.mp read
  obtain ⟨fingerprint, printIn, read⟩ := bind_ok.mp read
  cases read
  obtain ⟨-, -, fits⟩ := readPlace_ok.mp place
  refine ⟨⟨(stringIn_ok.mp nameIn).2, sizeIn_small sizeIn, (textIn_ok.mp hashIn).2,
    (optionalIn_ok.mp printIn).2, ?_⟩, fits⟩
  rintro id is
  dsimp only at is
  rw [Option.mem_def.mp is] at fits
  exact fits

theorem field_name (entry : CatalogEntry) :
    entry.json.field "name" = some (.str entry.name) := by
  unfold CatalogEntry.json
  cases entry.held <;> cases entry.fingerprint <;> rfl

theorem field_object (entry : CatalogEntry) :
    entry.json.field "object" = some (.text entry.object) := by
  unfold CatalogEntry.json
  cases entry.held <;> cases entry.fingerprint <;> rfl

theorem field_in (entry : CatalogEntry) : entry.json.field "in" = entry.held.map .text := by
  unfold CatalogEntry.json
  cases entry.held <;> cases entry.fingerprint <;> rfl

theorem field_size (entry : CatalogEntry) :
    entry.json.field "size" = some (.num entry.size) := by
  unfold CatalogEntry.json
  cases entry.held <;> cases entry.fingerprint <;> rfl

theorem field_sha256 (entry : CatalogEntry) :
    entry.json.field "sha256" = some (.text entry.sha256) := by
  unfold CatalogEntry.json
  cases entry.held <;> cases entry.fingerprint <;> rfl

theorem field_fingerprint (entry : CatalogEntry) :
    entry.json.field "fingerprint" = entry.fingerprint.map .str := by
  unfold CatalogEntry.json
  cases entry.held <;> cases entry.fingerprint <;> rfl

theorem readEntry_json {entry : CatalogEntry} {own : Nat} (h : entry.Sound)
    (fits : PlaceFits entry.object entry.held own) : readEntry entry.json own = .ok entry := by
  refine bind_require.mpr ⟨rfl, ?_⟩
  refine bind_ok.mpr ⟨_, stringIn_ok.mpr ⟨field_name entry, h.name⟩, ?_⟩
  refine bind_ok.mpr ⟨_, readPlace_ok.mpr ⟨field_object entry, field_in entry, fits⟩, ?_⟩
  refine bind_ok.mpr ⟨_, (field_size entry).symm ▸ sizeIn_num h.size, ?_⟩
  refine bind_ok.mpr ⟨_, textIn_ok.mpr ⟨field_sha256 entry, h.sha256⟩, ?_⟩
  exact bind_ok.mpr ⟨_, optionalIn_ok.mpr ⟨field_fingerprint entry, h.fingerprint⟩, rfl⟩

/-- One entry more, after so many own ones. -/
theorem numbered_cons {entry : CatalogEntry} {entries : List CatalogEntry} {own objects : Nat} :
    Numbered (entry :: entries) own objects ↔ (entry.held = none → entry.object = objectKey own) ∧
      Numbered entries (if entry.held.isNone then own + 1 else own) objects := by
  cases held : entry.held with
  | none =>
      have list : ownOf (entry :: entries) = entry :: ownOf entries :=
        List.filter_cons_of_pos (by rw [held]; rfl)
      rw [Option.isNone_none, if_pos rfl]
      constructor
      · rintro ⟨length, object⟩
        rw [list] at length object
        refine ⟨fun _ => object 0 entry rfl, ?_, fun i e is => ?_⟩
        · rw [List.length_cons] at length
          omega
        · rw [object (i + 1) e is]
          congr 1
          omega
      · rintro ⟨first, length, object⟩
        refine ⟨?_, ?_⟩ <;> rw [list]
        · rw [List.length_cons]
          omega
        · intro i e is
          cases i with
          | zero =>
              cases is
              exact first rfl
          | succ i =>
              rw [object i e is]
              congr 1
              omega
  | some id =>
      have list : ownOf (entry :: entries) = ownOf entries :=
        List.filter_cons_of_neg (by simp [held])
      rw [Option.isNone_some, if_neg Bool.false_ne_true]
      constructor
      · rintro ⟨length, object⟩
        rw [list] at length object
        exact ⟨nofun, length, object⟩
      · rintro ⟨-, length, object⟩
        refine ⟨?_, ?_⟩ <;> rw [list]
        · exact length
        · exact object

/-- One entry more after them all. -/
theorem Numbered.snoc {entries : List CatalogEntry} {first objects : Nat}
    (h : Numbered entries first objects) {entry : CatalogEntry}
    (place : entry.held = none → entry.object = objectKey objects) :
    Numbered (entries ++ [entry]) first
      (if entry.held.isNone then objects + 1 else objects) := by
  induction entries generalizing first with
  | nil =>
      have same : first = objects := h.length
      subst same
      refine numbered_cons.mpr ⟨place, ?_, fun i e is => ?_⟩
      · rfl
      · cases is
  | cons e rest ih =>
      obtain ⟨here, rest⟩ := numbered_cons.mp h
      exact numbered_cons.mpr ⟨here, ih rest⟩

theorem placeFits_iff {entry : CatalogEntry} (h : entry.Sound) {own : Nat} :
    PlaceFits entry.object entry.held own ↔ (entry.held = none → entry.object = objectKey own) := by
  unfold PlaceFits
  cases held : entry.held with
  | none => exact ⟨fun is _ => is, fun is => is rfl⟩
  | some id => exact iff_of_true (h.elsewhere id held) fun is => by cases is

theorem readEntriesFrom_sound {objects : Nat} {values : List Value} {own : Nat}
    {names : List Utf16} {entries : List CatalogEntry}
    (read : readEntriesFrom objects own names values = .ok entries) :
    (∀ e ∈ entries, e.Sound) ∧ (entries.map CatalogEntry.name).Nodup ∧
      (∀ e ∈ entries, e.name ∉ names) ∧ Numbered entries own objects := by
  induction values generalizing own names entries with
  | nil =>
      obtain ⟨same, read⟩ := bind_require.mp read
      cases read
      refine ⟨by simp, List.nodup_nil, by simp, of_decide_eq_true same, fun i e is => ?_⟩
      cases is
  | cons value rest ih =>
      obtain ⟨entry, first, read⟩ := bind_ok.mp read
      obtain ⟨fresh, read⟩ := bind_require.mp read
      obtain ⟨others, tail, read⟩ := bind_ok.mp read
      cases read
      obtain ⟨sound, distinct, apart, numbered⟩ := ih tail
      obtain ⟨sound', fits⟩ := readEntry_sound first
      have fresh : entry.name ∉ names := of_decide_eq_true fresh
      refine ⟨List.forall_mem_cons.mpr ⟨sound', sound⟩, ?_, ?_, ?_⟩
      · rw [List.map_cons, List.nodup_cons]
        refine ⟨fun mem => ?_, distinct⟩
        obtain ⟨e, there, same⟩ := List.mem_map.mp mem
        exact apart e there (List.mem_append_right _ (List.mem_singleton.mpr same))
      · exact List.forall_mem_cons.mpr
          ⟨fresh, fun e mem old => apart e mem (List.mem_append_left _ old)⟩
      · exact numbered_cons.mpr ⟨(placeFits_iff sound').mp fits, numbered⟩

theorem readEntriesFrom_json {objects own : Nat} {names : List Utf16}
    {entries : List CatalogEntry} (sound : ∀ e ∈ entries, e.Sound)
    (distinct : (entries.map CatalogEntry.name).Nodup) (apart : ∀ e ∈ entries, e.name ∉ names)
    (numbered : Numbered entries own objects) :
    readEntriesFrom objects own names (entries.map CatalogEntry.json) = .ok entries := by
  induction entries generalizing own names with
  | nil => exact bind_require.mpr ⟨decide_eq_true numbered.length, rfl⟩
  | cons entry rest ih =>
      obtain ⟨first, others⟩ := List.forall_mem_cons.mp sound
      obtain ⟨fresh, apart⟩ := List.forall_mem_cons.mp apart
      obtain ⟨place, numbered⟩ := numbered_cons.mp numbered
      rw [List.map_cons, List.nodup_cons] at distinct
      refine bind_ok.mpr ⟨entry, readEntry_json first ((placeFits_iff first).mpr place), ?_⟩
      refine bind_require.mpr ⟨decide_eq_true fresh, ?_⟩
      refine bind_ok.mpr ⟨rest, ih others distinct.2 (fun e mem old => ?_) numbered, rfl⟩
      rcases List.mem_append.mp old with old | new
      · exact apart e mem old
      · refine distinct.1 ?_
        rw [← List.mem_singleton.mp new]
        exact List.mem_map_of_mem mem

theorem readCatalogFields_sound {value : Value} {objects : Nat} {catalog : Catalog}
    (read : readCatalogFields value objects = .ok catalog) : catalog.Sound objects := by
  obtain ⟨-, -, read⟩ := bind_ok.mp read
  obtain ⟨kind, -, read⟩ := bind_ok.mp read
  obtain ⟨position, positionIn, read⟩ := bind_ok.mp read
  obtain ⟨entries, entriesIn, read⟩ := bind_ok.mp read
  cases read
  unfold readEntries at entriesIn
  split at entriesIn
  next =>
    obtain ⟨sound, distinct, -, numbered⟩ := readEntriesFrom_sound entriesIn
    exact ⟨(optionalIn_ok.mp positionIn).2, sound, distinct, numbered⟩
  next => cases entriesIn

theorem field_position (catalog : Catalog) :
    catalog.json.field "position" = catalog.position.map .str := by
  unfold Catalog.json
  cases catalog.position <;> rfl

theorem readCatalogFields_json {catalog : Catalog} {objects : Nat} (h : catalog.Sound objects) :
    readCatalogFields catalog.json objects = .ok catalog := by
  have format : catalog.json.field "format" = some (.text "nxgt-backup-catalog/1") := by
    unfold Catalog.json
    cases catalog.position <;> rfl
  have source : catalog.json.field "source" = some (.obj [("kind", .str catalog.kind)]) := by
    unfold Catalog.json
    cases catalog.position <;> rfl
  have listed : catalog.json.field "entries" =
      some (.arr (catalog.entries.map CatalogEntry.json)) := by
    unfold Catalog.json
    cases catalog.position <;> rfl
  refine bind_ok.mpr ⟨_, textIn_ok.mpr ⟨format, decide_eq_true rfl⟩, ?_⟩
  refine bind_ok.mpr ⟨catalog.kind, ?_, ?_⟩
  · unfold readSourceKind
    rw [source]
    exact stringIn_ok.mpr ⟨rfl, rfl⟩
  refine bind_ok.mpr ⟨_, optionalIn_ok.mpr ⟨field_position catalog, h.position⟩, ?_⟩
  refine bind_ok.mpr ⟨catalog.entries, ?_, rfl⟩
  unfold readEntries
  rw [listed]
  exact readEntriesFrom_json h.entries h.distinct (by simp) h.numbered

theorem readCatalog_text {catalog : Catalog} {objects : Nat} (h : catalog.Sound objects) :
    readCatalog catalog.text objects = .ok catalog := by
  rw [readCatalog, Catalog.text, parse_stringify]
  exact readCatalogFields_json h

theorem readCatalog_sound {text : String} {objects : Nat} {catalog : Catalog}
    (read : readCatalog text objects = .ok catalog) : catalog.Sound objects := by
  unfold readCatalog at read
  cases eq : parse text with
  | none =>
      rw [eq] at read
      cases read
  | some value =>
      rw [eq] at read
      exact readCatalogFields_sound read

/-- What is read is a catalog of the form for a manifest of so many objects, and a catalog of the
form is read back. -/
theorem readCatalog_exact (objects : Nat) :
    (∀ text catalog, readCatalog text objects = .ok catalog → catalog.Sound objects) ∧
    ∀ catalog : Catalog,
      catalog.Sound objects ↔ readCatalog catalog.text objects = .ok catalog :=
  ⟨fun _ _ => readCatalog_sound, fun _ => ⟨readCatalog_text, readCatalog_sound⟩⟩

end Read

end NxgtData.Backup
