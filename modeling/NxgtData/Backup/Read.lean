import Mathlib.Data.List.Sort
import NxgtData.Backup.Catalog
import NxgtData.Lib.Utf8

/-!
How a backup is read from a repository, which is not trusted: its manifest, its catalog, the
manifests of the backups it builds on, and one entry's bytes, wherever its object is. Every step
is checked against the one before. What a repository answers is given, and so are the digest, the
seal and the signature.
-/
namespace NxgtData.Backup
open Checked CodeUnits

inductive Code where
  /-- `NOT_FOUND` -/
  | notFound
  | integrity
  | decrypt
  | signature
  /-- `PARTIAL` -/
  | inPart
  | notStored
  | locked
  | leaseLost
deriving DecidableEq

inductive Failure where
  | typeError (message : String)
  | backup (code : Code) (message : String)
  /-- Anything else, that a repository, a source or the staging folder threw. -/
  | other (message : String)
deriving DecidableEq

/-- What comes of opening a sealed file. -/
inductive Opened where
  /-- No identity given is one it was encrypted to. -/
  | refused
  | damaged
  | plain (bytes : Bytes)
deriving DecidableEq

/-- A backup's name, and what the runtime and the packages do. -/
structure System where
  backup : String
  named : isBackupName backup
  /-- SHA-256, in hex. -/
  sha256 : Bytes → String
  hex : ∀ bytes, isSha256 (sha256 bytes)
  /-- zstd's compression, then age's encryption to these recipients, with what it draws. -/
  encrypt : List Utf16 → Nat → Bytes → Bytes
  /-- age's decryption with these identities, then zstd's decompression. -/
  decrypt : List String → Bytes → Opened
  /-- The recipient of an identity. -/
  recipientOf : String → Utf16
  /-- An identity of one of the recipients opens it; any other is refused. -/
  decrypt_encrypt : ∀ identities recipients n bytes,
    decrypt identities (encrypt recipients n bytes) =
      if identities.any fun i => recipientOf i ∈ recipients then .plain bytes else .refused
  /-- Ed25519, with the private half of a public key. -/
  sign : String → Bytes → Bytes
  verify : String → Bytes → Bytes → Bool
  length_sign : ∀ key bytes, (sign key bytes).length = 64
  verify_sign : ∀ key bytes, verify key bytes (sign key bytes)

/-- What `bindBackup` resolves and checks, but for the repositories. -/
structure Settings where
  recipients : List Utf16
  /-- The public half of the key to sign with, if there is one. -/
  signer : Option String
  /-- The keys a manifest must be signed by one of; with none, nothing is checked. -/
  trusted : List String
  given : recipients ≠ []
  ages : ∀ r ∈ recipients, isRecipient r
  own : ∀ key ∈ signer, key ∈ trusted

theorem unsigned_own : ∀ key ∈ (none : Option String), key ∈ ([] : List String) := nofun

/-- A repository, by what it answers in this run: a file's number is how many were put
before it. The keys are those under `<backup>/`, cut at the first `/`. -/
structure Repository where
  name : String
  list : Except Failure (List (String × String))
  get : String → String → Except Failure (Option Bytes)
  /-- What `acquireLock` rejected with. -/
  locked : Option Failure
  /-- Whether the lease is held when the put of a file is to begin. -/
  held : Nat → Bool
  /-- What `put` rejected with. -/
  put : Nat → Option Failure

def HOLDS : String := "holds"

structure At where
  call : String
  id : String
  repository : Repository

section Reading
variable (sys : System) (settings : Settings)

def System.measure (bytes : Bytes) : Measured := ⟨bytes.length, sys.sha256 bytes⟩

def failure (at_ : At) (code : Code) (what : String) : Failure :=
  .backup code s!"{at_.call} on \"{sys.backup}\": {what} (repository \"{at_.repository.name}\")"

def signedByAny (trusted : List String) (bytes signature : Bytes) : Bool :=
  signature.length = 64 && trusted.any fun key => sys.verify key bytes signature

def checkSignature (at_ : At) (manifest : Bytes) : Except Failure Unit := do
  match ← at_.repository.get at_.id SIGNATURE with
  | none => .error (failure sys at_ .signature "the manifest is not signed")
  | some signature =>
      require (signedByAny sys settings.trusted manifest (signature.take 65))
        (failure sys at_ .signature "no trusted key signed the manifest")

/-- Nothing is checked where no key is trusted. -/
def checkTrusted (at_ : At) (manifest : Bytes) : Except Failure Unit :=
  if settings.trusted = [] then .ok () else checkSignature sys settings at_ manifest

/-- What is read of a manifest's bytes. -/
def readBytes (at_ : At) (bytes : Bytes) : Except Failure Manifest := do
  require (bytes.length ≤ MANIFEST_MAX_BYTES)
    (failure sys at_ .integrity "the manifest is larger than 64 MiB")
  checkTrusted sys settings at_ bytes
  match readManifest (Utf8.decode bytes) with
  | .error why => .error (failure sys at_ .integrity s!"the manifest is unreadable: {why}")
  | .ok read => do
      require (read.backup = sys.backup ∧ read.id = at_.id)
        (failure sys at_ .integrity "the manifest is another backup’s")
      pure read

def fetchManifest (at_ : At) : Except Failure Manifest := do
  require (isBackupId at_.id)
    (Failure.typeError s!"{at_.call} on \"{sys.backup}\": the id is not a backup id")
  match ← at_.repository.get at_.id MANIFEST with
  | none => .error (failure sys at_ .notFound "no backup with that id")
  | some bytes => readBytes sys settings at_ bytes

/-- An object's bytes, if they are the ones the manifest says. -/
def stage (at_ : At) (object : StoredObject) : Except Failure Bytes := do
  match ← at_.repository.get at_.id object.key with
  | none => .error (failure sys at_ .integrity "an object is missing")
  | some bytes => do
      require (sys.measure bytes = object.toMeasured)
        (failure sys at_ .integrity "an object differs from its manifest")
      pure bytes

/-- What a staged file opens to. -/
def openFile (at_ : At) (identities : List String) (bytes : Bytes) (damaged : String) :
    Except Failure Bytes :=
  match sys.decrypt identities bytes with
  | .refused => .error (failure sys at_ .decrypt "no identity given opens it")
  | .damaged => .error (failure sys at_ .integrity damaged)
  | .plain bytes => .ok bytes

def fetchCatalog (at_ : At) (manifest : Manifest) (identities : List String) :
    Except Failure Catalog := do
  let bytes ← stage sys at_ manifest.catalog
  let text ← openFile sys at_ identities bytes "the catalog does not decrypt"
  match readCatalog (Utf8.decode text) manifest.objects.length with
  | .error why => .error (failure sys at_ .integrity s!"the catalog is unreadable: {why}")
  | .ok read => .ok read

/-- The ids of every manifest in a repository, oldest first. -/
def manifestIds (repository : Repository) : Except Failure (List String) := do
  let keys ← repository.list
  pure (((keys.filter fun key => key.2 = MANIFEST ∧ isBackupId key.1).map Prod.fst).insertionSort
    AtMost)

/-- A key is listed. -/
def Listed (repository : Repository) (key : String × String) : Prop :=
  ∃ keys, repository.list = .ok keys ∧ key ∈ keys

/-- The ids held in a repository, read from the keys alone. -/
def heldIds (repository : Repository) : Except Failure (List String) := do
  let keys ← repository.list
  let holds := keys.filter fun key => key.1 = HOLDS ∧ ".json".toList.isSuffixOf key.2.toList ∧
    '/' ∉ key.2.toList
  pure (holds.map fun key => String.ofList (key.2.toList.take (key.2.toList.length - 5)))

/-- The loop of `chainOf`, newest first. -/
def chainFrom (at_ : At) : Nat → Manifest → Except Failure (List Manifest)
  | 0, _ => .error (failure sys at_ .integrity "a backup it builds on is missing")
  | steps + 1, child =>
      match child.parent with
      | none => .ok [child]
      | some id =>
          match fetchManifest sys settings { at_ with id } with
          | .ok parent => (chainFrom at_ steps parent).map (child :: ·)
          | .error (.backup .notFound _) =>
              .error (failure sys at_ .integrity "a backup it builds on is missing")
          | .error error => .error error

/-- Each parent is older than its child, so the walk takes no more steps than there are ids up to
the first. -/
def chainOf (at_ : At) (manifest : Manifest) : Except Failure (List Manifest) :=
  chainFrom sys settings at_ (rank manifest.id + 1) manifest

/-- `Number.parseInt` of an object's key. -/
def objectNumber (key : String) : Option Nat :=
  let ds := key.toList.takeWhile Char.isDigit
  if ds = [] then none else some (Nat.ofDigitChars 10 ds 0)

/-- Where one entry's object is: in the backup itself, or in one of its chain. -/
def locate (at_ : At) (chain : List Manifest) (entry : CatalogEntry) :
    Except Failure (At × StoredObject) :=
  let holder := entry.held.getD at_.id
  match chain.find? fun manifest => manifest.id = holder with
  | none => .error (failure sys at_ .integrity "the catalog names a backup outside its chain")
  | some manifest =>
      match (objectNumber entry.object).bind fun n => manifest.objects[n]? with
      | some object =>
          if object.key = entry.object then .ok ({ at_ with id := holder }, object)
          else .error
            (failure sys at_ .integrity "the catalog names an object the manifest lacks")
      | none =>
          .error (failure sys at_ .integrity "the catalog names an object the manifest lacks")

/-- One entry's bytes, read to the end, and its object. -/
def openEntry (at_ : At) (chain : List Manifest) (entry : CatalogEntry)
    (identities : List String) : Except Failure (Bytes × StoredObject) := do
  let (holder, object) ← locate sys at_ chain entry
  let staged ← stage sys holder object
  let plain ← openFile sys holder identities staged "an entry does not decrypt"
  require (sys.measure plain = entry.toMeasured)
    (failure sys holder .integrity "an entry differs from what its source gave")
  pure (plain, object)

end Reading

section Texts
open JsonText

theorem head_obj (tabs : Bool) (fields : List (String × Value)) :
    (stringify tabs (.obj fields)).toList.head? = some '\x7b' := by
  rw [stringify, String.toList_ofList]
  cases fields with
  | nil => rfl
  | cons f fs => rfl

theorem decode_manifest (manifest : Manifest) :
    Utf8.decode (Utf8.encode manifest.text) = manifest.text := by
  refine Utf8.decode_encode ?_
  rw [Manifest.text, String.toList_append, List.head?_append, Manifest.json, head_obj]
  decide

theorem decode_catalog (catalog : Catalog) :
    Utf8.decode (Utf8.encode catalog.text) = catalog.text := by
  refine Utf8.decode_encode ?_
  rw [Catalog.text, Catalog.json, head_obj]
  decide

end Texts

section Read
variable {sys : System} {settings : Settings}

/-- A manifest that trusted keys are set for is signed by one of them. -/
def Signed (sys : System) (settings : Settings) (repository : Repository) (id : String)
    (manifest : Bytes) : Prop :=
  settings.trusted ≠ [] → ∃ signature, repository.get id SIGNATURE = .ok (some signature) ∧
    signedByAny sys settings.trusted manifest (signature.take 65)

theorem checkTrusted_ok {at_ : At} {manifest : Bytes} {u : Unit} :
    checkTrusted sys settings at_ manifest = .ok u ↔
      Signed sys settings at_.repository at_.id manifest := by
  unfold checkTrusted Signed
  by_cases trusted : settings.trusted = []
  · rw [if_pos trusted]
    exact iff_of_true rfl fun some => absurd trusted some
  · rw [if_neg trusted]
    refine bind_ok.trans ⟨?_, fun signed => ?_⟩
    · rintro ⟨_ | signature, got, is⟩ _
      · cases is
      · exact ⟨signature, got, require_ok.mp is⟩
    · obtain ⟨signature, got, is⟩ := signed trusted
      exact ⟨some signature, got, require_ok.mpr is⟩

/-- What a manifest's bytes are if they are read. -/
structure Reads (sys : System) (settings : Settings) (repository : Repository) (id : String)
    (bytes : Bytes) (manifest : Manifest) : Prop where
  small : bytes.length ≤ MANIFEST_MAX_BYTES
  signed : Signed sys settings repository id bytes
  read : readManifest (Utf8.decode bytes) = .ok manifest
  backup : manifest.backup = sys.backup
  id : manifest.id = id

/-- A repository has this manifest, and it is read. -/
def Fetches (sys : System) (settings : Settings) (repository : Repository) (id : String)
    (manifest : Manifest) : Prop :=
  isBackupId id ∧ ∃ bytes, repository.get id MANIFEST = .ok (some bytes) ∧
    Reads sys settings repository id bytes manifest

theorem mem_manifestIds {repository : Repository} {ids : List String}
    (ok : manifestIds repository = .ok ids) {id : String} :
    id ∈ ids ↔ isBackupId id ∧ Listed repository (id, MANIFEST) := by
  obtain ⟨keys, list, is⟩ := bind_ok.mp ok
  rw [← Except.ok.inj is, (List.perm_insertionSort AtMost _).mem_iff, List.mem_map]
  constructor
  · rintro ⟨key, mem, rfl⟩
    obtain ⟨there, manifest⟩ := List.mem_filter.mp mem
    obtain ⟨file, form⟩ := of_decide_eq_true manifest
    exact ⟨form, keys, list, file ▸ there⟩
  · rintro ⟨form, keys', list', there⟩
    rw [list] at list'
    obtain rfl := Except.ok.inj list'
    exact ⟨_, List.mem_filter.mpr ⟨there, decide_eq_true ⟨rfl, form⟩⟩, rfl⟩

theorem manifestIds_sorted {repository : Repository} {ids : List String}
    (ok : manifestIds repository = .ok ids) : ids.Pairwise AtMost := by
  obtain ⟨keys, -, is⟩ := bind_ok.mp ok
  rw [← Except.ok.inj is]
  exact List.pairwise_insertionSort AtMost _

theorem readBytes_ok {at_ : At} {bytes : Bytes} {manifest : Manifest} :
    readBytes sys settings at_ bytes = .ok manifest ↔
      Reads sys settings at_.repository at_.id bytes manifest := by
  unfold readBytes
  rw [bind_require]
  constructor
  · rintro ⟨small, is⟩
    obtain ⟨_, signed, is⟩ := bind_ok.mp is
    split at is
    next => cases is
    next read eq =>
      obtain ⟨own, is⟩ := bind_require.mp is
      cases is
      obtain ⟨backup, id⟩ := of_decide_eq_true own
      exact ⟨of_decide_eq_true small, checkTrusted_ok.mp signed, eq, backup, id⟩
  · rintro ⟨small, signed, read, backup, id⟩
    refine ⟨decide_eq_true small, bind_ok.mpr ⟨(), checkTrusted_ok.mpr signed, ?_⟩⟩
    rw [read]
    exact bind_require.mpr ⟨decide_eq_true ⟨backup, id⟩, rfl⟩

theorem fetchManifest_ok {call id : String} {repository : Repository} {manifest : Manifest} :
    fetchManifest sys settings ⟨call, id, repository⟩ = .ok manifest ↔
      Fetches sys settings repository id manifest := by
  unfold fetchManifest
  rw [bind_require, bind_ok]
  refine and_congr_right fun _ => ⟨?_, ?_⟩
  · rintro ⟨_ | bytes, got, is⟩
    · cases is
    · exact ⟨bytes, got, readBytes_ok.mp is⟩
  · rintro ⟨bytes, got, reads⟩
    exact ⟨some bytes, got, readBytes_ok.mpr reads⟩

theorem unread_of_error {call id : String} {repository : Repository} {error : Failure}
    (fails : fetchManifest sys settings ⟨call, id, repository⟩ = .error error)
    (manifest : Manifest) : ¬Fetches sys settings repository id manifest := by
  intro fetches
  rw [fetchManifest_ok.mpr fetches] at fails
  cases fails

theorem stage_ok {at_ : At} {object : StoredObject} {bytes : Bytes} :
    stage sys at_ object = .ok bytes ↔ at_.repository.get at_.id object.key = .ok (some bytes) ∧
      sys.measure bytes = object.toMeasured := by
  refine bind_ok.trans ⟨?_, ?_⟩
  · rintro ⟨_ | found, got, is⟩
    · cases is
    · obtain ⟨same, is⟩ := bind_require.mp is
      cases is
      exact ⟨got, of_decide_eq_true same⟩
  · rintro ⟨got, same⟩
    exact ⟨some bytes, got, bind_require.mpr ⟨decide_eq_true same, rfl⟩⟩

theorem openFile_ok {at_ : At} {identities : List String} {bytes plain : Bytes} {why : String} :
    openFile sys at_ identities bytes why = .ok plain ↔
      sys.decrypt identities bytes = .plain plain := by
  unfold openFile
  cases sys.decrypt identities bytes with
  | refused => exact iff_of_false (fun is => by cases is) fun is => by cases is
  | damaged => exact iff_of_false (fun is => by cases is) fun is => by cases is
  | plain found =>
      rw [Except.ok.injEq, Opened.plain.injEq]

theorem fetchCatalog_ok {call id : String} {repository : Repository} {manifest : Manifest}
    {identities : List String} {catalog : Catalog} :
    fetchCatalog sys ⟨call, id, repository⟩ manifest identities = .ok catalog ↔
      ∃ bytes text, repository.get id manifest.catalog.key = .ok (some bytes) ∧
        sys.measure bytes = manifest.catalog.toMeasured ∧
        sys.decrypt identities bytes = .plain text ∧
        readCatalog (Utf8.decode text) manifest.objects.length = .ok catalog := by
  refine bind_ok.trans ⟨?_, ?_⟩
  · rintro ⟨bytes, staged, is⟩
    obtain ⟨text, opened, is⟩ := bind_ok.mp is
    obtain ⟨got, same⟩ := stage_ok.mp staged
    refine ⟨bytes, text, got, same, openFile_ok.mp opened, ?_⟩
    split at is
    next => cases is
    next read eq =>
      cases is
      exact eq
  · rintro ⟨bytes, text, got, same, opened, read⟩
    refine ⟨bytes, stage_ok.mpr ⟨got, same⟩, bind_ok.mpr ⟨text, openFile_ok.mpr opened, ?_⟩⟩
    rw [read]

end Read

end NxgtData.Backup
