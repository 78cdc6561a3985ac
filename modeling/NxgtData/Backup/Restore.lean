import NxgtData.Backup.Read

/-!
A backup read back whole: restored to a target, verified, or listed. The walk along what it
builds on ends; what is written is what the catalog recorded, and `verify` with a key says
whether a restore would succeed.
-/
namespace NxgtData.Backup
open Checked CodeUnits

/-- How a target took one entry. -/
inductive Wrote where
  /-- It read the stream to its end. -/
  | whole
  /-- It resolved sooner. -/
  | early
  | threw (error : Failure)

/-- Which entries to take back. -/
inductive Only where
  | all
  | test (test : Utf16 → Bool)
  | names (names : List Utf16)

structure RestoreOptions where
  identities : List String
  /-- What `decrypterFor` threw on them. -/
  refused : Option Failure
  only : Only

structure Restored where
  id : String
  repository : String
  entries : List Utf16
  size : Nat
deriving DecidableEq

structure Verified where
  id : String
  repository : String
  chain : List String
  objects : Nat
  storedSize : Nat
  decrypted : Bool
  signatureChecked : Bool
deriving DecidableEq

structure BackupInfo where
  id : String
  createdAt : Int
  kind : BackupKind
  parent : Option String
  entries : Nat
  storedSize : Nat
  held : Bool
deriving DecidableEq

structure Listing where
  repository : String
  backups : List BackupInfo
  unreadable : List String
deriving DecidableEq

def storedSize (objects : List StoredObject) : Nat := (objects.map fun object => object.size).sum

section Restoring
variable (sys : System) (settings : Settings)

/-- What was thrown, if anything. -/
def refuse : Option Failure → Except Failure Unit
  | none => .ok ()
  | some error => .error error

def selected (at_ : At) (entries : List CatalogEntry) : Only → Except Failure (List CatalogEntry)
  | .all => .ok entries
  | .test test => .ok (entries.filter fun entry => test entry.name)
  | .names names => do
      require (names.all fun name => name ∈ entries.map CatalogEntry.name)
        (failure sys at_ .notFound "an entry asked for is not in the backup")
      pure (entries.filter fun entry => entry.name ∈ names)

/-- The loop of `restoreBackup`: what was written, and what it threw. -/
def writeEntries (at_ : At) (chain : List Manifest) (identities : List String)
    (target : Nat → Wrote) : List CatalogEntry → Nat → List (Utf16 × Bytes) × Except Failure Unit
  | [], _ => ([], .ok ())
  | entry :: rest, n =>
      match openEntry sys at_ chain entry identities with
      | .error error => ([], .error error)
      | .ok (plain, _) =>
          match target n with
          | .threw error => ([], .error error)
          | .early => ([], .error (.typeError (s!"restore on \"{sys.backup}\": the target " ++
              "resolved write before reading its stream to the end, so nothing it was given was " ++
              "checked")))
          | .whole =>
              let (written, outcome) := writeEntries at_ chain identities target rest (n + 1)
              ((entry.name, plain) :: written, outcome)

/-- What a restore of a backup is to write, and the chain that has it. -/
def toRestore (at_ : At) (options : RestoreOptions) :
    Except Failure (List CatalogEntry × List Manifest) := do
  refuse options.refused
  let manifest ← fetchManifest sys settings at_
  let catalog ← fetchCatalog sys at_ manifest options.identities
  let entries ← selected sys at_ catalog.entries options.only
  let chain ← chainOf sys settings at_ manifest
  pure (entries, chain)

/-- What was written stays written, whatever came after. -/
def restoreBackup (repository : Repository) (id : String) (target : Nat → Wrote)
    (options : RestoreOptions) : List (Utf16 × Bytes) × Except Failure Restored :=
  let at_ : At := ⟨"restore", id, repository⟩
  match toRestore sys settings at_ options with
  | .error error => ([], .error error)
  | .ok (entries, chain) =>
      let (written, outcome) := writeEntries sys at_ chain options.identities target entries 0
      (written, outcome.map fun _ =>
        ⟨id, repository.name, entries.map CatalogEntry.name,
          (entries.map fun entry => entry.size).sum⟩)

/-- The objects of one backup, against its manifest. -/
def stageObjects (at_ : At) : List StoredObject → Except Failure Unit
  | [] => .ok ()
  | object :: rest => do
      let _ ← stage sys at_ object
      stageObjects at_ rest

/-- Every object of every backup of the chain. -/
def stageAll (at_ : At) : List Manifest → Except Failure (List StoredObject)
  | [] => .ok []
  | manifest :: rest => do
      stageObjects sys { at_ with id := manifest.id } (manifest.catalog :: manifest.objects)
      let checked ← stageAll at_ rest
      pure (manifest.catalog :: manifest.objects ++ checked)

def openEntries (at_ : At) (chain : List Manifest) (identities : List String) :
    List CatalogEntry → Except Failure (List StoredObject)
  | [] => .ok []
  | entry :: rest => do
      let (_, object) ← openEntry sys at_ chain entry identities
      let checked ← openEntries at_ chain identities rest
      pure (object :: checked)

/-- The catalog, then every entry it lists, wherever stored. -/
def openAll (at_ : At) (manifest : Manifest) (chain : List Manifest) (identities : List String) :
    Except Failure (List StoredObject) := do
  let catalog ← fetchCatalog sys at_ manifest identities
  let checked ← openEntries sys at_ chain identities catalog.entries
  pure (manifest.catalog :: checked)

/-- The objects that were checked, with a key or without. -/
def checkAll (at_ : At) (manifest : Manifest) (chain : List Manifest) :
    Option (List String × Option Failure) → Except Failure (List StoredObject)
  | some (identities, _) => openAll sys at_ manifest chain identities
  | none => stageAll sys at_ chain

/-- `identities` are given with what `decrypterFor` threw on them. -/
def verifyBackup (repository : Repository) (id : String)
    (identities : Option (List String × Option Failure)) : Except Failure Verified := do
  let at_ : At := ⟨"verify", id, repository⟩
  refuse (identities.bind Prod.snd)
  let manifest ← fetchManifest sys settings at_
  let chain ← chainOf sys settings at_ manifest
  let checked ← checkAll sys at_ manifest chain identities
  pure ⟨id, repository.name, chain.map Manifest.id, checked.length, storedSize checked,
    identities.isSome, settings.trusted ≠ []⟩

/-- What `list` says of a backup, from its manifest. -/
def backupInfo (held : List String) (id : String) (manifest : Manifest) : BackupInfo where
  id := id
  createdAt := manifest.createdAt
  kind := manifest.kind
  parent := manifest.parent
  entries := manifest.objects.length
  storedSize := storedSize (manifest.catalog :: manifest.objects)
  held := id ∈ held

/-- The loop of `listBackups`. -/
def listFrom (repository : Repository) (held : List String) :
    List String → Except Failure (List BackupInfo × List String)
  | [] => .ok ([], [])
  | id :: rest =>
      match fetchManifest sys settings ⟨"list", id, repository⟩ with
      | .ok manifest => (listFrom repository held rest).map fun listed =>
          (backupInfo held id manifest :: listed.1, listed.2)
      | .error (.backup .notFound _) => listFrom repository held rest
      | .error (.backup .integrity _) | .error (.backup .signature _) =>
          (listFrom repository held rest).map fun listed => (listed.1, id :: listed.2)
      | .error error => .error error

def listBackups (repository : Repository) : Except Failure Listing := do
  let ids ← manifestIds repository
  let held ← heldIds repository
  let listed ← listFrom sys settings repository held ids
  pure ⟨repository.name, listed.1, listed.2⟩

end Restoring

section Chains
variable {sys : System} {settings : Settings} {repository : Repository}

theorem Fetches.sound {id : String} {manifest : Manifest}
    (h : Fetches sys settings repository id manifest) : manifest.Sound := by
  obtain ⟨-, bytes, -, reads⟩ := h
  exact readManifest_exact.1 _ _ reads.read

theorem Fetches.id {id : String} {manifest : Manifest}
    (h : Fetches sys settings repository id manifest) : manifest.id = id := by
  obtain ⟨-, bytes, -, reads⟩ := h
  exact reads.id

/-- One manifest is all that is read. -/
theorem Fetches.unique {id : String} {manifest other : Manifest}
    (h : Fetches sys settings repository id manifest)
    (h' : Fetches sys settings repository id other) : manifest = other := by
  obtain ⟨-, bytes, got, reads⟩ := h
  obtain ⟨-, bytes', got', reads'⟩ := h'
  rw [got] at got'
  cases got'
  exact Except.ok.inj (reads.read.symm.trans reads'.read)

/-- A manifest is there, and is damaged or signed by no one trusted. -/
def Damaged (sys : System) (settings : Settings) (repository : Repository) (id : String) : Prop :=
  ∃ why, fetchManifest sys settings ⟨"list", id, repository⟩ = .error (.backup .integrity why) ∨
    fetchManifest sys settings ⟨"list", id, repository⟩ = .error (.backup .signature why)

/-- What the loop over these ids lists, in their order: each is a backup, as its manifest says,
or its manifest is damaged, or gone by then. -/
structure Lists (sys : System) (settings : Settings) (repository : Repository)
    (held ids : List String) (backups : List BackupInfo) (unreadable : List String) : Prop where
  backup : ∀ info, info ∈ backups ↔ ∃ id ∈ ids, ∃ manifest,
    Fetches sys settings repository id manifest ∧ info = backupInfo held id manifest
  damaged : ∀ id, id ∈ unreadable ↔ id ∈ ids ∧ Damaged sys settings repository id
  all : ∀ id ∈ ids, id ∈ backups.map BackupInfo.id ∨ id ∈ unreadable ∨
    ∃ why, fetchManifest sys settings ⟨"list", id, repository⟩ = .error (.backup .notFound why)
  order : (backups.map BackupInfo.id).Sublist ids

section Lists
variable {held ids unreadable : List String} {backups : List BackupInfo} {id why : String}

theorem Damaged.unread (h : Damaged sys settings repository id) (manifest : Manifest) :
    ¬Fetches sys settings repository id manifest := by
  obtain ⟨why, damaged | damaged⟩ := h
  · exact unread_of_error damaged manifest
  · exact unread_of_error damaged manifest

theorem Lists.read (h : Lists sys settings repository held ids backups unreadable)
    {manifest : Manifest} (fetches : Fetches sys settings repository id manifest) :
    Lists sys settings repository held (id :: ids) (backupInfo held id manifest :: backups)
      unreadable where
  backup info := by
    simp only [List.mem_cons, exists_eq_or_imp, h.backup]
    refine or_congr_left ⟨fun is => ⟨manifest, fetches, is⟩, ?_⟩
    rintro ⟨other, fetches', is⟩
    rw [fetches.unique fetches']
    exact is
  damaged other := by
    rw [h.damaged, List.mem_cons]
    refine and_congr_left fun damaged => ⟨.inr, fun mem => mem.resolve_left ?_⟩
    rintro rfl
    exact damaged.unread manifest fetches
  all := List.forall_mem_cons.mpr ⟨.inl List.mem_cons_self, fun other mem =>
    (h.all other mem).imp_left (.tail _)⟩
  order := h.order.cons_cons id

theorem Lists.damage (h : Lists sys settings repository held ids backups unreadable)
    (damaged : Damaged sys settings repository id) :
    Lists sys settings repository held (id :: ids) backups (id :: unreadable) where
  backup info := by
    simp only [List.mem_cons, exists_eq_or_imp, h.backup]
    refine ⟨.inr, fun there => there.resolve_left ?_⟩
    rintro ⟨manifest, fetches, -⟩
    exact damaged.unread manifest fetches
  damaged other := by
    rw [List.mem_cons, List.mem_cons, h.damaged, or_and_right]
    refine or_congr_left ⟨fun same => ⟨same, same ▸ damaged⟩, And.left⟩
  all := List.forall_mem_cons.mpr ⟨.inr (.inl List.mem_cons_self), fun other mem =>
    (h.all other mem).imp_right (.imp_left (.tail _))⟩
  order := h.order.cons id

theorem Lists.missing (h : Lists sys settings repository held ids backups unreadable)
    (gone : fetchManifest sys settings ⟨"list", id, repository⟩ =
      .error (.backup .notFound why)) :
    Lists sys settings repository held (id :: ids) backups unreadable where
  backup info := by
    simp only [List.mem_cons, exists_eq_or_imp, h.backup]
    refine ⟨.inr, fun there => there.resolve_left ?_⟩
    rintro ⟨manifest, fetches, -⟩
    exact unread_of_error gone manifest fetches
  damaged other := by
    rw [h.damaged, List.mem_cons]
    refine and_congr_left fun damaged => ⟨.inr, fun mem => mem.resolve_left ?_⟩
    rintro rfl
    obtain ⟨text, damaged | damaged⟩ := damaged
    · rw [gone] at damaged
      cases damaged
    · rw [gone] at damaged
      cases damaged
  all := List.forall_mem_cons.mpr ⟨.inr (.inr ⟨why, gone⟩), h.all⟩
  order := h.order.cons id

theorem listFrom_ok {listed : List BackupInfo × List String}
    (ok : listFrom sys settings repository held ids = .ok listed) :
    Lists sys settings repository held ids listed.1 listed.2 := by
  induction ids generalizing listed with
  | nil =>
      cases ok
      exact ⟨by simp, by simp, by simp, .slnil⟩
  | cons id rest ih =>
      unfold listFrom at ok
      split at ok
      next manifest fetched =>
        obtain ⟨others, later, rfl⟩ := map_ok.mp ok
        exact (ih later).read (fetchManifest_ok.mp fetched)
      next why gone => exact (ih ok).missing gone
      next why damaged =>
        obtain ⟨others, later, rfl⟩ := map_ok.mp ok
        exact (ih later).damage ⟨why, .inl damaged⟩
      next why unsigned =>
        obtain ⟨others, later, rfl⟩ := map_ok.mp ok
        exact (ih later).damage ⟨why, .inr unsigned⟩
      next => cases ok

end Lists

/-- `list` shows each backup whose manifest a repository has, or that its manifest is damaged;
only one that is gone by then is left out. -/
theorem listBackups_ok {listing : Listing}
    (ok : listBackups sys settings repository = .ok listing) :
    ∃ held ids, heldIds repository = .ok held ∧
      (∀ id, id ∈ ids ↔ isBackupId id ∧ Listed repository (id, MANIFEST)) ∧
      ids.Pairwise AtMost ∧
      Lists sys settings repository held ids listing.backups listing.unreadable := by
  obtain ⟨ids, all, ok⟩ := bind_ok.mp ok
  obtain ⟨held, holds, ok⟩ := bind_ok.mp ok
  obtain ⟨listed, found, ok⟩ := bind_ok.mp ok
  cases ok
  exact ⟨held, ids, holds, fun id => mem_manifestIds all, manifestIds_sorted all,
    listFrom_ok found⟩

/-- A backup's manifest and those of every backup it builds on, newest first. -/
inductive Chain (sys : System) (settings : Settings) (repository : Repository) :
    Manifest → List Manifest → Prop
  | full {manifest : Manifest} (none : manifest.parent = none) :
      Chain sys settings repository manifest [manifest]
  | link {manifest parent : Manifest} {id : String} {chain : List Manifest}
      (is : manifest.parent = some id) (fetched : Fetches sys settings repository id parent)
      (rest : Chain sys settings repository parent chain) :
      Chain sys settings repository manifest (manifest :: chain)

/-- A parent is older. -/
theorem Manifest.Sound.parent_less {manifest : Manifest} (h : manifest.Sound) {id : String}
    (is : manifest.parent = some id) : Less id manifest.id ∧ rank id < rank manifest.id := by
  have fits := h.parent
  rw [is] at fits
  unfold FitsKind at fits
  split at fits
  next => cases fits
  next => exact older fits
  next => exact older fits
where
  older {p : String} (h' : ∃ q, some p = some q ∧ isBackupId q ∧ Less q manifest.id) :
      Less p manifest.id ∧ rank p < rank manifest.id := by
    obtain ⟨q, same, form, less⟩ := h'
    cases same
    exact ⟨less, rank_lt form h.id less⟩

theorem Chain.length_le {manifest : Manifest} {chain : List Manifest}
    (h : Chain sys settings repository manifest chain) (sound : manifest.Sound) :
    chain.length ≤ rank manifest.id + 1 := by
  induction h with
  | full none => simp
  | link is fetched rest ih =>
      have shorter := ih fetched.sound
      rw [fetched.id] at shorter
      have lt := (sound.parent_less is).2
      rw [List.length_cons]
      omega

theorem chainFrom_ok {at_ : At} {steps : Nat} {manifest : Manifest} {chain : List Manifest} :
    chainFrom sys settings at_ steps manifest = .ok chain ↔
      Chain sys settings at_.repository manifest chain ∧ chain.length ≤ steps := by
  induction steps generalizing manifest chain with
  | zero =>
      refine iff_of_false (fun is => by cases is) ?_
      rintro ⟨h, short⟩
      cases h with
      | full none => cases short
      | link is fetched rest => cases short
  | succ steps ih =>
      constructor
      · intro is
        unfold chainFrom at is
        split at is
        next none =>
          cases is
          exact ⟨.full none, by simp⟩
        next id parent =>
          split at is
          next found fetched =>
            obtain ⟨rest, walked, rfl⟩ := map_ok.mp is
            obtain ⟨h, short⟩ := ih.mp walked
            exact ⟨.link parent (fetchManifest_ok.mp fetched) h, Nat.succ_le_succ short⟩
          next => cases is
          next => cases is
      · rintro ⟨h, short⟩
        unfold chainFrom
        cases h with
        | full none => rw [none]
        | link is fetched rest =>
            rw [is]
            dsimp only
            rw [fetchManifest_ok.mpr fetched]
            exact map_ok.mpr ⟨_, ih.mpr ⟨rest, Nat.le_of_succ_le_succ short⟩, rfl⟩

theorem chainOf_ok {at_ : At} {manifest : Manifest} (sound : manifest.Sound)
    {chain : List Manifest} : chainOf sys settings at_ manifest = .ok chain ↔
      Chain sys settings at_.repository manifest chain :=
  chainFrom_ok.trans (and_iff_left_of_imp fun h => h.length_le sound)

/-- With more steps the walk does no other thing. -/
theorem chainFrom_more {at_ : At} {manifest : Manifest} (sound : manifest.Sound) {steps : Nat}
    (more : rank manifest.id < steps) :
    chainFrom sys settings at_ steps manifest = chainOf sys settings at_ manifest := by
  obtain ⟨n, same⟩ : ∃ n, rank manifest.id = n := ⟨_, rfl⟩
  induction n using Nat.strongRecOn generalizing manifest steps with
  | ind n ih =>
      obtain ⟨steps, rfl⟩ := Nat.exists_eq_succ_of_ne_zero (Nat.ne_zero_of_lt more)
      unfold chainOf
      rw [chainFrom, chainFrom]
      split
      next => rfl
      next id is =>
        split
        next parent fetched =>
          have fetched := fetchManifest_ok.mp fetched
          have lt := (sound.parent_less is).2
          rw [← fetched.id] at lt
          rw [ih _ (by omega) fetched.sound (by omega) rfl,
            ih _ (by omega) fetched.sound (by omega) rfl]
        next => rfl
        next => rfl

theorem Chain.older {manifest : Manifest} {chain : List Manifest}
    (h : Chain sys settings repository manifest chain) (sound : manifest.Sound) :
    (manifest :: chain.tail = chain ∧ chain.Pairwise fun a b => Less b.id a.id) ∧
      ∀ m ∈ chain.getLast?, m.kind = .full := by
  have full {m : Manifest} (sound : m.Sound) (none : m.parent = none) : m.kind = .full := by
    have fits := sound.parent
    rw [none] at fits
    unfold FitsKind at fits
    split at fits
    next is => exact is
    next =>
      obtain ⟨p, is, -⟩ := fits
      cases is
    next =>
      obtain ⟨p, is, -⟩ := fits
      cases is
  induction h with
  | full none =>
      refine ⟨⟨rfl, List.pairwise_singleton _ _⟩, ?_⟩
      rintro m is
      cases is
      exact full sound none
  | link is fetched rest ih =>
      obtain ⟨⟨begins, descends⟩, ends⟩ := ih fetched.sound
      have less := (sound.parent_less is).1
      rw [← fetched.id] at less
      rw [← begins] at descends ends ⊢
      refine ⟨⟨rfl, List.pairwise_cons.mpr ⟨fun m mem => ?_, descends⟩⟩, ?_⟩
      · rcases List.mem_cons.mp mem with rfl | tail
        · exact less
        · exact ((List.pairwise_cons.mp descends).1 m tail).trans less
      · rwa [List.getLast?_cons_cons]

/-- Of a manifest that was read, the walk ends, whatever the repository holds: its steps suffice,
and what it gives is older and older, down to a full backup. -/
theorem chainOf_ends (sys : System) (settings : Settings) (at_ : At) (id : String)
    (manifest : Manifest) (read : Fetches sys settings at_.repository id manifest) :
    (∀ steps, rank manifest.id < steps →
      chainFrom sys settings at_ steps manifest = chainOf sys settings at_ manifest) ∧
    ∀ chain, chainOf sys settings at_ manifest = .ok chain →
      (chain.head? = some manifest ∧ chain.Pairwise fun a b => Less b.id a.id) ∧
        ∀ m ∈ chain.getLast?, m.kind = .full := by
  refine ⟨fun steps more => chainFrom_more read.sound more, fun chain is => ?_⟩
  obtain ⟨⟨begins, descends⟩, ends⟩ := ((chainOf_ok read.sound).mp is).older read.sound
  refine ⟨⟨?_, descends⟩, ends⟩
  rw [← begins]
  rfl

def openRecipient : Utf16 := Utf16.ofString "age1open"

/-- A system that hides nothing: what is sealed says only whether its one recipient may open it. -/
def openSystem : System where
  backup := "app"
  named := by decide
  sha256 _ := String.ofList (List.replicate 64 '0')
  hex _ := by decide
  encrypt recipients _ bytes := (if openRecipient ∈ recipients then 1 else 0) :: bytes
  decrypt identities bytes :=
    match bytes with
    | [] => .damaged
    | mark :: bytes => if mark = 1 ∧ identities ≠ [] then .plain bytes else .refused
  recipientOf _ := openRecipient
  decrypt_encrypt identities recipients _ bytes := by
    by_cases may : openRecipient ∈ recipients
    · cases identities with
      | nil => simp
      | cons i rest => simp [may]
    · simp [may]
  sign _ _ := List.replicate 64 0
  verify _ _ signature := signature = List.replicate 64 0
  length_sign _ _ := by decide
  verify_sign _ _ := by simp

def openSettings : Settings where
  recipients := [openRecipient]
  signer := none
  trusted := []
  given := by decide
  ages := by decide
  own := unsigned_own

/-- A full backup of nothing. -/
def emptyManifest : Manifest where
  backup := "app"
  id := "20250101T000000000Z-00000000"
  createdAt := 1735689600000
  kind := .full
  parent := none
  recipients := [openRecipient]
  catalog := { openSystem.measure [] with key := "catalog.age" }
  objects := []

/-- An incremental one on it, a day later. -/
def nextManifest : Manifest :=
  { emptyManifest with
    id := "20250102T000000000Z-00000000"
    createdAt := 1735776000000
    kind := .incremental
    parent := some emptyManifest.id }

/-- A repository with both manifests. -/
def dayRepository : Repository where
  name := "local"
  list := .ok [(emptyManifest.id, MANIFEST), (nextManifest.id, MANIFEST)]
  get id key :=
    if key ≠ MANIFEST then .ok none
    else if id = emptyManifest.id then .ok (some (Utf8.encode emptyManifest.text))
    else if id = nextManifest.id then .ok (some (Utf8.encode nextManifest.text))
    else .ok none
  locked := none
  held _ := true
  put _ := none

theorem emptyManifest_sound : emptyManifest.Sound where
  backup := by decide
  id := by decide
  low := by decide
  high := by decide
  parent := rfl
  given := by decide
  recipients := by decide
  catalog := ⟨⟨by decide, by decide, by decide⟩, rfl⟩
  objects := nofun
  numbered := nofun

theorem nextManifest_sound : nextManifest.Sound :=
  { emptyManifest_sound with
    id := by decide
    low := by decide
    high := by decide
    parent := ⟨emptyManifest.id, rfl, by decide, by decide⟩ }

theorem toList_text (manifest : Manifest) :
    manifest.text.toList = JsonText.write true 0 manifest.json ++ ['\n'] := by
  rw [Manifest.text, String.toList_append, JsonText.stringify, String.toList_ofList]
  rfl

theorem dayRepository_fetches {manifest : Manifest} (sound : manifest.Sound)
    (backup : manifest.backup = openSystem.backup)
    (there : dayRepository.get manifest.id MANIFEST = .ok (some (Utf8.encode manifest.text)))
    (small : (Utf8.encode manifest.text).length ≤ MANIFEST_MAX_BYTES) :
    Fetches openSystem openSettings dayRepository manifest.id manifest := by
  refine ⟨sound.id, Utf8.encode manifest.text, there, small, fun some => absurd rfl some, ?_,
    backup, rfl⟩
  rw [decode_manifest]
  exact readManifest_text sound

theorem emptyManifest_fetches :
    Fetches openSystem openSettings dayRepository emptyManifest.id emptyManifest := by
  refine dayRepository_fetches emptyManifest_sound rfl (by simp [dayRepository]) ?_
  unfold Utf8.encode
  rw [toList_text]
  decide +kernel

theorem nextManifest_fetches :
    Fetches openSystem openSettings dayRepository nextManifest.id nextManifest := by
  have other : nextManifest.id ≠ emptyManifest.id := by decide
  refine dayRepository_fetches nextManifest_sound rfl (by simp [dayRepository, other]) ?_
  unfold Utf8.encode
  rw [toList_text]
  decide +kernel

/-- From the second day's backup the walk goes to the first's. -/
theorem chainOf_ends_day :
    chainOf openSystem openSettings ⟨"verify", nextManifest.id, dayRepository⟩ nextManifest =
      .ok [nextManifest, emptyManifest] ∧
    (∀ steps, rank nextManifest.id < steps →
      chainFrom openSystem openSettings ⟨"verify", nextManifest.id, dayRepository⟩ steps
        nextManifest =
      chainOf openSystem openSettings ⟨"verify", nextManifest.id, dayRepository⟩ nextManifest) ∧
    ∀ chain, chainOf openSystem openSettings ⟨"verify", nextManifest.id, dayRepository⟩
        nextManifest = .ok chain →
      (chain.head? = some nextManifest ∧ chain.Pairwise fun a b => Less b.id a.id) ∧
        ∀ m ∈ chain.getLast?, m.kind = .full :=
  ⟨(chainOf_ok nextManifest_sound).mpr (.link rfl emptyManifest_fetches (.full rfl)),
    chainOf_ends openSystem openSettings ⟨"verify", nextManifest.id, dayRepository⟩
      nextManifest.id nextManifest nextManifest_fetches⟩

end Chains

section Entries
variable {sys : System} {settings : Settings} {repository : Repository} {call id : String}
  {chain : List Manifest} {identities : List String}

/-- An entry's object, by the chain that has it. -/
structure Located (chain : List Manifest) (id : String) (entry : CatalogEntry)
    (object : StoredObject) : Prop where
  there : ∃ manifest n, chain.find? (fun m => m.id = entry.held.getD id) = some manifest ∧
    objectNumber entry.object = some n ∧ manifest.objects[n]? = some object
  key : object.key = entry.object

theorem locate_ok {entry : CatalogEntry} {holder : At} {object : StoredObject} :
    locate sys ⟨call, id, repository⟩ chain entry = .ok (holder, object) ↔
      holder = ⟨call, entry.held.getD id, repository⟩ ∧ Located chain id entry object := by
  unfold locate
  dsimp only
  split
  next none =>
    refine iff_of_false (fun is => by cases is) ?_
    rintro ⟨-, ⟨manifest, n, found, -⟩, -⟩
    rw [none] at found
    cases found
  next manifest found =>
    split
    next here eq =>
      obtain ⟨n, number, at_⟩ := Option.bind_eq_some_iff.mp eq
      split
      next key =>
        constructor
        · intro is
          cases is
          exact ⟨rfl, ⟨manifest, n, found, number, at_⟩, key⟩
        · rintro ⟨rfl, ⟨manifest', n', found', number', at'⟩, -⟩
          rw [found] at found'
          cases found'
          rw [number] at number'
          cases number'
          rw [at_] at at'
          cases at'
          rfl
      next other =>
        refine iff_of_false (fun is => by cases is) ?_
        rintro ⟨-, ⟨manifest', n', found', number', at'⟩, key⟩
        rw [found] at found'
        cases found'
        rw [number] at number'
        cases number'
        rw [at_] at at'
        cases at'
        exact other key
    next none =>
      refine iff_of_false (fun is => by cases is) ?_
      rintro ⟨-, ⟨manifest', n', found', number', at'⟩, -⟩
      rw [found] at found'
      cases found'
      rw [number', Option.bind_some, at'] at none
      cases none

/-- An entry opens to these bytes: its object is as its manifest says, and they are as the catalog
says. -/
structure EntryOpens (sys : System) (repository : Repository) (id : String)
    (chain : List Manifest) (identities : List String) (entry : CatalogEntry) (plain : Bytes)
    (object : StoredObject) : Prop where
  located : Located chain id entry object
  staged : ∃ staged, repository.get (entry.held.getD id) object.key = .ok (some staged) ∧
    sys.measure staged = object.toMeasured ∧ sys.decrypt identities staged = .plain plain
  measured : sys.measure plain = entry.toMeasured

theorem openEntry_ok {entry : CatalogEntry} {plain : Bytes} {object : StoredObject} :
    openEntry sys ⟨call, id, repository⟩ chain entry identities = .ok (plain, object) ↔
      EntryOpens sys repository id chain identities entry plain object := by
  refine bind_ok.trans ⟨?_, ?_⟩
  · rintro ⟨⟨holder, found⟩, lies, is⟩
    obtain ⟨rfl, located⟩ := locate_ok.mp lies
    obtain ⟨bytes, staged, is⟩ := bind_ok.mp is
    obtain ⟨opened, decrypts, is⟩ := bind_ok.mp is
    obtain ⟨measured, is⟩ := bind_require.mp is
    cases is
    obtain ⟨got, same⟩ := stage_ok.mp staged
    exact ⟨located, ⟨bytes, got, same, openFile_ok.mp decrypts⟩, of_decide_eq_true measured⟩
  · rintro ⟨located, ⟨bytes, got, same, decrypts⟩, measured⟩
    refine ⟨(⟨call, entry.held.getD id, repository⟩, object), locate_ok.mpr ⟨rfl, located⟩, ?_⟩
    refine bind_ok.mpr ⟨bytes, stage_ok.mpr ⟨got, same⟩, ?_⟩
    refine bind_ok.mpr ⟨plain, openFile_ok.mpr decrypts, ?_⟩
    exact bind_require.mpr ⟨decide_eq_true measured, rfl⟩

/-- An entry was written as the catalog says. -/
def Writes (sys : System) (repository : Repository) (id : String) (chain : List Manifest)
    (identities : List String) (entry : CatalogEntry) (written : Utf16 × Bytes) : Prop :=
  written.1 = entry.name ∧ ∃ object,
    EntryOpens sys repository id chain identities entry written.2 object

theorem writeEntries_spec (target : Nat → Wrote) (entries : List CatalogEntry) (n : Nat) :
    let ran := writeEntries sys ⟨call, id, repository⟩ chain identities target entries n
    (∃ first rest, entries = first ++ rest ∧
      List.Forall₂ (Writes sys repository id chain identities) first ran.1) ∧
    (∀ u, ran.2 = .ok u →
      List.Forall₂ (Writes sys repository id chain identities) entries ran.1) := by
  induction entries generalizing n with
  | nil => exact ⟨⟨[], [], rfl, .nil⟩, fun _ _ => .nil⟩
  | cons entry rest ih =>
      have nothing : ∃ first rest', entry :: rest = first ++ rest' ∧
          List.Forall₂ (Writes sys repository id chain identities) first [] :=
        ⟨[], entry :: rest, rfl, .nil⟩
      unfold writeEntries
      dsimp only
      split
      next => exact ⟨nothing, fun u is => by cases is⟩
      next plain object opened =>
        split
        next => exact ⟨nothing, fun u is => by cases is⟩
        next => exact ⟨nothing, fun u is => by cases is⟩
        next =>
          obtain ⟨⟨first, later, same, wrote⟩, all⟩ := ih (n + 1)
          have one : Writes sys repository id chain identities entry (entry.name, plain) :=
            ⟨rfl, object, openEntry_ok.mp opened⟩
          refine ⟨⟨entry :: first, later, ?_, .cons one wrote⟩, fun u is => .cons one (all u is)⟩
          rw [List.cons_append, ← same]

/-- What opens is written, by a target that reads it all. -/
theorem writeEntries_all {entries : List CatalogEntry} {written : List (Utf16 × Bytes)}
    (opens : List.Forall₂ (Writes sys repository id chain identities) entries written) (n : Nat) :
    writeEntries sys ⟨call, id, repository⟩ chain identities (fun _ => .whole) entries n =
      (written, .ok ()) := by
  induction opens generalizing n with
  | nil => rfl
  | @cons entry one rest others first _ ih =>
      obtain ⟨name, plain⟩ := one
      obtain ⟨rfl, object, opened⟩ := first
      unfold writeEntries
      rw [openEntry_ok.mpr opened]
      dsimp only
      rw [ih (n + 1)]

theorem openEntries_ok {entries : List CatalogEntry} :
    (∃ objects, openEntries sys ⟨call, id, repository⟩ chain identities entries = .ok objects) ↔
      ∀ e ∈ entries, ∃ plain object,
        EntryOpens sys repository id chain identities e plain object := by
  induction entries with
  | nil => simp [openEntries]
  | cons entry rest ih =>
      rw [List.forall_mem_cons, ← ih]
      constructor
      · rintro ⟨objects, is⟩
        obtain ⟨⟨plain, object⟩, opened, is⟩ := bind_ok.mp is
        obtain ⟨others, later, -⟩ := bind_ok.mp is
        exact ⟨⟨plain, object, openEntry_ok.mp opened⟩, others, later⟩
      · rintro ⟨⟨plain, object, opened⟩, others, later⟩
        exact ⟨object :: others, bind_ok.mpr ⟨(plain, object), openEntry_ok.mpr opened,
          bind_ok.mpr ⟨others, later, rfl⟩⟩⟩

/-- What a restore is to write. -/
theorem toRestore_ok {options : RestoreOptions} {entries : List CatalogEntry} :
    toRestore sys settings ⟨call, id, repository⟩ options = .ok (entries, chain) ↔
      refuse options.refused = .ok () ∧ ∃ manifest catalog,
        Fetches sys settings repository id manifest ∧
        fetchCatalog sys ⟨call, id, repository⟩ manifest options.identities = .ok catalog ∧
        selected sys ⟨call, id, repository⟩ catalog.entries options.only = .ok entries ∧
        Chain sys settings repository manifest chain := by
  unfold toRestore
  rw [bind_ok]
  constructor
  · rintro ⟨_, allowed, is⟩
    obtain ⟨manifest, fetched, is⟩ := bind_ok.mp is
    obtain ⟨catalog, read, is⟩ := bind_ok.mp is
    obtain ⟨wanted, chosen, is⟩ := bind_ok.mp is
    obtain ⟨walked, walks, is⟩ := bind_ok.mp is
    cases is
    have fetched := fetchManifest_ok.mp fetched
    exact ⟨allowed, manifest, catalog, fetched, read, chosen, (chainOf_ok fetched.sound).mp walks⟩
  · rintro ⟨allowed, manifest, catalog, fetched, read, chosen, walks⟩
    refine ⟨(), allowed, bind_ok.mpr ⟨manifest, fetchManifest_ok.mpr fetched, ?_⟩⟩
    refine bind_ok.mpr ⟨catalog, read, bind_ok.mpr ⟨entries, chosen, ?_⟩⟩
    exact bind_ok.mpr ⟨chain, (chainOf_ok fetched.sound).mpr walks, rfl⟩

/-- The catalog that is fetched does not depend on who asks. -/
theorem fetchCatalog_call {call' : String} {manifest : Manifest} {catalog : Catalog}
    (is : fetchCatalog sys ⟨call, id, repository⟩ manifest identities = .ok catalog) :
    fetchCatalog sys ⟨call', id, repository⟩ manifest identities = .ok catalog :=
  fetchCatalog_ok.mpr (fetchCatalog_ok.mp is)

theorem verifyBackup_ok {identities : Option (List String × Option Failure)} :
    (∃ verified, verifyBackup sys settings repository id identities = .ok verified) ↔
      refuse (identities.bind Prod.snd) = .ok () ∧ ∃ manifest chain,
        Fetches sys settings repository id manifest ∧
        Chain sys settings repository manifest chain ∧
        ∃ checked, checkAll sys ⟨"verify", id, repository⟩ manifest chain identities =
          .ok checked := by
  unfold verifyBackup
  constructor
  · rintro ⟨verified, is⟩
    obtain ⟨_, allowed, is⟩ := bind_ok.mp is
    obtain ⟨manifest, fetched, is⟩ := bind_ok.mp is
    obtain ⟨chain, walks, is⟩ := bind_ok.mp is
    obtain ⟨checked, checks, -⟩ := bind_ok.mp is
    have fetched := fetchManifest_ok.mp fetched
    exact ⟨allowed, manifest, chain, fetched, (chainOf_ok fetched.sound).mp walks, checked, checks⟩
  · rintro ⟨allowed, manifest, chain, fetched, walks, checked, checks⟩
    exact ⟨_, bind_ok.mpr ⟨(), allowed, bind_ok.mpr ⟨manifest, fetchManifest_ok.mpr fetched,
      bind_ok.mpr ⟨chain, (chainOf_ok fetched.sound).mpr walks,
        bind_ok.mpr ⟨checked, checks, rfl⟩⟩⟩⟩⟩

theorem openAll_ok {manifest : Manifest} :
    (∃ checked, openAll sys ⟨call, id, repository⟩ manifest chain identities = .ok checked) ↔
      ∃ catalog, fetchCatalog sys ⟨call, id, repository⟩ manifest identities = .ok catalog ∧
        ∀ e ∈ catalog.entries, ∃ plain object,
          EntryOpens sys repository id chain identities e plain object := by
  constructor
  · rintro ⟨checked, is⟩
    obtain ⟨catalog, read, is⟩ := bind_ok.mp is
    obtain ⟨objects, opened, -⟩ := bind_ok.mp is
    exact ⟨catalog, read, openEntries_ok.mp ⟨objects, opened⟩⟩
  · rintro ⟨catalog, read, opens⟩
    obtain ⟨objects, opened⟩ := openEntries_ok.mpr opens
    exact ⟨_, bind_ok.mpr ⟨catalog, read, bind_ok.mpr ⟨objects, opened, rfl⟩⟩⟩

/-- What is written if every entry opens. -/
theorem exists_written {entries : List CatalogEntry} (opens : ∀ e ∈ entries, ∃ plain object,
    EntryOpens sys repository id chain identities e plain object) :
    ∃ written, List.Forall₂ (Writes sys repository id chain identities) entries written := by
  induction entries with
  | nil => exact ⟨[], .nil⟩
  | cons entry rest ih =>
      obtain ⟨⟨plain, object, first⟩, others⟩ := List.forall_mem_cons.mp opens
      obtain ⟨written, later⟩ := ih others
      exact ⟨(entry.name, plain) :: written, .cons ⟨rfl, object, first⟩ later⟩

/-- A restore to a target that reads everything. -/
theorem restoreBackup_ok {options : RestoreOptions} {written : List (Utf16 × Bytes)} :
    (∃ restored, restoreBackup sys settings repository id (fun _ => .whole) options =
      (written, .ok restored)) ↔
      ∃ entries chain,
        toRestore sys settings ⟨"restore", id, repository⟩ options = .ok (entries, chain) ∧
        List.Forall₂ (Writes sys repository id chain options.identities) entries written := by
  unfold restoreBackup
  dsimp only
  constructor
  · rintro ⟨restored, is⟩
    split at is
    next => cases is
    next entries chain ready =>
      obtain ⟨rfl, all⟩ := Prod.mk.inj is
      obtain ⟨u, done, -⟩ := map_ok.mp all
      exact ⟨entries, chain, ready, (writeEntries_spec (fun _ => .whole) entries 0).2 u done⟩
  · rintro ⟨entries, chain, ready, wrote⟩
    rw [ready]
    dsimp only
    rw [writeEntries_all wrote 0]
    exact ⟨_, rfl⟩

/-- `verify` with a key resolves where a restore of every entry would, whatever the repository
holds, and only there. -/
theorem verify_restores (sys : System) (settings : Settings) (repository : Repository)
    (id : String) (identities : List String) (refused : Option Failure) :
    (∃ verified, verifyBackup sys settings repository id (some (identities, refused)) =
      .ok verified) ↔
    ∃ written restored, restoreBackup sys settings repository id (fun _ => .whole)
      ⟨identities, refused, .all⟩ = (written, .ok restored) := by
  rw [verifyBackup_ok]
  constructor
  · rintro ⟨allowed, manifest, chain, fetched, walks, checked, checks⟩
    obtain ⟨catalog, read, opens⟩ := openAll_ok.mp ⟨checked, checks⟩
    obtain ⟨written, wrote⟩ := exists_written opens
    exact ⟨written, restoreBackup_ok.mpr ⟨catalog.entries, chain, toRestore_ok.mpr
      ⟨allowed, manifest, catalog, fetched, fetchCatalog_call read, rfl, walks⟩, wrote⟩⟩
  · rintro ⟨written, restored⟩
    obtain ⟨entries, chain, ready, wrote⟩ := restoreBackup_ok.mp restored
    obtain ⟨allowed, manifest, catalog, fetched, read, chosen, walks⟩ := toRestore_ok.mp ready
    cases chosen
    refine ⟨allowed, manifest, chain, fetched, walks, openAll_ok.mpr
      ⟨catalog, fetchCatalog_call read, fun e mem => ?_⟩⟩
    obtain ⟨i, lt, rfl⟩ := List.mem_iff_getElem.mp mem
    obtain ⟨-, object, opened⟩ := wrote.get lt (wrote.length_eq ▸ lt)
    exact ⟨_, object, opened⟩

end Entries

end NxgtData.Backup
