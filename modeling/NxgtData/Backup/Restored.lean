import NxgtData.Backup.Stocked

/-!
Whatever runs before it and wherever each run was cut, a backup that is in a repository is one that
a create made, and a restore of it gives back exactly what that create's source gave.
-/
namespace NxgtData.Backup
open Checked CodeUnits

section Promises
variable {sys : System}

/-- A source gave an entry, built on something or on nothing. -/
def Gives (source : BackupSource) (entry : SourceEntry) : Prop :=
  ∃ since, .entry entry ∈ (source.entries since).steps

/-- What the sources of one kind promise: a fingerprint that an entry kept is of the same bytes.
And of what they gave, no two have one digest. -/
def Honest (acts : List (Act sys)) : Prop :=
  ∀ c c', .create c ∈ acts → .create c' ∈ acts → c.source.kind = c'.source.kind →
    ∀ e e', Gives c.source e → Gives c'.source e' →
      (e.name = e'.name → e.fingerprint.isSome → e.fingerprint = e'.fingerprint →
        e.bytes = e'.bytes) ∧
      (sys.sha256 e.bytes = sys.sha256 e'.bytes → e.bytes = e'.bytes)

/-- No key is asked for, or every create signed with one that is trusted. -/
def Trusts (settings : Settings) (acts : List (Act sys)) : Prop :=
  settings.trusted = [] ∨
    ∀ c, .create c ∈ acts → ∃ key ∈ c.settings.signer, key ∈ settings.trusted

/-- Nothing fails. -/
def calm : Faults := ⟨none, fun _ _ => none, none, fun _ => true, fun _ => none⟩

end Promises

section Reading
variable {sys : System} {acts : List (Act sys)} {history : History sys} {vault : Vault}
  {settings : Settings} {name id : String} {bytes : Bytes} {o : Origin sys}

theorem get_calm (key : String) : (Vault.repository vault name calm).get id key =
    .ok (vault.lookup (id, key)) := rfl

/-- Its manifest is fetched. -/
theorem Stocked.fetches (h : Stocked history vault) (sound : history.Sound acts)
    (trusts : Trusts settings acts) (is : history id = some o)
    (there : vault.lookup (id, MANIFEST) = some bytes) :
    Fetches sys settings (Vault.repository vault name calm) id o.manifest := by
  have own := sound.id id o is
  have form : isBackupId id := own ▸ o.id_form
  obtain ⟨o', is', written, files, -⟩ := h id bytes form there
  rw [is] at is'
  obtain rfl := Option.some.inj is'
  refine ⟨form, bytes, by rw [get_calm, there], ?_, ?_, ?_, rfl, own⟩
  · rw [written]
    exact (sound.of id o is).small
  · intro some_
    obtain ⟨key, signer, mem⟩ := (trusts.resolve_left some_) o.creation (sound.made id o is)
    have put : (SIGNATURE, File.signature o.manifest key) ∈ o.puts := by
      refine List.mem_append_right _ ?_
      have signer : o.ctx.signer = some key := signer
      unfold signatures
      rw [signer]
      exact List.mem_singleton.mpr rfl
    have signature := files _ put
    refine ⟨_, congrArg Except.ok signature, ?_⟩
    have long := sys.length_sign key (Utf8.encode o.manifest.text)
    have signed : (File.signature o.manifest key).bytes sys =
        sys.sign key (Utf8.encode o.manifest.text) := rfl
    rw [signed, List.take_of_length_le (by omega), written]
    unfold signedByAny
    rw [long, Bool.and_eq_true]
    exact ⟨rfl, List.any_eq_true.mpr ⟨key, mem, sys.verify_sign key _⟩⟩
  · rw [written]
    exact sound.reads is

theorem opens {recipients : List Utf16} {identities : List String} (n : Nat) (plain : Bytes)
    (fits : ∃ i ∈ identities, sys.recipientOf i ∈ recipients) :
    sys.decrypt identities (sys.encrypt recipients n plain) = .plain plain := by
  obtain ⟨i, mem, is⟩ := fits
  rw [sys.decrypt_encrypt, if_pos (List.any_eq_true.mpr ⟨i, mem, decide_eq_true is⟩)]

/-- Its catalog is fetched. -/
theorem Stocked.fetchesCatalog (h : Stocked history vault) (sound : history.Sound acts)
    (is : history id = some o) (there : vault.lookup (id, MANIFEST) = some bytes)
    {identities : List String}
    (fits : ∃ i ∈ identities, sys.recipientOf i ∈ o.ctx.recipients) (call : String) :
    fetchCatalog sys ⟨call, id, Vault.repository vault name calm⟩ o.manifest identities =
      .ok o.w.catalog := by
  have form : isBackupId id := sound.id id o is ▸ o.id_form
  obtain ⟨o', is', -, files, -⟩ := h id bytes form there
  rw [is] at is'
  obtain rfl := Option.some.inj is'
  refine fetchCatalog_ok.mpr ⟨o.w.sealed o.ctx, Utf8.encode o.w.catalog.text, ?_, rfl, ?_, ?_⟩
  · exact congrArg Except.ok (files _ (mem_puts_catalog o))
  · exact opens o.w.draw _ fits
  · have length : o.manifest.objects.length = o.w.made.length := List.length_mapIdx
    rw [decode_catalog, length, readCatalog_text (sound.catalog is)]

/-- An entry of a catalog is an entry of the source, and some backup of the chain sealed its
bytes. -/
structure Tells (history : History sys) (vault : Vault) (id : String) (o : Origin sys)
    (chain : List Manifest) (s : SourceEntry) (e : CatalogEntry) : Prop where
  name : e.name = s.name
  fingerprint : e.fingerprint = s.fingerprint
  measured : sys.measure s.bytes = e.toMeasured
  lies : ∃ p, history (e.held.getD id) = some p ∧ p.manifest ∈ chain ∧
    (∃ bytes, vault.lookup (e.held.getD id, MANIFEST) = some bytes) ∧
    (∀ r, r ∈ p.ctx.recipients ↔ r ∈ o.ctx.recipients) ∧
    ∃ i draw, e.object = objectKey i ∧ p.w.made[i]? = some (s.bytes, draw)

theorem forall₂_of_mem {α β : Type} {rel rel' : α → β → Prop} {as : List α} {bs : List β}
    (h : List.Forall₂ rel as bs) (all : ∀ a ∈ as, ∀ b, rel a b → rel' a b) :
    List.Forall₂ rel' as bs := by
  induction h with
  | nil => exact .nil
  | cons first _ ih =>
      obtain ⟨here, later⟩ := List.forall_mem_cons.mp all
      exact .cons (here _ first) (ih later)

theorem mem_sameRecipients {a b : List Utf16} (same : sameRecipients a b) (r : Utf16) :
    r ∈ a ↔ r ∈ b := by
  unfold sameRecipients at same
  obtain ⟨count, all⟩ := Bool.and_eq_true_iff.mp same
  have sub : b.dedup ⊆ a.dedup := by
    intro x mem
    exact List.mem_dedup.mpr (of_decide_eq_true (List.all_eq_true.mp all x (List.mem_dedup.mp mem)))
  have length : a.dedup.length = b.dedup.length := of_decide_eq_true count
  have perm := (List.subperm_of_subset (List.nodup_dedup b) sub).perm_of_length_le length.le
  rw [← List.mem_dedup, ← perm.mem_iff, List.mem_dedup]

/-- Of every backup that is there, the chain is too, and its catalog tells what its source gave. -/
theorem Stocked.tells (h : Stocked history vault) (sound : history.Sound acts)
    (trusts : Trusts settings acts) (honest : Honest acts) (is : history id = some o)
    (there : vault.lookup (id, MANIFEST) = some bytes) :
    ∃ chain, Chain sys settings (Vault.repository vault name calm) o.manifest chain ∧
      o.manifest ∈ chain ∧
      List.Forall₂ (Tells history vault id o chain) o.w.entries o.w.catalog.entries := by
  obtain ⟨n, same⟩ : ∃ n, rank id = n := ⟨_, rfl⟩
  induction n using Nat.strongRecOn generalizing id o bytes with
  | ind n ih =>
      have of := sound.of id o is
      have own := sound.id id o is
      have form : isBackupId id := own ▸ o.id_form
      have gives {s : SourceEntry} (mem : s ∈ o.w.entries) : Gives o.creation.source s := by
        refine ⟨o.w.base.map Base.since, ?_⟩
        rw [of.steps]
        exact List.mem_map_of_mem mem
      have stored {chain : List Manifest} (mem : o.manifest ∈ chain) {s : SourceEntry}
          {i draw : Nat} (made : o.w.made[i]? = some (s.bytes, draw)) :
          Tells history vault id o chain s (ownEntry o.ctx s i) :=
        ⟨rfl, rfl, rfl, o, is, mem, ⟨bytes, there⟩, fun _ => Iff.rfl, i, draw, rfl, made⟩
      cases base : o.w.base with
      | none =>
          have none : o.manifest.parent = none := by
            change o.w.base.map _ = none
            rw [base]
            rfl
          refine ⟨[o.manifest], .full none, List.mem_cons_self,
            forall₂_of_mem of.records fun s _ e record => ?_⟩
          cases record with
          | own i draw _ made => exact stored List.mem_cons_self made
          | known known knows _ =>
              rw [base] at knows
              cases knows
      | some b =>
          obtain ⟨p, was, manifest, -, knowledge, kind, recipients⟩ := sound.built id o is b base
          have parent : o.manifest.parent = some b.manifest.id := by
            change o.w.base.map _ = _
            rw [base]
            rfl
          obtain ⟨o', is', -, -, parents⟩ := h id bytes form there
          rw [is] at is'
          obtain rfl := Option.some.inj is'
          obtain ⟨found, has⟩ := parents _ parent
          have older := of.older base
          have less : rank b.manifest.id < n := by
            rw [← same]
            refine rank_lt older.1 form ?_
            rw [← own]
            exact older.2
          obtain ⟨chain, walks, begins, told⟩ := ih _ less was has rfl
          have fetches : Fetches sys settings (Vault.repository vault name calm) b.manifest.id
              p.manifest := h.fetches sound trusts was has
          refine ⟨o.manifest :: chain, .link parent fetches walks, List.mem_cons_self,
            forall₂_of_mem of.records fun s mem e record => ?_⟩
          cases record with
          | own i draw _ made => exact stored List.mem_cons_self made
          | known known knows alike =>
              rw [base, Option.bind_some, knowledge] at knows
              obtain ⟨e, listed, named, rfl⟩ := knownOf_lookup knows
              obtain ⟨s', mem', tells⟩ := exists_left told listed
              have steps := (sound.of _ p was).steps
              have given : Gives p.creation.source s' :=
                ⟨p.w.base.map Base.since, by rw [steps]; exact List.mem_map_of_mem mem'⟩
              obtain ⟨kept, digest⟩ := honest p.creation o.creation (sound.made _ p was)
                (sound.made id o is) kind s' s given (gives mem)
              -- The bytes are those that the backup built on recorded.
              have equal : s'.bytes = s.bytes := by
                rcases alike with ⟨f, mine, its⟩ | sha
                · have print : s'.fingerprint = some f := tells.fingerprint.symm.trans its
                  refine kept (tells.name.symm.trans named) ?_ (print.trans mine.symm)
                  rw [print]
                  rfl
                · refine digest (Eq.trans ?_ sha)
                  exact congrArg Measured.sha256 tells.measured
              obtain ⟨q, from_, inside, holds, fits, i, draw, object, made⟩ := tells.lies
              have holder : p.manifest.id = b.manifest.id := sound.id _ p was
              refine ⟨rfl, rfl, ?_, q, ?_, List.mem_cons_of_mem _ inside, ?_, fun r => ?_, i, draw,
                object, ?_⟩
              · rw [← equal]
                exact tells.measured
              · change history (e.held.getD p.manifest.id) = some q
                rw [holder]
                exact from_
              · change ∃ bytes, vault.lookup (e.held.getD p.manifest.id, MANIFEST) = some bytes
                rw [holder]
                exact holds
              · exact (fits r).trans (mem_sameRecipients recipients r)
              · rw [← equal]
                exact made

theorem find_manifest {chain : List Manifest} (distinct : (chain.map Manifest.id).Nodup)
    {m : Manifest} (mem : m ∈ chain) : chain.find? (fun found => found.id = m.id) = some m := by
  cases is : chain.find? fun found => found.id = m.id with
  | none => exact absurd (decide_eq_true rfl) (List.find?_eq_none.mp is m mem)
  | some found =>
      have test := List.find?_some is
      have same : found.id = m.id := of_decide_eq_true test
      exact congrArg some
        (List.inj_on_of_nodup_map distinct (List.mem_of_find?_eq_some is) mem same)

/-- What a catalog tells of an entry opens to its bytes. -/
theorem Tells.opens (h : Stocked history vault) (sound : history.Sound acts)
    {chain : List Manifest} (distinct : (chain.map Manifest.id).Nodup) {s : SourceEntry}
    {e : CatalogEntry} (tells : Tells history vault id o chain s e) {identities : List String}
    (fits : ∃ i ∈ identities, sys.recipientOf i ∈ o.ctx.recipients) :
    Writes sys (Vault.repository vault name calm) id chain identities e (s.name, s.bytes) := by
  obtain ⟨p, is, inside, ⟨found, there⟩, same, i, draw, object, made⟩ := tells.lies
  have own : p.manifest.id = e.held.getD id := sound.id _ p is
  have form : isBackupId (e.held.getD id) := sound.id _ p is ▸ p.id_form
  obtain ⟨p', is', -, files, -⟩ := h _ found form there
  rw [is] at is'
  obtain rfl := Option.some.inj is'
  have listed : p.manifest.objects[i]? =
      some { sys.measure (sealed p.ctx s.bytes draw) with key := objectKey i } := by
    change (objectsOf p.ctx p.w.made)[i]? = _
    rw [objectsOf, List.getElem?_mapIdx, made]
    rfl
  have put : (objectKey i, File.entry s.bytes (sealed p.ctx s.bytes draw)) ∈ p.puts := by
    refine List.mem_append_left _ (List.mem_append_left _ ?_)
    refine List.mem_of_getElem? (i := i) ?_
    rw [putsOf, List.getElem?_mapIdx, made]
    rfl
  refine ⟨tells.name.symm, _, ⟨⟨p.manifest, i, ?_, ?_, listed⟩, object.symm⟩, ?_, tells.measured⟩
  · rw [← own]
    exact find_manifest distinct inside
  · rw [object]
    exact objectNumber_objectKey i
  · refine ⟨sealed p.ctx s.bytes draw, congrArg Except.ok (files _ put), rfl, ?_⟩
    refine Backup.opens draw _ ?_
    obtain ⟨i, mem, fits⟩ := fits
    exact ⟨i, mem, (same _).mpr fits⟩

theorem Chain.distinct {repository : Repository} {manifest : Manifest} {chain : List Manifest}
    (h : Chain sys settings repository manifest chain) (sound : manifest.Sound) :
    (chain.map Manifest.id).Nodup := by
  refine List.pairwise_map.mpr ((h.older sound).1.2.imp fun less same => ?_)
  rw [same] at less
  exact lt_irrefl _ less

/-- A restore of a backup that is there writes what its source gave. -/
theorem Stocked.restores (h : Stocked history vault) (sound : history.Sound acts)
    (trusts : Trusts settings acts) (honest : Honest acts) (is : history id = some o)
    (there : vault.lookup (id, MANIFEST) = some bytes) {identities : List String}
    (fits : ∃ i ∈ identities, sys.recipientOf i ∈ o.ctx.recipients) :
    ∃ restored, restoreBackup sys settings (Vault.repository vault name calm) id
      (fun _ => .whole) ⟨identities, none, .all⟩ =
        (o.w.entries.map fun s => (s.name, s.bytes), .ok restored) := by
  obtain ⟨chain, walks, -, told⟩ := h.tells sound trusts honest is there
  have distinct := walks.distinct (sound.manifest is)
  refine restoreBackup_ok.mpr ⟨o.w.catalog.entries, chain, toRestore_ok.mpr ⟨rfl, o.manifest,
    o.w.catalog, h.fetches sound trusts is there, h.fetchesCatalog sound is there fits _, rfl,
    walks⟩, ?_⟩
  refine List.forall₂_map_right_iff.mpr (List.Forall₂.flip ?_)
  exact told.imp fun s e tells => tells.opens h sound distinct fits

/-- What a source is told of a backup: its id, where its own source was, and what that gave. -/
structure Since.Of (since : Since) (c : Creation sys) (entries : List SourceEntry) : Prop where
  id : since.id = c.id
  position : c.source.position = .ok since.position
  entries : since.entries = entries.map fun e => (e.name, sys.measure e.bytes, e.fingerprint)

/-- What the source of one of these creates gave, to its end: told of nothing, or of an older
backup that another of them made, and that is there too. -/
inductive Gave (acts : List (Act sys)) (vault : Vault) : Creation sys → List SourceEntry → Prop
  | full {c : Creation sys} {entries : List SourceEntry} (made : .create c ∈ acts)
      (kind : c.options = .full) (gave : (c.source.entries none).steps = entries.map .entry) :
      Gave acts vault c entries
  | chained {c base : Creation sys} {entries before : List SourceEntry} {since : Since}
      (made : .create c ∈ acts) (kind : c.options ≠ .full) (older : Less base.id c.id)
      (there : (vault.lookup (base.id, MANIFEST)).isSome) (from_ : Gave acts vault base before)
      (told : since.Of base before)
      (gave : (c.source.entries (some since)).steps = entries.map .entry) :
      Gave acts vault c entries

/-- Settings that ask for no signature. -/
def Settings.trusting (settings : Settings) : Settings :=
  { settings with signer := none, trusted := [], own := unsigned_own }

theorem Stocked.gave (h : Stocked history vault) (sound : history.Sound acts)
    (honest : Honest acts) (is : history id = some o)
    (there : vault.lookup (id, MANIFEST) = some bytes) :
    Gave acts vault o.creation o.w.entries := by
  obtain ⟨n, same⟩ : ∃ n, rank id = n := ⟨_, rfl⟩
  induction n using Nat.strongRecOn generalizing id o bytes with
  | ind n ih =>
      have of := sound.of id o is
      have own := sound.id id o is
      have form : isBackupId id := own ▸ o.id_form
      have made := sound.made id o is
      have steps := of.steps
      have based := of.based
      cases base : o.w.base with
      | none =>
          rw [base] at steps based
          refine .full made ?_ steps
          cases options : o.creation.options with
          | full => rfl
          | chained kind identities refused from_ =>
              rw [options] at based
              obtain ⟨b, is, -⟩ := based
              cases is
      | some b =>
          obtain ⟨p, was, manifest, since, -⟩ := sound.built id o is b base
          obtain ⟨o', is', -, -, parents⟩ := h id bytes form there
          rw [is] at is'
          obtain rfl := Option.some.inj is'
          have parent : o.manifest.parent = some b.manifest.id := by
            change o.w.base.map _ = _
            rw [base]
            rfl
          obtain ⟨found, has⟩ := parents _ parent
          have older := of.older base
          have holder : p.id = b.manifest.id := sound.id _ p was
          have less : rank b.manifest.id < n := by
            rw [← same]
            refine rank_lt older.1 form ?_
            rw [← own]
            exact older.2
          obtain ⟨chain, -, -, told⟩ := @Stocked.tells sys acts history vault
            o.creation.settings.trusting "" _ found p h sound (.inl rfl) honest was has
          rw [base] at steps based
          refine .chained made ?_ ?_ ?_ (ih _ less was has rfl) ⟨?_, ?_, ?_⟩ steps
          · intro full
            rw [full] at based
            cases based
          · rw [show p.creation.id = b.manifest.id from holder]
            exact older.2
          · rw [show p.creation.id = b.manifest.id from holder, has]
            rfl
          · rw [since]
            rfl
          · rw [since]
            exact (sound.of _ p was).position
          · rw [since]
            have each : List.Forall₂ (· = ·) (p.w.catalog.entries.map fun e =>
                (e.name, e.toMeasured, e.fingerprint)) (p.w.entries.map fun e =>
                (e.name, sys.measure e.bytes, e.fingerprint)) := by
              refine List.forall₂_map_left_iff.mpr (List.forall₂_map_right_iff.mpr ?_)
              refine told.flip.imp fun e s tells => ?_
              rw [tells.name, tells.fingerprint, tells.measured]
            rwa [List.forall₂_eq_eq_eq] at each

end Reading

/-- Every backup in a repository is one that a create of these made, and a restore of it, with a
key of one it was encrypted to, gives exactly what that create's source gave. -/
def Restorable {sys : System} (acts : List (Act sys)) (name : String) (vault : Vault) : Prop :=
  ∀ id, isBackupId id → (vault.lookup (id, MANIFEST)).isSome →
    ∃ (c : Creation sys) (entries : List SourceEntry), c.id = id ∧ Gave acts vault c entries ∧
      ∀ settings identities, Trusts settings acts →
        (∃ i ∈ identities, sys.recipientOf i ∈ c.settings.recipients) →
        ∃ restored, restoreBackup sys settings (Vault.repository vault name calm) id
          (fun _ => .whole) ⟨identities, none, .all⟩ =
            (entries.map fun s => (s.name, s.bytes), .ok restored)

/-- After any run of creates, prunes, holds and their lifting, whatever failed in each and wherever
it was cut, what is in the repositories can be restored. -/
theorem run_restores {sys : System} (acts : List (Act sys)) (distinct : (createdIds acts).Nodup)
    (firm : Firm acts) (honest : Honest acts) (name : String) :
    Restorable acts name (run acts name) := by
  intro id form there
  obtain ⟨history, sound, stocked⟩ := run_kept acts distinct firm
  obtain ⟨bytes, there⟩ := Option.isSome_iff_exists.mp there
  obtain ⟨o, is, -⟩ := stocked name id bytes form there
  refine ⟨o.creation, o.w.entries, sound.id id o is,
    (stocked name).gave sound honest is there, fun settings identities trusts fits => ?_⟩
  exact (stocked name).restores sound trusts honest is there fits

def oneEntry : SourceEntry :=
  ⟨Utf16.ofString "a", some (Utf16.ofString "f"), [1, 2, 3], .ok 0⟩

/-- A source of one entry, that keeps its fingerprint. -/
def oneSource : BackupSource where
  kind := Utf16.ofString "files"
  entries _ := ⟨[.entry oneEntry], none⟩
  position := .ok none
  catalog catalog :=
    if (Utf8.encode catalog.text).length < 2 ^ 52 then .ok 0 else .error (.other "ENOSPC")

theorem oneSource_gives {e : SourceEntry} (gives : Gives oneSource e) :
    e = oneEntry := by
  obtain ⟨_, mem⟩ := gives
  exact Step.entry.inj (List.mem_singleton.mp mem)

theorem oneSource_fits : Fits openSystem [openRecipient] oneSource where
  entries since entry draw mem _ := by
    have length : (openSystem.encrypt [openRecipient] draw entry.bytes).length =
        entry.bytes.length + 1 := rfl
    have three : entry.bytes.length = 3 := by rw [oneSource_gives ⟨since, mem⟩]; rfl
    omega
  catalogs catalog draw is := by
    unfold oneSource at is
    dsimp only at is
    split at is
    next small =>
      have length : (openSystem.encrypt [openRecipient] draw (Utf8.encode catalog.text)).length =
          (Utf8.encode catalog.text).length + 1 := rfl
      omega
    next => cases is

/-- A create of it at this time, in one repository. -/
def oneCreation (options : CreateOptions) (time : Int) (stamped : Stamped time) :
    Creation openSystem where
  settings := openSettings
  repositories := [("local", calm)]
  source := oneSource
  options := options
  at_ := ⟨time, 0⟩
  staging := none
  write _ := none
  cut _ := 10
  given := by decide
  distinct := by decide
  stamped := stamped
  fits := oneSource_fits

/-- A full backup, an incremental one an hour later, and a prune that keeps the last. -/
def oneDay : List (Act openSystem) :=
  [.create (oneCreation .full 1735689600000 ⟨by decide, by decide, by decide, by decide⟩),
    .create (oneCreation (.chained .incremental ["key"] none none) 1735693200000
      ⟨by decide, by decide, by decide, by decide⟩),
    .prune ⟨openSettings, "local", calm, ⟨300000, 1735776000000, 1735776000000, fun _ => none,
      fun _ => false, false, id, fun _ => .refl _⟩, ⟨Retention.onlyLast 1, false, none, none⟩, 10⟩]

theorem run_restores_oneDay : Restorable oneDay "local" (run oneDay "local") := by
  refine run_restores oneDay (by decide +kernel) ?_ ?_ "local"
  · intro p mem
    simp only [oneDay, List.mem_cons, reduceCtorEq, Act.prune.injEq, List.not_mem_nil, or_false,
      false_or] at mem
    rw [mem]
    exact fun _ => rfl
  · have source {c : Creation openSystem} (mem : .create c ∈ oneDay) : c.source = oneSource := by
      simp only [oneDay, List.mem_cons, reduceCtorEq, Act.create.injEq, List.not_mem_nil,
        or_false] at mem
      rcases mem with rfl | rfl <;> rfl
    intro c c' mem mem' _ e e' gives gives'
    rw [source mem] at gives
    rw [source mem'] at gives'
    rw [oneSource_gives gives, oneSource_gives gives']
    exact ⟨fun _ _ _ => rfl, fun _ => rfl⟩

end NxgtData.Backup
