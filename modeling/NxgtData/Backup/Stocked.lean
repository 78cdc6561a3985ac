import NxgtData.Backup.Vault

/-!
What every run keeps: a manifest in a repository is the one that some create wrote, all the files
of that create are there with it, and so is the manifest of the backup that it builds on.
-/
namespace NxgtData.Backup
open Checked CodeUnits JsonText Retention

section Lookups
variable {sys : System} {id : String} {vault : Vault}

theorem lookup_putUnder_other (puts : List (String × File)) {key : String × String}
    (other : ∀ put ∈ puts, key ≠ (id, put.1)) :
    (putUnder sys id puts vault).lookup key = vault.lookup key := by
  induction puts generalizing vault with
  | nil => rfl
  | cons put rest ih =>
      obtain ⟨here, later⟩ := List.forall_mem_cons.mp other
      refine (@ih (vault.insert _ _) later).trans ?_
      exact AList.lookup_insert_ne here

/-- A file that was put, and no other under its key. -/
theorem lookup_putUnder {puts : List (String × File)} {key : String} {file : File}
    (mem : (key, file) ∈ puts) (only : ∀ f, (key, f) ∈ puts → f = file) :
    (putUnder sys id puts vault).lookup (id, key) = some (file.bytes sys) := by
  induction puts generalizing vault with
  | nil => cases mem
  | cons put rest ih =>
      by_cases again : ∃ f, (key, f) ∈ rest
      · obtain ⟨f, later⟩ := again
        have same := only f (List.mem_cons_of_mem _ later)
        rw [same] at later
        exact @ih (vault.insert _ _) later fun f mem =>
          only f (List.mem_cons_of_mem _ mem)
      · have here : (key, file) = put := by
          rcases List.mem_cons.mp mem with here | later
          · exact here
          · exact absurd ⟨file, later⟩ again
        subst here
        refine (lookup_putUnder_other rest ?_).trans
          (AList.lookup_insert _)
        rintro ⟨k, f⟩ later same
        cases same
        exact again ⟨f, later⟩

theorem lookup_putUnder_some (puts : List (String × File)) {key : String × String} {bytes : Bytes}
    (there : vault.lookup key = some bytes) :
    ∃ bytes, (putUnder sys id puts vault).lookup key = some bytes := by
  induction puts generalizing vault bytes with
  | nil => exact ⟨bytes, there⟩
  | cons put rest ih =>
      by_cases same : key = (id, put.1)
      · subst same
        exact @ih (vault.insert _ _) _ (AList.lookup_insert _)
      · exact @ih (vault.insert _ _) _ ((AList.lookup_insert_ne same).trans there)

theorem lookup_without (deleted : List (String × String)) (key : String × String) :
    (without deleted vault).lookup key = if key ∈ deleted then none else vault.lookup key := by
  induction deleted generalizing vault with
  | nil => rfl
  | cons first rest ih =>
      refine (@ih (vault.erase first)).trans ?_
      by_cases same : key = first
      · subst same
        simp
      · rw [AList.lookup_erase_ne same]
        simp [same]

theorem orFault_ok {α : Type} {fault : Option String} {answer a : α} :
    orFault fault answer = .ok a ↔ fault = none ∧ answer = a := by
  cases fault <;> simp [orFault]

theorem orFault_error {α : Type} {fault : Option String} {answer : α} {error : Failure}
    (is : orFault fault answer = .error error) : ∃ why, error = .other why := by
  cases fault with
  | none => cases is
  | some why => exact ⟨why, (Except.error.inj is).symm⟩

theorem get_repository {name folder key : String} {faults : Faults} {bytes : Option Bytes}
    (got : (Vault.repository vault name faults).get folder key = .ok bytes) :
    vault.lookup (folder, key) = bytes := (orFault_ok.mp got).2

end Lookups

section Origins
variable {sys : System}

/-- Where a backup comes from: a create, the repositories when it ran, and what it wrote. -/
structure Origin (sys : System) where
  creation : Creation sys
  world : World
  w : Writing

namespace Origin

def ctx (o : Origin sys) : Context := o.creation.context o.world

def id (o : Origin sys) : String := o.creation.id

def manifest (o : Origin sys) : Manifest :=
  o.w.manifest o.ctx o.creation.options o.creation.at_

def puts (o : Origin sys) : List (String × File) :=
  o.w.puts o.ctx o.creation.options o.creation.at_

end Origin

/-- The backups that were ever written whole. -/
abbrev History (sys : System) := String → Option (Origin sys)

/-- What a backup builds on is another of them. -/
structure Built (history : History sys) (o : Origin sys) (b : Base) (p : Origin sys) : Prop where
  there : history b.manifest.id = some p
  manifest : b.manifest = p.manifest
  since : b.since = sinceOf p.manifest p.w.catalog
  known : b.known = knownOf p.manifest p.w.catalog
  kind : p.creation.source.kind = o.creation.source.kind
  recipients : sameRecipients p.ctx.recipients o.ctx.recipients

structure History.Sound (acts : List (Act sys)) (history : History sys) : Prop where
  id : ∀ id o, history id = some o → o.id = id
  made : ∀ id o, history id = some o → .create o.creation ∈ acts
  of : ∀ id o, history id = some o →
    o.w.Of o.ctx o.creation.source o.creation.options o.creation.at_
  built : ∀ id o, history id = some o → ∀ b ∈ o.w.base, ∃ p, Built history o b p

/-- What a repository holds of these backups. -/
def Stocked (history : History sys) (vault : Vault) : Prop :=
  ∀ id bytes, isBackupId id → vault.lookup (id, MANIFEST) = some bytes →
    ∃ o, history id = some o ∧ bytes = Utf8.encode o.manifest.text ∧
      (∀ f ∈ o.puts, vault.lookup (id, f.1) = some (f.2.bytes sys)) ∧
      ∀ p ∈ o.manifest.parent, ∃ bytes, vault.lookup (p, MANIFEST) = some bytes

/-- What every run keeps. -/
def Kept (acts : List (Act sys)) (world : World) : Prop :=
  ∃ history : History sys, history.Sound acts ∧ ∀ name, Stocked history (world name)

variable {acts : List (Act sys)} {history : History sys} {vault : Vault} {settings : Settings}
  {name id : String} {faults : Faults}

theorem Origin.id_form (o : Origin sys) : isBackupId o.id :=
  isBackupId_newBackupId o.creation.stamped

theorem History.Sound.manifest (h : history.Sound acts) {o : Origin sys}
    (is : history id = some o) : o.manifest.Sound :=
  (h.of id o is).manifest_sound o.creation.stamped o.creation.fits

theorem History.Sound.catalog (h : history.Sound acts) {o : Origin sys}
    (is : history id = some o) : o.w.catalog.Sound o.w.made.length :=
  (h.of id o is).catalog_sound o.creation.fits

theorem History.Sound.reads (h : history.Sound acts) {o : Origin sys}
    (is : history id = some o) :
    readManifest (Utf8.decode (Utf8.encode o.manifest.text)) = .ok o.manifest := by
  rw [decode_manifest]
  exact readManifest_text (h.manifest is)

/-- A manifest that is fetched is one of these. -/
theorem Stocked.fetched (h : Stocked history vault) (sound : history.Sound acts)
    {manifest : Manifest}
    (fetches : Fetches sys settings (Vault.repository vault name faults) id manifest) :
    ∃ o, history id = some o ∧ manifest = o.manifest ∧
      ∃ bytes, vault.lookup (id, MANIFEST) = some bytes := by
  obtain ⟨form, bytes, got, reads⟩ := fetches
  have there := get_repository got
  obtain ⟨o, is, same, -⟩ := h id bytes form there
  have read := reads.read
  rw [same, sound.reads is] at read
  exact ⟨o, is, (Except.ok.inj read).symm, bytes, there⟩

theorem mem_puts_catalog (o : Origin sys) :
    ("catalog.age", File.catalog o.w.catalog (o.w.sealed o.ctx)) ∈ o.puts := by
  refine List.mem_append_left _ (List.mem_append_right _ ?_)
  exact List.mem_singleton.mpr rfl

/-- A catalog that is fetched is the one that was written. -/
theorem Stocked.catalog (h : Stocked history vault) (sound : history.Sound acts)
    {o : Origin sys} (is : history id = some o) {bytes : Bytes} (form : isBackupId id)
    (there : vault.lookup (id, MANIFEST) = some bytes) {call : String} {identities : List String}
    {catalog : Catalog}
    (read : fetchCatalog sys ⟨call, id, Vault.repository vault name faults⟩ o.manifest identities =
      .ok catalog) : catalog = o.w.catalog := by
  obtain ⟨o', is', -, files, -⟩ := h id bytes form there
  rw [is] at is'
  cases is'
  obtain ⟨found, text, got, -, opened, read⟩ := fetchCatalog_ok.mp read
  have put := files _ (mem_puts_catalog o)
  have got := get_repository got
  have same : o.w.sealed o.ctx = found := Option.some.inj (put.symm.trans got)
  rw [← same] at opened
  have law := sys.decrypt_encrypt identities o.ctx.recipients o.w.draw
    (Utf8.encode o.w.catalog.text)
  have opened : sys.decrypt identities (sys.encrypt o.ctx.recipients o.w.draw
    (Utf8.encode o.w.catalog.text)) = .plain text := opened
  rw [law] at opened
  split at opened
  next =>
    have length : o.manifest.objects.length = o.w.made.length := List.length_mapIdx
    rw [← Opened.plain.inj opened, decode_catalog, length,
      readCatalog_text (sound.catalog is)] at read
    exact (Except.ok.inj read).symm
  next => cases opened

/-- Of what is kept of a list, what comes before one of it is kept too. -/
theorem kept_before {α β : Type} {f : α → Option β} {l : List α} {n : Nat} {x : β}
    (mem : x ∈ (l.filterMap f).take n) : ∃ before e after, l = before ++ e :: after ∧
      f e = some x ∧ ∀ e' ∈ before, ∀ y, f e' = some y → y ∈ (l.filterMap f).take n := by
  induction l generalizing n with
  | nil => simp at mem
  | cons e l ih =>
      cases is : f e with
      | none =>
          rw [List.filterMap_cons_none is] at mem ⊢
          obtain ⟨before, e', after, eq, gives, all⟩ := ih mem
          refine ⟨e :: before, e', after, by rw [eq]; rfl, gives, ?_⟩
          rintro a mem y gives
          rcases List.mem_cons.mp mem with rfl | later
          · rw [is] at gives
            cases gives
          · exact all a later y gives
      | some y =>
          rw [List.filterMap_cons_some is] at mem ⊢
          cases n with
          | zero => simp at mem
          | succ n =>
              rw [List.take_succ_cons] at mem ⊢
              rcases List.mem_cons.mp mem with rfl | later
              · exact ⟨[], e, l, rfl, is, by simp⟩
              · obtain ⟨before, e', after, eq, gives, all⟩ := ih later
                refine ⟨e :: before, e', after, by rw [eq]; rfl, gives, ?_⟩
                rintro a mem z gives
                rcases List.mem_cons.mp mem with rfl | later
                · rw [is] at gives
                  cases gives
                  exact List.mem_cons_self
                · exact List.mem_cons_of_mem _ (all a later z gives)

theorem putIn_some {name key : String} {file : File} {e : Event}
    (is : putIn name e = some (key, file)) : ∃ n error, e = .put name n key file error := by
  cases e with
  | put repository n k f error =>
      by_cases same : repository = name
      · have is : some (k, f) = some (key, file) := (if_pos same).symm.trans is
        cases is
        exact ⟨n, error, by rw [same]⟩
      · have is : none = some (key, file) := (if_neg same).symm.trans is
        cases is
  | refused => cases is
  | lacking => cases is
  | lost => cases is

theorem keys_putsOf (ctx : Context) (made : Made) :
    (putsOf ctx made).map Prod.fst = (List.range made.length).map objectKey := by
  refine List.ext_getElem (by simp [putsOf]) fun i _ _ => ?_
  simp [putsOf]

/-- No two files of a backup have one key. -/
theorem Origin.keys_nodup (o : Origin sys) :
    ((o.puts ++ [(MANIFEST, File.manifest o.manifest)]).map Prod.fst).Nodup := by
  have numbers : ((List.range o.w.made.length).map objectKey).Nodup :=
    List.nodup_range.map fun _ _ => objectKey_injective
  have number {key : String} (mem : key ∈ (List.range o.w.made.length).map objectKey) :
      ∃ n, objectNumber key = some n := by
    obtain ⟨n, -, rfl⟩ := List.mem_map.mp mem
    exact ⟨n, objectNumber_objectKey n⟩
  have rest : (("catalog.age" :: (signatures o.ctx o.manifest).map Prod.fst) ++ [MANIFEST]).Nodup ∧
      ∀ key ∈ ("catalog.age" :: (signatures o.ctx o.manifest).map Prod.fst) ++ [MANIFEST],
        objectNumber key = none := by
    unfold signatures
    cases o.ctx.signer with
    | none =>
        constructor
        · change ["catalog.age", MANIFEST].Nodup
          decide
        · change ∀ key ∈ ["catalog.age", MANIFEST], objectNumber key = none
          decide
    | some key =>
        constructor
        · change ["catalog.age", SIGNATURE, MANIFEST].Nodup
          decide
        · change ∀ key ∈ ["catalog.age", SIGNATURE, MANIFEST], objectNumber key = none
          decide
  have split : (o.puts ++ [(MANIFEST, File.manifest o.manifest)]).map Prod.fst =
      (List.range o.w.made.length).map objectKey ++
        (("catalog.age" :: (signatures o.ctx o.manifest).map Prod.fst) ++ [MANIFEST]) := by
    rw [← keys_putsOf o.ctx]
    change ((putsOf o.ctx o.w.made ++ _ ++ signatures o.ctx o.manifest) ++ _).map Prod.fst = _
    simp
  rw [split]
  refine List.nodup_append.mpr ⟨numbers, rest.1, fun a mem b mem' same => ?_⟩
  obtain ⟨n, is⟩ := number mem
  rw [same, rest.2 b mem'] at is
  cases is

theorem Origin.put_unique (o : Origin sys) {key : String} {f f' : File}
    (mem : (key, f) ∈ o.puts ++ [(MANIFEST, File.manifest o.manifest)])
    (mem' : (key, f') ∈ o.puts ++ [(MANIFEST, File.manifest o.manifest)]) : f' = f :=
  congrArg Prod.snd (List.inj_on_of_nodup_map o.keys_nodup mem' mem rfl)

/-- A put of another backup changes nothing of those that are there. -/
theorem Stocked.keep (h : Stocked history vault) {new : String} (none : history new = none)
    (puts : List (String × File)) {id : String} {bytes : Bytes} (form : isBackupId id)
    (there : vault.lookup (id, MANIFEST) = some bytes) : id ≠ new ∧
      ∃ o, history id = some o ∧ bytes = Utf8.encode o.manifest.text ∧
        (∀ f ∈ o.puts, (putUnder sys new puts vault).lookup (id, f.1) = some (f.2.bytes sys)) ∧
        ∀ p ∈ o.manifest.parent,
          ∃ bytes, (putUnder sys new puts vault).lookup (p, MANIFEST) = some bytes := by
  obtain ⟨o, is, same, files, parents⟩ := h id bytes form there
  have other : id ≠ new := by
    rintro rfl
    rw [none] at is
    cases is
  refine ⟨other, o, is, same, fun f mem => ?_, fun p mem => ?_⟩
  · rw [lookup_putUnder_other puts fun put _ eq => other (congrArg Prod.fst eq)]
    exact files f mem
  · obtain ⟨found, is⟩ := parents p mem
    exact lookup_putUnder_some puts is

/-- What a create builds on is one of these. -/
theorem Creation.built (sound : history.Sound acts) {world : World}
    (h : ∀ name, Stocked history (world name)) (c : Creation sys) {w : Writing}
    (of : w.Of (c.context world) c.source c.options c.at_) :
    ∀ b ∈ w.base, ∃ p, Built history ⟨c, world, w⟩ b p := by
  intro b is
  have based := of.based
  rw [is] at based
  cases options : c.options with
  | full =>
      rw [options] at based
      cases based
  | chained kind identities refused from_ =>
      rw [options] at based
      obtain ⟨b', same, founded⟩ := based
      cases same
      obtain ⟨r, mem, catalog, newest, -, read, kinds, since, knows⟩ := founded.found
      obtain ⟨given, -, rfl⟩ := List.mem_map.mp mem
      have fetches := fetchManifest_ok.mp (newestFor_ok newest).1
      obtain ⟨p, there, manifest, bytes, has⟩ := (h _).fetched sound fetches
      rw [manifest] at read
      have form := fetches.1
      rw [manifest] at form has
      have there' := there
      rw [manifest] at there'
      have same := (h _).catalog sound there' form has read
      refine ⟨p, there, manifest, ?_, ?_, ?_, ?_⟩
      · rw [since, manifest, same]
      · rw [knows, manifest, same]
      · rw [← (sound.of _ p there).kind, ← same, kinds]
      · have recipients := founded.recipients
        rw [manifest] at recipients
        exact recipients

theorem Creation.fresh (sound : history.Sound acts) (c : Creation sys)
    (fresh : c.id ∉ createdIds acts) : history c.id = none := by
  cases is : history c.id with
  | none => rfl
  | some o =>
      refine absurd (List.mem_filterMap.mpr ⟨_, sound.made _ o is, ?_⟩) fresh
      rw [← sound.id _ o is]
      rfl

theorem History.Sound.more (sound : history.Sound acts) (act : Act sys) :
    history.Sound (acts ++ [act]) :=
  ⟨sound.id, fun id o is => List.mem_append_left _ (sound.made id o is), sound.of, sound.built⟩

/-- With one more backup. -/
theorem History.Sound.insert (sound : history.Sound acts) {o : Origin sys}
    (none : history o.id = none)
    (of : o.w.Of o.ctx o.creation.source o.creation.options o.creation.at_)
    (built : ∀ b ∈ o.w.base, ∃ p, Built history o b p) :
    History.Sound (acts ++ [.create o.creation]) (Function.update history o.id (some o)) := by
  have old {id : String} {p : Origin sys} (is : history id = some p) :
      Function.update history o.id (some o) id = some p := by
    rw [Function.update_of_ne, is]
    rintro rfl
    rw [none] at is
    cases is
  have more {p : Origin sys} {b : Base} (h : ∃ q, Built history p b q) :
      ∃ q, Built (Function.update history o.id (some o)) p b q := by
    obtain ⟨q, there, manifest, since, known, kind, recipients⟩ := h
    exact ⟨q, old there, manifest, since, known, kind, recipients⟩
  have either {id : String} {p : Origin sys}
      (is : Function.update history o.id (some o) id = some p) :
      id = o.id ∧ p = o ∨ history id = some p := by
    by_cases same : id = o.id
    · subst same
      rw [Function.update_self] at is
      exact .inl ⟨rfl, (Option.some.inj is).symm⟩
    · rw [Function.update_of_ne same] at is
      exact .inr is
  constructor
  · intro id p is
    rcases either is with ⟨rfl, rfl⟩ | is
    · rfl
    · exact sound.id id p is
  · intro id p is
    rcases either is with ⟨rfl, rfl⟩ | is
    · exact List.mem_append_right _ (List.mem_singleton.mpr rfl)
    · exact List.mem_append_left _ (sound.made id p is)
  · intro id p is
    rcases either is with ⟨rfl, rfl⟩ | is
    · exact of
    · exact sound.of id p is
  · intro id p is b base
    rcases either is with ⟨rfl, rfl⟩ | is
    · exact more (built b base)
    · exact more (sound.built id p is b base)

theorem bytes_manifest (manifest : Manifest) :
    (File.manifest manifest).bytes sys = Utf8.encode manifest.text := rfl

theorem step_create (world : World) (c : Creation sys) (name : String) :
    step world (.create c) name = putUnder sys c.id (c.done world name) (world name) := rfl

theorem step_prune (world : World) (p : Pruning) : step world (.prune p : Act sys) p.name =
    without (p.done world sys) (world p.name) := if_pos rfl

section Frames
variable (world : World)

/-- What a create puts is under its own id. -/
theorem step_create_other (c : Creation sys) (name : String) {id : String} (other : id ≠ c.id)
    (key : String) : (step world (.create c) name).lookup (id, key) =
      (world name).lookup (id, key) :=
  lookup_putUnder_other _ fun _ _ same => other (congrArg Prod.fst same)

theorem step_prune_other {p : Pruning} {name : String} (other : name ≠ p.name) :
    step world (.prune p : Act sys) name = world name := if_neg other

/-- Holds are under no backup's id. -/
theorem holds_other {id : String} (form : isBackupId id) : id ≠ HOLDS := by
  intro same
  rw [same] at form
  cases form

theorem holdKey_other {id : String} (form : isBackupId id) (held key : String) :
    (id, key) ≠ holdKey held := fun same => holds_other form (congrArg Prod.fst same)

theorem step_hold_other (h : Holding) (name : String) {id : String} (form : isBackupId id)
    (key : String) : (step world (.hold h : Act sys) name).lookup (id, key) =
      (world name).lookup (id, key) := by
  unfold step
  dsimp only
  split
  next => exact AList.lookup_insert_ne (holdKey_other form _ _)
  next => rfl

theorem step_unhold_other (h : Holding) (name : String) {id : String} (form : isBackupId id)
    (key : String) : (step world (.unhold h : Act sys) name).lookup (id, key) =
      (world name).lookup (id, key) := by
  unfold step
  dsimp only
  split
  next => exact AList.lookup_erase_ne (holdKey_other form _ _)
  next => rfl

end Frames

/-- What a create put was in its log. -/
theorem Creation.logged {c : Creation sys} {world : World} {name key : String} {file : File}
    (mem : (key, file) ∈ c.done world name) : ∃ n error,
      .put name n key file error ∈ logOf (c.context world) c.source c.options c.at_ := by
  obtain ⟨e, there, is⟩ := List.mem_filterMap.mp (List.mem_of_mem_take mem)
  obtain ⟨n, error, rfl⟩ := putIn_some is
  exact ⟨n, error, there⟩

/-- Where a create put no manifest, none is there that was not before. -/
theorem Creation.unmade {c : Creation sys} {world : World} {name : String}
    (none : ∀ file, (MANIFEST, file) ∉ c.done world name) (id : String) :
    (step world (.create c) name).lookup (id, MANIFEST) =
      (world name).lookup (id, MANIFEST) := by
  refine lookup_putUnder_other _ ?_
  rintro ⟨key, file⟩ mem same
  obtain rfl : MANIFEST = key := congrArg Prod.snd same
  exact none file mem

/-- A create leaves whole backups only. -/
theorem Kept.create {world : World} (h : Kept acts world) (c : Creation sys)
    (fresh : c.id ∉ createdIds acts) : Kept (acts ++ [.create c]) (step world (.create c)) := by
  obtain ⟨history, sound, stocked⟩ := h
  have unknown := c.fresh sound fresh
  obtain ⟨whole, files, ran, same, going⟩ :=
    logOf_spec (c.context world) c.source c.options c.at_
  rcases whole with unmade | ⟨w, of, among, whole⟩
  · -- No manifest was put, so none is there that was not before.
    refine ⟨history, sound.more _, fun name id bytes form there => ?_⟩
    have none (file : File) : (MANIFEST, file) ∉ c.done world name := fun mem => by
      obtain ⟨n, error, put⟩ := Creation.logged mem
      exact unmade name n file error put
    rw [Creation.unmade none] at there
    exact ((stocked name).keep unknown _ form there).2
  · let o : Origin sys := ⟨c, world, w⟩
    have unknown : history o.id = none := unknown
    refine ⟨Function.update history o.id (some o),
      sound.insert unknown of (c.built sound stocked of), fun name id bytes form there => ?_⟩
    have one {key : String} {file : File} (mem : (key, file) ∈ c.done world name) :
        (key, file) ∈ o.puts ++ [(MANIFEST, File.manifest o.manifest)] := by
      obtain ⟨n, error, put⟩ := Creation.logged mem
      exact among _ _ _ _ _ put
    by_cases new : id = o.id
    · subst new
      -- The manifest is of this run, so all that was put before it is there.
      have put : ∃ file, (MANIFEST, file) ∈ c.done world name := by
        by_contra none
        rw [Creation.unmade (fun file mem => none ⟨file, mem⟩)] at there
        obtain ⟨p, is, -⟩ := stocked name _ bytes form there
        rw [unknown] at is
        cases is
      rw [step_create] at there ⊢
      obtain ⟨file, mem⟩ := put
      obtain ⟨before, e, after, eq, is, earlier⟩ := kept_before mem
      obtain ⟨n, error, rfl⟩ := putIn_some is
      obtain ⟨written, given, holds⟩ := whole before after name n file error eq
      obtain rfl : file = File.manifest o.manifest := written
      have has {key : String} {f : File} (mem : (key, f) ∈ c.done world name) :
          (putUnder sys c.id (c.done world name) (world name)).lookup (o.id, key) =
            some (f.bytes sys) := by
        have only (f' : File) (mem' : (key, f') ∈ c.done world name) : f' = f :=
          o.put_unique (one mem) (one mem')
        exact lookup_putUnder mem only
      refine ⟨o, Function.update_self _ _ _, ?_, fun f put => ?_, fun p parent => ?_⟩
      · have written := has mem
        rw [bytes_manifest] at written
        exact Option.some.inj (there.symm.trans written)
      · obtain ⟨n, put⟩ := given f put
        exact has (earlier _ put f (if_pos rfl))
      · obtain ⟨b, base, rfl⟩ := Option.map_eq_some_iff.mp parent
        have known := going.known (.put name n MANIFEST (.manifest o.manifest) error) (by
          rw [same, eq]
          exact List.mem_append_right _ List.mem_cons_self)
        obtain ⟨r, mem, named⟩ := List.mem_map.mp known
        obtain ⟨chain, whole⟩ := holds r mem named b base
        obtain ⟨manifest, fetched, -⟩ := Checked.bind_ok.mp whole
        obtain ⟨given, -, rfl⟩ := List.mem_map.mp mem
        have named : given.1 = name := named
        obtain ⟨-, found, got, -⟩ := fetchManifest_ok.mp fetched
        have there := get_repository got
        rw [named] at there
        exact lookup_putUnder_some _ there
    · rw [step_create_other world c name new] at there
      rw [Function.update_of_ne new]
      exact ((stocked name).keep unknown _ form there).2

/-- A manifest that is there is not missed. -/
theorem fetchManifest_there {call : String} {bytes : Bytes}
    (there : vault.lookup (id, MANIFEST) = some bytes) (why : String) :
    fetchManifest sys settings ⟨call, id, Vault.repository vault name faults⟩ ≠
      .error (.backup .notFound why) := by
  intro is
  rcases bind_error is with fails | ⟨_, -, is⟩
  · cases require_error fails
  rcases bind_error is with fails | ⟨found, got, is⟩
  · obtain ⟨_, eq⟩ := orFault_error fails
    cases eq
  have has := get_repository got
  rw [there] at has
  subst has
  rcases bind_error is with fails | ⟨_, -, is⟩
  · cases require_error fails
  rcases bind_error is with fails | ⟨_, -, is⟩
  · unfold checkTrusted at fails
    split at fails
    next => cases fails
    next =>
      rcases bind_error fails with fails | ⟨signature, -, is⟩
      · obtain ⟨_, eq⟩ := orFault_error fails
        cases eq
      · cases signature with
        | none => cases is
        | some signature => cases require_error is
  split at is
  next => cases is
  next =>
    rcases bind_error is with fails | ⟨_, -, is⟩
    · cases require_error fails
    · cases is

theorem listed_iff {key : String × String} :
    Listed (Vault.repository vault name faults) key ↔
      faults.list = none ∧ ∃ bytes, vault.lookup key = some bytes := by
  have mem : key ∈ vault.keys ↔ ∃ bytes, vault.lookup key = some bytes := by
    rw [← AList.mem_keys, ← AList.lookup_isSome, Option.isSome_iff_exists]
  constructor
  · rintro ⟨keys, is, there⟩
    obtain ⟨calm, rfl⟩ := orFault_ok.mp is
    exact ⟨calm, mem.mp there⟩
  · rintro ⟨calm, there⟩
    exact ⟨vault.keys, orFault_ok.mpr ⟨calm, rfl⟩, mem.mpr there⟩

/-- Every backup that is there is listed, or said to be unreadable. -/
theorem listBackups_there {listing : Listing} {bytes : Bytes} (form : isBackupId id)
    (ok : listBackups sys settings (Vault.repository vault name faults) = .ok listing)
    (there : vault.lookup (id, MANIFEST) = some bytes) :
    id ∈ listing.backups.map BackupInfo.id ∨ id ∈ listing.unreadable := by
  obtain ⟨held, ids, holds, mem, -, lists⟩ := listBackups_ok ok
  obtain ⟨keys, list, -⟩ := Checked.bind_ok.mp holds
  have calm := (orFault_ok.mp list).1
  rcases lists.all id ((mem id).mpr ⟨form, listed_iff.mpr ⟨calm, bytes, there⟩⟩) with
    read | damaged | ⟨why, gone⟩
  · exact .inl read
  · exact .inr damaged
  · exact absurd gone (fetchManifest_there there why)

theorem Origin.createdAt (o : Origin sys) : o.manifest.createdAt = o.creation.at_.time := rfl

/-- Times run as ids do. -/
theorem Stocked.inTime (h : Stocked history vault) (sound : history.Sound acts) :
    InTime sys settings (Vault.repository vault name faults) := by
  intro id manifest p parent fetches is fetches'
  have less := (fetches.sound.parent_less is).1
  obtain ⟨o, there, rfl, -⟩ := h.fetched sound fetches
  obtain ⟨o', there', rfl, -⟩ := h.fetched sound fetches'
  have own : o.manifest.id = o.id := rfl
  rw [own, ← sound.id _ o' there'] at less
  have atMost : AtMost o'.id o.id := less.le
  rw [o.createdAt, o'.createdAt]
  rcases (newBackupId_atMost o'.creation.stamped o.creation.stamped).mp atMost with
    earlier | ⟨same, -⟩
  · exact earlier.le
  · exact same.le

/-- Every id says a time. -/
theorem Stocked.dated (h : Stocked history vault) (sound : history.Sound acts)
    {met : Conditions} :
    AllDated sys settings (Vault.repository vault name faults) met := by
  intro id unreadable
  obtain ⟨-, bytes, there⟩ := listed_iff.mp unreadable.listed
  obtain ⟨o, is, -⟩ := h id bytes unreadable.form there
  have own : newBackupId o.creation.at_ = id := sound.id id o is
  rw [← own, timeOfId_newBackupId met.rolls o.creation.stamped]
  rfl

/-- What a manifest builds on is in its raw bytes. -/
theorem rawParent_text {manifest : Manifest} (sound : manifest.Sound)
    (small : (Utf8.encode manifest.text).length ≤ MANIFEST_MAX_BYTES) {p : String}
    (is : manifest.parent = some p) :
    rawParent manifest.id (Utf8.encode manifest.text) = some p := by
  have older := sound.parent
  have form : isBackupId p ∧ Less p manifest.id := by
    rw [is] at older
    unfold FitsKind at older
    split at older
    next => cases older
    next =>
      obtain ⟨q, same, fits⟩ := older
      cases same
      exact fits
    next =>
      obtain ⟨q, same, fits⟩ := older
      cases same
      exact fits
  have field : manifest.json.field "parent" = some (.text p) := by
    simp [Manifest.json, Value.field, is]
  unfold rawParent
  rw [List.take_of_length_le small, decode_manifest, Manifest.text, parse_line]
  dsimp only
  rw [Option.bind_some, field, asText_text]
  refine Option.filter_some_pos ?_
  rw [form.1, decide_eq_true form.2]
  rfl

/-- What is read again of a manifest that is there says what it builds on. -/
theorem History.Sound.readAgain (sound : history.Sound acts) {o : Origin sys}
    (is : history id = some o) {bytes : Bytes} (there : vault.lookup (id, MANIFEST) = some bytes)
    (written : bytes = Utf8.encode o.manifest.text) {met : Conditions}
    (firm : met.torn id = false) {q : String} (parent : o.manifest.parent = some q) :
    ∀ read, parentOfUnreadable (Vault.repository vault name faults) met id = .ok read →
      read = some q := by
  intro read ok
  obtain ⟨again, got, ok⟩ := Checked.bind_ok.mp ok
  have got := get_repository got
  rw [there] at got
  subst got
  have ok : (if met.torn id then none else rawParent id bytes) = read := Except.ok.inj ok
  rw [firm, if_neg Bool.false_ne_true] at ok
  have text := rawParent_text (sound.manifest is) (sound.of id o is).small parent
  have own : o.manifest.id = id := sound.id id o is
  rw [own, ← written] at text
  exact ok.symm.trans text

/-- A prune leaves whole backups whole, if no stream that it reads again breaks. -/
theorem Kept.prune {world : World} (h : Kept acts world) (p : Pruning)
    (firm : ∀ id, p.met.torn id = false) :
    Kept (acts ++ [.prune p]) (step world (.prune p : Act sys)) := by
  obtain ⟨history, sound, stocked⟩ := h
  refine ⟨history, sound.more _, fun name => ?_⟩
  by_cases here : name = p.name
  case neg =>
    rw [step_prune_other world here]
    exact stocked name
  subst here
  rw [step_prune]
  have begins : p.done world sys <+: (pruneBackups sys p.settings
      (Vault.repository (world p.name) p.name p.faults) p.met p.options).1 :=
    List.take_prefix _ _
  generalize p.done world sys = done at begins
  have stocked := stocked p.name
  generalize world p.name = vault at stocked begins ⊢
  intro id bytes form there
  rw [lookup_without] at there
  split at there
  next => cases there
  next stays =>
    obtain ⟨o, is, written, files, parents⟩ := stocked id bytes form there
    refine ⟨o, is, written, fun f mem => ?_, fun q parent => ?_⟩
    · rw [lookup_without, if_neg]
      · exact files f mem
      · intro gone
        obtain ⟨-, listed, first⟩ := prune_first begins gone
        exact stays (first (listed_iff.mpr ⟨(listed_iff.mp listed).1, bytes, there⟩))
    · obtain ⟨found, has⟩ := parents q parent
      refine ⟨found, ?_⟩
      rw [lookup_without, if_neg]
      · exact has
      · intro gone
        obtain ⟨form', listed', -⟩ := prune_first begins gone
        have listed : Listed (Vault.repository vault p.name p.faults) (id, MANIFEST) :=
          listed_iff.mpr ⟨(listed_iff.mp listed').1, bytes, there⟩
        by_cases reads : ∃ m, Fetches sys p.settings (Vault.repository vault p.name p.faults) id m
        · obtain ⟨m, fetches⟩ := reads
          obtain ⟨o', is', rfl, -⟩ := stocked.fetched sound fetches
          rw [is] at is'
          cases is'
          exact stays
            (prune_child (stocked.dated sound) (stocked.inTime sound) begins listed fetches parent
              gone)
        -- Nothing goes that the raw bytes of one that does not read name.
        · have unreadable : Unreadable sys p.settings (Vault.repository vault p.name p.faults) id :=
            ⟨form, listed, fun m fetches => reads ⟨m, fetches⟩, fetchManifest_there there⟩
          by_cases reads' : ∃ m, Fetches sys p.settings
              (Vault.repository vault p.name p.faults) q m
          · obtain ⟨m, fetches⟩ := reads'
            exact prune_raw unreadable (sound.readAgain is there written (firm id) parent) listed'
              fetches _ (begins.subset gone)
          · refine prune_unreadable ⟨form', listed', fun m fetches => reads' ⟨m, fetches⟩,
              fetchManifest_there has⟩ _ (begins.subset gone)

/-- What changes under no backup's id changes no backup. -/
theorem Stocked.beside (h : Stocked history vault) (sound : history.Sound acts) {vault' : Vault}
    (same : ∀ id key, isBackupId id → vault'.lookup (id, key) = vault.lookup (id, key)) :
    Stocked history vault' := by
  intro id bytes form there
  rw [same id _ form] at there
  obtain ⟨o, is, written, files, parents⟩ := h id bytes form there
  refine ⟨o, is, written, fun f mem => ?_, fun p parent => ?_⟩
  · rw [same id _ form]
    exact files f mem
  · obtain ⟨found, has⟩ := parents p parent
    refine ⟨found, ?_⟩
    obtain ⟨b, base, rfl⟩ := Option.map_eq_some_iff.mp parent
    rw [same _ _ ((sound.of id o is).older base).1]
    exact has

theorem Kept.hold {world : World} (h : Kept acts world) (held : Holding) :
    Kept (acts ++ [.hold held]) (step world (.hold held : Act sys)) := by
  obtain ⟨history, sound, stocked⟩ := h
  exact ⟨history, sound.more _, fun name => (stocked name).beside sound fun _ key form =>
    step_hold_other world held name form key⟩

theorem Kept.unhold {world : World} (h : Kept acts world) (held : Holding) :
    Kept (acts ++ [.unhold held]) (step world (.unhold held : Act sys)) := by
  obtain ⟨history, sound, stocked⟩ := h
  exact ⟨history, sound.more _, fun name => (stocked name).beside sound fun _ key form =>
    step_unhold_other world held name form key⟩

theorem Kept.empty : Kept ([] : List (Act sys)) World.empty := by
  have nothing {o : Origin sys} (is : (none : Option (Origin sys)) = some o) :
      False := by cases is
  refine ⟨fun _ => none, ⟨fun _ _ is => (nothing is).elim, fun _ _ is => (nothing is).elim,
    fun _ _ is => (nothing is).elim, fun _ _ is => (nothing is).elim⟩, ?_⟩
  intro name id bytes form there
  rw [World.empty, AList.lookup_empty] at there
  cases there

/-- No stream breaks that a prune reads again. -/
def Firm (acts : List (Act sys)) : Prop :=
  ∀ p, .prune p ∈ acts → ∀ id, p.met.torn id = false

theorem run_snoc (acts : List (Act sys)) (act : Act sys) :
    run (acts ++ [act]) = step (run acts) act := by
  rw [run, List.foldl_append]
  rfl

theorem createdIds_append (acts acts' : List (Act sys)) :
    createdIds (acts ++ acts') = createdIds acts ++ createdIds acts' :=
  List.filterMap_append

theorem run_kept (acts : List (Act sys)) (distinct : (createdIds acts).Nodup)
    (firm : Firm acts) : Kept acts (run acts) := by
  induction acts using List.reverseRecOn with
  | nil => exact Kept.empty
  | append_singleton acts act ih =>
      rw [createdIds_append] at distinct
      obtain ⟨before, -, apart⟩ := List.nodup_append.mp distinct
      have kept := ih before fun p mem => firm p (List.mem_append_left _ mem)
      rw [run_snoc]
      cases act with
      | create c => exact kept.create c fun old => apart c.id old c.id List.mem_cons_self rfl
      | prune p => exact kept.prune p (firm p (List.mem_append_right _ List.mem_cons_self))
      | hold held => exact kept.hold held
      | unhold held => exact kept.unhold held

end Origins

end NxgtData.Backup
