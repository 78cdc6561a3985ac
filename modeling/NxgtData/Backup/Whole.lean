import NxgtData.Backup.Going

/-!
A backup is whole in a repository or not there at all. The entries are put one by one, each
where the catalog says it is; then the catalog, the signature, and the manifest once, last; and
only where the backup built on is whole too.
-/
namespace NxgtData.Backup
open Program Checked

variable {ctx : Context} {run : Run} {files : List (String × File)} {holds : Repository → Prop}

/-- A run before its manifest, in which these files were put; every repository still in it holds
what it must. -/
structure Partway (ctx : Context) (holds : Repository → Prop) (files : List (String × File))
    (run : Run) : Prop where
  going : Going ctx files run
  unmade : ∀ f ∈ files, f.1 ≠ MANIFEST
  holds : ∀ r ∈ run.left ctx, holds r

/-- A run that ended by an error other than `settle`'s. -/
def Failed (ctx : Context) (thrown : Thrown) (run : Run) : Prop :=
  (∃ error, thrown = .error error) ∧ ∃ holds files, Partway ctx holds files run

theorem left_record {events : List Event} {r : Repository}
    (left : r ∈ (run.record events).left ctx) : r ∈ run.left ctx := by
  rw [Run.mem_left] at left ⊢
  refine ⟨left.1, fun gone => left.2 ?_⟩
  rw [Run.record, mem_noted_all]
  exact .inl gone

section Steps
variable {pre : Run → Prop}

theorem check_triple (error : Option Failure)
    (partway : ∀ run, pre run → ∃ holds files, Partway ctx holds files run) :
    Triple pre (check error) (fun _ run => pre run ∧ error = none) (Failed ctx) := by
  cases error with
  | none => exact Triple.pure fun _ h => ⟨h, rfl⟩
  | some error => exact Triple.throw fun run h => ⟨⟨error, rfl⟩, partway run h⟩

theorem given_triple {α : Type} (value : Except Failure α)
    (partway : ∀ run, pre run → ∃ holds files, Partway ctx holds files run) :
    Triple pre (given value) (fun a run => pre run ∧ value = .ok a) (Failed ctx) := by
  cases value with
  | ok a => exact Triple.pure fun _ h => ⟨h, rfl⟩
  | error error => exact Triple.throw fun run h => ⟨⟨error, rfl⟩, partway run h⟩

theorem putAll_triple {key : String} {file : File} (other : key ≠ MANIFEST) :
    Triple (Partway ctx holds files) (putAll ctx key file)
      (fun _ => Partway ctx holds (files ++ [(key, file)])) (Failed ctx) := by
  refine Triple.change fun run h => ⟨h.going.putAll key file, ?_, fun r left => ?_⟩
  · intro f mem
    rcases List.mem_append.mp mem with old | new
    · exact h.unmade f old
    · cases List.mem_singleton.mp new
      exact other
  · exact h.holds r (left_record left)

theorem lockAll_triple :
    Triple (fun run => run = Run.start) (lockAll ctx)
      (fun _ => Partway ctx (fun _ => True) []) (Failed ctx) := by
  refine Triple.change fun run h => ⟨?_, by simp, fun _ _ => trivial⟩
  subst h
  have every : Run.start.left ctx = ctx.repositories := by simp [Run.left, Run.start]
  refine Going.of_log ((Going.start ctx).leave (f := refusal) (List.Sublist.refl _) ?_) ?_ ?_
  · intro r e eq
    obtain ⟨error, -, rfl⟩ := Option.map_eq_some_iff.mp eq
    exact ⟨rfl, rfl⟩
  · rw [every]
  · rw [every]

/-- A repository holds the whole chain of the backup built on. -/
def Holds (ctx : Context) (manifest : Manifest) (r : Repository) : Prop :=
  ∃ chain, chainIn ctx manifest r = .ok chain

theorem lack_event {id : String} {manifest : Manifest} {r : Repository} {e : Event}
    (eq : lack ctx id manifest r = some e) :
    e.repository = r.name ∧ e.isPut = false ∧ e.error.isSome := by
  unfold lack at eq
  split at eq <;> cases eq <;> exact ⟨rfl, rfl, rfl⟩

theorem lack_none {id : String} {manifest : Manifest} {r : Repository}
    (eq : lack ctx id manifest r = none) : Holds ctx manifest r := by
  unfold lack at eq
  split at eq
  next chain ok => exact ⟨chain, ok⟩
  next => cases eq
  next => cases eq

theorem requireEverywhere_triple (id : String) {manifest : Manifest} {source : Repository}
    (mem : source ∈ ctx.repositories) (here : Holds ctx manifest source) :
    Triple (Partway ctx holds files) (requireEverywhere ctx id manifest source)
      (fun _ => Partway ctx (Holds ctx manifest) files) (Failed ctx) := by
  refine Triple.change fun run h => ⟨h.going.leave List.filter_sublist ?_, h.unmade, ?_⟩
  · intro r e eq
    exact ⟨(lack_event eq).1, (lack_event eq).2.1⟩
  · intro r left
    by_cases other : r.name = source.name
    · rwa [ctx.same_name (Run.mem_left.mp left).1 mem other]
    · refine @lack_none ctx id _ _ (Option.eq_none_iff_forall_ne_some.mpr fun e eq => ?_)
      refine (Run.mem_left.mp left).2 ?_
      rw [Run.record, mem_noted_all]
      refine .inr ⟨e, List.mem_filterMap.mpr ⟨r, ?_, eq⟩, (lack_event eq).1, (lack_event eq).2.2⟩
      exact List.mem_filter.mpr ⟨left_record left, decide_eq_true other⟩

theorem sourceRepository_triple (source : Option String) :
    Triple (Partway ctx holds files) (sourceRepository ctx source)
      (fun r run => Partway ctx holds files run ∧ r ∈ ctx.repositories) (Failed ctx) := by
  refine Triple.bind (fun run' run => Partway ctx holds files run ∧ run' = run)
    (Triple.asks fun _ h => ⟨h, rfl⟩) fun run => ?_
  dsimp only
  split
  next => exact Triple.throw fun _ h => ⟨⟨_, rfl⟩, holds, files, h.1⟩
  next repository eq =>
    have mem : repository ∈ ctx.repositories := by
      cases source with
      | none => exact (Run.mem_left.mp (List.mem_of_head? eq)).1
      | some name => exact List.mem_of_find?_eq_some eq
    exact Triple.bind _ (check_triple _ fun _ h => ⟨holds, files, h.1⟩) fun _ =>
      Triple.pure fun _ h => ⟨h.1.1, mem⟩

/-- Where a base comes from: a repository that holds its whole chain and its catalog. -/
structure Founded (ctx : Context) (id : String) (kind : Chained) (identities : List String)
    (sourceKind : Utf16) (base : Base) : Prop where
  found : ∃ r ∈ ctx.repositories, ∃ catalog,
    newestFor ctx id r kind = .ok base.manifest ∧ Holds ctx base.manifest r ∧
    fetchCatalog ctx.sys ⟨"create", base.manifest.id, r⟩ base.manifest identities = .ok catalog ∧
    catalog.kind = sourceKind ∧ base.since = sinceOf base.manifest catalog ∧
    base.known = knownOf base.manifest catalog
  recipients : sameRecipients base.manifest.recipients ctx.recipients

theorem newestOf_ok {repository : Repository} {kind : Chained} {ids : List String}
    {manifest : Manifest} (ok : newestOf ctx repository kind ids = .ok (some manifest)) :
    manifest.id ∈ ids ∧
      fetchManifest ctx.sys ctx.toSettings ⟨"create", manifest.id, repository⟩ = .ok manifest ∧
      (kind = .incremental ∨ manifest.kind = .full) := by
  induction ids with
  | nil => cases ok
  | cons id older ih =>
      have later (ok : newestOf ctx repository kind older = .ok (some manifest)) :=
        (ih ok).imp_left fun mem => List.mem_cons_of_mem id mem
      unfold newestOf at ok
      split at ok
      next read eq =>
        split at ok
        next fits =>
          cases ok
          obtain ⟨-, _, -, reads⟩ := fetchManifest_ok.mp eq
          have same : manifest.id = id := reads.id
          rw [same]
          exact ⟨List.mem_cons_self, eq, fits⟩
        next => exact later ok
      next => exact later ok
      next => cases ok

/-- The newest backup to build on is an older one, and reads. -/
theorem newestFor_ok {id : String} {repository : Repository} {kind : Chained}
    {manifest : Manifest} (ok : newestFor ctx id repository kind = .ok manifest) :
    fetchManifest ctx.sys ctx.toSettings ⟨"create", manifest.id, repository⟩ = .ok manifest ∧
      CodeUnits.Less manifest.id id ∧ (kind = .incremental ∨ manifest.kind = .full) := by
  obtain ⟨ids, -, ok⟩ := bind_ok.mp ok
  obtain ⟨newest, found, ok⟩ := bind_ok.mp ok
  cases newest with
  | none => cases ok
  | some newest =>
      cases ok
      obtain ⟨mem, read, fits⟩ := newestOf_ok found
      exact ⟨read, of_decide_eq_true (List.mem_filter.mp (List.mem_reverse.mp mem)).2, fits⟩

theorem baseOf_triple (id : String) (kind : Chained) (identities : List String)
    (source : Option String) (sourceKind : Utf16) :
    Triple (Partway ctx holds files) (baseOf ctx id kind identities source sourceKind)
      (fun base run => Partway ctx (Holds ctx base.manifest) files run ∧
        Founded ctx id kind identities sourceKind base) (Failed ctx) := by
  have partway : ∀ run, Partway ctx holds files run → ∃ holds files, Partway ctx holds files run :=
    fun _ h => ⟨holds, files, h⟩
  refine Triple.bind _ (sourceRepository_triple source) fun r => Triple.assume fun mem => ?_
  refine Triple.bind _ (given_triple _ partway) fun manifest => Triple.assume fun newest => ?_
  refine Triple.bind _ (given_triple _ partway) fun chain => Triple.assume fun whole => ?_
  refine Triple.bind _ (check_triple _ partway) fun _ => Triple.assume fun same => ?_
  refine Triple.bind _ (given_triple _ partway) fun catalog => Triple.assume fun read => ?_
  refine Triple.bind _ (check_triple _ partway) fun _ => Triple.assume fun kinds => ?_
  have here : Holds ctx manifest r :=
    ⟨chain, bind_ok.mpr ⟨manifest, (newestFor_ok newest).1, whole⟩⟩
  refine Triple.bind _ (requireEverywhere_triple id mem here) fun _ => Triple.pure fun run h => ?_
  refine ⟨h, ⟨r, mem, catalog, newest, here, read, ?_, rfl, rfl⟩, ?_⟩
  · by_contra other
    rw [if_neg other] at kinds
    cases kinds
  · by_contra other
    rw [if_neg other] at same
    cases same

/-- What a backup of these options may build on. -/
def Based (ctx : Context) (id : String) (sourceKind : Utf16) :
    CreateOptions → Option Base → Prop
  | .full, base => base = none
  | .chained kind identities _ _, base =>
      ∃ b, base = some b ∧ Founded ctx id kind identities sourceKind b

/-- What a repository must hold for a backup with this base. -/
def HoldsBase (ctx : Context) (base : Option Base) (r : Repository) : Prop :=
  ∀ b ∈ base, Holds ctx b.manifest r

theorem findBase_triple (id : String) (options : CreateOptions) (sourceKind : Utf16) :
    Triple (Partway ctx (fun _ => True) files) (findBase ctx id options sourceKind)
      (fun base run => Partway ctx (HoldsBase ctx base) files run ∧
        (Based ctx id sourceKind options base ∨ nowhereLeft ctx run)) (Failed ctx) := by
  have nothing {run : Run} (h : Partway ctx (fun _ => True) files run) :
      Partway ctx (HoldsBase ctx none) files run :=
    ⟨h.going, h.unmade, fun _ _ _ is => by cases is⟩
  cases options with
  | full => exact Triple.pure fun _ h => ⟨nothing h, .inl rfl⟩
  | chained kind identities refused source =>
      refine Triple.bind (fun nowhere run => Partway ctx (fun _ => True) files run ∧
        nowhere = nowhereLeft ctx run) (Triple.asks fun _ h => ⟨h, rfl⟩) fun nowhere => ?_
      cases nowhere with
      | true => exact Triple.pure fun _ h => ⟨nothing h.1, .inr h.2.symm⟩
      | false =>
          refine Triple.bind (fun base run => Partway ctx (Holds ctx base.manifest) files run ∧
            Founded ctx id kind identities sourceKind base) ?_ fun base =>
            Triple.pure fun run h => ⟨⟨h.1.going, h.1.unmade, ?_⟩, .inl ⟨base, rfl, h.2⟩⟩
          · exact Triple.conseq (baseOf_triple id kind identities source sourceKind)
              (fun _ h => h.1) (fun _ _ h => h) fun _ _ h => h
          · rintro r left b is
            cases is
            exact h.1.holds r left

end Steps

section Entries

/-- What was sealed and put so far: an entry's bytes, and what age drew for them. -/
abbrev Made := List (Bytes × Nat)

def objectsOf (ctx : Context) (made : Made) : List StoredObject :=
  made.mapIdx fun i m => { ctx.sys.measure (sealed ctx m.1 m.2) with key := objectKey i }

def putsOf (ctx : Context) (made : Made) : List (String × File) :=
  made.mapIdx fun i m => (objectKey i, .entry m.1 (sealed ctx m.1 m.2))

theorem objectsOf_append (made : Made) (m : Bytes × Nat) : objectsOf ctx (made ++ [m]) =
    objectsOf ctx made ++
      [{ ctx.sys.measure (sealed ctx m.1 m.2) with key := objectKey made.length }] := by
  simp [objectsOf, List.mapIdx_append]

theorem putsOf_append (made : Made) (m : Bytes × Nat) : putsOf ctx (made ++ [m]) =
    putsOf ctx made ++ [(objectKey made.length, .entry m.1 (sealed ctx m.1 m.2))] := by
  simp [putsOf, List.mapIdx_append]

/-- An entry of the backup itself. -/
def ownEntry (ctx : Context) (entry : SourceEntry) (i : Nat) : CatalogEntry :=
  { ctx.sys.measure entry.bytes with
    name := entry.name, object := objectKey i, held := none, fingerprint := entry.fingerprint }

/-- What a catalog says of an entry of the source: where its bytes were put, or that the backup
built on has them, by the fingerprint or by the digest. -/
inductive Records (ctx : Context) (base : Option Base) (made : Made) :
    SourceEntry → CatalogEntry → Prop
  | own {entry : SourceEntry} (i draw : Nat) (drawn : entry.sealed = .ok draw)
      (there : made[i]? = some (entry.bytes, draw)) :
      Records ctx base made entry (ownEntry ctx entry i)
  | known {entry : SourceEntry} (known : Known)
      (there : (base.bind fun base => base.known.lookup entry.name) = some known)
      (same : (∃ f, entry.fingerprint = some f ∧ known.fingerprint = some f) ∨
        known.sha256 = ctx.sys.sha256 entry.bytes) :
      Records ctx base made entry (pointer entry known)

theorem objectKey_ne (n : Nat) : objectKey n ≠ MANIFEST := by
  intro same
  have last : (objectKey n).toList.getLast? = some 'e' := by
    rw [objectKey, String.toList_append]
    simp
  rw [same] at last
  exact absurd last (by decide)

theorem Records.append {base : Option Base} {made : Made} {entry : SourceEntry}
    {recorded : CatalogEntry} (h : Records ctx base made entry recorded) (more : Made) :
    Records ctx base (made ++ more) entry recorded := by
  cases h with
  | own i draw drawn there =>
      refine .own i draw drawn ?_
      rwa [List.getElem?_append_left (List.getElem?_eq_some_iff.mp there).1]
  | known known there same => exact .known known there same

/-- What was stored so far, of the entries that the source gave. -/
structure Gathered (ctx : Context) (base : Option Base) (entries : List SourceEntry)
    (stored : Stored) (made : Made) (run : Run) : Prop where
  partway : Partway ctx (HoldsBase ctx base) (putsOf ctx made) run
  objects : stored.objects = objectsOf ctx made
  records : List.Forall₂ (Records ctx base made) entries stored.entries
  numbered : Numbered stored.entries 0 made.length
  checked : ∀ e ∈ entries, isEntryName e.name ∧ isOptionalText e.fingerprint FINGERPRINT_MAX
  distinct : (entries.map SourceEntry.name).Nodup

section Gathering
variable {base : Option Base} {entries : List SourceEntry} {stored : Stored} {made : Made}

theorem Records.name {entry : SourceEntry} {recorded : CatalogEntry}
    (h : Records ctx base made entry recorded) :
    recorded.name = entry.name ∧ recorded.fingerprint = entry.fingerprint := by
  cases h <;> exact ⟨rfl, rfl⟩

theorem Records.names {recorded : List CatalogEntry}
    (h : List.Forall₂ (Records ctx base made) entries recorded) :
    recorded.map CatalogEntry.name = entries.map SourceEntry.name := by
  induction h with
  | nil => rfl
  | cons one _ ih => rw [List.map_cons, List.map_cons, ih, one.name.1]

theorem Gathered.number (h : Gathered ctx base entries stored made run) :
    stored.objects.length = made.length := by
  rw [h.objects, objectsOf, List.length_mapIdx]

theorem Gathered.fails (h : Gathered ctx base entries stored made run) :
    ∃ holds files, Partway ctx holds files run := ⟨_, _, h.partway⟩

/-- Nothing was stored yet. -/
theorem Gathered.start (h : Partway ctx (HoldsBase ctx base) [] run) :
    Gathered ctx base [] {} [] run :=
  ⟨h, rfl, .nil, ⟨rfl, fun _ _ is => by cases is⟩, by simp, by simp⟩

/-- An entry that may come next. -/
structure Next (entries : List SourceEntry) (entry : SourceEntry) : Prop where
  named : isEntryName entry.name
  printed : isOptionalText entry.fingerprint FINGERPRINT_MAX
  fresh : entry.name ∉ entries.map SourceEntry.name

theorem entryProblem_none {entry : SourceEntry}
    (ok : entryProblem ctx entry (entries.map SourceEntry.name) = none) : Next entries entry := by
  unfold entryProblem at ok
  split at ok
  next => cases ok
  next named =>
    split at ok
    next => cases ok
    next printed =>
      simp only [Bool.or_eq_true, Bool.not_eq_true', decide_eq_true_eq, not_or,
        Bool.not_eq_false] at named printed
      exact ⟨named.1, printed, named.2⟩

theorem Gathered.snoc (h : Gathered ctx base entries stored made run) {entry : SourceEntry}
    (next : Next entries entry) {run' : Run} (more : Made)
    (one : CatalogEntry × Option StoredObject)
    (partway : Partway ctx (HoldsBase ctx base) (putsOf ctx (made ++ more)) run')
    (objects : stored.objects ++ one.2.toList = objectsOf ctx (made ++ more))
    (record : Records ctx base (made ++ more) entry one.1)
    (numbered : Numbered (stored.entries ++ [one.1]) 0 (made ++ more).length) :
    Gathered ctx base (entries ++ [entry]) (stored.add one) (made ++ more) run' where
  partway := partway
  objects := objects
  records := List.rel_append (h.records.imp fun _ _ record => record.append more)
    (List.Forall₂.cons record .nil)
  numbered := numbered
  checked e mem := by
    rcases List.mem_append.mp mem with old | new
    · exact h.checked e old
    · rw [List.mem_singleton.mp new]
      exact ⟨next.named, next.printed⟩
  distinct := by
    rw [List.map_append, List.map_singleton]
    exact List.nodup_append.mpr ⟨h.distinct, List.nodup_singleton _, fun a mem b mem' same =>
      next.fresh (by rwa [← List.mem_singleton.mp mem', ← same])⟩

theorem Gathered.pointer (h : Gathered ctx base entries stored made run) {entry : SourceEntry}
    (next : Next entries entry) {known : Known}
    (there : (base.bind fun base => base.known.lookup entry.name) = some known)
    (same : (∃ f, entry.fingerprint = some f ∧ known.fingerprint = some f) ∨
      known.sha256 = ctx.sys.sha256 entry.bytes) :
    Gathered ctx base (entries ++ [entry]) (stored.add (pointer entry known, none)) made run := by
  have place : (Backup.pointer entry known).held = none →
      (Backup.pointer entry known).object = objectKey made.length := nofun
  have numbered := h.numbered.snoc place
  have snoc := h.snoc next [] (Backup.pointer entry known, none)
    (by rw [List.append_nil]; exact h.partway) (by simpa using h.objects) (.known known there same)
    (by rw [List.append_nil]; exact numbered)
  rwa [List.append_nil] at snoc

theorem Gathered.own (h : Gathered ctx base entries stored made run) {entry : SourceEntry}
    (next : Next entries entry) {draw : Nat} (drawn : entry.sealed = .ok draw) {run' : Run}
    (partway : Partway ctx (HoldsBase ctx base) (putsOf ctx (made ++ [(entry.bytes, draw)])) run') :
    Gathered ctx base (entries ++ [entry]) (stored.add (ownEntry ctx entry made.length,
        some { ctx.sys.measure (sealed ctx entry.bytes draw) with key := objectKey made.length }))
      (made ++ [(entry.bytes, draw)]) run' := by
  refine h.snoc next [(entry.bytes, draw)] _ partway ?_ (.own made.length draw drawn (by simp)) ?_
  · rw [objectsOf_append, h.objects]
    rfl
  · rw [List.length_append]
    have own : (ownEntry ctx entry made.length).held = none →
        (ownEntry ctx entry made.length).object = objectKey made.length := fun _ => rfl
    exact h.numbered.snoc own

theorem storeOne_triple {entry : SourceEntry} (next : Next entries entry) :
    Triple (Gathered ctx base entries stored made)
      (storeOne ctx entry (objectKey stored.objects.length)
        (base.bind fun base => base.known.lookup entry.name))
      (fun one run => ∃ made, Gathered ctx base (entries ++ [entry]) (stored.add one) made run)
      (Failed ctx) := by
  refine Triple.bind _ (given_triple _ fun _ h => h.fails) fun draw =>
    Triple.assume fun drawn => ?_
  split
  next known eq =>
    obtain ⟨there, same⟩ := Option.filter_eq_some_iff.mp eq
    exact Triple.pure fun _ h => ⟨made, h.pointer next there (.inr (of_decide_eq_true same))⟩
  next eq =>
    refine Triple.bind (fun _ run =>
      Partway ctx (HoldsBase ctx base) (putsOf ctx (made ++ [(entry.bytes, draw)])) run ∧
      ∃ before, Gathered ctx base entries stored made before) ?_ fun _ => Triple.pure ?_
    · intro run h
      refine ⟨?_, run, h⟩
      rw [putsOf_append, h.number]
      exact putAll_triple (objectKey_ne made.length) run h.partway
    · rintro run ⟨partway, before, h⟩
      refine ⟨made ++ [(entry.bytes, draw)], ?_⟩
      rw [h.number]
      exact h.own next drawn partway

theorem storeSteps_triple (left : Option Failure) (steps : List Step) :
    Triple (fun run => ∃ made, Gathered ctx base entries stored made run)
      (storeSteps ctx base left steps stored)
      (fun stored run => ∃ entries' made, Gathered ctx base (entries ++ entries') stored made run ∧
        (steps = entries'.map .entry ∨ nowhereLeft ctx run)) (Failed ctx) := by
  induction steps generalizing stored entries with
  | nil =>
      refine Triple.pure ?_
      rintro run ⟨made, h⟩
      exact ⟨[], made, by rwa [List.append_nil], .inl rfl⟩
  | cons step rest ih =>
      have fails : ∀ run, (∃ made, Gathered ctx base entries stored made run) →
          ∃ holds files, Partway ctx holds files run := fun _ ⟨_, h⟩ => h.fails
      cases step with
      | throws error => exact Triple.throw fun run h => ⟨⟨error, rfl⟩, fails run h⟩
      | entry entry =>
          refine Triple.bind _ (check_triple _ fails) fun _ => Triple.assume fun ok => ?_
          dsimp only
          split
          next known eq =>
            obtain ⟨there, same⟩ := Option.filter_eq_some_iff.mp eq
            refine Triple.conseq (@ih (entries ++ [entry]) _) ?_ ?_ fun _ _ h => h
            · rintro run ⟨made, h⟩
              rw [Records.names h.records] at ok
              refine ⟨made, h.pointer (entryProblem_none ok) there (.inl ?_)⟩
              obtain ⟨f, is⟩ := Option.isSome_iff_exists.mp (Bool.and_eq_true_iff.mp same).1
              have equal := of_decide_eq_true (Bool.and_eq_true_iff.mp same).2
              exact ⟨f, is, by rw [← equal, is]⟩
            · rintro stored run ⟨later, made, h, ends⟩
              refine ⟨entry :: later, made, by simpa using h, ends.imp_left fun all => ?_⟩
              rw [all]
              rfl
          next eq =>
            refine Triple.bind (fun one run => ∃ made, Gathered ctx base (entries ++ [entry])
              (stored.add one) made run) ?_ fun one => ?_
            · rintro run ⟨made, h⟩
              rw [Records.names h.records] at ok
              exact storeOne_triple (entryProblem_none ok) run h
            refine Triple.bind (fun nowhere run => (∃ made, Gathered ctx base (entries ++ [entry])
              (stored.add one) made run) ∧ nowhere = nowhereLeft ctx run)
              (Triple.asks fun _ h => ⟨h, rfl⟩) fun nowhere => ?_
            cases nowhere with
            | true =>
                refine Triple.bind _ (check_triple _ fun _ ⟨⟨_, h⟩, _⟩ => h.fails) fun _ =>
                  Triple.pure ?_
                rintro run ⟨⟨⟨made, h⟩, nowhere⟩, -⟩
                exact ⟨[entry], made, h, .inr nowhere.symm⟩
            | false =>
                refine Triple.conseq (@ih (entries ++ [entry]) _) (fun _ h => h.1) ?_ fun _ _ h => h
                rintro stored run ⟨later, made, h, ends⟩
                refine ⟨entry :: later, made, by simpa using h, ends.imp_left fun all => ?_⟩
                rw [all]
                rfl

theorem storeEntries_triple (source : BackupSource) :
    Triple (Partway ctx (HoldsBase ctx base) []) (storeEntries ctx source base)
      (fun stored run => ∃ entries made, Gathered ctx base entries stored made run ∧
        ((source.entries (base.map Base.since)).steps = entries.map .entry ∨
          nowhereLeft ctx run) ∧ source.position = .ok stored.position ∧
        isOptionalText stored.position POSITION_MAX) (Failed ctx) := by
  refine Triple.bind (fun stored run => ∃ entries made, Gathered ctx base entries stored made run ∧
    ((source.entries (base.map Base.since)).steps = entries.map .entry ∨ nowhereLeft ctx run)) ?_
    fun stored => ?_
  · refine Triple.conseq (@storeSteps_triple ctx base [] _ _ _) ?_ (fun _ _ h => h) fun _ _ h => h
    exact fun run h => ⟨[], Gathered.start h⟩
  · refine Triple.bind _ (given_triple _ fun _ ⟨_, _, h, _⟩ => h.fails) fun position => ?_
    refine Triple.bind _ (check_triple _ fun _ ⟨⟨_, _, h, _⟩, _⟩ => h.fails) fun _ =>
      Triple.assume fun short => Triple.pure ?_
    rintro run ⟨⟨entries, made, h, ends⟩, is⟩
    refine ⟨entries, made, ⟨h.partway, h.objects, h.records, h.numbered, h.checked, h.distinct⟩,
      ends, is, ?_⟩
    by_contra long
    rw [if_neg long] at short
    cases short

end Gathering
end Entries

/-- What a whole backup is made of. -/
structure Writing where
  base : Option Base
  entries : List SourceEntry
  made : Made
  catalog : Catalog
  /-- What age drew for the catalog. -/
  draw : Nat

section Writing
variable (ctx : Context) (source : BackupSource) (options : CreateOptions) (at_ : Moment)

/-- Its catalog, sealed. -/
def Writing.sealed (w : Writing) : Bytes := Backup.sealed ctx (Utf8.encode w.catalog.text) w.draw

def Writing.manifest (w : Writing) : Manifest :=
  ⟨ctx.sys.backup, newBackupId at_, at_.time, options.kind,
    w.base.map fun base => base.manifest.id, ctx.recipients,
    { ctx.sys.measure (w.sealed ctx) with key := "catalog.age" }, objectsOf ctx w.made⟩

def signatures (manifest : Manifest) : List (String × File) :=
  (ctx.signer.map fun key => (SIGNATURE, .signature manifest key)).toList

/-- All of its files but the manifest, which is put last. -/
def Writing.puts (w : Writing) : List (String × File) :=
  putsOf ctx w.made ++ [("catalog.age", .catalog w.catalog (w.sealed ctx))] ++
    signatures ctx (w.manifest ctx options at_)

/-- It holds what the source gave, whole. -/
structure Writing.Of (w : Writing) : Prop where
  based : Based ctx (newBackupId at_) source.kind options w.base
  steps : (source.entries (w.base.map Base.since)).steps = w.entries.map .entry
  records : List.Forall₂ (Records ctx w.base w.made) w.entries w.catalog.entries
  numbered : Numbered w.catalog.entries 0 w.made.length
  checked : ∀ e ∈ w.entries, isEntryName e.name ∧ isOptionalText e.fingerprint FINGERPRINT_MAX
  distinct : (w.entries.map SourceEntry.name).Nodup
  kind : w.catalog.kind = source.kind
  position : source.position = .ok w.catalog.position
  short : isOptionalText w.catalog.position POSITION_MAX
  drawn : source.catalog w.catalog = .ok w.draw
  small : (Utf8.encode (w.manifest ctx options at_).text).length ≤ MANIFEST_MAX_BYTES

/-- A repository took the manifest. -/
def Took (log : List Event) (name : String) : Prop :=
  ∃ n file, .put name n MANIFEST file none ∈ log

/-- A run that puts a manifest puts one and the same, and puts no file but those it stands for;
all of them are in a repository when it is put there, with the whole chain of the backup it
builds on. -/
def WholeAt (log : List Event) : Prop :=
  (∀ name n file error, .put name n MANIFEST file error ∉ log) ∨
  ∃ w : Writing, w.Of ctx source options at_ ∧
    (∀ name n key file error, .put name n key file error ∈ log → (key, file) ∈
      w.puts ctx options at_ ++ [(MANIFEST, .manifest (w.manifest ctx options at_))]) ∧
    ∀ before after name n file error, log = before ++ .put name n MANIFEST file error :: after →
      file = .manifest (w.manifest ctx options at_) ∧
      (∀ f ∈ w.puts ctx options at_, ∃ n, .put name n f.1 f.2 none ∈ before) ∧
      ∀ r ∈ ctx.repositories, r.name = name → HoldsBase ctx w.base r

/-- A run whose manifest was put wherever it could be. -/
structure Ended (run : Run) : Prop where
  going : ∃ files, Going ctx files run
  whole : WholeAt ctx source options at_ run.log
  took : ∀ r ∈ ctx.repositories, r.name ∉ run.failed ↔ Took run.log r.name

end Writing

section Ending
variable {source : BackupSource} {options : CreateOptions} {at_ : Moment}

theorem Partway.whole (h : Partway ctx holds files run) :
    WholeAt ctx source options at_ run.log :=
  .inl fun _ _ _ _ put => h.unmade _ (h.going.among _ _ _ _ _ put) rfl

theorem Partway.not_took (h : Partway ctx holds files run) (name : String) :
    ¬ Took run.log name := by
  rintro ⟨n, file, put⟩
  exact h.unmade _ (h.going.among _ _ _ _ _ put) rfl

theorem putManifest_ended {w : Writing} (of : w.Of ctx source options at_)
    (h : Partway ctx (HoldsBase ctx w.base) (w.puts ctx options at_) run) :
    Ended ctx source options at_
      { run.record ((run.left ctx).map
          (putOne ctx run MANIFEST (.manifest (w.manifest ctx options at_)))) with
        puts := run.puts + 1 } := by
  have going := h.going.putAll MANIFEST (.manifest (w.manifest ctx options at_))
  -- The manifest is only in what was put last.
  have last : ∀ {name n file error}, .put name n MANIFEST file error ∈ run.log ++
      (run.left ctx).map (putOne ctx run MANIFEST (.manifest (w.manifest ctx options at_))) →
      ∃ r ∈ run.left ctx, name = r.name ∧ file = .manifest (w.manifest ctx options at_) ∧
        putOne ctx run MANIFEST (.manifest (w.manifest ctx options at_)) r =
          .put name n MANIFEST file error := by
    intro name n file error put
    rcases List.mem_append.mp put with old | new
    · exact absurd rfl (h.unmade _ (h.going.among _ _ _ _ _ old))
    · obtain ⟨r, left, eq⟩ := List.mem_map.mp new
      obtain ⟨name, -, file, -, -⟩ := putOne_put eq
      exact ⟨r, left, name, file, eq⟩
  refine ⟨⟨_, going⟩, .inr ⟨w, of, going.among, ?_⟩, ?_⟩
  · intro before after name n file error eq
    have put : .put name n MANIFEST file error ∈ run.log ++ (run.left ctx).map
        (putOne ctx run MANIFEST (.manifest (w.manifest ctx options at_))) := by
      rw [show run.log ++ _ = _ from eq]
      exact List.mem_append_right _ List.mem_cons_self
    obtain ⟨r, left, rfl, rfl, -⟩ := last put
    obtain ⟨mem, alive⟩ := Run.mem_left.mp left
    -- What was in the log before is before it.
    have earlier : ∀ e ∈ run.log, e ∈ before := by
      intro e old
      rcases List.append_eq_append_iff.mp (show run.log ++ _ = before ++ _ from eq) with
        ⟨more, split, -⟩ | ⟨more, split, rest⟩
      · rw [split]
        exact List.mem_append_left _ old
      · cases more with
        | nil =>
            rw [List.append_nil] at split
            rwa [← split]
        | cons e more =>
            obtain ⟨rfl, -⟩ := List.cons.inj rest
            have old : .put r.name n MANIFEST (.manifest (w.manifest ctx options at_)) error ∈
                run.log := by
              rw [split]
              exact List.mem_append_right _ List.mem_cons_self
            exact absurd rfl (h.unmade _ (h.going.among _ _ _ _ _ old))
    refine ⟨rfl, fun f given => ?_, fun r' mem' same => ?_⟩
    · obtain ⟨n, put⟩ := h.going.took r mem alive f given
      exact ⟨n, earlier _ put⟩
    · rw [ctx.same_name mem' mem same]
      exact h.holds r left
  · intro r mem
    constructor
    · intro alive
      obtain ⟨n, put⟩ := going.took r mem alive
        (MANIFEST, .manifest (w.manifest ctx options at_))
        (List.mem_append_right _ List.mem_cons_self)
      exact ⟨n, _, put⟩
    · rintro ⟨n, file, put⟩ gone
      obtain ⟨e, there, name, fails⟩ := (going.failed r.name).mp gone
      obtain ⟨r', left, name', -, eq⟩ := last put
      obtain rfl := ctx.same_name mem (Run.mem_left.mp left).1 name'
      rcases List.mem_append.mp there with old | new
      · exact (Run.mem_left.mp left).2 ((h.going.failed _).mpr ⟨e, old, name, fails⟩)
      · obtain ⟨r', left', rfl⟩ := List.mem_map.mp new
        rw [putOne_repository] at name
        obtain rfl := ctx.same_name mem (Run.mem_left.mp left').1 name.symm
        rw [eq] at fails
        cases fails

/-- No repository is left once as many failed as there are. -/
theorem Going.all_failed (h : Going ctx files run) (nowhere : nowhereLeft ctx run) :
    ∀ r ∈ ctx.repositories, r.name ∈ run.failed := by
  have sub : run.failed.keys ⊆ ctx.repositories.map Repository.name := by
    intro name mem
    obtain ⟨e, there, rfl, -⟩ := (h.failed name).mp (AList.mem_keys.mpr mem)
    exact h.known e there
  have few : (ctx.repositories.map Repository.name).length ≤ run.failed.keys.length := by
    rw [List.length_map]
    exact (of_decide_eq_true nowhere).ge
  have same := (List.subperm_of_subset run.failed.keys_nodup sub).perm_of_length_le few
  intro r mem
  exact AList.mem_keys.mp (same.mem_iff.mpr (List.mem_map_of_mem mem))

theorem Partway.ended (h : Partway ctx holds files run) (nowhere : nowhereLeft ctx run) :
    Ended ctx source options at_ run where
  going := ⟨files, h.going⟩
  whole := h.whole
  took r mem := iff_of_false (fun alive => alive (h.going.all_failed nowhere r mem))
    (h.not_took r.name)

/-- A run that `create` resolved with. -/
structure Resolved (ctx : Context) (source : BackupSource) (options : CreateOptions)
    (at_ : Moment) (created : Created) (run : Run) : Prop where
  ended : Ended ctx source options at_ run
  outcomes : created.outcomes = outcomesOf ctx run
  every : ∀ r ∈ ctx.repositories, r.name ∉ run.failed

/-- A run that `create` rejected after. -/
def Rejected (ctx : Context) (source : BackupSource) (options : CreateOptions) (at_ : Moment)
    (thrown : Thrown) (run : Run) : Prop :=
  Failed ctx thrown run ∨
    ∃ code message, thrown = .unsettled code message (outcomesOf ctx run) ∧
      Ended ctx source options at_ run ∧ ∃ r ∈ ctx.repositories, r.name ∈ run.failed

theorem outcome_stored (run : Run) (name : String) :
    (RepositoryOutcome.mk name (run.failed.lookup name)).stored ↔ name ∉ run.failed := by
  simp [RepositoryOutcome.stored, AList.lookup_eq_none]

theorem stored_every (ctx : Context) (run : Run) :
    ((outcomesOf ctx run).filter RepositoryOutcome.stored).length = (outcomesOf ctx run).length ↔
      ∀ r ∈ ctx.repositories, r.name ∉ run.failed := by
  rw [List.length_filter_eq_length_iff, outcomesOf, List.forall_mem_map]
  exact forall₂_congr fun r _ => outcome_stored run r.name

theorem settle_triple {outcomes : List RepositoryOutcome} (created : Created)
    (told : created.outcomes = outcomes) :
    Triple (fun run => Ended ctx source options at_ run ∧ outcomes = outcomesOf ctx run)
      (settle ctx created) (Resolved ctx source options at_) (Rejected ctx source options at_) := by
  intro run h
  rw [← told] at h
  have counted := stored_every ctx run
  rw [← h.2] at counted
  unfold settle
  dsimp only
  by_cases every : (created.outcomes.filter RepositoryOutcome.stored).length =
      created.outcomes.length
  · rw [if_pos every]
    exact ⟨h.1, h.2, counted.mp every⟩
  · rw [if_neg every]
    refine .inr ⟨_, _, by rw [h.2], h.1, ?_⟩
    by_contra none
    exact every (counted.mpr fun r mem gone => none ⟨r, mem, gone⟩)

theorem Triple.rejected {α : Type} {pre : Run → Prop} {m : Making α} {post : α → Run → Prop}
    (h : Triple pre m post (Failed ctx)) : Triple pre m post (Rejected ctx source options at_) :=
  Triple.conseq h (fun _ h => h) (fun _ _ h => h) fun _ _ h => .inl h

theorem storeCatalog_triple {catalog : Catalog} :
    Triple (Partway ctx holds files) (storeCatalog ctx source catalog)
      (fun object run => ∃ draw, source.catalog catalog = .ok draw ∧
        object = { ctx.sys.measure (sealed ctx (Utf8.encode catalog.text) draw) with
          key := "catalog.age" } ∧
        Partway ctx holds (files ++ [("catalog.age",
          .catalog catalog (sealed ctx (Utf8.encode catalog.text) draw))]) run)
      (Failed ctx) := by
  refine Triple.bind _ (given_triple _ fun _ h => ⟨_, _, h⟩) fun draw =>
    Triple.assume fun drawn => ?_
  have other : "catalog.age" ≠ MANIFEST := by decide
  exact Triple.bind _ (putAll_triple other) fun _ => Triple.pure fun run h => ⟨draw, drawn, rfl, h⟩

theorem putSignature_triple (manifest : Manifest) :
    Triple (Partway ctx holds files) (putSignature ctx manifest)
      (fun _ => Partway ctx holds (files ++ signatures ctx manifest)) (Failed ctx) := by
  unfold putSignature signatures
  cases ctx.signer with
  | none =>
      dsimp only [Option.map_none, Option.toList_none]
      rw [List.append_nil]
      exact Triple.pure fun _ h => h
  | some key =>
      have other : SIGNATURE ≠ MANIFEST := by decide
      refine Triple.bind _ (check_triple _ fun _ h => ⟨_, _, h⟩) fun _ => Triple.assume fun _ => ?_
      exact putAll_triple other

/-- What was gathered of a source that was read to its end, and its catalog. -/
structure Whole (ctx : Context) (source : BackupSource) (options : CreateOptions) (at_ : Moment)
    (base : Option Base) (entries : List SourceEntry) (stored : Stored) : Prop where
  based : Based ctx (newBackupId at_) source.kind options base
  steps : (source.entries (base.map Base.since)).steps = entries.map .entry
  position : source.position = .ok stored.position
  short : isOptionalText stored.position POSITION_MAX

theorem manifestProblem_none {manifest : Manifest} (ok : manifestProblem ctx manifest = none) :
    (Utf8.encode manifest.text).length ≤ MANIFEST_MAX_BYTES := by
  unfold manifestProblem at ok
  by_contra large
  rw [if_neg large] at ok
  cases ok

theorem finish_triple {base : Option Base} {entries : List SourceEntry} {stored : Stored}
    (read : Whole ctx source options at_ base entries stored) :
    Triple (fun run => ∃ made, Gathered ctx base entries stored made run)
      (finish ctx (newBackupId at_) options.kind source at_ stored base)
      (Resolved ctx source options at_) (Rejected ctx source options at_) := by
  rintro run ⟨made, h⟩
  obtain ⟨recorded, objects, reused, position⟩ := stored
  obtain rfl : objects = objectsOf ctx made := h.objects
  refine Triple.bind _ (Triple.rejected storeCatalog_triple) (fun object run => ?_) run h.partway
  rintro ⟨draw, drawn, rfl, partway⟩
  let w : Writing := ⟨base, entries, made, ⟨source.kind, recorded, position⟩, draw⟩
  refine Triple.bind (fun _ => Ended ctx source options at_) ?_ (fun _ => ?_) run partway
  · -- The signature goes before the manifest.
    refine Triple.rejected ?_
    refine Triple.bind _ (check_triple _ fun _ h => ⟨_, _, h⟩) fun _ =>
      Triple.assume fun small => ?_
    refine Triple.bind _ (check_triple _ fun _ h => ⟨_, _, h⟩) fun _ => Triple.assume fun _ => ?_
    refine Triple.bind _ (putSignature_triple _) fun _ => Triple.change fun run partway => ?_
    have of : w.Of ctx source options at_ :=
      ⟨read.based, read.steps, h.records, h.numbered, h.checked, h.distinct, rfl, read.position,
        read.short, drawn, manifestProblem_none small⟩
    exact putManifest_ended of partway
  · exact Triple.bind (fun outcomes run => Ended ctx source options at_ run ∧
      outcomes = outcomesOf ctx run) (Triple.asks fun run h => ⟨h, rfl⟩)
      fun outcomes => settle_triple _ rfl

/-- What `gather` leaves: all of the source, unless no repository is left. -/
def Gotten (ctx : Context) (source : BackupSource) (options : CreateOptions) (at_ : Moment)
    (base : Option Base) (stored : Stored) (run : Run) : Prop :=
  ∃ entries, (∃ made, Gathered ctx base entries stored made run) ∧
    (Whole ctx source options at_ base entries stored ∨ nowhereLeft ctx run)

theorem gather_triple {base : Option Base} :
    Triple (fun run => Partway ctx (HoldsBase ctx base) [] run ∧
        (Based ctx (newBackupId at_) source.kind options base ∨ nowhereLeft ctx run))
      (gather ctx source base) (Gotten ctx source options at_ base) (Failed ctx) := by
  refine Triple.bind (fun nowhere run => (Partway ctx (HoldsBase ctx base) [] run ∧
    (Based ctx (newBackupId at_) source.kind options base ∨ nowhereLeft ctx run)) ∧
    nowhere = nowhereLeft ctx run) (Triple.asks fun _ h => ⟨h, rfl⟩) fun nowhere => ?_
  cases nowhere with
  | true => exact Triple.pure fun run h => ⟨[], ⟨[], Gathered.start h.1.1⟩, .inr h.2.symm⟩
  | false =>
      rintro run ⟨⟨partway, based | nowhere⟩, left⟩
      · refine Triple.conseq (storeEntries_triple source) (fun _ h => h) ?_ (fun _ _ h => h) run
          partway
        rintro stored run ⟨entries, made, h, ends, position, short⟩
        exact ⟨entries, ⟨made, h⟩, ends.imp_left fun steps => ⟨based, steps, position, short⟩⟩
      · rw [nowhere] at left
        cases left

theorem createBackup_triple (source : BackupSource) (options : CreateOptions) (at_ : Moment) :
    Triple (fun run => run = Run.start) (createBackup ctx source options at_)
      (Resolved ctx source options at_) (Rejected ctx source options at_) := by
  have start : ∀ run, run = Run.start → ∃ holds files, Partway ctx holds files run := by
    rintro run rfl
    exact ⟨fun _ => True, [], Going.start ctx, by simp, fun _ _ => trivial⟩
  refine Triple.bind _ (Triple.rejected (check_triple _ start)) fun _ => Triple.assume fun _ => ?_
  refine Triple.bind _ (Triple.rejected (check_triple _ start)) fun _ => Triple.assume fun _ => ?_
  refine Triple.bind _ (Triple.rejected (check_triple _ start)) fun _ => Triple.assume fun _ => ?_
  refine Triple.bind _ (Triple.rejected lockAll_triple) fun _ => ?_
  refine Triple.bind _ (Triple.rejected (findBase_triple _ options _)) fun base => ?_
  refine Triple.bind _ (Triple.rejected gather_triple) fun stored => ?_
  refine Triple.bind (fun nowhere run => Gotten ctx source options at_ base stored run ∧
    nowhere = nowhereLeft ctx run) (Triple.asks fun _ h => ⟨h, rfl⟩) fun nowhere => ?_
  cases nowhere with
  | true =>
      refine Triple.bind (fun outcomes run => Ended ctx source options at_ run ∧
        outcomes = outcomesOf ctx run) (Triple.asks fun run h => ⟨?_, rfl⟩)
        fun outcomes => settle_triple _ rfl
      obtain ⟨⟨entries, ⟨made, gathered⟩, -⟩, nowhere⟩ := h
      exact gathered.partway.ended nowhere.symm
  | false =>
      rintro run ⟨⟨entries, gathered, read | nowhere⟩, left⟩
      · exact finish_triple read run gathered
      · rw [nowhere] at left
        cases left

end Ending

theorem Failed.not_every {thrown : Thrown} (h : Failed ctx thrown run) :
    ¬ ∀ r ∈ ctx.repositories, Took run.log r.name := by
  intro every
  obtain ⟨-, holds, files, partway⟩ := h
  obtain ⟨r, mem⟩ := List.exists_mem_of_ne_nil _ ctx.some
  exact partway.not_took r.name (every r mem)

theorem Ended.outcomes {source : BackupSource} {options : CreateOptions} {at_ : Moment}
    (h : Ended ctx source options at_ run) :
    (outcomesOf ctx run).map RepositoryOutcome.repository =
        ctx.repositories.map Repository.name ∧
      ∀ o ∈ outcomesOf ctx run, o.stored ↔ Took run.log o.repository := by
  refine ⟨by simp [outcomesOf, List.map_map, Function.comp_def], fun o mem => ?_⟩
  obtain ⟨r, there, rfl⟩ := List.mem_map.mp mem
  exact (outcome_stored run r.name).trans (h.took r there)

/-- The log of a run of `create`, whatever came of it. -/
def logOf (ctx : Context) (source : BackupSource) (options : CreateOptions) (at_ : Moment) :
    List Event := ((createBackup ctx source options at_).exec Run.start).2.log

theorem logOf_spec (ctx : Context) (source : BackupSource) (options : CreateOptions)
    (at_ : Moment) : WholeAt ctx source options at_ (logOf ctx source options at_) ∧
      ∃ files run, run.log = logOf ctx source options at_ ∧ Going ctx files run := by
  have after := @createBackup_triple ctx source options at_ Run.start rfl
  unfold logOf
  generalize (createBackup ctx source options at_).exec Run.start = ran at after ⊢
  obtain ⟨thrown | created, run⟩ := ran
  · rcases after with ⟨-, holds, files, partway⟩ | ⟨code, message, -, ended, -⟩
    · exact ⟨partway.whole, files, run, rfl, partway.going⟩
    · obtain ⟨files, going⟩ := ended.going
      exact ⟨ended.whole, files, run, rfl, going⟩
  · obtain ⟨files, going⟩ := after.ended.going
    exact ⟨after.ended.whole, files, run, rfl, going⟩

/-- The outcomes that `create` resolves with, or that its own error holds. -/
def outcomesIn : Except Thrown Created → Option (List RepositoryOutcome)
  | .ok created => some created.outcomes
  | .error (.unsettled _ _ outcomes) => some outcomes
  | .error (.error _) => none

/-- Whatever fails, and whenever: a repository is given the manifest only after all it stands
for, each file under a lease that was held, and nothing after something failed there; `create`
resolves if all took the manifest, and its outcomes say which did. -/
theorem createBackup_whole (ctx : Context) (source : BackupSource) (options : CreateOptions)
    (at_ : Moment) :
    let ran := (createBackup ctx source options at_).exec Run.start
    WholeAt ctx source options at_ ran.2.log ∧
    (∀ r ∈ ctx.repositories, ∀ n key file error,
      .put r.name n key file error ∈ ran.2.log → r.held n) ∧
    ran.2.log.Pairwise (fun e e' => e.error.isSome → e'.isPut → e'.repository ≠ e.repository) ∧
    ((∃ created, ran.1 = .ok created) ↔ ∀ r ∈ ctx.repositories, Took ran.2.log r.name) ∧
    ∀ outcomes ∈ outcomesIn ran.1,
      outcomes.map RepositoryOutcome.repository = ctx.repositories.map Repository.name ∧
      ∀ o ∈ outcomes, o.stored ↔ Took ran.2.log o.repository := by
  have after := @createBackup_triple ctx source options at_ Run.start rfl
  dsimp only
  generalize (createBackup ctx source options at_).exec Run.start = ran at after ⊢
  obtain ⟨thrown | created, run⟩ := ran
  · have unresolved : ¬ ∃ created, (.error thrown : Except Thrown Created) = .ok created := by
      rintro ⟨_, eq⟩
      cases eq
    rcases after with failed | ⟨code, message, rfl, ended, r, mem, gone⟩
    · obtain ⟨⟨error, rfl⟩, holds, files, partway⟩ := id failed
      refine ⟨partway.whole, partway.going.held, partway.going.quiet,
        iff_of_false unresolved failed.not_every, fun outcomes mem => ?_⟩
      cases mem
    · obtain ⟨files, going⟩ := ended.going
      refine ⟨ended.whole, going.held, going.quiet, iff_of_false unresolved fun every => ?_,
        fun outcomes mem => ?_⟩
      · exact (ended.took r mem).mpr (every r mem) gone
      · cases mem
        exact ended.outcomes
  · obtain ⟨files, going⟩ := after.ended.going
    refine ⟨after.ended.whole, going.held, going.quiet, iff_of_true ⟨created, rfl⟩ fun r mem => ?_,
      fun outcomes mem => ?_⟩
    · exact (after.ended.took r mem).mp (after.every r mem)
    · cases mem
      rw [after.outcomes]
      exact after.ended.outcomes

end NxgtData.Backup
