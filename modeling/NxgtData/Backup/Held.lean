import NxgtData.Backup.Restored

/-!
Holds over whole runs. Once `hold` has answered that it held a backup in a repository, whatever
runs there next leaves that backup as it is, file by file, until `unhold` is called for it.
-/
namespace NxgtData.Backup
open Checked

section Held
variable {sys : System} {vault : Vault} {settings : Settings} {name id : String} {faults : Faults}

/-- A backup that is there, with its hold. -/
structure Held (vault : Vault) (id : String) : Prop where
  form : isBackupId id
  manifest : ∃ bytes, vault.lookup (id, MANIFEST) = some bytes
  hold : ∃ bytes, vault.lookup (holdKey id) = some bytes

theorem holdKey_injective {id id' : String} (same : holdKey id = holdKey id') : id = id' :=
  (String.append_left_inj ".json").mp (congrArg Prod.snd same)

/-- A hold's key says what it holds. -/
theorem mem_heldIds {repository : Repository} {ids : List String} (form : isBackupId id)
    (holds : heldIds repository = .ok ids) (listed : Listed repository (holdKey id)) :
    id ∈ ids := by
  obtain ⟨keys, list, is⟩ := Checked.bind_ok.mp holds
  obtain ⟨keys', list', mem⟩ := listed
  rw [list] at list'
  obtain rfl := Except.ok.inj list'
  rw [← Except.ok.inj is]
  have text : (holdKey id).2.toList = id.toList ++ ".json".toList := String.toList_append
  refine List.mem_map.mpr ⟨holdKey id, List.mem_filter.mpr ⟨mem, decide_eq_true ⟨rfl, ?_, ?_⟩⟩, ?_⟩
  · rw [text]
    exact List.isSuffixOf_iff_suffix.mpr (List.suffix_append _ _)
  · rw [text]
    intro slash
    rcases List.mem_append.mp slash with own | ending
    · exact absurd (mem_id form _ own) (by decide)
    · exact absurd ending (by decide)
  · have five : ".json".toList.length = 5 := rfl
    rw [text, List.length_append, five, Nat.add_sub_cancel, List.take_left, String.ofList_toList]

/-- A prune deletes nothing of a backup that is held. -/
theorem Held.spared (h : Held vault id) {met : Conditions} {options : PruneOptions}
    (key : String) : (id, key) ∉ (pruneBackups sys settings
      (Vault.repository vault name faults) met options).1 := by
  intro gone
  obtain ⟨-, listed, -⟩ := prune_first (List.prefix_refl _) gone
  have calm := (listed_iff.mp listed).1
  have there : Listed (Vault.repository vault name faults) (id, MANIFEST) :=
    listed_iff.mpr ⟨calm, h.manifest⟩
  have hold : Listed (Vault.repository vault name faults) (holdKey id) :=
    listed_iff.mpr ⟨calm, h.hold⟩
  by_cases reads : ∃ m, Fetches sys settings (Vault.repository vault name faults) id m
  · obtain ⟨m, fetches⟩ := reads
    obtain ⟨ids, holds⟩ : ∃ ids, heldIds (Vault.repository vault name faults) = .ok ids := by
      obtain ⟨keys, list, -⟩ := hold
      exact ⟨_, Checked.bind_ok.mpr ⟨keys, list, rfl⟩⟩
    exact prune_held holds (mem_heldIds h.form holds hold) there fetches key gone
  · obtain ⟨bytes, has⟩ := h.manifest
    exact prune_unreadable ⟨h.form, there, fun m fetches => reads ⟨m, fetches⟩,
      fetchManifest_there has⟩ key gone

/-- What one operation leaves of a held backup: all of it, and its hold. -/
theorem Held.stays {world : World} (h : Held (world name) id) {act : Act sys}
    (fresh : ∀ c, act = .create c → c.id ≠ id) (unlifted : ∀ l, act = .unhold l → l.id ≠ id) :
    (∀ key, (step world act name).lookup (id, key) = (world name).lookup (id, key)) ∧
      ∃ bytes, (step world act name).lookup (holdKey id) = some bytes := by
  obtain ⟨bytes, hold⟩ := h.hold
  cases act with
  | create c =>
      have form : isBackupId c.id := isBackupId_newBackupId c.stamped
      refine ⟨step_create_other world c name (fresh c rfl).symm, bytes, ?_⟩
      exact (step_create_other world c name (holds_other form).symm _).trans hold
  | prune p =>
      by_cases here : name = p.name
      case neg =>
        rw [step_prune_other world here]
        exact ⟨fun _ => rfl, bytes, hold⟩
      subst here
      have among {key : String × String} (mem : key ∈ p.done world sys) :
          key ∈ (pruneBackups sys p.settings
            (Vault.repository (world p.name) p.name p.faults) p.met p.options).1 :=
        List.mem_of_mem_take mem
      rw [step_prune]
      refine ⟨fun key => ?_, bytes, ?_⟩
      · rw [lookup_without, if_neg fun mem => h.spared key (among mem)]
      · rw [lookup_without, if_neg, hold]
        intro mem
        have form := (prune_first (List.prefix_refl _) (among mem)).1
        exact holds_other form rfl
  | hold held =>
      refine ⟨step_hold_other world held name h.form, ?_⟩
      unfold step
      dsimp only
      split
      next =>
        by_cases same : id = held.id
        · subst same
          exact ⟨_, AList.lookup_insert _⟩
        · exact ⟨bytes, (AList.lookup_insert_ne fun eq => same (holdKey_injective eq)).trans hold⟩
      next => exact ⟨bytes, hold⟩
  | unhold lifted =>
      have other := unlifted lifted rfl
      refine ⟨step_unhold_other world lifted name h.form, bytes, ?_⟩
      unfold step
      dsimp only
      split
      next =>
        exact (AList.lookup_erase_ne fun eq => other (holdKey_injective eq).symm).trans hold
      next => exact hold

/-- What a run leaves of it. -/
theorem Held.stays_run {world : World} (h : Held (world name) id) {more : List (Act sys)}
    (fresh : id ∉ createdIds more) (unlifted : ∀ l, .unhold l ∈ more → l.id ≠ id) (key : String) :
    (more.foldl step world name).lookup (id, key) = (world name).lookup (id, key) := by
  induction more generalizing world with
  | nil => rfl
  | cons act more ih =>
      have new {c : Creation sys} (is : act = .create c) : c.id ≠ id := by
        rintro rfl
        refine fresh (List.mem_filterMap.mpr ⟨act, List.mem_cons_self, ?_⟩)
        rw [is]
      have kept {l : Holding} (is : act = .unhold l) : l.id ≠ id :=
        unlifted l (is ▸ List.mem_cons_self)
      obtain ⟨same, hold⟩ := h.stays (fun _ => new) (fun _ => kept)
      have later : Held (step world act name) id := by
        refine ⟨h.form, ?_, hold⟩
        rw [same]
        exact h.manifest
      have rest : id ∉ createdIds more := by
        intro mem
        refine fresh ?_
        have split : createdIds (act :: more) = createdIds [act] ++ createdIds more :=
          createdIds_append [act] more
        rw [split]
        exact List.mem_append_right _ mem
      exact (ih later rest fun l mem => unlifted l (List.mem_cons_of_mem _ mem)).trans (same key)

end Held

section Answers
variable {sys : System} {settings : Settings} {id : String}

/-- Whoever is in the answer was asked, and did it. -/
theorem inTurn_ok {one : Repository → Bool × Except Failure Bool} {repositories : List Repository}
    {names : List String} (ok : (inTurn one repositories).2 = .ok names) {name : String}
    (mem : name ∈ names) :
    ∃ repository ∈ repositories, repository.name = name ∧ (one repository).2 = .ok true ∧
      ((one repository).1 = true → name ∈ (inTurn one repositories).1) := by
  induction repositories generalizing names with
  | nil =>
      cases ok
      cases mem
  | cons repository rest ih =>
      unfold inTurn at ok ⊢
      dsimp only at ok ⊢
      cases is : (one repository).2 with
      | error error =>
          rw [is] at ok
          cases ok
      | ok held =>
          rw [is] at ok
          obtain ⟨others, later, rfl⟩ := map_ok.mp ok
          have there (here : held = true ∧ name = repository.name ∨ name ∈ others) :
              ∃ r ∈ repository :: rest, r.name = name ∧ (one r).2 = .ok true ∧
                ((one r).1 = true → name ∈
                  (if (one repository).1 then [repository.name] else []) ++
                    (inTurn one rest).1) := by
            rcases here with ⟨rfl, rfl⟩ | mem
            · refine ⟨repository, List.mem_cons_self, rfl, is, fun asked => ?_⟩
              rw [if_pos asked]
              exact List.mem_cons_self
            · obtain ⟨r, among, named, did, asked⟩ := ih later mem
              exact ⟨r, List.mem_cons_of_mem _ among, named, did,
                fun is => List.mem_append_right _ (asked is)⟩
          refine there ?_
          split at mem
          next yes => exact (List.mem_cons.mp mem).imp_left fun same => ⟨yes, same⟩
          next => exact .inr mem

/-- A hold that was put was put where the backup is. -/
theorem holdIn_ok {write : Option Failure} {repository : Repository}
    (ok : (holdIn sys settings id write repository).2 = .ok true) :
    (holdIn sys settings id write repository).1 = true ∧
      ∃ manifest, Fetches sys settings repository id manifest := by
  unfold holdIn at ok ⊢
  split at ok
  next => cases ok
  next free =>
    split at ok
    next => cases ok
    next => cases ok
    next => cases ok
    next manifest fetched =>
      split at ok
      next held => exact ⟨by simp [held], manifest, fetchManifest_ok.mp fetched⟩
      next => cases ok

end Answers

/-- What a hold that answered with a repository, and whose put was done there, does for the
operations after it: the backup is there, and stays as it was. -/
def Protects {sys : System} (acts : List (Act sys)) (h : Holding) (more : List (Act sys))
    (name : String) : Prop :=
  ∀ names, (holdBackup sys h.settings h.id h.write
      (repositoriesOf (run acts) h.repositories)).2 = .ok names →
    name ∈ names → h.done name →
      (∃ bytes, (run acts name).lookup (h.id, MANIFEST) = some bytes) ∧
        ∀ key, (run (acts ++ .hold h :: more) name).lookup (h.id, key) =
          (run acts name).lookup (h.id, key)

/-- After a hold, whatever else runs, in whatever order, whatever fails and wherever it is cut,
leaves the backup alone, as long as no `unhold` is called for it and no id is drawn twice. -/
theorem hold_protects {sys : System} (acts : List (Act sys)) (h : Holding) (more : List (Act sys))
    (fresh : h.id ∉ createdIds more) (unlifted : ∀ l, .unhold l ∈ more → l.id ≠ h.id)
    (name : String) : Protects acts h more name := by
  intro names ok mem done
  unfold holdBackup at ok
  split at ok
  next form =>
    obtain ⟨names', turned, ok⟩ := Checked.bind_ok.mp ok
    have same : names' = names := by
      split at ok
      next => cases ok
      next => exact Except.ok.inj ok
    subst same
    obtain ⟨r, among, rfl, did, asked⟩ := inTurn_ok turned mem
    obtain ⟨put, manifest, fetches⟩ := holdIn_ok did
    obtain ⟨given, -, rfl⟩ := List.mem_map.mp among
    obtain ⟨-, bytes, got, -⟩ := fetches
    have there : (run acts given.1).lookup (h.id, MANIFEST) = some bytes := get_repository got
    have inserted : step (run acts) (.hold h : Act sys) given.1 =
        (run acts given.1).insert (holdKey h.id) (Utf8.encode (holdText h.id h.heldAt)) := by
      refine if_pos ⟨?_, done⟩
      unfold holdBackup
      rw [if_pos form]
      exact asked put
    have held : Held (step (run acts) (.hold h : Act sys) given.1) h.id := by
      refine ⟨form, ⟨bytes, (step_hold_other _ h _ form _).trans there⟩,
        Utf8.encode (holdText h.id h.heldAt), ?_⟩
      rw [inserted]
      exact AList.lookup_insert _
    refine ⟨⟨bytes, there⟩, fun key => ?_⟩
    have split : run (acts ++ .hold h :: more) =
        more.foldl step (step (run acts) (.hold h : Act sys)) := by
      rw [run, List.foldl_append]
      rfl
    rw [split]
    exact (held.stays_run fresh unlifted key).trans (step_hold_other _ h _ form key)
  next => cases ok

/-- The hold of the first backup, another backup, and a prune that keeps the last. -/
theorem hold_protects_oneDay :
    Protects
      [.create (oneCreation .full 1735689600000 ⟨by decide, by decide, by decide, by decide⟩)]
      ⟨openSettings, [("local", calm)], "20250101T000000000Z-00000000", 1735690000000,
        fun _ => none, fun _ => true⟩
      [.create (oneCreation .full 1735693200000 ⟨by decide, by decide, by decide, by decide⟩),
        .prune ⟨openSettings, "local", calm, ⟨300000, 1735776000000, 1735776000000, fun _ => none,
          fun _ => false, false, id, fun _ => .refl _⟩, ⟨Retention.onlyLast 1, false, none, none⟩, 10⟩] "local" := by
  refine hold_protects _ _ _ (by decide +kernel) ?_ "local"
  intro l mem
  simp only [List.mem_cons, reduceCtorEq, List.not_mem_nil, or_false] at mem

end NxgtData.Backup
