import NxgtData.MongoSync.Sync

/-!
Syncing again: what a sync that resolved leaves, and when the next one finds nothing to do.
The options it wrote are covered by what is read back of them, and the validation matches; the
indexes it built match exactly if they are stable, and one of each name asked for.
-/
namespace NxgtData.MongoSync
open Bson CollectionOption

section ByName
variable {indexes rest : List Index} {name : Name}

theorem byName_append :
    byName (indexes ++ rest) name = (byName indexes name).or (byName rest name) :=
  List.find?_append

theorem byName_singleton {index : Index} :
    byName [index] name = if index.nameOf = name then some index else none := by
  rw [byName, List.find?_singleton]
  split <;> simp_all

theorem byName_filter {other : Name} : byName (indexes.filter (·.nameOf ≠ other)) name =
    if name = other then none else byName indexes name := by
  rw [byName, List.find?_filter]
  split
  next is =>
    subst is
    exact List.find?_eq_none.mpr fun index _ both => by simp_all
  next differ =>
    congr 1
    funext index
    by_cases is : index.nameOf = name <;> simp [is, differ]

end ByName

section Server
variable {server : Server} {definition : Definition} {world world' : World} {live : Live}

theorem send_some {command : Command} (sent : send server command world = some world') :
    world'.collection = world.collection := by
  unfold send at sent
  split at sent
  · exact absurd sent nofun
  · cases sent
    rfl

theorem onIndexes_some {change : Live → Option (List Index)} (there : world.collection = some live)
    (done : onIndexes change world = some world') :
    ∃ indexes, change live = some indexes ∧ world'.collection = some { live with indexes } := by
  rw [onIndexes, there] at done
  obtain ⟨indexes, changed, rfl⟩ := Option.map_eq_some_iff.mp done
  exact ⟨indexes, changed, rfl⟩

/-- Dropping indexes leaves the others as they were. -/
theorem dropIndexes_some {names : List Name} (there : world.collection = some live)
    (done : dropIndexes server names world = some world') :
    ∃ indexes, world'.collection = some { live with indexes } ∧
      ∀ name, byName indexes name = if name ∈ names then none else byName live.indexes name := by
  induction names generalizing world live with
  | nil =>
      cases done
      exact ⟨live.indexes, there, fun name => (if_neg List.not_mem_nil).symm⟩
  | cons first rest ih =>
      rw [dropIndexes] at done
      obtain ⟨next, dropped, done⟩ := Option.bind_eq_some_iff.mp done
      obtain ⟨asked, sent, dropped⟩ := Option.bind_eq_some_iff.mp dropped
      obtain ⟨indexes, drop, there⟩ := onIndexes_some ((send_some sent).trans there) dropped
      obtain ⟨left, collection, named⟩ := ih there done
      refine ⟨left, collection, fun name => ?_⟩
      rw [named]
      unfold dropIndex at drop
      split at drop
      · exact absurd drop nofun
      cases drop
      simp only [byName_filter, List.mem_cons]
      by_cases is : name = first <;> by_cases mem : name ∈ rest <;> simp [is, mem]

/-- Of the indexes asked for under one name that is not there, the first is built. -/
theorem eachIndex_some {default_ : Option Json} {build indexes after : List Index}
    (done : eachIndex (createIndex server default_) build indexes = some after) (name : Name) :
    byName after name = (byName indexes name).or
      ((byName build name).map (readBack server.toIndexServer default_)) := by
  induction build generalizing indexes with
  | nil =>
      cases done
      exact (Option.or_none).symm
  | cons index rest ih =>
      rw [eachIndex] at done
      obtain ⟨next, created, done⟩ := Option.bind_eq_some_iff.mp done
      rw [ih done, show index :: rest = [index] ++ rest from rfl, byName_append,
        byName_singleton]
      unfold createIndex at created
      split at created
      next existing there =>
        split at created
        · cases created
          split
          next is =>
            rw [← is, there]
            rfl
          · rfl
        · exact absurd created nofun
      next absent =>
        cases created
        have read : (readBack server.toIndexServer default_ index).nameOf = index.nameOf := rfl
        rw [byName_append, byName_singleton, read]
        by_cases is : index.nameOf = name
        · rw [if_pos is, if_pos is, ← is, absent]
          rfl
        · rw [if_neg is, if_neg is, Option.or_none, Option.none_or]

theorem createIndexes_some {build : List Index} (there : world.collection = some live)
    (done : createIndexes server build world = some world') :
    ∃ indexes, world'.collection = some { live with indexes } ∧
      ∀ name, byName indexes name = (byName live.indexes name).or
        ((byName build name).map
          (readBack server.toIndexServer (live.options .collation))) := by
  unfold createIndexes at done
  split at done
  next none_ =>
    cases done
    rw [List.isEmpty_iff] at none_
    subst none_
    exact ⟨live.indexes, there, fun name => (Option.or_none).symm⟩
  · obtain ⟨asked, sent, done⟩ := Option.bind_eq_some_iff.mp done
    obtain ⟨indexes, built, collection⟩ := onIndexes_some ((send_some sent).trans there) done
    exact ⟨indexes, collection, eachIndex_some built⟩

end Server

section Diff
variable {wanted live : List Index}

/-- The first index of a name that is not as the live one of this name. -/
def toBuild (wanted live : List Index) (name : Name) : Option Index :=
  wanted.find? fun w => w.nameOf = name &&
    !(byName live name).any fun l => decide (indexMatches w l)

theorem byName_named (indexes : List Index) (name : Name) :
    byName (indexes.map Index.named) name = (byName indexes name).map Index.named := by
  rw [byName, List.find?_map]
  rfl

theorem byName_build (name : Name) :
    byName ((diffIndexes wanted live).create ++ (diffIndexes wanted live).recreate) name =
      (toBuild wanted live name).map Index.named := by
  rw [byName_append, diffIndexes, byName_named, byName_named, ← Option.map_or]
  congr 1
  have create : byName (wanted.filter fun w => (byName live w.nameOf).isNone) name =
      wanted.find? fun w => w.nameOf = name && (byName live name).isNone := by
    rw [byName, List.find?_filter]
    congr 1
    funext w
    by_cases is : w.nameOf = name
    · cases there : byName live name <;> simp [is, there]
    · simp [is]
  have recreate : byName (wanted.filter fun w =>
      (byName live w.nameOf).any fun l => !decide (indexMatches w l)) name =
      wanted.find? fun w => w.nameOf = name &&
        (byName live name).any fun l => !decide (indexMatches w l) := by
    rw [byName, List.find?_filter]
    congr 1
    funext w
    by_cases is : w.nameOf = name <;> simp [is]
  rw [create, recreate, toBuild]
  cases byName live name with
  | none =>
      simp only [Option.isNone_none, Option.any_none, Bool.and_false, Bool.not_false]
      rw [List.find?_eq_none.mpr fun _ _ => Bool.false_ne_true, Option.or_none]
  | some l =>
      simp only [Option.isNone_some, Option.any_some, Bool.and_false]
      rw [List.find?_eq_none.mpr fun _ _ => Bool.false_ne_true, Option.none_or]

theorem mem_recreated {name : Name} :
    name ∈ (diffIndexes wanted live).recreate.map Index.nameOf ↔ ∃ w ∈ wanted, w.nameOf = name ∧
      (byName live name).any (fun l => !decide (indexMatches w l)) = true := by
  rw [diffIndexes, List.map_map, List.mem_map]
  constructor
  · rintro ⟨w, mem, rfl⟩
    rw [List.mem_filter] at mem
    exact ⟨w, mem.1, rfl, mem.2⟩
  · rintro ⟨w, mem, rfl, differs⟩
    exact ⟨w, List.mem_filter.mpr ⟨mem, differs⟩, rfl⟩

/-- What is built under a name is there under it no more. -/
theorem toBuild_some {name : Name} {b : Index} (found : toBuild wanted live name = some b) :
    b ∈ wanted ∧ b.nameOf = name ∧
      (byName live name = none ∨ name ∈ (diffIndexes wanted live).recreate.map Index.nameOf) := by
  have is := List.find?_some found
  rw [Bool.and_eq_true, decide_eq_true_eq, Bool.not_eq_true'] at is
  refine ⟨List.mem_of_find?_eq_some found, is.1, ?_⟩
  cases there : byName live name with
  | none => exact .inl rfl
  | some l =>
      have differs := is.2
      rw [there, Option.any_some] at differs
      refine .inr (mem_recreated.mpr ⟨b, List.mem_of_find?_eq_some found, is.1, ?_⟩)
      rw [there, Option.any_some, differs]
      rfl

theorem toBuild_none {name : Name} (none_ : toBuild wanted live name = none) {w : Index}
    (mem : w ∈ wanted) (is : w.nameOf = name) :
    ∃ l, byName live name = some l ∧ indexMatches w l := by
  have matched := List.find?_eq_none.mp none_ w mem
  rw [decide_eq_true is, Bool.true_and, Bool.not_eq_true', Bool.not_eq_false,
    Option.any_eq_true] at matched
  obtain ⟨l, there, same⟩ := matched
  exact ⟨l, there, of_decide_eq_true same⟩

theorem not_recreated {name : Name} (none_ : toBuild wanted live name = none) :
    name ∉ (diffIndexes wanted live).recreate.map Index.nameOf := by
  intro mem
  obtain ⟨w, mem, is, differs⟩ := mem_recreated.mp mem
  obtain ⟨l, there, same⟩ := toBuild_none none_ mem is
  rw [there, Option.any_some, decide_eq_true same] at differs
  exact Bool.false_ne_true differs

theorem mem_extra {name : Name} : name ∈ (diffIndexes wanted live).extra ↔
    (byName live name).isSome ∧ name ≠ idIndex ∧ name ∉ wanted.map Index.nameOf := by
  rw [diffIndexes, List.mem_filter, byName, List.find?_isSome, List.mem_map]
  simp

end Diff

section Phases
variable {server : Server} {definition : Definition} {world world' : World} {live : Live}
  {wanted : MongoCollectionOptions}

/-- What an option asked for is read back as after `collMod`: covered if it was or if what it
was written as is. -/
theorem covers_modified (can : ∀ m ∈ diffCollectionOptions wanted live.options, m.mutable = true)
    {option : CollectionOption} {want : Json} (asks : option.of wanted = some want) :
    covers (on (modified server live
        (collModForOptions (diffCollectionOptions wanted live.options))).options option) want =
      (covers (on live.options option) want || covers (server.readOption option want) want) := by
  cases sent : collModForOptions (diffCollectionOptions wanted live.options) option with
  | some sentWant =>
      obtain ⟨m, found, -⟩ := Option.map_eq_some_iff.mp sent
      have is := List.find?_some found
      rw [Bool.and_eq_true, decide_eq_true_eq] at is
      obtain ⟨mAsks, uncovered, -, -⟩ :=
        mem_diffCollectionOptions.mp (List.mem_of_find?_eq_some found)
      obtain ⟨asks', mutable_⟩ := collModForOptions_some sent
      have same : m.wanted = want := Option.some.inj (mAsks.symm.trans (is.2 ▸ asks))
      obtain rfl : sentWant = want := Option.some.inj (asks'.symm.trans asks)
      rw [is.2, same] at uncovered
      rw [uncovered, Bool.false_or]
      cases option <;> first
        | exact absurd mutable_ Bool.false_ne_true
        | simp only [on, modified, sent]
  | none =>
      have covered : covers (on live.options option) want = true := by
        refine Decidable.byContradiction fun uncovered => ?_
        let m : OptionMismatch := ⟨option, want, on live.options option, option.mutable⟩
        have mem : m ∈ diffCollectionOptions wanted live.options :=
          mem_diffCollectionOptions.mpr ⟨asks, Bool.not_eq_true _ ▸ uncovered, rfl, rfl⟩
        exact Bool.false_ne_true ((collModForOptions_none sent mem rfl).symm.trans (can m mem))
      have same : on (modified server live
          (collModForOptions (diffCollectionOptions wanted live.options))).options option =
          on live.options option := by
        cases option <;> simp only [on, modified, sent]
      rw [same, covered, Bool.true_or]

/-- A created collection has each option asked for as it is read back once written. -/
theorem covers_created {option : CollectionOption} {want : Json}
    (asks : option.of definition.options = some want) :
    covers (on (createdFor server definition).options option) want =
      covers (server.readOption option want) want := by
  cases option with
  | capped =>
      have is : want = jsonBool true := by
        cases capped : definition.options.capped with
        | none => simp [CollectionOption.of, capped] at asks
        | some c => simpa [CollectionOption.of, capped, eq_comm] using asks
      subst is
      simp only [on, createdFor, asks]
      split
      next is => rw [is]
      next differ =>
        rw [covers_none]
        exact (decide_eq_false differ).symm
  | _ => simp only [on, createdFor, asks]

/-- The options a sync leaves: those it found, each covered as before or as it was written. -/
theorem applyOptions_found {report : OptionsReport} (there : world.collection = some live)
    (done : applyOptions server definition false (some live) world = some (report, world')) :
    ∃ options, world'.collection = some { live with options } ∧
      options .collation = live.options .collation ∧
      ∀ option want, option.of definition.options = some want → covers (on options option) want =
        (covers (on live.options option) want || covers (server.readOption option want) want) := by
  let mismatches := diffCollectionOptions definition.options live.options
  have unsent : collModForOptions mismatches .collation = none := by
    cases sent : collModForOptions mismatches .collation with
    | none => rfl
    | some want => exact absurd (collModForOptions_some sent).2 Bool.false_ne_true
  unfold applyOptions at done
  simp only [Bool.not_false, Bool.and_true, Bool.false_eq_true, if_false] at done
  split at done
  · cases done
  next fixed =>
    rw [Bool.not_eq_true', Bool.not_eq_false, List.isEmpty_iff, List.filter_eq_nil_iff] at fixed
    have can : ∀ m ∈ mismatches, m.mutable = true := fun m mem => by simpa using fixed m mem
    split at done
    · obtain ⟨next, sent, is⟩ := Option.map_eq_some_iff.mp done
      cases is
      refine ⟨_, ?_, ?_, fun option want asks => @covers_modified server _ _ can _ _ asks⟩
      · rw [send_some sent, there]
        rfl
      · simp only [modified]
        rw [unsent]
    next none_ =>
      cases done
      rw [Bool.not_eq_true', Bool.not_eq_false, List.isEmpty_iff, List.map_eq_nil_iff,
        List.filter_eq_nil_iff] at none_
      have agree : mismatches = [] :=
        List.eq_nil_iff_forall_not_mem.mpr fun m mem => none_ m mem (can m mem)
      refine ⟨live.options, there, rfl, fun option want asks => ?_⟩
      rw [diffCollectionOptions_eq_nil.mp agree option want asks, Bool.true_or]

theorem applyOptions_created {report : OptionsReport}
    (done : applyOptions server definition false none world = some (report, world')) :
    world' = world := by
  cases done
  rfl

theorem validationMatches_validator {validator : List Field} {level : ValidationLevel}
    {action : ValidationAction} (set : validator ≠ []) :
    validationMatches ⟨some validator, level, action⟩ ⟨some validator, some level, some action⟩ =
      true := by
  have nonempty : validator.isEmpty = false := List.isEmpty_eq_false_iff.mpr set
  simp [validationMatches, hasValidator, nonempty]

theorem validationMatches_none {level : ValidationLevel} {action : ValidationAction}
    (live : LiveValidation) :
    validationMatches ⟨none, level, action⟩ { live with validator := none } = true := rfl

theorem validationMatches_created (server : Server) (definition : Definition) :
    validationMatches (validationFor definition) (createdFor server definition).validation =
      true := by
  unfold createdFor validationFor
  by_cases off : definition.level = .off
  · simp only [off, if_true]
    exact validationMatches_none {}
  · simp only [off, if_false]
    exact validationMatches_validator (List.cons_ne_nil _ _)

theorem validationMatches_validated (definition : Definition) (live : Live) :
    validationMatches (validationFor definition)
      (validated (validationFor definition) live).validation = true := by
  unfold validated validationFor
  by_cases off : definition.level = .off
  · simp only [off, if_true]
    exact validationMatches_none live.validation
  · simp only [off, if_false]
    exact validationMatches_validator (List.cons_ne_nil _ _)

/-- A sync leaves a validation that matches. -/
theorem applyValidation_found {found : Live} {outcome : Option ValidatorOutcome}
    (there : world.collection = some live) (same : live.validation = found.validation)
    (done : applyValidation server (validationFor definition) false (some found) world =
      some (outcome, world')) :
    ∃ validation, world'.collection = some { live with validation } ∧
      validationMatches (validationFor definition) validation = true := by
  simp only [applyValidation, Bool.false_eq_true, if_false] at done
  split at done
  next agrees =>
    cases done
    exact ⟨live.validation, there, same ▸ agrees⟩
  · obtain ⟨next, sent, is⟩ := Option.map_eq_some_iff.mp done
    cases is
    refine ⟨_, ?_, validationMatches_validated definition live⟩
    rw [send_some sent, there]
    rfl

/-- The indexes a sync leaves: those it built, and of the others those it did not drop. -/
theorem applyIndexes_some {dropUnknown created : Bool} {report : IndexesReport}
    (there : world.collection = some live)
    (done : applyIndexes server definition ⟨false, dropUnknown⟩ created world =
      some (report, world')) :
    ∃ indexes, world'.collection = some { live with indexes } ∧
      ∀ name, byName indexes name =
        match toBuild definition.indexes live.indexes name with
        | some b => some (readBack server.toIndexServer (live.options .collation) b)
        | none =>
            if dropUnknown ∧ name ∈ (diffIndexes definition.indexes live.indexes).extra then none
            else byName live.indexes name := by
  simp only [applyIndexes, Bool.false_and, Bool.false_eq_true, if_false] at done
  obtain ⟨next, built, is⟩ := Option.map_eq_some_iff.mp done
  cases is
  obtain ⟨between, dropped, built⟩ := Option.bind_eq_some_iff.mp built
  obtain ⟨kept, there', named⟩ := dropIndexes_some there dropped
  obtain ⟨indexes, after, found⟩ := createIndexes_some there' built
  have existing : liveIndexes world = live.indexes := by rw [liveIndexes, there]
  refine ⟨indexes, after, fun name => ?_⟩
  rw [found, named, existing, byName_build]
  cases build : toBuild definition.indexes live.indexes name with
  | some b =>
      have gone : (if name ∈ (diffIndexes definition.indexes live.indexes).recreate.map
          Index.nameOf ++ (if dropUnknown = true then
            (diffIndexes definition.indexes live.indexes).extra else []) then none
          else byName live.indexes name) = none := by
        rw [ite_eq_left_iff, List.mem_append, not_or]
        exact fun unlisted => (toBuild_some build).2.2.resolve_right unlisted.1
      rw [gone]
      rfl
  | none =>
      have kept := not_recreated build
      simp only [Option.map_none, Option.or_none, List.mem_append, kept, false_or]
      cases dropUnknown <;> simp

end Phases

namespace SyncReport

/-- A report of nothing done: every index asked for is as it was. -/
structure Unchanged (report : SyncReport) (definition : Definition) : Prop where
  created : report.created = false
  validator : report.validator = .unchanged
  options : report.options = {}
  indexes : report.indexes = ⟨[], [], [], definition.indexes.map Index.nameOf⟩

end SyncReport

section Sync
variable (server : Server) (definition : Definition)

/-- What the indexes asked for are compared with: those found, or those of a new collection. -/
def existingIndexes (found : Option Live) : List Index :=
  match found with
  | some live => live.indexes
  | none => server.initial definition.options

/-- The default collation of the collection found, or of the one created. -/
def defaultCollation (found : Option Live) : Option Json :=
  match found with
  | some live => live.options .collation
  | none => (createdFor server definition).options .collation

/-- When a sync that found this collection, or none, leaves the next one nothing to do: every
option it wrote is read back as a value that covers what was asked, and every index it built is
stable, and as each other asked for under its name. -/
structure Settles (found : Option Live) : Prop where
  options : ∀ (option : CollectionOption) (want : Json),
    option.of definition.options = some want →
      covers (found.bind fun live => on live.options option) want = true ∨
        covers (server.readOption option want) want = true
  indexes : ∀ w ∈ definition.indexes, ∀ b,
    toBuild definition.indexes (existingIndexes server definition found) w.nameOf = some b →
      indexMatches w b ∧ Stable server.toIndexServer (defaultCollation server definition found) b

variable {server definition} {dropUnknown : Bool} {after : Live}

/-- What a sync leaves. -/
structure Leaves (server : Server) (definition : Definition) (dropUnknown : Bool)
    (found : Option Live) (after : Live) : Prop where
  options : ∀ (option : CollectionOption) (want : Json),
    option.of definition.options = some want → covers (on after.options option) want =
      (covers (found.bind fun live => on live.options option) want ||
        covers (server.readOption option want) want)
  validation : validationMatches (validationFor definition) after.validation = true
  indexes : ∀ name, byName after.indexes name =
    match toBuild definition.indexes (existingIndexes server definition found) name with
    | some b =>
        some (readBack server.toIndexServer (defaultCollation server definition found) b)
    | none =>
        if dropUnknown ∧ name ∈
            (diffIndexes definition.indexes (existingIndexes server definition found)).extra
        then none else byName (existingIndexes server definition found) name

theorem createCollection_some {rival live : Option Live} {world : World}
    (done : createCollection server definition rival ⟨none, []⟩ = some (live, world)) :
    live = rival ∧ world.collection = some (rival.getD (createdFor server definition)) := by
  cases rival with
  | some theirs =>
      cases done
      exact ⟨rfl, rfl⟩
  | none =>
      obtain ⟨next, -, is⟩ := Option.map_eq_some_iff.mp done
      cases is
      exact ⟨rfl, rfl⟩

theorem leaves {rival start : Option Live} {report : SyncReport} {world : World}
    (run : syncCollection server definition ⟨false, dropUnknown⟩ rival start =
      some (report, world)) :
    ∃ after, world.collection = some after ∧
      Leaves server definition dropUnknown (start.or rival) after := by
  simp only [syncCollection, Option.bind_eq_bind, Option.bind_eq_some_iff, Prod.exists] at run
  obtain ⟨live, world₁, first, optionsReport, world₂, options, outcome, world₃, validation,
    indexReport, world₄, indexes, is⟩ := run
  cases is
  have found : live = start.or rival ∧
      world₁.collection = some (live.getD (createdFor server definition)) := by
    cases start with
    | some live =>
        cases first
        exact ⟨rfl, rfl⟩
    | none =>
        obtain ⟨rfl, collection⟩ := createCollection_some first
        exact ⟨rfl, collection⟩
  obtain ⟨is, there⟩ := found
  rw [← is]
  cases live with
  | some live =>
      obtain ⟨o, there, default_, covered⟩ := applyOptions_found there options
      obtain ⟨v, there, validated⟩ := applyValidation_found there rfl validation
      obtain ⟨i, there, named⟩ := applyIndexes_some there indexes
      refine ⟨_, there, covered, validated, fun name => ?_⟩
      rw [show defaultCollation server definition (some live) = o .collation from default_.symm]
      exact named name
  | none =>
      rw [applyOptions_created options] at validation
      cases validation
      obtain ⟨i, there, named⟩ := applyIndexes_some there indexes
      refine ⟨_, there, fun option want asks => ?_, validationMatches_created server definition,
        named⟩
      rw [Option.bind_none, covers_none, Bool.false_or]
      exact covers_created asks

theorem agree_of_unchanged {live : Live} {world world' : World} {report : OptionsReport}
    (done : applyOptions server definition false (some live) world = some (report, world'))
    (none_ : report = {}) : diffCollectionOptions definition.options live.options = [] := by
  subst none_
  simp only [applyOptions, Bool.not_false, Bool.and_true, Bool.false_eq_true, if_false] at done
  split at done
  · cases done
  next fixed =>
    rw [Bool.not_eq_true', Bool.not_eq_false, List.isEmpty_iff, List.filter_eq_nil_iff] at fixed
    have changed : ((diffCollectionOptions definition.options live.options).filter
        (·.mutable)).map (·.option) = [] := by
      split at done
      · obtain ⟨next, -, is⟩ := Option.map_eq_some_iff.mp done
        exact congrArg (·.1.changed) is
      · exact congrArg (·.1.changed) (Option.some.inj done)
    rw [List.map_eq_nil_iff, List.filter_eq_nil_iff] at changed
    exact List.eq_nil_iff_forall_not_mem.mpr fun m mem =>
      changed m mem (by simpa using fixed m mem)

/-- Nothing is to be created or built again exactly when every index matches the live one. -/
theorem diff_nil_iff {wanted live : List Index} :
    (diffIndexes wanted live).create = [] ∧ (diffIndexes wanted live).recreate = [] ↔
      ∀ w ∈ wanted, ∃ l, byName live w.nameOf = some l ∧ indexMatches w l := by
  rw [diffIndexes, List.map_eq_nil_iff, List.map_eq_nil_iff, List.filter_eq_nil_iff,
    List.filter_eq_nil_iff, ← forall₂_and]
  refine forall₂_congr fun w _ => ?_
  cases byName live w.nameOf <;> simp

theorem diff_unchanged {wanted live : List Index}
    (all : ∀ w ∈ wanted, ∃ l, byName live w.nameOf = some l ∧ indexMatches w l) :
    (diffIndexes wanted live).unchanged = wanted.map Index.nameOf := by
  refine congrArg _ (List.filter_eq_self.mpr fun w mem => ?_)
  obtain ⟨l, there, same⟩ := all w mem
  rw [there, Option.any_some, decide_eq_true same]

/-- A sync finds nothing to do exactly if the options, the validation and the indexes agree. -/
theorem unchanged_iff {rival : Option Live} :
    (∃ again, syncCollection server definition ⟨false, dropUnknown⟩ rival (some after) =
        some (again, ⟨some after, []⟩) ∧ again.Unchanged definition) ↔
      diffCollectionOptions definition.options after.options = [] ∧
      validationMatches (validationFor definition) after.validation = true ∧
      (∀ w ∈ definition.indexes, ∃ l, byName after.indexes w.nameOf = some l ∧
        indexMatches w l) ∧
      (dropUnknown = true → (diffIndexes definition.indexes after.indexes).extra = []) := by
  constructor
  · rintro ⟨again, run, nothing⟩
    simp only [syncCollection, Option.bind_eq_bind, Option.bind_eq_some_iff, Prod.exists] at run
    obtain ⟨live, world₁, first, optionsReport, world₂, options, outcome, world₃, validation,
      indexReport, world₄, indexes, is⟩ := run
    cases is
    cases first
    have agree := agree_of_unchanged options nothing.options
    have same : world₂ = ⟨some after, []⟩ := by
      simp only [applyOptions, agree] at options
      exact ((Prod.mk.inj (Option.some.inj options)).2).symm
    subst same
    have valid : validationMatches (validationFor definition) after.validation = true := by
      have outcome_ := nothing.validator
      simp only [applyValidation, Bool.false_eq_true, if_false] at validation
      split at validation
      next valid => exact valid
      · obtain ⟨next, -, is⟩ := Option.map_eq_some_iff.mp validation
        cases is
        simp only [Option.getD_some] at outcome_
        split at outcome_
        · cases outcome_
        · split at outcome_ <;> cases outcome_
    rw [applyValidation, if_pos valid] at validation
    cases validation
    simp only [applyIndexes, Bool.false_and, Bool.false_eq_true, if_false, liveIndexes]
      at indexes
    obtain ⟨next, -, is⟩ := Option.map_eq_some_iff.mp indexes
    have report := nothing.indexes
    rw [show indexReport = _ from (Prod.mk.inj is).1.symm, IndexesReport.mk.injEq,
      List.map_eq_nil_iff, List.map_eq_nil_iff] at report
    refine ⟨agree, valid, diff_nil_iff.mp ⟨report.1, report.2.1⟩, fun drop => ?_⟩
    simpa [drop] using report.2.2.1
  · rintro ⟨agree, valid, matched, none_⟩
    obtain ⟨create, recreate⟩ := diff_nil_iff.mpr matched
    refine ⟨⟨false, .unchanged, {}, ⟨[], [], [], definition.indexes.map Index.nameOf⟩, false⟩,
      ?_, rfl, rfl, rfl, rfl⟩
    have extra : (if dropUnknown = true then (diffIndexes definition.indexes
        after.indexes).extra else []) = [] := by
      split
      next drop => exact none_ drop
      · rfl
    have indexes : applyIndexes server definition ⟨false, dropUnknown⟩ false ⟨some after, []⟩ =
        some (⟨[], [], [], definition.indexes.map Index.nameOf⟩, ⟨some after, []⟩) := by
      simp only [applyIndexes, Bool.false_and, Bool.false_eq_true, if_false, liveIndexes, create,
        recreate, diff_unchanged matched, extra, List.map_nil, List.append_nil]
      rfl
    have options : applyOptions server definition false (some after) ⟨some after, []⟩ =
        some ({}, ⟨some after, []⟩) := by
      simp only [applyOptions, agree]
      rfl
    have validation : applyValidation server (validationFor definition) false (some after)
        ⟨some after, []⟩ = some (none, ⟨some after, []⟩) := by
      rw [applyValidation, if_pos valid]
    have first : findOrCreate server definition false rival (some after) =
        some (some after, ⟨some after, []⟩) := rfl
    simp only [syncCollection, Option.bind_eq_bind, first, Option.bind_some, options, validation,
      Option.isNone_some, indexes]
    rfl

/-- Syncing again changes nothing and reports so exactly if the first sync settled. -/
theorem sync_again {rival start : Option Live} {report : SyncReport} {world : World}
    (run : syncCollection server definition ⟨false, dropUnknown⟩ rival start =
      some (report, world)) (rival' : Option Live) :
    (∃ again, syncCollection server definition ⟨false, dropUnknown⟩ rival' world.collection =
        some (again, ⟨world.collection, []⟩) ∧ again.Unchanged definition) ↔
      Settles server definition (start.or rival) := by
  obtain ⟨after, is, left⟩ := leaves run
  rw [is, unchanged_iff, diffCollectionOptions_eq_nil]
  constructor
  · rintro ⟨options, -, matched, -⟩
    refine ⟨fun option want asks => ?_, fun w mem b build => ?_⟩
    · have covered := options option want asks
      rwa [left.options option want asks, Bool.or_eq_true] at covered
    · have own {w : Index} (mem : w ∈ definition.indexes) (named : w.nameOf = b.nameOf) :
          indexMatches w (readBack server.toIndexServer
            (defaultCollation server definition (start.or rival)) b) := by
        obtain ⟨l, there, same⟩ := matched w mem
        rw [left.indexes, named, (toBuild_some build).2.1, build] at there
        exact Option.some.inj there ▸ same
      have itself := own (toBuild_some build).1 rfl
      have other := own mem (toBuild_some build).2.1.symm
      exact ⟨⟨other.1.trans itself.1.symm, other.2.trans itself.2.symm⟩,
        indexMatches_readBack.mp itself⟩
  · intro settles
    refine ⟨fun option want asks => ?_, left.validation, fun w mem => ?_, fun drop => ?_⟩
    · rw [left.options option want asks, Bool.or_eq_true]
      exact settles.options option want asks
    · rw [left.indexes]
      cases build : toBuild definition.indexes
          (existingIndexes server definition (start.or rival)) w.nameOf with
      | some b =>
          obtain ⟨other, stable⟩ := settles.indexes w mem b build
          have itself := indexMatches_readBack.mpr stable
          exact ⟨_, rfl, other.1.trans itself.1, other.2.trans itself.2⟩
      | none =>
          obtain ⟨l, there, same⟩ := toBuild_none build mem rfl
          have wanted : w.nameOf ∉ (diffIndexes definition.indexes
              (existingIndexes server definition (start.or rival))).extra :=
            fun extra => (mem_extra.mp extra).2.2 (List.mem_map_of_mem mem)
          exact ⟨l, by rw [← there]; exact if_neg fun both => wanted both.2, same⟩
    · refine List.eq_nil_iff_forall_not_mem.mpr fun name extra => ?_
      obtain ⟨there, other, unnamed⟩ := mem_extra.mp extra
      rw [left.indexes] at there
      split at there
      next b build =>
        obtain ⟨mem, is, -⟩ := toBuild_some build
        exact unnamed (is ▸ List.mem_map_of_mem mem)
      · split at there
        · exact Bool.false_ne_true there
        next kept => exact kept ⟨drop, mem_extra.mpr ⟨there, other, unnamed⟩⟩

end Sync

/-- A server that keeps what it is given, and knows the defaults of a few options. -/
def mongod : Server where
  default_ name := if OPTION_DEFAULTS.contains name then some (jsonBool false) else none
  collationVersion := jsonText "57.1"
  sphereVersion := jsonNumber "3"
  textVersion := jsonNumber "3"
  language := jsonText "english"
  override_ := jsonText "language"
  readOption _ want := some want
  fill _ _ := none
  initial _ := [{ key := [("_id".toList, .bson "1")], name := some idIndex }]
  identical a b := decide (indexMatches a b)
  refuses _ _ := false

def users : Definition where
  options := {}
  level := .strict
  action := .error
  jsonSchema := [("bsonType".toList, jsonText "object")]
  indexes := [{ key := [("email".toList, .bson "1")]
                options := [("unique".toList, jsonBool true), ("sparse".toList, jsonBool false)] }]

/-- The collection once it was synced. -/
def syncedUsers : Live :=
  { createdFor mongod users with
    indexes := mongod.initial {} ++ users.indexes.map (readBack mongod.toIndexServer none) }

theorem sync_again_users :
    (∃ again, syncCollection mongod users {} none (some syncedUsers) =
        some (again, ⟨some syncedUsers, []⟩) ∧ again.Unchanged users) ↔
      Settles mongod users none :=
  @sync_again _ _ _ none none _ ⟨some syncedUsers,
    [.createCollection, .createIndexes ["email_1".toList]]⟩ rfl none

/-- A text index. -/
def articles : Definition :=
  { users with indexes := [{ key := [("title".toList, .string "text".toList)] }] }

/-- An index that names no collation, in a collection that has one. -/
def names : Definition where
  options := { collation := some (.document [(locale, jsonText "fr")]) }
  level := .off
  action := .error
  jsonSchema := []
  indexes := [{ key := [("name".toList, .bson "1")] }]

/-- What the second of two syncs in a row says of the indexes. -/
def secondReport (definition : Definition) : Option IndexesReport := do
  let (_, world) ← syncCollection mongod definition {} none none
  let (again, _) ← syncCollection mongod definition {} none world.collection
  return again.indexes

theorem sync_rebuilds :
    secondReport articles = some ⟨[], ["title_text".toList], [], []⟩ ∧
      secondReport names = some ⟨[], ["name_1".toList], [], []⟩ := by
  decide +kernel

end NxgtData.MongoSync
