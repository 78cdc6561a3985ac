import NxgtData.Backup.Create

/-!
A run of `create` as its files are put: whoever has not failed took all of them, each under a
lease that was held, and a repository that failed is left alone.
-/
namespace NxgtData.Backup
open Program

variable {ctx : Context} {run : Run} {files : List (String × File)}

theorem mem_noted (failed : AList fun _ : String => Failure) (event : Event) (name : String) :
    name ∈ noted failed event ↔ name ∈ failed ∨ event.repository = name ∧ event.error.isSome := by
  unfold noted
  split
  next error eq => simp [eq, AList.mem_insert, or_comm, eq_comm]
  next eq => simp [eq]

theorem mem_noted_all (events : List Event) (failed : AList fun _ : String => Failure)
    (name : String) : name ∈ events.foldl noted failed ↔
      name ∈ failed ∨ ∃ e ∈ events, e.repository = name ∧ e.error.isSome := by
  induction events generalizing failed with
  | nil => simp
  | cons event events ih =>
      rw [List.foldl_cons, ih, mem_noted]
      simp only [List.mem_cons, exists_eq_or_imp, or_assoc]

theorem Run.mem_left {r : Repository} :
    r ∈ run.left ctx ↔ r ∈ ctx.repositories ∧ r.name ∉ run.failed := by
  simp [Run.left]

/-- Two repositories of one name are one. -/
theorem Context.same_name (ctx : Context) {r r' : Repository} (mem : r ∈ ctx.repositories)
    (mem' : r' ∈ ctx.repositories) (same : r.name = r'.name) : r = r' :=
  List.inj_on_of_nodup_map ctx.distinct mem mem' same

/-- What holds of a run in which these files were put, under these keys. -/
structure Going (ctx : Context) (files : List (String × File)) (run : Run) : Prop where
  failed : ∀ name, name ∈ run.failed ↔ ∃ e ∈ run.log, e.repository = name ∧ e.error.isSome
  known : ∀ e ∈ run.log, e.repository ∈ ctx.repositories.map Repository.name
  held : ∀ r ∈ ctx.repositories, ∀ n key file error,
    .put r.name n key file error ∈ run.log → r.held n
  quiet : run.log.Pairwise fun e e' => e.error.isSome → e'.isPut → e'.repository ≠ e.repository
  took : ∀ r ∈ ctx.repositories, r.name ∉ run.failed → ∀ f ∈ files,
    ∃ n, .put r.name n f.1 f.2 none ∈ run.log
  among : ∀ name n key file error, .put name n key file error ∈ run.log → (key, file) ∈ files

theorem Going.start (ctx : Context) : Going ctx [] Run.start where
  failed := by simp [Run.start]
  known := by simp [Run.start]
  held := by simp [Run.start]
  quiet := List.Pairwise.nil
  took := by simp
  among := by simp [Run.start]

/-- What happened at once, once in each of some repositories still in the run. -/
structure Fresh (ctx : Context) (run : Run) (events : List Event) : Prop where
  apart : (events.map Event.repository).Nodup
  left : ∀ e ∈ events, ∃ r ∈ run.left ctx, r.name = e.repository
  held : ∀ r ∈ ctx.repositories, ∀ n key file error,
    .put r.name n key file error ∈ events → r.held n

theorem Going.record {events : List Event} (h : Going ctx files run)
    (more : List (String × File)) (fresh : Fresh ctx run events)
    (took : ∀ r ∈ run.left ctx, (∀ e ∈ events, e.repository = r.name → e.error = none) →
      ∀ f ∈ more, ∃ n, .put r.name n f.1 f.2 none ∈ events)
    (among : ∀ name n key file error, .put name n key file error ∈ events → (key, file) ∈ more) :
    Going ctx (files ++ more) (run.record events) := by
  have failed : ∀ name, name ∈ (run.record events).failed ↔
      ∃ e ∈ run.log ++ events, e.repository = name ∧ e.error.isSome := by
    intro name
    rw [Run.record, mem_noted_all, h.failed]
    simp only [List.mem_append, or_and_right, exists_or]
  refine ⟨failed, ?_, ?_, ?_, ?_, ?_⟩
  · intro e mem
    rcases List.mem_append.mp mem with old | new
    · exact h.known e old
    · obtain ⟨r, left, name⟩ := fresh.left e new
      exact List.mem_map.mpr ⟨r, (Run.mem_left.mp left).1, name⟩
  · intro r mem n key file error put
    rcases List.mem_append.mp put with old | new
    · exact h.held r mem n key file error old
    · exact fresh.held r mem n key file error new
  · refine List.pairwise_append.mpr ⟨h.quiet, ?_, ?_⟩
    · refine (List.pairwise_map.mp fresh.apart).imp ?_
      intro e e' apart _ _ same
      exact apart same.symm
    · intro e old e' new fails _ same
      obtain ⟨r, left, name⟩ := fresh.left e' new
      exact (Run.mem_left.mp left).2 ((h.failed r.name).mpr ⟨e, old, by rw [name, same], fails⟩)
  · intro r mem alive f given
    have before : r.name ∉ run.failed := by
      intro gone
      obtain ⟨e, old, fails⟩ := (h.failed _).mp gone
      exact alive ((failed _).mpr ⟨e, List.mem_append_left _ old, fails⟩)
    rcases List.mem_append.mp given with old | new
    · obtain ⟨n, put⟩ := h.took r mem before f old
      exact ⟨n, List.mem_append_left _ put⟩
    · have fine : ∀ e ∈ events, e.repository = r.name → e.error = none := by
        intro e now name
        by_contra fails
        exact alive ((failed _).mpr ⟨e, List.mem_append_right _ now, name,
          Option.isSome_iff_ne_none.mpr fails⟩)
      obtain ⟨n, put⟩ := took r (Run.mem_left.mpr ⟨mem, before⟩) fine f new
      exact ⟨n, List.mem_append_right _ put⟩
  · intro name n key file error put
    rcases List.mem_append.mp put with old | new
    · exact List.mem_append_left _ (h.among name n key file error old)
    · exact List.mem_append_right _ (among name n key file error new)

/-- What else a run counts is not in its invariant. -/
theorem Going.of_log {run' : Run} (h : Going ctx files run) (failed : run'.failed = run.failed)
    (log : run'.log = run.log) : Going ctx files run' := by
  obtain ⟨_, _, _, _⟩ := run'
  cases failed
  cases log
  exact ⟨h.failed, h.known, h.held, h.quiet, h.took, h.among⟩

/-- The names of what happened in some repositories are some of theirs, in their order. -/
theorem repository_filterMap {f : Repository → Option Event}
    (about : ∀ r e, f r = some e → e.repository = r.name) (repositories : List Repository) :
    ((repositories.filterMap f).map Event.repository).Sublist
      (repositories.map Repository.name) := by
  induction repositories with
  | nil => exact List.Sublist.slnil
  | cons r rest ih =>
      cases eq : f r with
      | none =>
          rw [List.filterMap_cons_none eq]
          exact ih.cons _
      | some e =>
          rw [List.filterMap_cons_some eq, List.map_cons, List.map_cons, about r e eq]
          exact ih.cons_cons _

theorem left_sublist (ctx : Context) (run : Run) :
    ((run.left ctx).map Repository.name).Sublist (ctx.repositories.map Repository.name) :=
  List.Sublist.map _ List.filter_sublist

/-- What happened in some repositories still in the run, with no put among it. -/
theorem Fresh.of_filterMap {f : Repository → Option Event} {repositories : List Repository}
    (within : repositories.Sublist (run.left ctx))
    (about : ∀ r e, f r = some e → e.repository = r.name ∧ e.isPut = false) :
    Fresh ctx run (repositories.filterMap f) where
  apart :=
    ((repository_filterMap (fun r e eq => (about r e eq).1) repositories).trans
      ((within.map _).trans (left_sublist ctx run))).nodup ctx.distinct
  left e mem := by
    obtain ⟨r, there, eq⟩ := List.mem_filterMap.mp mem
    exact ⟨r, within.subset there, (about r e eq).1.symm⟩
  held r _ n key file error put := by
    obtain ⟨r', _, eq⟩ := List.mem_filterMap.mp put
    cases (about r' _ eq).2

/-- A repository that is left out, and not by a put. -/
theorem Going.leave {f : Repository → Option Event} {repositories : List Repository}
    (h : Going ctx files run) (within : repositories.Sublist (run.left ctx))
    (about : ∀ r e, f r = some e → e.repository = r.name ∧ e.isPut = false) :
    Going ctx files (run.record (repositories.filterMap f)) := by
  have next := Going.record h [] (Fresh.of_filterMap within about) (by simp) (by
    intro name n key file error put
    obtain ⟨r', _, eq⟩ := List.mem_filterMap.mp put
    cases (about r' _ eq).2)
  rwa [List.append_nil] at next

section Putting
variable {key : String} {file : File}

theorem putOne_repository (r : Repository) : (putOne ctx run key file r).repository = r.name := by
  unfold putOne
  split <;> rfl

/-- A put that was begun, and where. -/
theorem putOne_put {r : Repository} {name n key' file' error}
    (eq : putOne ctx run key file r = .put name n key' file' error) :
    name = r.name ∧ key' = key ∧ file' = file ∧ r.held n ∧ r.put n = error := by
  unfold putOne at eq
  split at eq
  next held =>
    cases eq
    exact ⟨rfl, rfl, rfl, held.2, rfl⟩
  next => cases eq

theorem putOne_fresh (ctx : Context) (run : Run) (key : String) (file : File) :
    Fresh ctx run ((run.left ctx).map (putOne ctx run key file)) where
  apart := by
    have names : ((run.left ctx).map (putOne ctx run key file)).map Event.repository =
        (run.left ctx).map Repository.name := by
      rw [List.map_map]
      exact List.map_congr_left fun r _ => putOne_repository r
    rw [names]
    exact (left_sublist ctx run).nodup ctx.distinct
  left e mem := by
    obtain ⟨r, left, rfl⟩ := List.mem_map.mp mem
    exact ⟨r, left, (putOne_repository r).symm⟩
  held r mem n key' file' error put := by
    obtain ⟨r', left, eq⟩ := List.mem_map.mp put
    obtain ⟨name, -, -, held, -⟩ := putOne_put eq
    rwa [ctx.same_name mem (Run.mem_left.mp left).1 name]

theorem Going.putAll (h : Going ctx files run) (key : String) (file : File) :
    Going ctx (files ++ [(key, file)])
      { run.record ((run.left ctx).map (putOne ctx run key file)) with puts := run.puts + 1 } := by
  refine Going.of_log (Going.record h [(key, file)] (putOne_fresh ctx run key file)
    ?_ ?_) rfl rfl
  · intro r left fine f mem
    cases List.mem_singleton.mp mem
    have made : putOne ctx run key file r ∈ (run.left ctx).map (putOne ctx run key file) :=
      List.mem_map_of_mem left
    have error := fine _ made (putOne_repository r)
    refine ⟨run.puts, ?_⟩
    unfold putOne at made error
    split at error
    next held =>
      rw [if_pos held] at made
      rwa [show r.put run.puts = none from error] at made
    next => cases error
  · intro name n key' file' error put
    obtain ⟨r, -, eq⟩ := List.mem_map.mp put
    obtain ⟨-, rfl, rfl, -, -⟩ := putOne_put eq
    exact List.mem_singleton.mpr rfl

end Putting

end NxgtData.Backup
