import NxgtData.Queue.Frames

/-!
`SYNC` makes the stored definition schedules the listed ones. Its sweep reads the
set `schedulesDefinition`, so the set has to name exactly the schedules whose
hash says `definition`, over every history of the scripts that write schedules.
An `Entry` is what is stored about one schedule, and every script changes the
entries one by one.
-/
namespace NxgtData.Queue
open Decimal

variable {m : GroupArgs} {q q' : Keys} {id x : String}

/-- The hash `write` stores for a schedule. -/
def ScheduleArgs.hash (s : ScheduleArgs) (origin : String) : ScheduleHash where
  kind := some s.kind
  spec := some s.spec
  data := some s.data
  origin := some origin
  timezone := if s.kind = "cron" then some s.timezone else none

/-- What is stored about one schedule: its hash, its score and whether the
definition set names it. -/
structure Entry where
  hash : Option ScheduleHash
  score : Option Nat
  owned : Bool

def Keys.entry (q : Keys) (id : String) : Entry :=
  ⟨q.schedule id, q.schedules.score id, (q.schedulesDefinition.score id).isSome⟩

namespace Entry

/-- The stored fields, empty when there are none. -/
def fields (e : Entry) : ScheduleHash := e.hash.getD {}

/-- The definition set names the schedule exactly when its origin is
`definition`, and its hash has a timezone exactly when it is a cron's. -/
structure Sound (e : Entry) : Prop where
  owned : e.fields.origin = some "definition" ↔ e.owned = true
  zoned : e.fields.kind = some "cron" ↔ e.fields.timezone.isSome

/-- Whether the listed schedule is stored as it is, with a score. -/
def same (s : ScheduleArgs) (e : Entry) : Bool :=
  e.fields.kind = some s.kind && e.fields.spec = some s.spec
    && e.fields.timezone.getD "" = (if s.kind = "cron" then s.timezone else "") && e.score.isSome

/-- The entry of a listed schedule after `SYNC`. -/
def listed (s : ScheduleArgs) (e : Entry) : Entry :=
  ⟨some (s.hash "definition"), if e.same s then e.score else some s.next, true⟩

/-- The entry of a schedule that the sweep finds unlisted. -/
def swept (e : Entry) : Entry :=
  if e.fields.origin = some "definition" then ⟨none, none, false⟩ else { e with owned := false }

theorem hash_zoned (s : ScheduleArgs) (origin : String) :
    (s.hash origin).kind = some "cron" ↔ (s.hash origin).timezone.isSome := by
  by_cases cron : s.kind = "cron" <;> simp [ScheduleArgs.hash, cron]

theorem Sound.listed (s : ScheduleArgs) (e : Entry) : (e.listed s).Sound :=
  ⟨by simp [Entry.listed, fields, ScheduleArgs.hash], hash_zoned s "definition"⟩

theorem Sound.swept {e : Entry} (h : e.Sound) : e.swept.Sound := by
  unfold Entry.swept
  split
  next => exact ⟨by simp [fields], by simp [fields]⟩
  next runtime => exact ⟨by simpa [fields] using runtime, h.zoned⟩

/-- A timezone is stored for a cron alone, so the texts agree only when the
stored fields do. -/
theorem Sound.same_iff {e : Entry} (h : e.Sound) (s : ScheduleArgs) :
    e.same s = true ↔ (e.fields.kind = some s.kind ∧ e.fields.spec = some s.spec ∧
      e.fields.timezone = (s.hash "definition").timezone) ∧ e.score.isSome := by
  simp only [same, Bool.and_eq_true, decide_eq_true_eq, and_assoc, and_congr_right_iff]
  intro kind _
  have zoned := h.zoned
  rw [kind] at zoned
  by_cases cron : s.kind = "cron"
  · obtain ⟨zone, stored⟩ := Option.isSome_iff_exists.mp (zoned.mp (by rw [cron]))
    simp [ScheduleArgs.hash, cron, stored]
  · have none : e.fields.timezone = none := by
      rw [← Option.not_isSome_iff_eq_none, ← zoned]
      simpa using cron
    simp [ScheduleArgs.hash, cron, none]

end Entry

/-! What the scripts do to each entry. -/

theorem entry_of_timetable (same : q'.timetable = q.timetable) : q'.entry id = q.entry id := by
  simp only [Keys.timetable, Prod.mk.injEq] at same
  simp only [Keys.entry, same]

theorem upsert_entry (s : ScheduleArgs) :
    (upsert s q).2.entry x = q.entry x ∨
      (q.entry x).fields.origin ≠ some "definition" ∧
        (upsert s q).2.entry x = ⟨some (s.hash "runtime"), some s.next, (q.entry x).owned⟩ := by
  unfold upsert
  split
  next => exact Or.inl rfl
  next free =>
    by_cases own : x = s.id
    · subst own
      refine Or.inr ⟨free, ?_⟩
      simp [Keys.entry, Keys.writeSchedule, ScheduleArgs.hash, SortedSet.score_add]
    · refine Or.inl ?_
      simp [Keys.entry, Keys.writeSchedule, SortedSet.score_add, own]

theorem unschedule_entry (id : String) :
    (unschedule id q).2.entry x = q.entry x ∨
      (q.entry x).fields.origin ≠ some "definition" ∧
        (unschedule id q).2.entry x = ⟨none, none, (q.entry x).owned⟩ := by
  unfold unschedule
  split
  next => exact Or.inl rfl
  next free =>
    by_cases own : x = id
    · subst own
      refine Or.inr ⟨free, ?_⟩
      simp [Keys.entry, SortedSet.score_rem]
    · refine Or.inl ?_
      simp [Keys.entry, SortedSet.score_rem, own]

theorem syncOne_entry (s : ScheduleArgs) :
    (syncOne q s).entry x = if x = s.id then (q.entry x).listed s else q.entry x := by
  have kept : Keys.sameSchedule s
      { q with schedulesDefinition := q.schedulesDefinition.add () s.id } = (q.entry s.id).same s := rfl
  unfold syncOne
  dsimp only
  rw [kept]
  by_cases own : x = s.id
  · subst own
    rw [if_pos rfl]
    unfold Entry.listed
    split <;> simp [Keys.entry, Keys.writeSchedule, ScheduleArgs.hash, SortedSet.score_add]
  · rw [if_neg own]
    split <;> simp [Keys.entry, Keys.writeSchedule, SortedSet.score_add, own]

theorem sweepOne_entry (names : List String) (st : Nat × Keys) :
    (sweepOne names st id).2.entry x =
      if x = id ∧ id ∉ names then (st.2.entry x).swept else st.2.entry x := by
  unfold sweepOne
  split
  next listed => simp [listed]
  next unlisted =>
    by_cases own : x = id
    · subst own
      rw [if_pos ⟨rfl, unlisted⟩]
      dsimp only
      unfold Entry.swept
      have origin : (Keys.scheduleHash { st.2 with
          schedulesDefinition := st.2.schedulesDefinition.rem x } x).origin =
          (st.2.entry x).fields.origin := rfl
      rw [origin]
      split <;> simp [Keys.entry, SortedSet.score_rem]
    · rw [if_neg fun h => own h.1]
      dsimp only
      split <;> simp [Keys.entry, SortedSet.score_rem, own]

/-- The listed schedule under an id, if any. -/
def listedAs (list : List ScheduleArgs) (id : String) : Option ScheduleArgs :=
  list.find? fun s => s.id = id

theorem listedAs_eq_none {list : List ScheduleArgs} :
    listedAs list id = none ↔ id ∉ list.map ScheduleArgs.id := by
  simp [listedAs]

theorem listedAs_eq_some {list : List ScheduleArgs} (distinct : (list.map ScheduleArgs.id).Nodup)
    {s : ScheduleArgs} : listedAs list id = some s ↔ s ∈ list ∧ s.id = id := by
  constructor
  · intro found
    exact ⟨List.mem_of_find?_eq_some found, by simpa using List.find?_some found⟩
  · rintro ⟨mem, rfl⟩
    cases found : listedAs list s.id with
    | none => exact absurd (List.mem_map_of_mem mem) (listedAs_eq_none.mp found)
    | some s' =>
        have named : s'.id = s.id := by simpa using List.find?_some found
        exact congrArg some (List.inj_on_of_nodup_map distinct
          (List.mem_of_find?_eq_some found) mem named)

theorem syncs_entry {list : List ScheduleArgs} (distinct : (list.map ScheduleArgs.id).Nodup) :
    (list.foldl syncOne q).entry x =
      ((listedAs list x).map fun s => (q.entry x).listed s).getD (q.entry x) := by
  induction list generalizing q with
  | nil => rfl
  | cons s list ih =>
      obtain ⟨fresh, rest⟩ := List.nodup_cons.mp distinct
      rw [List.foldl_cons, ih rest, syncOne_entry]
      by_cases own : x = s.id
      · subst own
        rw [listedAs_eq_none.mpr fresh]
        simp [listedAs]
      · have skip : listedAs (s :: list) x = listedAs list x := by
          simp [listedAs, Ne.symm own]
        rw [skip, if_neg own]

theorem sweeps_entry {names ids : List String} (distinct : ids.Nodup) (st : Nat × Keys) :
    (ids.foldl (sweepOne names) st).2.entry x =
      if x ∈ ids ∧ x ∉ names then (st.2.entry x).swept else st.2.entry x := by
  induction ids generalizing st with
  | nil => simp
  | cons id ids ih =>
      obtain ⟨fresh, rest⟩ := List.nodup_cons.mp distinct
      rw [List.foldl_cons, ih rest, sweepOne_entry]
      by_cases own : x = id
      · subst own
        simp [fresh]
      · simp [own]

/-- What a `SYNC` that answers makes of every schedule. -/
theorem sync_entry {list : List ScheduleArgs} (distinct : (list.map ScheduleArgs.id).Nodup)
    {n : Nat × Nat} (answers : (sync list q).1 = .ok n) :
    (sync list q).2.entry x =
      match listedAs list x with
      | some s => (q.entry x).listed s
      | none => if (q.entry x).owned then (q.entry x).swept else q.entry x := by
  unfold sync at answers ⊢
  split at answers
  next => cases answers
  next few =>
    split at answers
    next => cases answers
    next =>
      rw [if_neg few, if_neg (by assumption)]
      dsimp only
      rw [sweeps_entry (SortedSet.nodup_members _)]
      have listed := syncs_entry (q := q) (x := x) distinct
      have owned : x ∈ (list.foldl syncOne q).schedulesDefinition.members ↔
          ((list.foldl syncOne q).entry x).owned = true := SortedSet.score_isSome.symm
      simp only [owned, listed]
      cases found : listedAs list x with
      | none =>
          rw [listedAs_eq_none] at found
          simp [found]
      | some s =>
          obtain ⟨mem, rfl⟩ := (listedAs_eq_some distinct).mp found
          simp [List.mem_map_of_mem mem]

theorem sync_error {list : List ScheduleArgs} {text : String}
    (refused : (sync list q).1 = .error text) : (sync list q).2 = q := by
  unfold sync at refused ⊢
  split
  next => rfl
  next few =>
    rw [if_neg few] at refused
    split
    next => rfl
    next fits =>
      rw [if_neg fits] at refused
      cases refused

/-- The invariant of the stored schedules. -/
def Owned (q : Keys) : Prop := ∀ id, (q.entry id).Sound

theorem Owned.empty : Owned .empty := fun _ => ⟨by simp [Entry.fields, Keys.entry, Keys.empty],
  by simp [Entry.fields, Keys.entry, Keys.empty]⟩

theorem Owned.syncOne (h : Owned q) (s : ScheduleArgs) : Owned (syncOne q s) := by
  intro id
  rw [syncOne_entry]
  split
  next => exact .listed s _
  next => exact h id

theorem Owned.sweepOne {names : List String} {st : Nat × Keys} (h : Owned st.2) :
    Owned (sweepOne names st id).2 := by
  intro x
  rw [sweepOne_entry]
  split
  next => exact (h x).swept
  next => exact h x

theorem Owned.sync (h : Owned q) (list : List ScheduleArgs) : Owned (sync list q).2 := by
  have listed : ∀ (list : List ScheduleArgs) (q : Keys), Owned q → Owned (list.foldl Queue.syncOne q) := by
    intro list
    induction list with
    | nil => exact fun _ h => h
    | cons s list ih => exact fun q h => ih _ (h.syncOne s)
  have swept : ∀ (ids names : List String) (st : Nat × Keys), Owned st.2 →
      Owned (ids.foldl (Queue.sweepOne names) st).2 := by
    intro ids names
    induction ids with
    | nil => exact fun _ h => h
    | cons id ids ih => exact fun st h => ih _ h.sweepOne
  unfold Queue.sync
  split
  next => exact h
  next =>
    split
    next => exact h
    next => exact swept _ _ _ (listed list q h)

/-- A runtime schedule stays one, whatever its fields. -/
theorem Owned.upsert (h : Owned q) (s : ScheduleArgs) : Owned (upsert s q).2 := by
  intro x
  rcases upsert_entry (q := q) (x := x) s with same | ⟨runtime, written⟩
  · rw [same]
    exact h x
  · rw [written]
    refine ⟨?_, Entry.hash_zoned s "runtime"⟩
    simpa [Entry.fields, ScheduleArgs.hash] using runtime ∘ (h x).owned.mpr

theorem Owned.unschedule (h : Owned q) (id : String) : Owned (unschedule id q).2 := by
  intro x
  rcases unschedule_entry (q := q) (x := x) id with same | ⟨runtime, written⟩
  · rw [same]
    exact h x
  · rw [written]
    refine ⟨?_, by simp [Entry.fields]⟩
    simpa [Entry.fields] using runtime ∘ (h x).owned.mpr

/-- A score alone is no part of the invariant. -/
theorem Owned.rescored (h : Owned q) (schedule : q'.schedule = q.schedule)
    (owned : q'.schedulesDefinition = q.schedulesDefinition) : Owned q' := by
  intro x
  have sound := h x
  simp only [Keys.entry] at sound ⊢
  rw [schedule, owned]
  exact ⟨sound.owned, sound.zoned⟩

theorem Owned.fire {now due next attempts : Nat} {timeout : Int} (h : Owned q) :
    Owned (fire m now id due next attempts timeout q).2 := by
  unfold Queue.fire
  split
  next => exact h
  next =>
    split
    next => exact h
    next =>
      split
      next => exact h
      next =>
        dsimp only
        split
        next => exact h
        next =>
          have kept := addJob_keeps (m := m) (q := q) unworking_timetable now q.paused
            (occurrenceJob id due attempts timeout ((q.scheduleHash id).data.getD ""))
          simp only [Keys.timetable, Prod.mk.injEq] at kept
          exact h.rescored kept.2.1 kept.2.2

theorem Owned.defer {due untl : Nat} (h : Owned q) : Owned (defer id due untl q).2 := by
  unfold Queue.defer
  split
  next => exact h
  next =>
    split
    next => exact h
    next =>
      split
      next => exact h
      next => exact h.rescored rfl rfl

theorem Owned.exec (h : Owned q) (us : Nat) (c : Call) : Owned (exec m us c q).2 := by
  cases c with
  | fire id due next attempts timeout =>
      simp only [Queue.exec, guarded]
      split
      next => exact h
      next q' marker =>
        have kept := marked_keeps unworking_timetable marker
        simp only [Keys.timetable, Prod.mk.injEq] at kept
        exact (h.rescored kept.2.1 kept.2.2).fire
  | defer => exact h.defer
  | upsert s => exact h.upsert s
  | unschedule id => exact h.unschedule id
  | sync list => exact h.sync list
  | _ =>
      intro id
      rw [entry_of_timetable (exec_timetable rfl)]
      exact h id

theorem run_owned (calls : List Timed) : Owned (run m calls) :=
  after_invariant _ (fun c q h => Owned.exec (q := q) h c.1 c.2) calls Owned.empty

/-! A second `SYNC` of the same list finds every listed schedule as it writes it. -/

theorem Entry.same_listed (s : ScheduleArgs) (e : Entry) : (e.listed s).same s = true := by
  have stored : ∀ score : Option Nat, score.isSome →
      Entry.same s ⟨some (s.hash "definition"), score, true⟩ = true := by
    intro score scored
    by_cases cron : s.kind = "cron" <;> simp [Entry.same, Entry.fields, ScheduleArgs.hash, cron, scored]
  refine stored _ ?_
  split
  next same =>
    simp only [Entry.same, Bool.and_eq_true] at same
    exact same.2
  next => rfl

theorem syncOne_fixed {s : ScheduleArgs} {e : Entry} (stored : q.entry s.id = e.listed s) :
    syncOne q s = q := by
  have same : (q.entry s.id).same s = true := by
    rw [stored]
    exact Entry.same_listed s e
  have hash : q.schedule s.id = some (s.hash "definition") := congrArg Entry.hash stored
  have owned : q.schedulesDefinition.score s.id = some () := by
    have isSome : (q.schedulesDefinition.score s.id).isSome = true := congrArg Entry.owned stored
    obtain ⟨_, score⟩ := Option.isSome_iff_exists.mp isSome
    exact score
  have written : Function.update q.schedule s.id (some (s.hash "definition")) = q.schedule := by
    rw [← hash, Function.update_eq_self]
  have kept : Keys.sameSchedule s { q with schedulesDefinition := q.schedulesDefinition } = true :=
    same
  unfold syncOne
  dsimp only
  rw [SortedSet.add_of_score owned, if_pos kept]
  change { q with schedule := Function.update q.schedule s.id (some (s.hash "definition")) } = q
  rw [written]

theorem sync_repeated {list : List ScheduleArgs} (distinct : (list.map ScheduleArgs.id).Nodup)
    {n : Nat × Nat} (answers : (sync list q).1 = .ok n) :
    sync list (sync list q).2 = (.ok (list.length, 0), (sync list q).2) := by
  have few : ¬ list.length > 1000 := by
    intro many
    simp [sync, many] at answers
  have entry := fun x => sync_entry (x := x) distinct answers
  generalize (sync list q).2 = q' at entry
  have fixed : ∀ s ∈ list, syncOne q' s = q' := by
    intro s mem
    refine syncOne_fixed (e := q.entry s.id) ?_
    rw [entry, (listedAs_eq_some distinct).mpr ⟨mem, rfl⟩]
  have synced : list.foldl syncOne q' = q' := by
    clear entry answers few distinct
    induction list with
    | nil => rfl
    | cons s list ih =>
        rw [List.foldl_cons, fixed s List.mem_cons_self]
        exact ih fun s later => fixed s (List.mem_cons_of_mem _ later)
  have names : ∀ x ∈ q'.schedulesDefinition.members, x ∈ list.map ScheduleArgs.id := by
    intro x mem
    have owned : (q'.entry x).owned = true := SortedSet.score_isSome.mpr mem
    cases found : listedAs list x with
    | none =>
        rw [entry, found] at owned
        dsimp only at owned
        split at owned
        next =>
          unfold Entry.swept at owned
          split at owned <;> cases owned
        next idle => exact absurd owned idle
    | some s =>
        obtain ⟨listed, rfl⟩ := (listedAs_eq_some distinct).mp found
        exact List.mem_map_of_mem listed
  have swept : ∀ (ids : List String), (∀ x ∈ ids, x ∈ list.map ScheduleArgs.id) →
      ∀ st : Nat × Keys, ids.foldl (sweepOne (list.map ScheduleArgs.id)) st = st := by
    intro ids
    induction ids with
    | nil => exact fun _ _ => rfl
    | cons id ids ih =>
        intro known st
        have listed := known id List.mem_cons_self
        rw [List.foldl_cons, sweepOne, if_pos listed]
        exact ih (fun x later => known x (List.mem_cons_of_mem _ later)) st
  have fits : ¬ q'.schedulesDefinition.card > 2000 := by
    have short := (List.subperm_of_subset (SortedSet.nodup_members _) names).length_le
    simp only [SortedSet.members, List.length_map] at short
    unfold SortedSet.card
    omega
  unfold sync
  rw [if_neg few, if_neg fits]
  dsimp only
  rw [synced, swept _ names]

/-- `SYNC` from any state that the scripts reach: the definition schedules become
exactly the listed ones, a listed one keeps its score while its timing is the one
stored, runtime ones that are not listed stay as they are, and a second `SYNC` of
the list changes nothing; nor does one that answers an error. -/
theorem run_sync (m : GroupArgs) (calls : List Timed) (list : List ScheduleArgs)
    (distinct : (list.map ScheduleArgs.id).Nodup) :
    let q := run m calls
    let r := sync list q
    (∀ text, r.1 = .error text → r.2 = q) ∧
    ∀ n, r.1 = .ok n →
      (∀ id f, r.2.schedule id = some f ∧ f.origin = some "definition" ↔
        ∃ s ∈ list, s.id = id ∧ f = s.hash "definition") ∧
      (∀ id, id ∈ r.2.schedulesDefinition ↔ ∃ s ∈ list, s.id = id) ∧
      (∀ s ∈ list,
        let f := q.scheduleHash s.id
        let same := f.kind = some s.kind ∧ f.spec = some s.spec ∧
          f.timezone = if s.kind = "cron" then some s.timezone else none
        (same ∧ s.id ∈ q.schedules → r.2.schedules.score s.id = q.schedules.score s.id) ∧
        (¬ (same ∧ s.id ∈ q.schedules) → r.2.schedules.score s.id = some s.next) ∧
        s.id ∈ r.2.schedules) ∧
      (∀ id, (∀ s ∈ list, s.id ≠ id) → (q.scheduleHash id).origin = some "runtime" →
        r.2.schedule id = q.schedule id ∧ r.2.schedules.score id = q.schedules.score id) ∧
      (sync list r.2).2 = r.2 := by
  intro q r
  refine ⟨fun text refused => sync_error refused, fun n answers => ?_⟩
  have sound : Owned q := run_owned calls
  have entry := fun x => sync_entry (x := x) distinct answers
  have listed : ∀ s ∈ list, r.2.entry s.id = (q.entry s.id).listed s := by
    intro s mem
    rw [entry, (listedAs_eq_some distinct).mpr ⟨mem, rfl⟩]
  have unlisted : ∀ {id}, listedAs list id = none →
      (r.2.entry id).fields.origin ≠ some "definition" ∧ (r.2.entry id).owned = false := by
    intro id found
    have after : (r.2.entry id).Sound := sound.sync list id
    have idle : (r.2.entry id).owned = false := by
      rw [entry, found]
      dsimp only
      split
      next =>
        unfold Entry.swept
        split <;> rfl
      next idle => simpa using idle
    exact ⟨fun origin => by simpa [idle] using after.owned.mp origin, idle⟩
  refine ⟨fun id f => ⟨?_, ?_⟩, fun id => ⟨?_, ?_⟩, ?_, ?_, ?_⟩
  · rintro ⟨stored, origin⟩
    cases found : listedAs list id with
    | none =>
        refine absurd ?_ (unlisted found).1
        rw [Entry.fields, show (r.2.entry id).hash = some f from stored]
        exact origin
    | some s =>
        obtain ⟨mem, rfl⟩ := (listedAs_eq_some distinct).mp found
        have hash : r.2.schedule s.id = some (s.hash "definition") := congrArg Entry.hash (listed s mem)
        rw [stored] at hash
        exact ⟨s, mem, rfl, Option.some.inj hash⟩
  · rintro ⟨s, mem, rfl, rfl⟩
    exact ⟨congrArg Entry.hash (listed s mem), rfl⟩
  · intro mem
    have owned : (r.2.entry id).owned = true := SortedSet.score_isSome.mpr mem
    cases found : listedAs list id with
    | none => simp [(unlisted found).2] at owned
    | some s => exact ⟨s, (listedAs_eq_some distinct).mp found⟩
  · rintro ⟨s, mem, rfl⟩
    exact SortedSet.score_isSome.mp (congrArg Entry.owned (listed s mem))
  · intro s mem f same
    have score : r.2.schedules.score s.id = if (q.entry s.id).same s then q.schedules.score s.id
        else some s.next := congrArg Entry.score (listed s mem)
    have kept : (q.entry s.id).same s = true ↔ same ∧ s.id ∈ q.schedules := by
      rw [(sound s.id).same_iff s, ← SortedSet.score_isSome]
      rfl
    refine ⟨fun stored => ?_, fun other => ?_, ?_⟩
    · rw [score, if_pos (kept.mpr stored)]
    · rw [score, if_neg fun stored => other (kept.mp stored)]
    · rw [← SortedSet.score_isSome, score]
      split
      next stored => exact SortedSet.score_isSome.mpr (kept.mp stored).2
      next => rfl
  · intro id other runtime
    have found : listedAs list id = none := by
      rw [listedAs_eq_none, List.mem_map]
      rintro ⟨s, mem, named⟩
      exact other s mem named
    have free : (q.entry id).owned = false := by
      rw [Bool.eq_false_iff]
      intro owned
      have origin : (q.scheduleHash id).origin = some "definition" := (sound id).owned.mpr owned
      rw [runtime] at origin
      simp at origin
    have same : r.2.entry id = q.entry id := by
      rw [entry, found]
      simp [free]
    exact ⟨congrArg Entry.hash same, congrArg Entry.score same⟩
  · rw [show sync list r.2 = _ from sync_repeated distinct answers]

/-- A runtime schedule, and a definition's. -/
def nightly : ScheduleArgs := ⟨"nightly", "cron", "0 3 * * *", "UTC", "null", 9000⟩

def hourly : ScheduleArgs := ⟨"hourly", "every", "3600000", "", "null", 5000⟩

theorem run_sync_nightly :
    (sync [nightly] (run ⟨false, 0⟩ [(0, .upsert hourly)])).2.schedules.score "hourly" =
      some 5000 := by
  have synced := (run_sync ⟨false, 0⟩ [(0, .upsert hourly)] [nightly] (by decide)).2 (1, 0)
    (by decide)
  exact (synced.2.2.2.1 "hourly" (by decide) (by decide)).2.trans (by decide)

end NxgtData.Queue
