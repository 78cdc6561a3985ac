import NxgtData.Migrations.Runs

/-!
When the records stay a prefix of the list and each migration's steps alternate. A
committed step keeps both exactly when it is what a plan made from the records as they
are now would begin with, and, for a rollback, its transaction sees the record.
-/
namespace NxgtData.Migrations

variable {α : Type} [DecidableEq α]

/-- What the plan from these records begins with. -/
def IsNext (migrations : List (Migration α)) (records : List α) (direction : Direction)
    (m : Migration α) : Prop :=
  match direction with
  | .up => ∃ rest, toApply migrations records none = .ok (m :: rest)
  | .down => toRevert migrations records none = .ok [m]

/-- The step an act commits is still next; a rollback's transaction sees its record. -/
def Current (migrations : List (Migration α)) (w : World α) : Act α → Prop
  | .commit i _ => ∀ r m todo snapshot records, w.runs[i]? = some r →
      r.phase = .running m todo snapshot →
      bookkeeping r.kind.direction m.id snapshot w.records = .committed records →
      IsNext migrations w.records r.kind.direction m ∧
        (r.kind.direction = .down → m.id ∈ snapshot)
  | _ => True

/-- Steps that alternate, beginning with `up`. -/
def Alternates (steps : List Direction) : Prop :=
  ∀ j (h : j < steps.length), steps[j] = if j % 2 = 0 then .up else .down

def World.stepsOf (w : World α) (id : α) : List Direction :=
  (w.effects.filter (·.1 = id)).map (·.2)

/-- The records are those of the first `k` migrations. -/
def Recorded (migrations : List (Migration α)) (records : List α) (k : Nat) : Prop :=
  k ≤ migrations.length ∧ ∀ id, id ∈ records ↔ id ∈ (migrations.take k).map (·.id)

structure Kept (migrations : List (Migration α)) (w : World α) : Prop where
  initial : ∃ k, Recorded migrations w.records k
  alternate : ∀ id, Alternates (w.stepsOf id)
  recorded : ∀ id, id ∈ w.records ↔ (w.stepsOf id).getLast? = some .up

section Alternates
variable {steps : List Direction} {d : Direction}

theorem alternates_nil : Alternates [] := nofun

theorem alternates_snoc :
    Alternates (steps ++ [d]) ↔
      Alternates steps ∧ d = if steps.length % 2 = 0 then .up else .down := by
  constructor
  · intro h
    constructor
    · intro j lt
      have := h j (by simp; omega)
      rwa [List.getElem_append_left lt] at this
    · have := h steps.length (by simp)
      simpa using this
  · rintro ⟨h, last⟩ j lt
    by_cases old : j < steps.length
    · rw [List.getElem_append_left old]
      exact h j old
    · have : j = steps.length := by simp at lt; omega
      subst this
      simpa using last

/-- The last of alternating steps is `up` when their number is odd. -/
theorem Alternates.getLast? (h : Alternates steps) :
    steps.getLast? = some .up ↔ steps.length % 2 = 1 := by
  induction steps using List.reverseRecOn with
  | nil => simp
  | append_singleton steps d _ =>
      obtain ⟨_, rfl⟩ := alternates_snoc.mp h
      rw [List.getLast?_append, List.length_append]
      by_cases even : steps.length % 2 = 0
      · simp [even]; omega
      · simp [even]; omega

/-- A further step alternates when it undoes what the last one left. -/
theorem Alternates.snoc (h : Alternates steps) :
    Alternates (steps ++ [d]) ↔ (d = .up ↔ steps.getLast? ≠ some .up) := by
  rw [alternates_snoc, ne_eq, h.getLast?]
  constructor
  · rintro ⟨_, rfl⟩
    split
    · simp; omega
    · simp; omega
  · intro up
    refine ⟨h, ?_⟩
    cases d with
    | up =>
        have := up.mp rfl
        rw [if_pos (by omega)]
    | down =>
        by_cases even : steps.length % 2 = 0
        · exact absurd (up.mpr (by omega)) nofun
        · rw [if_neg even]

end Alternates

section Plans
variable {migrations : List (Migration α)} {records : List α} {k : Nat}

omit [DecidableEq α] in
theorem id_inj (nodup : (migrations.map (·.id)).Nodup) {i j : Nat}
    (lt : i < migrations.length) (lt' : j < migrations.length) :
    migrations[i].id = migrations[j].id ↔ i = j := by
  have bound : i < (migrations.map (·.id)).length := by simpa using lt
  have bound' : j < (migrations.map (·.id)).length := by simpa using lt'
  have same : (migrations.map (·.id))[i] = (migrations.map (·.id))[j] ↔ i = j :=
    nodup.getElem_inj_iff
  simpa using same

omit [DecidableEq α] in
/-- The place of an id of the list tells whether it is before another place. -/
theorem mem_take_iff (nodup : (migrations.map (·.id)).Nodup) {i : Nat} {m : Migration α}
    (at_ : migrations[i]? = some m) : m.id ∈ (migrations.take k).map (·.id) ↔ i < k := by
  obtain ⟨lt, rfl⟩ := List.getElem?_eq_some_iff.mp at_
  rw [List.map_take, List.mem_take_iff_getElem]
  constructor
  · rintro ⟨j, bound, eq⟩
    have here : j < migrations.length := by
      simpa using Nat.lt_of_lt_of_le bound (Nat.min_le_right ..)
    have same : j = i := (id_inj nodup here lt).mp (by simpa using eq)
    have := Nat.lt_of_lt_of_le bound (Nat.min_le_left ..)
    omega
  · intro before
    exact ⟨i, by simp; omega, by simp⟩

omit [DecidableEq α] in
theorem mem_records_iff (nodup : (migrations.map (·.id)).Nodup)
    (recorded : Recorded migrations records k) {i : Nat} {m : Migration α}
    (at_ : migrations[i]? = some m) : m.id ∈ records ↔ i < k :=
  (recorded.2 m.id).trans (mem_take_iff nodup at_)

omit [DecidableEq α] in
/-- The last of the first `k` migrations. -/
theorem slice_last (pos : 0 < k) (le : k ≤ migrations.length) :
    slice migrations (k - 1) (max (k - 1) k) = [migrations[k - 1]] := by
  rw [slice, Nat.max_eq_right (Nat.sub_le k 1), List.drop_take,
    List.drop_eq_getElem_cons (show k - 1 < migrations.length by omega),
    show k - (k - 1) = 1 by omega]
  rfl

variable (nodup : (migrations.map (·.id)).Nodup) (recorded : Recorded migrations records k)
include nodup recorded

theorem statusOf_prefix :
    statusOf migrations records =
      (migrations.take k).map (fun m => (m.id, .applied)) ++
        (migrations.drop k).map (fun m => (m.id, .pending)) := by
  have none : records.filter (· ∉ migrations.map (·.id)) = [] := by
    rw [List.filter_eq_nil_iff]
    intro id mem
    obtain ⟨m, first, rfl⟩ := List.mem_map.mp ((recorded.2 id).mp mem)
    simpa using ⟨m, List.mem_of_mem_take first, rfl⟩
  have place : ∀ i m, migrations[i]? = some m → (m.id ∈ records ↔ i < k) :=
    fun i m at_ => mem_records_iff nodup recorded at_
  rw [statusOf, none, List.map_nil, List.append_nil]
  conv_lhs => rw [← List.take_append_drop k migrations]
  rw [List.map_append]
  congr 1
  · refine List.map_congr_left fun m mem => ?_
    rw [if_pos ((recorded.2 m.id).mpr (List.mem_map.mpr ⟨m, mem, rfl⟩))]
  · refine List.map_congr_left fun m mem => ?_
    obtain ⟨j, at_⟩ := List.mem_iff_getElem?.mp mem
    rw [List.getElem?_drop] at at_
    have := place (k + j) m at_
    rw [if_neg fun mem => absurd (this.mp mem) (by omega)]

theorem checkApplied_recorded : checkApplied migrations records = .ok k := by
  have status := statusOf_prefix nodup recorded
  have missing : (statusOf migrations records).find? (·.2 = .missing) = none := by
    rw [status, List.find?_eq_none]
    intro s mem
    cases List.mem_append.mp mem with
    | inl mem | inr mem =>
        obtain ⟨m, _, rfl⟩ := List.mem_map.mp mem
        simp
  have applied : ((statusOf migrations records).filter (·.2 = .applied)).length = k := by
    rw [status, List.filter_append, List.filter_map, List.filter_map]
    simp [Function.comp_def, recorded.1]
  have gap : ((statusOf migrations records).take k).find? (·.2 = .pending) = none := by
    rw [status, List.take_left' (by simp [recorded.1]), List.find?_eq_none]
    intro s mem
    obtain ⟨m, _, rfl⟩ := List.mem_map.mp mem
    simp
  unfold checkApplied
  dsimp only
  rw [missing, applied, gap]

/-- What comes next on a prefix: the first migration not recorded. -/
theorem isNext_up {m : Migration α} :
    IsNext migrations records .up m ↔ migrations[k]? = some m := by
  have le := recorded.1
  have plan : toApply migrations records none = .ok (migrations.drop k) := by
    rw [toApply_eq_ok]
    refine ⟨k, migrations.length, checkApplied_recorded nodup recorded, rfl, ?_⟩
    rw [slice, Nat.max_eq_right le, List.take_length]
  unfold IsNext
  simp only [plan, Except.ok.injEq]
  constructor
  · rintro ⟨rest, eq⟩
    have := congrArg List.head? eq
    simpa using this
  · intro at_
    obtain ⟨lt, rfl⟩ := List.getElem?_eq_some_iff.mp at_
    exact ⟨_, List.drop_eq_getElem_cons lt⟩

/-- What comes next on a prefix, for a rollback: the last migration recorded. -/
theorem isNext_down {m : Migration α} :
    IsNext migrations records .down m ↔
      0 < k ∧ migrations[k - 1]? = some m ∧ m.down := by
  have applied := checkApplied_recorded nodup recorded
  unfold IsNext
  rw [toRevert_eq_ok]
  constructor
  · rintro ⟨applied', start, eq, place, plan, down⟩
    cases applied.symm.trans eq
    cases place
    have := congrArg List.length plan
    have pos : 0 < k := by
      simp [slice] at this
      omega
    refine ⟨pos, ?_, down m List.mem_cons_self⟩
    rw [slice_last pos recorded.1] at plan
    cases plan
    exact List.getElem?_eq_getElem _
  · rintro ⟨pos, at_, down⟩
    obtain ⟨lt, rfl⟩ := List.getElem?_eq_some_iff.mp at_
    refine ⟨k, k - 1, applied, rfl, ?_, ?_⟩
    · rw [slice_last pos recorded.1, List.reverse_singleton]
    · intro m' mem
      rw [List.mem_singleton.mp mem]
      exact down

end Plans

section Commit
variable {migrations : List (Migration α)} {w w' : World α} {m : Migration α}
  {snapshot records : List α} {direction : Direction} {k i : Nat}

omit [DecidableEq α] in
/-- With the next one, the records are those of one migration more. -/
theorem Recorded.push {records : List α} (recorded : Recorded migrations records i)
    (at_ : migrations[i]? = some m) : Recorded migrations (records ++ [m.id]) (i + 1) := by
  obtain ⟨lt, rfl⟩ := List.getElem?_eq_some_iff.mp at_
  refine ⟨lt, fun id => ?_⟩
  rw [List.mem_append, recorded.2 id, List.take_succ_eq_append_getElem lt, List.map_append,
    List.mem_append]
  rfl

/-- Without the last one, they are those of one migration less. -/
theorem Recorded.pop (nodup : (migrations.map (·.id)).Nodup) {records : List α}
    (recorded : Recorded migrations records (i + 1)) (at_ : migrations[i]? = some m) :
    Recorded migrations (records.filter (· ≠ m.id)) i := by
  have le := recorded.1
  refine ⟨by omega, fun id => ?_⟩
  rw [List.mem_filter, recorded.2 id, List.take_succ_eq_append_getElem le, List.map_append,
    List.mem_append]
  have here : migrations[i] = m := by
    obtain ⟨_, eq⟩ := List.getElem?_eq_some_iff.mp at_
    exact eq
  have fresh : m.id ∉ (migrations.take i).map (·.id) := by
    rw [mem_take_iff nodup at_]
    omega
  simp only [here, List.map_cons, List.map_nil, List.mem_singleton, decide_eq_true_eq]
  constructor
  · rintro ⟨inl | inr, ne⟩
    · exact inl
    · exact absurd inr ne
  · intro mem
    refine ⟨.inl mem, ?_⟩
    rintro rfl
    exact fresh mem

omit [DecidableEq α] in
/-- Records that gained one are a prefix only where it is the next one. -/
theorem recorded_append (nodup : (migrations.map (·.id)).Nodup)
    (recorded : Recorded migrations w.records k) (at_ : migrations[i]? = some m)
    (fresh : m.id ∉ w.records) :
    (∃ k', Recorded migrations (w.records ++ [m.id]) k') ↔ i = k := by
  have place := mem_records_iff nodup recorded at_
  have lt := (List.getElem?_eq_some_iff.mp at_).1
  constructor
  · rintro ⟨k', recorded'⟩
    have last := (mem_records_iff nodup recorded' at_).mp (by simp)
    by_contra ne
    have before : k < i := by
      have : ¬ i < k := fun lt => fresh (place.mpr lt)
      omega
    have at_k : migrations[k]? = some migrations[k] := List.getElem?_eq_getElem _
    have mem := (mem_records_iff nodup recorded' at_k).mpr (by omega)
    cases List.mem_append.mp mem with
    | inl old => exact absurd ((mem_records_iff nodup recorded at_k).mp old) (by omega)
    | inr new =>
        obtain ⟨_, rfl⟩ := List.getElem?_eq_some_iff.mp at_
        have same : k = i := (id_inj nodup (Nat.lt_trans before lt) lt).mp (by simpa using new)
        exact ne same.symm
  · rintro rfl
    exact ⟨i + 1, recorded.push at_⟩

/-- Records that lost one are a prefix only where it was the last one. -/
theorem recorded_erase (nodup : (migrations.map (·.id)).Nodup)
    (recorded : Recorded migrations w.records k) (at_ : migrations[i]? = some m)
    (there : m.id ∈ w.records) :
    (∃ k', Recorded migrations (w.records.filter (· ≠ m.id)) k') ↔ i + 1 = k := by
  have before := (mem_records_iff nodup recorded at_).mp there
  have gone : m.id ∉ w.records.filter (· ≠ m.id) := by simp
  have le := recorded.1
  have other : ∀ {j : Nat} (lt : j < migrations.length), migrations[j].id = m.id ↔ j = i := by
    intro j lt
    obtain ⟨lt', rfl⟩ := List.getElem?_eq_some_iff.mp at_
    exact id_inj nodup lt lt'
  constructor
  · rintro ⟨k', recorded'⟩
    have after : k' ≤ i := by
      by_contra lt
      exact gone ((mem_records_iff nodup recorded' at_).mpr (by omega))
    by_contra ne
    have at_last : migrations[k - 1]? = some migrations[k - 1] := List.getElem?_eq_getElem _
    have mem : migrations[k - 1].id ∈ w.records.filter (· ≠ m.id) := by
      rw [List.mem_filter]
      refine ⟨(mem_records_iff nodup recorded at_last).mpr (by omega), ?_⟩
      have := (other (show k - 1 < migrations.length by omega)).not.mpr (by omega)
      simpa using this
    have := (mem_records_iff nodup recorded' at_last).mp mem
    omega
  · rintro rfl
    exact ⟨i, recorded.pop nodup at_⟩

theorem stepsOf_same (effects : w'.effects = w.effects ++ [(m.id, direction)]) :
    w'.stepsOf m.id = w.stepsOf m.id ++ [direction] := by
  simp [World.stepsOf, effects]

theorem stepsOf_other (effects : w'.effects = w.effects ++ [(m.id, direction)]) {id : α}
    (ne : id ≠ m.id) : w'.stepsOf id = w.stepsOf id := by
  simp [World.stepsOf, effects, ne.symm]

/-- One more step of a migration keeps all when it flips its record, at its end of the
prefix. -/
theorem kept_commit_iff (h : Kept migrations w)
    (effects : w'.effects = w.effects ++ [(m.id, direction)])
    (others : ∀ id, id ≠ m.id → (id ∈ w'.records ↔ id ∈ w.records)) :
    Kept migrations w' ↔ (∃ k, Recorded migrations w'.records k) ∧
      (m.id ∈ w.records ↔ direction = .down) ∧ (m.id ∈ w'.records ↔ direction = .up) := by
  have same := stepsOf_same effects
  have last : (w'.stepsOf m.id).getLast? = some direction := by simp [same]
  have flips : Alternates (w'.stepsOf m.id) ↔ (m.id ∈ w.records ↔ direction = .down) := by
    rw [same, (h.alternate m.id).snoc, ne_eq, ← h.recorded m.id]
    cases direction with
    | up => simp
    | down => simp
  constructor
  · intro h'
    refine ⟨h'.initial, flips.mp (h'.alternate m.id), ?_⟩
    rw [h'.recorded m.id, last, Option.some.injEq]
  · rintro ⟨initial, before, after⟩
    refine ⟨initial, fun id => ?_, fun id => ?_⟩
    · by_cases eq : id = m.id
      · rw [eq]
        exact flips.mpr before
      · rw [stepsOf_other effects eq]
        exact h.alternate id
    · by_cases eq : id = m.id
      · rw [eq, after, last, Option.some.injEq]
      · rw [others id eq, stepsOf_other effects eq, h.recorded id]

theorem writeRecord_committed {id : α} (ok : writeRecord id snapshot w.records = .committed records) :
    id ∉ w.records ∧ records = w.records ++ [id] := by
  unfold writeRecord at ok
  split at ok
  · cases ok
  · split at ok
    · cases ok
    next fresh =>
      cases ok
      exact ⟨fresh, rfl⟩

/-- A removal commits having removed the record, or having matched nothing. -/
theorem removeRecord_committed {id : α}
    (ok : removeRecord id snapshot w.records = .committed records) :
    (id ∈ snapshot ∧ id ∈ w.records ∧ records = w.records.filter (· ≠ id)) ∨
      (id ∉ snapshot ∧ records = w.records) := by
  unfold removeRecord at ok
  split at ok
  next unseen =>
    cases ok
    exact .inr ⟨unseen, rfl⟩
  next seen =>
    split at ok
    · cases ok
    next there =>
      cases ok
      exact .inl ⟨not_not.mp seen, not_not.mp there, rfl⟩

/-- A committed step keeps the records a prefix and the steps alternating exactly when it
is next and, for a rollback, its transaction sees the record. -/
theorem kept_commit (nodup : (migrations.map (·.id)).Nodup) (h : Kept migrations w)
    (mem : m ∈ migrations) (down : direction = .down → m.down)
    (ok : bookkeeping direction m.id snapshot w.records = .committed records)
    (written : w'.records = records)
    (effects : w'.effects = w.effects ++ [(m.id, direction)]) :
    Kept migrations w' ↔
      IsNext migrations w.records direction m ∧ (direction = .down → m.id ∈ snapshot) := by
  obtain ⟨k, recorded⟩ := h.initial
  obtain ⟨i, at_⟩ := List.mem_iff_getElem?.mp mem
  have le := recorded.1
  have unique : ∀ j, migrations[j]? = some m ↔ i = j := by
    intro j
    constructor
    · intro at_j
      have bound := (List.getElem?_eq_some_iff.mp at_).1
      exact (List.getElem?_inj bound (List.Nodup.of_map _ nodup)).mp (at_.trans at_j.symm)
    · rintro rfl
      exact at_
  cases direction with
  | up =>
      obtain ⟨fresh, rfl⟩ := writeRecord_committed ok
      have others : ∀ id, id ≠ m.id → (id ∈ w'.records ↔ id ∈ w.records) := by
        intro id ne
        simp [written, ne]
      rw [kept_commit_iff h effects others, written, recorded_append nodup recorded at_ fresh,
        isNext_up nodup recorded, unique]
      simp [fresh]
  | down =>
      have others : ∀ id, id ≠ m.id → (id ∈ w'.records ↔ id ∈ w.records) := by
        intro id ne
        cases removeRecord_committed ok with
        | inl done => simp [written, done.2.2, ne]
        | inr none => rw [written, none.2]
      rw [kept_commit_iff h effects others, written, isNext_down nodup recorded]
      cases removeRecord_committed ok with
      | inl done =>
          obtain ⟨seen, there, rfl⟩ := done
          have before := (mem_records_iff nodup recorded at_).mp there
          rw [recorded_erase nodup recorded at_ there, unique]
          simp [there, seen, down rfl]
          omega
      | inr none =>
          obtain ⟨unseen, rfl⟩ := none
          simp [unseen]

end Commit

end NxgtData.Migrations
