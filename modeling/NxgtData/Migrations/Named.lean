import NxgtData.Migrations.Alternate

/-!
The lock, where it does its work. Each run plans from the records and goes through its plan in
order, so while every commit is made by the run that the lock names, what it commits is next.
-/
namespace NxgtData.Migrations

variable {α : Type} [DecidableEq α] {migrations : List (Migration α)} {records : List α} {k : Nat}

/-- These steps are next on the records, one after the other. -/
def Due (migrations : List (Migration α)) (records : List α) (direction : Direction)
    (todo : List (Migration α)) : Prop :=
  ∃ k, Recorded migrations records k ∧
    match direction with
    | .up => todo <+: migrations.drop k
    | .down => todo.reverse <:+ migrations.take k ∧ ∀ m ∈ todo, m.down

section Plans

theorem mem_of_checkApplied {applied : Nat}
    (ok : checkApplied migrations records = .ok applied) {id : α} (mem : id ∈ records) :
    id ∈ migrations.map (·.id) := by
  by_contra other
  have there : (id, .missing) ∈ statusOf migrations records :=
    List.mem_append_right _ (List.mem_map.mpr ⟨id, List.mem_filter.mpr ⟨mem, by simpa using other⟩,
      rfl⟩)
  unfold checkApplied at ok
  dsimp only at ok
  split at ok
  next => cases ok
  next none => exact absurd (decide_eq_true rfl) (List.find?_eq_none.mp none _ there)

variable (nodup : (migrations.map (·.id)).Nodup) (recorded : Recorded migrations records k)
include nodup recorded

/-- An older list is accepted only if it has all that is recorded. -/
theorem checkApplied_take {listed applied : Nat}
    (ok : checkApplied (migrations.take listed) records = .ok applied) :
    applied = k ∧ k ≤ listed := by
  have le : k ≤ listed := by
    by_contra lt
    have lt : listed < k := Nat.lt_of_not_le lt
    have bound : listed < migrations.length := Nat.lt_of_lt_of_le lt recorded.1
    have at_ : migrations[listed]? = some migrations[listed] := List.getElem?_eq_getElem bound
    have mem := (mem_records_iff nodup recorded at_).mpr lt
    exact absurd ((mem_take_iff nodup at_).mp (mem_of_checkApplied ok mem)) (Nat.lt_irrefl _)
  have own : Recorded (migrations.take listed) records k := by
    refine ⟨?_, ?_⟩
    · rw [List.length_take]
      exact Nat.le_min.mpr ⟨le, recorded.1⟩
    · rw [List.take_take, Nat.min_eq_left le]
      exact recorded.2
  have nodup' : ((migrations.take listed).map (·.id)).Nodup := by
    rw [List.map_take]
    exact nodup.sublist (List.take_sublist _ _)
  refine ⟨?_, le⟩
  rw [checkApplied_recorded nodup' own] at ok
  exact (Except.ok.inj ok).symm

/-- A plan is due when it is made. -/
theorem due_plan {kind : Kind α} {listed : Nat} {plan : List (Migration α)}
    (ok : kind.plan (migrations.take listed) records = .ok plan) :
    Due migrations records kind.direction plan := by
  refine ⟨k, recorded, ?_⟩
  cases kind with
  | migrate to_ =>
      obtain ⟨applied, stop, checked, -, rfl⟩ := toApply_eq_ok.mp ok
      obtain ⟨rfl, -⟩ := checkApplied_take nodup recorded checked
      change slice (migrations.take listed) applied (max applied stop) <+: migrations.drop applied
      rw [slice, List.take_take, List.drop_take]
      exact List.take_prefix _ _
  | rollback to_ =>
      obtain ⟨applied, start, checked, -, rfl, downs⟩ := toRevert_eq_ok.mp ok
      obtain ⟨rfl, le⟩ := checkApplied_take nodup recorded checked
      refine ⟨?_, downs⟩
      rw [List.reverse_reverse, slice, List.take_take]
      by_cases before : start ≤ applied
      · rw [Nat.max_eq_right before, Nat.min_eq_left le]
        exact List.drop_suffix _ _
      · have none : (migrations.take (min (max start applied) listed)).drop start = [] := by
          refine List.drop_eq_nil_of_le ?_
          rw [List.length_take]
          omega
        rw [none]
        exact List.nil_suffix

end Plans

section Due
variable {m : Migration α} {todo : List (Migration α)} {direction : Direction}

theorem Due.next (nodup : (migrations.map (·.id)).Nodup)
    (h : Due migrations records direction (m :: todo)) :
    IsNext migrations records direction m ∧ (direction = .down → m.id ∈ records) := by
  obtain ⟨k, recorded, due⟩ := h
  cases direction with
  | up =>
      obtain ⟨more, eq⟩ := due
      refine ⟨(isNext_up nodup recorded).mpr ?_, nofun⟩
      have first := congrArg List.head? eq
      simpa using first.symm
  | down =>
      obtain ⟨⟨before, eq⟩, downs⟩ := due
      rw [List.reverse_cons, ← List.append_assoc] at eq
      have length := congrArg List.length eq
      have le := recorded.1
      simp only [List.length_append, List.length_singleton, List.length_take] at length
      have pos : 0 < k := by omega
      have at_ : migrations[k - 1]? = some m := by
        have last := congrArg List.getLast? eq
        rw [List.getLast?_concat, List.getLast?_eq_getElem?, List.length_take,
          Nat.min_eq_left le, List.getElem?_take_of_lt (by omega)] at last
        exact last.symm
      refine ⟨(isNext_down nodup recorded).mpr ⟨pos, at_, downs m List.mem_cons_self⟩, fun _ => ?_⟩
      exact (mem_records_iff nodup recorded at_).mpr (by omega)

/-- What is left of a plan is due once its first step is committed. -/
theorem Due.after (nodup : (migrations.map (·.id)).Nodup)
    (h : Due migrations records direction (m :: todo)) {after : List α}
    (ok : bookkeeping direction m.id records records = .committed after) :
    Due migrations after direction todo := by
  have next := h.next nodup
  obtain ⟨k, recorded, due⟩ := h
  cases direction with
  | up =>
      have at_ := (isNext_up nodup recorded).mp next.1
      obtain ⟨-, rfl⟩ := writeRecord_committed (w := { records }) ok
      refine ⟨k + 1, recorded.push at_, ?_⟩
      obtain ⟨more, eq⟩ := due
      refine ⟨more, ?_⟩
      rw [← List.tail_drop, ← eq]
      rfl
  | down =>
      obtain ⟨pos, at_, -⟩ := (isNext_down nodup recorded).mp next.1
      obtain ⟨k, rfl⟩ : ∃ n, k = n + 1 := ⟨k - 1, by omega⟩
      obtain ⟨⟨before, eq⟩, downs⟩ := due
      have le := recorded.1
      rcases removeRecord_committed (w := { records }) ok with ⟨-, -, rfl⟩ | ⟨unseen, -⟩
      · refine ⟨k, recorded.pop nodup at_, ⟨before, ?_⟩, fun m' mem =>
          downs m' (List.mem_cons_of_mem _ mem)⟩
        rw [List.take_succ_eq_append_getElem le, List.reverse_cons, ← List.append_assoc] at eq
        exact (List.append_inj' eq rfl).1
      · exact absurd (next.2 rfl) unseen

end Due

/-- What a run still means to do is due; in a transaction, on the records as it sees them. -/
def Run.Due (migrations : List (Migration α)) (records : List α) (r : Run α) : Prop :=
  match r.phase with
  | .between todo => Migrations.Due migrations records r.kind.direction todo
  | .starting m todo => Migrations.Due migrations records r.kind.direction (m :: todo)
  | .running m todo snapshot =>
      snapshot = records ∧ Migrations.Due migrations records r.kind.direction (m :: todo)
  | .locking | .reading | .finished _ => True

/-- What the run that the lock names still means to do is due. -/
def Holds (migrations : List (Migration α)) (w : World α) : Prop :=
  ∀ lock r, w.lock = some lock → w.runs[lock.holder]? = some r → r.Due migrations w.records

/-- The lock names the run that commits. -/
def Names (w : World α) : Act α → Prop
  | .commit i _ => ∃ expiresAt, w.lock = some ⟨i, expiresAt⟩
  | _ => True

namespace Holds
variable {w : World α} {i : Nat} {r : Run α}

omit [DecidableEq α] in
theorem getElem?_set_of_eq {runs : List (Run α)} {r r' : Run α}
    (at_ : (runs.set i r')[i]? = some r) : r = r' := by
  rw [List.getElem?_set, if_pos rfl] at at_
  split at at_
  next => exact (Option.some.inj at_).symm
  next => cases at_

omit [DecidableEq α] in
/-- A run moves on, and the lock and the records are as they were. -/
theorem set (h : Holds migrations w) {r' : Run α}
    (due : ∀ lock, w.lock = some lock → lock.holder = i → r'.Due migrations w.records) :
    Holds migrations { w with runs := w.runs.set i r' } := by
  intro lock r there at_
  by_cases own : lock.holder = i
  · rw [own] at at_
    exact getElem?_set_of_eq at_ ▸ due lock there own
  · rw [List.getElem?_set_ne (Ne.symm own)] at at_
    exact h lock r there at_

omit [DecidableEq α] in
theorem own (h : Holds migrations w) (at_ : w.runs[i]? = some r) {lock : Lock}
    (there : w.lock = some lock) (own : lock.holder = i) : r.Due migrations w.records :=
  h lock r there (own ▸ at_)

omit [DecidableEq α] in
theorem take (h : Holds migrations w) (i : Nat) (r : Run α) (heard : Bool) :
    Holds migrations (w.take i r heard) := by
  unfold World.take
  split
  next =>
    intro lock r' there at_
    cases there
    rw [getElem?_set_of_eq at_]
    cases heard with
    | true => trivial
    | false => trivial
  next => exact h.set fun _ _ _ => trivial

theorem read (nodup : (migrations.map (·.id)).Nodup) (h : Holds migrations w)
    (initial : ∃ k, Recorded migrations w.records k) (i : Nat) (r : Run α) :
    Holds migrations (w.read migrations i r) := by
  obtain ⟨k, recorded⟩ := initial
  unfold World.read
  split
  next => exact h.set fun _ _ _ => trivial
  next plan ok => exact h.set fun _ _ _ => due_plan nodup recorded ok

omit [DecidableEq α] in
theorem check (h : Holds migrations w) (at_ : w.runs[i]? = some r) :
    Holds migrations (w.check i r) := by
  unfold World.check
  split
  next => exact h.set fun _ _ _ => trivial
  next m todo phase =>
    split
    next => exact h.set fun _ _ _ => trivial
    next =>
      refine h.set fun lock there own => ?_
      have due := h.own at_ there own
      simp only [Run.Due, phase] at due
      exact due
  next => exact h

/-- What is committed under the lock's name leaves the rest of the plan due. -/
theorem commit (nodup : (migrations.map (·.id)).Nodup) (h : Holds migrations w)
    (at_ : w.runs[i]? = some r) {expiresAt : Nat} (named : w.lock = some ⟨i, expiresAt⟩)
    (heard : Bool) : Holds migrations (w.commit i r heard) := by
  unfold World.commit
  split
  next m todo snapshot phase =>
    have due := h.own at_ named rfl
    simp only [Run.Due, phase] at due
    obtain ⟨rfl, due⟩ := due
    split
    next => exact h.set fun _ _ _ => trivial
    next => exact h.set fun _ _ _ => due
    next records ok =>
      intro lock r' there at_'
      obtain rfl : lock = ⟨i, expiresAt⟩ := Option.some.inj (there.symm.trans named)
      rw [getElem?_set_of_eq at_']
      cases heard with
      | true => exact due.after nodup ok
      | false => trivial
  next => exact h

omit [DecidableEq α] in
theorem renew (h : Holds migrations w) (at_ : w.runs[i]? = some r) :
    Holds migrations (w.renew i r) := by
  unfold World.renew
  split
  next lock there =>
    split
    next own =>
      intro lock' r' there' at_'
      cases there'
      obtain rfl : r = r' := Option.some.inj (at_.symm.trans at_')
      exact h.own at_ there own
    next other =>
      refine h.set fun lock' there' own => ?_
      cases there.symm.trans there'
      exact absurd own other
  next none =>
    refine h.set fun lock there _ => ?_
    cases none.symm.trans there

theorem act (nodup : (migrations.map (·.id)).Nodup) (h : Holds migrations w)
    (initial : ∃ k, Recorded migrations w.records k) (at_ : w.runs[i]? = some r) {a : Act α}
    (is : a.run = some i) (named : Names w a) : Holds migrations (w.act migrations i r a) := by
  cases a with
  | start _ _ _ | tick _ => exact h
  | stop _ => exact h.set fun _ _ _ => trivial
  | check _ => exact h.check at_
  | commit j heard =>
      cases is
      obtain ⟨expiresAt, named⟩ := named
      exact h.commit nodup at_ named heard
  | take _ heard =>
      simp only [World.act]
      split
      next => exact h.take i r heard
      next => exact h
  | read _ =>
      simp only [World.act]
      split
      next => exact h.read nodup initial i r
      next => exact h
  | begin_ _ =>
      simp only [World.act]
      split
      next m todo phase =>
        refine h.set fun lock there own => ?_
        have due := h.own at_ there own
        simp only [Run.Due, phase] at due
        exact ⟨rfl, due⟩
      next => exact h
  | abort _ =>
      simp only [World.act]
      split
      next m todo snapshot phase =>
        refine h.set fun lock there own => ?_
        have due := h.own at_ there own
        simp only [Run.Due, phase] at due
        exact due.2
      next => exact h
  | fail _ =>
      simp only [World.act]
      split
      next => exact h.set fun _ _ _ => trivial
      next => exact h
  | renew _ =>
      simp only [World.act]
      split
      next => exact h.renew at_
      next => exact h
  | release _ =>
      simp only [World.act]
      split
      next =>
        intro lock r' there at_'
        exact h lock r' (Option.filter_eq_some_iff.mp there).1 at_'
      next => exact h

theorem step (nodup : (migrations.map (·.id)).Nodup) (h : Holds migrations w)
    (initial : ∃ k, Recorded migrations w.records k) {a : Act α} (named : Names w a) :
    Holds migrations (w.step migrations a) := by
  unfold World.step
  split
  · -- A run that was just started means to do nothing yet.
    intro lock r there at_
    by_cases old : lock.holder < w.runs.length
    · rw [List.getElem?_append_left old] at at_
      exact h lock r there at_
    · rw [List.getElem?_append_right (Nat.le_of_not_lt old)] at at_
      rw [List.mem_singleton.mp (List.mem_of_getElem? at_)]
      trivial
  · exact h
  · split
    next i r found =>
      obtain ⟨is, there⟩ := run_of_found found
      exact h.act nodup initial there is named
    next => exact h

/-- What a run commits while the lock names it is next. -/
theorem current (nodup : (migrations.map (·.id)).Nodup) (h : Holds migrations w) {a : Act α}
    (named : Names w a) : Current migrations w a := by
  cases a with
  | commit i heard =>
      intro r m todo snapshot records at_ phase _
      obtain ⟨expiresAt, named⟩ := named
      have due := h.own at_ named rfl
      simp only [Run.Due, phase] at due
      obtain ⟨rfl, due⟩ := due
      exact due.next nodup
  | start _ _ _ | tick _ | take _ _ | read _ | check _ | begin_ _ | abort _ | fail _ | renew _
  | release _ | stop _ => trivial

end Holds

/-- While each commit is made by the run that the lock names, however long ago that lapsed, what
is committed is next, and so the records stay a prefix and each step takes effect once. -/
theorem run_named (migrations : Listed α) (acts : List (Act α))
    (named : ∀ pre a, pre ++ [a] <+: acts → Names (run migrations.1 pre) a) :
    (∀ pre, pre <+: acts → Kept migrations.1 (run migrations.1 pre)) ∧
      ∀ pre a, pre ++ [a] <+: acts → Current migrations.1 (run migrations.1 pre) a := by
  have both : ∀ pre, pre <+: acts → Kept migrations.1 (run migrations.1 pre) ∧
      Holds migrations.1 (run migrations.1 pre) := by
    intro pre le
    induction pre using List.reverseRecOn with
    | nil => exact ⟨kept_nil, nofun⟩
    | append_singleton pre a ih =>
        obtain ⟨kept, holds⟩ := ih ((List.prefix_append pre [a]).trans le)
        have named := named pre a le
        rw [run_append]
        exact ⟨(kept_step migrations.2 (run_planned pre) kept a).mpr
          (holds.current migrations.2 named), holds.step migrations.2 kept.initial named⟩
  refine ⟨fun pre le => (both pre le).1, fun pre a le => ?_⟩
  exact (both pre ((List.prefix_append pre [a]).trans le)).2.current migrations.2 (named pre a le)

end NxgtData.Migrations
