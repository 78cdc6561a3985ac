import Mathlib.Data.List.Nodup
import Mathlib.Data.List.TakeDrop

/-!
What a list of migrations and the records of a database say has to be applied or
undone. Nothing here touches the database: the records were read before.
-/
namespace NxgtData.Migrations

variable {α : Type}

structure Migration (α : Type) where
  id : α
  /-- Whether it has a `down`. -/
  down : Bool
deriving DecidableEq

inductive PlanError (α : Type) where
  | listedTwice (id : α)
  | missing (id : α)
  | gap (id : α)
  | notInList (option : String) (id : α)
  | noDown (id : α)
deriving DecidableEq

inductive MigrationState where
  | applied | pending | missing
deriving DecidableEq

/-- `migrations.slice(start, end)`. -/
def slice (migrations : List (Migration α)) (start stop : Nat) : List (Migration α) :=
  (migrations.take stop).drop start

theorem slice_sublist (migrations : List (Migration α)) (start stop : Nat) :
    (slice migrations start stop).Sublist migrations :=
  (List.drop_sublist _ _).trans (List.take_sublist _ _)

variable [DecidableEq α]

/-- Refuses a list that names one id twice, by the first one it meets again. -/
def checkList (migrations : List (Migration α)) : Except (PlanError α) Unit :=
  go [] migrations
where
  go (seen : List α) : List (Migration α) → Except (PlanError α) Unit
    | [] => .ok ()
    | m :: rest => if m.id ∈ seen then .error (.listedTwice m.id) else go (m.id :: seen) rest

/-- Every listed migration and every recorded one, in the list's order. -/
def statusOf (migrations : List (Migration α)) (records : List α) : List (α × MigrationState) :=
  migrations.map (fun m => (m.id, if m.id ∈ records then .applied else .pending)) ++
    (records.filter (· ∉ migrations.map (·.id))).map fun id => (id, .missing)

/-- What the list says has been applied must be a prefix of it. -/
def checkApplied (migrations : List (Migration α)) (records : List α) :
    Except (PlanError α) Nat :=
  let status := statusOf migrations records
  match status.find? (·.2 = .missing) with
  | some s => .error (.missing s.1)
  | none =>
      let applied := (status.filter (·.2 = .applied)).length
      match (status.take applied).find? (·.2 = .pending) with
      | some s => .error (.gap s.1)
      | none => .ok applied

def indexOf (migrations : List (Migration α)) (id : α) (option : String) :
    Except (PlanError α) Nat :=
  match migrations.findIdx? (·.id = id) with
  | some index => .ok index
  | none => .error (.notInList option id)

/-- The place behind `to`, or the one to take without it. -/
def placeAfter (migrations : List (Migration α)) (to_ : Option α) (option : String)
    (without : Nat) : Except (PlanError α) Nat :=
  match to_ with
  | none => .ok without
  | some id => (· + 1) <$> indexOf migrations id option

/-- The migrations `migrate` runs: the pending ones, up to `to`. -/
def toApply (migrations : List (Migration α)) (records : List α) (to_ : Option α) :
    Except (PlanError α) (List (Migration α)) := do
  let applied ← checkApplied migrations records
  let stop ← placeAfter migrations to_ "migrate" migrations.length
  .ok (slice migrations applied (max applied stop))

/-- The migrations `rollback` undoes, the last applied first. -/
def toRevert (migrations : List (Migration α)) (records : List α) (to_ : Option α) :
    Except (PlanError α) (List (Migration α)) := do
  let applied ← checkApplied migrations records
  let start ← placeAfter migrations to_ "rollback" (applied - 1)
  let reverted := (slice migrations start (max start applied)).reverse
  match reverted.find? (!·.down) with
  | some m => .error (.noDown m.id)
  | none => .ok reverted

theorem checkList_go {seen : List α} {migrations : List (Migration α)} :
    checkList.go seen migrations = .ok () ↔
      (migrations.map (·.id)).Nodup ∧ ∀ m ∈ migrations, m.id ∉ seen := by
  induction migrations generalizing seen with
  | nil => simp [checkList.go]
  | cons m rest ih =>
      rw [checkList.go, List.map_cons, List.nodup_cons]
      split
      next twice => exact iff_of_false nofun fun h => h.2 m List.mem_cons_self twice
      next fresh =>
        rw [ih]
        constructor
        · rintro ⟨nodup, apart⟩
          refine ⟨⟨fun mem => ?_, nodup⟩, List.forall_mem_cons.mpr ⟨fresh, fun m' mem seen_ => ?_⟩⟩
          · obtain ⟨m', there, same⟩ := List.mem_map.mp mem
            exact apart m' there (same ▸ List.mem_cons_self)
          · exact apart m' mem (List.mem_cons_of_mem _ seen_)
        · rintro ⟨⟨other, nodup⟩, apart⟩
          refine ⟨nodup, fun m' mem old => ?_⟩
          rcases List.mem_cons.mp old with same | old
          · exact other (same ▸ List.mem_map_of_mem mem)
          · exact apart m' (List.mem_cons_of_mem _ mem) old

/-- A list is accepted exactly when no id is in it twice. -/
theorem checkList_ok {migrations : List (Migration α)} :
    checkList migrations = .ok () ↔ (migrations.map (·.id)).Nodup := by
  rw [checkList, checkList_go]
  exact and_iff_left fun _ _ => List.not_mem_nil

section
variable {migrations plan : List (Migration α)} {records : List α} {to_ : Option α}

theorem toApply_eq_ok : toApply migrations records to_ = .ok plan ↔
    ∃ applied stop, checkApplied migrations records = .ok applied ∧
      placeAfter migrations to_ "migrate" migrations.length = .ok stop ∧
      plan = slice migrations applied (max applied stop) := by
  unfold toApply
  cases checkApplied migrations records with
  | error e => simp [bind, Except.bind]
  | ok applied =>
      cases placeAfter migrations to_ "migrate" migrations.length with
      | error e => simp [bind, Except.bind]
      | ok stop => simp [bind, Except.bind, eq_comm]

theorem toRevert_eq_ok : toRevert migrations records to_ = .ok plan ↔
    ∃ applied start, checkApplied migrations records = .ok applied ∧
      placeAfter migrations to_ "rollback" (applied - 1) = .ok start ∧
      plan = (slice migrations start (max start applied)).reverse ∧ ∀ m ∈ plan, m.down := by
  unfold toRevert
  cases checkApplied migrations records with
  | error e => simp [bind, Except.bind]
  | ok applied =>
      cases start : placeAfter migrations to_ "rollback" (applied - 1) with
      | error e => simp [bind, Except.bind, start]
      | ok start =>
          simp only [bind, Except.bind, Except.ok.injEq, exists_and_left, exists_eq_left', start]
          split
          next m found =>
            have bad := List.find?_some found
            have mem := List.mem_of_find?_eq_some found
            constructor
            · nofun
            · rintro ⟨rfl, good⟩
              simp [good m mem] at bad
          next none =>
            simp only [List.find?_eq_none, Bool.not_eq_true, Bool.not_eq_false'] at none
            constructor
            · intro eq
              cases eq
              exact ⟨rfl, none⟩
            · rintro ⟨rfl, _⟩
              rfl

theorem toApply_subset (h : toApply migrations records to_ = .ok plan) : plan ⊆ migrations := by
  obtain ⟨applied, stop, _, _, rfl⟩ := toApply_eq_ok.mp h
  exact (slice_sublist migrations applied (max applied stop)).subset

theorem toRevert_subset (h : toRevert migrations records to_ = .ok plan) : plan ⊆ migrations := by
  obtain ⟨applied, start, _, _, rfl, _⟩ := toRevert_eq_ok.mp h
  intro m mem
  exact (slice_sublist migrations start (max start applied)).subset (List.mem_reverse.mp mem)

end
end NxgtData.Migrations
