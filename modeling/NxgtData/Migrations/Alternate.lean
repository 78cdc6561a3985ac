import NxgtData.Migrations.Records

/-!
Every interleaving of runs. The records stay a prefix of the list and the steps of each
migration alternate exactly as long as each committed step is still next.
-/
namespace NxgtData.Migrations

variable {α : Type} [DecidableEq α] {migrations : List (Migration α)} {w w' : World α}

/-- What a run goes through is from its plan: of the list, and with a `down` to undo it. -/
def Run.Planned (migrations : List (Migration α)) (r : Run α) : Prop :=
  match r.phase with
  | .between todo => ∀ m ∈ todo, m ∈ migrations ∧ (r.kind.direction = .down → m.down)
  | .starting m todo | .running m todo _ =>
      ∀ m' ∈ m :: todo, m' ∈ migrations ∧ (r.kind.direction = .down → m'.down)
  | .locking | .reading | .finished _ => True

def Planned (migrations : List (Migration α)) (w : World α) : Prop :=
  ∀ r ∈ w.runs, r.Planned migrations

/-- What leaves the records and the steps as they are. -/
structure Quiet (w w' : World α) : Prop where
  records : w'.records = w.records
  effects : w'.effects = w.effects

omit [DecidableEq α] in
theorem quiet_refl : Quiet w w := ⟨rfl, rfl⟩

theorem Kept.quiet (h : Kept migrations w) (quiet : Quiet w w') : Kept migrations w' := by
  have steps : w'.stepsOf = w.stepsOf := by
    funext id
    rw [World.stepsOf, World.stepsOf, quiet.effects]
  refine ⟨?_, ?_, ?_⟩
  · rw [quiet.records]
    exact h.initial
  · rw [steps]
    exact h.alternate
  · rw [steps, quiet.records]
    exact h.recorded

namespace Planned

omit [DecidableEq α] in
theorem set (h : Planned migrations w) (i : Nat) {r : Run α} (planned : r.Planned migrations) :
    Planned migrations { w with runs := w.runs.set i r } := by
  intro r' mem
  cases List.mem_or_eq_of_mem_set mem with
  | inl old => exact h r' old
  | inr new => rw [new]; exact planned

theorem read (h : Planned migrations w) (i : Nat) (r : Run α) :
    Planned migrations (w.read migrations i r) := by
  unfold World.read
  split
  · exact h.set i trivial
  next plan ok =>
    refine h.set i fun m mem => ?_
    unfold Kind.plan at ok
    split at ok
    next to_ kind =>
      refine ⟨List.mem_of_mem_take (toApply_subset ok mem), fun down => ?_⟩
      simp [kind, Kind.direction] at down
    next to_ _ =>
      obtain ⟨_, _, _, _, _, downs⟩ := toRevert_eq_ok.mp ok
      exact ⟨List.mem_of_mem_take (toRevert_subset ok mem), fun _ => downs m mem⟩

omit [DecidableEq α] in
theorem check (h : Planned migrations w) (i : Nat) {r : Run α} (planned : r.Planned migrations) :
    Planned migrations (w.check i r) := by
  unfold World.check
  split
  · exact h.set i trivial
  next m todo phase =>
    split
    · exact h.set i trivial
    · simp only [Run.Planned, phase] at planned
      exact h.set i planned
  · exact h

theorem commit (h : Planned migrations w) (i : Nat) {r : Run α} (planned : r.Planned migrations)
    (heard : Bool) : Planned migrations (w.commit i r heard) := by
  unfold World.commit
  split
  next m todo _ phase =>
    simp only [Run.Planned, phase] at planned
    split
    · exact h.set i trivial
    · exact h.set i planned
    · cases heard with
      | false => exact h.set i trivial
      | true => exact h.set i fun m' mem => planned m' (List.mem_cons_of_mem m mem)
  · exact h

omit [DecidableEq α] in
theorem renew (h : Planned migrations w) (i : Nat) {r : Run α} (planned : r.Planned migrations) :
    Planned migrations (w.renew i r) := by
  unfold World.renew
  split
  · split
    · exact h
    · exact h.set i planned
  · exact h.set i planned

theorem act (h : Planned migrations w) (i : Nat) {r : Run α} (planned : r.Planned migrations)
    (a : Act α) : Planned migrations (w.act migrations i r a) := by
  cases a with
  | start _ _ _ | tick _ => exact h
  | check _ => exact h.check i planned
  | commit _ heard => exact h.commit i planned heard
  | stop _ => exact h.set i trivial
  | read _ =>
      simp only [World.act]
      split
      · exact h.read i r
      · exact h
  | take _ heard =>
      simp only [World.act, World.take]
      split
      · split
        · cases heard with
          | true => exact h.set i trivial
          | false => exact h.set i trivial
        · exact h.set i trivial
      · exact h
  | begin_ _ | abort _ =>
      simp only [World.act]
      split
      next phase =>
        simp only [Run.Planned, phase] at planned
        exact h.set i planned
      · exact h
  | fail _ =>
      simp only [World.act]
      split
      · exact h.set i trivial
      · exact h
  | renew _ =>
      simp only [World.act]
      split
      · exact h.renew i planned
      · exact h
  | release _ =>
      simp only [World.act]
      split
      · exact h
      · exact h

theorem step (h : Planned migrations w) (a : Act α) : Planned migrations (w.step migrations a) := by
  unfold World.step
  split
  · intro r mem
    cases List.mem_append.mp mem with
    | inl old => exact h r old
    | inr new => rw [List.mem_singleton.mp new]; trivial
  · exact h
  · split
    next i r found =>
      obtain ⟨-, there⟩ := run_of_found found
      exact h.act i (h r (List.mem_of_getElem? there)) a
    · exact h

end Planned

/-- What a run does but commit leaves the records and the steps as they are. -/
theorem act_quiet (i : Nat) (r : Run α) {a : Act α} (other : ∀ j heard, a ≠ .commit j heard) :
    Quiet w (w.act migrations i r a) := by
  cases a with
  | commit j heard => exact absurd rfl (other j heard)
  | start _ _ _ | tick _ | stop _ => exact ⟨rfl, rfl⟩
  | take _ _ | read _ | check _ | begin_ _ | abort _ | fail _ | renew _ | release _ =>
      simp only [World.act, World.take, World.read, World.check, World.renew, World.release]
      repeat' split
      all_goals exact ⟨rfl, rfl⟩

/-- A commit keeps all exactly when what it commits, if anything, is still next. -/
theorem commit_kept (nodup : (migrations.map (·.id)).Nodup) (h : Kept migrations w) {i : Nat}
    {r : Run α} (at_ : w.runs[i]? = some r) (planned : r.Planned migrations) (heard : Bool) :
    Kept migrations (w.commit i r heard) ↔ Current migrations w (.commit i heard) := by
  unfold World.commit
  split
  next m todo snapshot phase =>
    simp only [Run.Planned, phase] at planned
    obtain ⟨mem, down⟩ := planned m List.mem_cons_self
    have current : Current migrations w (.commit i heard) ↔ ∀ records,
        bookkeeping r.kind.direction m.id snapshot w.records = .committed records →
        IsNext migrations w.records r.kind.direction m ∧
          (r.kind.direction = .down → m.id ∈ snapshot) := by
      constructor
      · intro current records
        exact current r m todo snapshot records at_ phase
      · intro here r' m' todo' snapshot' records at' phase' ok
        cases at_.symm.trans at'
        cases phase.symm.trans phase'
        exact here records ok
    rw [current]
    split
    next end_ =>
      refine ⟨fun _ records ok => ?_, fun _ => h.quiet ⟨rfl, rfl⟩⟩
      exact absurd (end_.symm.trans ok) nofun
    next end_ =>
      refine ⟨fun _ records ok => ?_, fun _ => h.quiet ⟨rfl, rfl⟩⟩
      exact absurd (end_.symm.trans ok) nofun
    next records end_ =>
      rw [kept_commit nodup h mem down end_ (by rfl) (by rfl)]
      constructor
      · intro next _ _
        exact next
      · intro here
        exact here records end_
  next idle =>
    refine ⟨fun _ r' m todo snapshot _ at' phase => ?_, fun _ => h⟩
    cases at_.symm.trans at'
    exact absurd phase (idle m todo snapshot)

theorem kept_step (nodup : (migrations.map (·.id)).Nodup) (planned : Planned migrations w)
    (h : Kept migrations w) (a : Act α) :
    Kept migrations (w.step migrations a) ↔ Current migrations w a := by
  cases a with
  | start _ _ _ | tick _ => exact ⟨fun _ => trivial, fun _ => h.quiet ⟨rfl, rfl⟩⟩
  | commit i heard =>
      cases at_ : w.runs[i]? with
      | none =>
          refine ⟨fun _ r _ _ _ _ there => ?_, fun _ => ?_⟩
          · exact absurd (at_.symm.trans there) nofun
          · simpa [World.step, Act.run, at_] using h
      | some r =>
          have step : w.step migrations (.commit i heard) = w.commit i r heard := by
            simp [World.step, Act.run, at_, World.act]
          rw [step]
          exact commit_kept nodup h at_ (planned r (List.mem_of_getElem? at_)) heard
  | take _ _ | read _ | check _ | begin_ _ | abort _ | fail _ | renew _ | release _ | stop _ =>
      refine ⟨fun _ => trivial, fun _ => h.quiet ?_⟩
      unfold World.step
      dsimp only
      split
      next i r _ => exact act_quiet i r nofun
      · exact quiet_refl

theorem run_append (migrations : List (Migration α)) (acts : List (Act α)) (a : Act α) :
    run migrations (acts ++ [a]) = (run migrations acts).step migrations a := by
  rw [run, List.foldl_append]
  rfl

theorem run_planned (acts : List (Act α)) : Planned migrations (run migrations acts) := by
  induction acts using List.reverseRecOn with
  | nil => exact nofun
  | append_singleton acts a ih =>
      rw [run_append]
      exact ih.step a

theorem kept_nil : Kept migrations (run migrations []) where
  initial := ⟨0, Nat.zero_le _, fun id => by simp [run]⟩
  alternate _ := alternates_nil
  recorded id := by simp [run, World.stepsOf]

/-- Migrations keep the records a prefix and take effect once, over every interleaving of
runs, exactly as long as what is committed is still next: the plan that the records as they
are would give begins with it, and a rollback's transaction sees the record it removes. -/
theorem run_alternates (migrations : Listed α) (acts : List (Act α)) :
    (∀ pre, pre <+: acts → Kept migrations.1 (run migrations.1 pre)) ↔
      ∀ pre a, pre ++ [a] <+: acts → Current migrations.1 (run migrations.1 pre) a := by
  constructor
  · intro kept pre a le
    have before := kept pre ((List.prefix_append pre [a]).trans le)
    have after := kept _ le
    rw [run_append] at after
    exact (kept_step migrations.2 (run_planned pre) before a).mp after
  · intro current pre le
    induction pre using List.reverseRecOn with
    | nil => exact kept_nil
    | append_singleton pre a ih =>
        rw [run_append]
        have before := ih ((List.prefix_append pre [a]).trans le)
        exact (kept_step migrations.2 (run_planned pre) before a).mpr (current pre a le)

/-- Two migrations, both with a `down`. -/
def twoSteps : List (Migration Nat) := [⟨1, true⟩, ⟨2, true⟩]

/-- A whole run of `migrate`, then a rollback that takes the lock, plans and pauses while
its lock lapses, and another one that takes it over and is through. -/
def twoRollbacks : List (Act Nat) :=
  [.start (.migrate none) 2 1000, .take 0 true, .read 0, .check 0, .begin_ 0, .commit 0 true,
    .check 0, .begin_ 0, .commit 0 true, .check 0, .release 0,
    .start (.rollback none) 2 1000, .take 1 true, .read 1, .tick 1000,
    .start (.rollback none) 2 1000, .take 2 true, .read 2, .check 2, .begin_ 2, .commit 2 true,
    .check 2, .release 2,
    .check 1, .begin_ 1, .commit 1 true]

/-- The first run paused before its second migration, while both were undone by another. -/
def lateMigrate : List (Act Nat) :=
  [.start (.migrate none) 2 1000, .take 0 true, .read 0, .check 0, .begin_ 0, .commit 0 true,
    .tick 1000,
    .start (.rollback none) 2 1000, .take 1 true, .read 1, .check 1, .begin_ 1, .commit 1 true,
    .check 1, .release 1,
    .check 0, .begin_ 0, .commit 0 true]

/-- The second migration is undone twice, and the late run records it without the first. -/
theorem paused_runs_go_on :
    (run twoSteps twoRollbacks).stepsOf 2 = [.up, .down, .down] ∧
      (run twoSteps lateMigrate).records = [2] := by
  decide

end NxgtData.Migrations
