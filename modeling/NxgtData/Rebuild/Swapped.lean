import NxgtData.Rebuild.Steps

/-!
A rebuild swaps all or nothing, in every run: the live uid serves what it did, or an index on
which every task of the run has succeeded.
-/
namespace NxgtData.Rebuild
open TaskLog

variable {S F D : Type} {s : Setup S F D}

/-- An index that the tasks `W` made under the next uid: they created it where there was none,
and every one of them succeeded. -/
structure Filled (s : Setup S F D) (W : Log S F D) (index : Option (Index S D)) : Prop where
  succeeded : Succeeded W
  onNext : ∀ t ∈ W, t.kind.indexUid = some s.nextUid
  created : ∃ L u B m, W = L ++ ⟨u, .indexCreation s.nextUid s.primaryKey, .succeeded⟩ :: B ∧
    Ran (perform s.engine) L s.indexes m ∧ m s.nextUid = none
  made : ∃ m, Ran (perform s.engine) W s.indexes m ∧ m s.nextUid = index

/-- The live uid serves the filled index: all that this run enqueued before the swap filled
it, and all that came after deletes what is under the next uid. -/
def Serves (s : Setup S F D) (w : World S F D) : Prop :=
  ∃ W swap rest, w.log = W ++ swap :: rest ∧ (∃ created, swap.kind = swapOf s created) ∧
    swap.status = .succeeded ∧ (∀ t ∈ rest, t.kind = .indexDeletion s.nextUid) ∧
    Filled s W (w.indexes s.uid) ∧ (w.indexes s.uid).isSome

/-- Nothing deletes an index from the creation on. -/
def DeletesNothing (s : Setup S F D) (w : World S F D) : Prop :=
  (∃ L u B, w.log = L ++ ⟨u, .indexCreation s.nextUid s.primaryKey, .succeeded⟩ :: B ∧
    ∀ t ∈ B, ∀ uid, t.kind ≠ .indexDeletion uid) ∧
  ∀ kind ∈ w.flight, ∀ uid, kind ≠ .indexDeletion uid

/-- What a rebuild promises at any point of any run, and for good once it has ended. -/
structure AllOrNothing (s : Setup S F D) (acts : List (Act S D)) : Prop where
  served : (run s acts).indexes s.uid = s.indexes s.uid ∨ Serves s (run s acts)
  asItWas : ∀ stop deleted, (run s acts).phase = .done (.stopped stop deleted) →
    stop ≠ .unknown → ∀ later, (run s (acts ++ later)).indexes s.uid = s.indexes s.uid
  unknown : ∀ deleted, (run s acts).phase = .done (.stopped .unknown deleted) →
    ∀ later, DeletesNothing s (run s (acts ++ later))
  kept : (s.indexes s.uid).isSome → ((run s acts).indexes s.uid).isSome
  deleted : ∀ t ∈ (run s acts).log, ∀ uid, t.kind = .indexDeletion uid → uid ≠ s.uid
  resolved : ∀ report, (run s acts).phase = .done (.resolved report) → ∀ later,
    Serves s (run s (acts ++ later)) ∧ (run s (acts ++ later)).indexes s.nextUid = none

section Facts
variable {w : World S F D} {sync : Sync F} {log rest : Log S F D} {flight : List (Kind S F D)}
  {indexes : Indexes S D} {created : Bool}

theorem Whole.filled (h : Whole s sync log) (ran : Ran (perform s.engine) log s.indexes indexes) :
    Filled s log (indexes s.nextUid) := by
  obtain ⟨filling, succeeded⟩ := h
  refine ⟨succeeded, filling.onNext, ?_, indexes, ran, rfl⟩
  obtain ⟨P, B, ⟨L, u, cleared, rfl, -⟩, rfl, -⟩ := filling
  rw [List.append_assoc] at ran
  obtain ⟨m, before, -⟩ := (ran_append cleared.succeeded.settled).mp ran
  exact ⟨L, u, B, m, List.append_assoc .., before, cleared.missing before⟩

/-- A swap or a rename puts the next index under the live uid. -/
theorem perform_swapOf (apart : s.nextUid ≠ s.uid) {a b : Indexes S D}
    (h : perform s.engine (swapOf s created) a = .ok b) :
    (a s.nextUid).isSome ∧ b s.uid = a s.nextUid ∧ (created = true → b s.nextUid = none) := by
  cases created with
  | true =>
      obtain ⟨there, is, none⟩ := perform_rename s.engine apart h
      exact ⟨there, is, fun _ => none⟩
  | false =>
      obtain ⟨there, is, -⟩ := perform_swap s.engine apart.symm h
      exact ⟨there, is, by simp⟩

/-- After the swap the live uid holds the filled index; `left` is what the swap left. -/
theorem Swapped.live (h : Swapped s sync created log rest) (apart : s.nextUid ≠ s.uid)
    (deletes : ∀ t ∈ rest, t.kind = .indexDeletion s.nextUid)
    (ran : Ran (perform s.engine) log s.indexes indexes) :
    ∃ W swap left, log = W ++ swap :: rest ∧ swap.kind = swapOf s created ∧
      swap.status = .succeeded ∧ Filled s W (indexes s.uid) ∧ (indexes s.uid).isSome ∧
      (created = true → left s.nextUid = none) ∧ Ran (perform s.engine) rest left indexes := by
  obtain ⟨W, u, whole, -, rfl⟩ := h
  obtain ⟨m, before, left, done, after⟩ := (ran_append whole.2.settled).mp ran
  obtain ⟨there, is, renamed⟩ := perform_swapOf apart done
  have same : indexes s.uid = left s.uid := by
    refine after.keeps (fun indexes => indexes s.uid) fun t mem _ a b done => ?_
    exact perform_other s.engine (deletes t mem ▸ rfl) apart.symm done
  rw [same, is]
  exact ⟨W, _, left, rfl, rfl, rfl, whole.filled before, there, renamed, after⟩

theorem Swapped.serves (h : Swapped s w.sync created w.log rest) (apart : s.nextUid ≠ s.uid)
    (deletes : ∀ t ∈ rest, t.kind = .indexDeletion s.nextUid)
    (ran : Ran (perform s.engine) w.log s.indexes w.indexes) : Serves s w := by
  obtain ⟨W, swap, -, is, kind, done, filled, there, -⟩ := h.live apart deletes ran
  exact ⟨W, swap, rest, is, ⟨created, kind⟩, done, deletes, filled, there⟩

theorem deletes_nil : ∀ t ∈ ([] : Log S F D), t.kind = .indexDeletion s.nextUid :=
  fun _ mem => absurd mem List.not_mem_nil

theorem deletes_one {u : Nat} {status : Status Code} :
    ∀ t ∈ [(⟨u, .indexDeletion s.nextUid, status⟩ : Task (Kind S F D) Code)],
      t.kind = .indexDeletion s.nextUid := by
  intro t mem
  rw [List.mem_singleton.mp mem]

/-- At every point, either no swap has succeeded or only deletions of the next uid followed. -/
theorem Shape.unswapped_or {phase : Phase F} (h : Shape s sync log flight phase) :
    Unswapped s log ∨ ∃ created rest, Swapped s sync created log rest ∧
      ∀ t ∈ rest, t.kind = .indexDeletion s.nextUid := by
  have onNext (h : ∀ t ∈ log, t.kind.indexUid = some s.nextUid) : Unswapped s log :=
    fun t mem => .inl (h t mem)
  have snoc {W : Log S F D} (h : ∀ t ∈ W, t.kind.indexUid = some s.nextUid)
      {t : Task (Kind S F D) Code}
      (t_ : t.kind.indexUid = some s.nextUid ∨
        (∃ created, t.kind = swapOf s created) ∧ t.status ≠ .succeeded) :
      Unswapped s (W ++ [t]) := by
    intro u mem
    cases List.mem_append.mp mem with
    | inl mem => exact .inl (h u mem)
    | inr mem => rw [List.mem_singleton.mp mem]; exact t_
  have swap {W : Log S F D} {u : Nat} {status : Status Code} {created : Bool}
      (whole : Whole s sync W) (first : created = (s.indexes s.uid).isNone)
      (is : log = W ++ [⟨u, swapOf s created, status⟩]) :
      Unswapped s log ∨ ∃ created rest, Swapped s sync created log rest ∧
        ∀ t ∈ rest, t.kind = .indexDeletion s.nextUid := by
    by_cases done : status = .succeeded
    · exact .inr ⟨created, [], ⟨W, u, whole, first, done ▸ is⟩, deletes_nil⟩
    · exact .inl (is ▸ snoc whole.1.onNext (.inr ⟨⟨created, rfl⟩, done⟩))
  cases phase with
  | read read =>
      cases read with
      | leftover => exact .inl (h.1 ▸ fun _ mem => absurd mem List.not_mem_nil)
      | existing => exact .inl (onNext h.1.onNext)
      | again => exact h.elim
      | settings | pending => exact .inl (onNext h.1.onNext)
      | failed | live => exact .inl (onNext h.1.1.onNext)
  | send call =>
      cases call with
      | deleteLeftover => exact .inl (h.1 ▸ fun _ mem => absurd mem List.not_mem_nil)
      | createIndex | updateSettings _ => exact .inl (onNext h.1.onNext)
      | updateIndex => exact h.elim
      | swapIndexes _ => exact .inl (onNext h.1.1.1.onNext)
      | deletePrevious _ => exact .inr ⟨false, [], h.1, deletes_nil⟩
      | discard stop => exact .inl h.2.unswapped
  | wait call u =>
      cases call with
      | deleteLeftover =>
          obtain ⟨⟨status, rfl⟩, -⟩ := h
          exact .inl (@snoc [] (fun _ mem => absurd mem List.not_mem_nil) _ (.inl rfl))
      | createIndex =>
          obtain ⟨⟨L, status, cleared, rfl⟩, -⟩ := h
          exact .inl (snoc cleared.onNext (.inl rfl))
      | updateIndex => exact h.elim
      | updateSettings _ =>
          obtain ⟨⟨P, status, created, rfl⟩, -⟩ := h
          exact .inl (snoc created.onNext (.inl rfl))
      | swapIndexes created =>
          obtain ⟨⟨W, status, whole, first, is⟩, -⟩ := h
          exact swap whole first is
      | deletePrevious _ =>
          obtain ⟨⟨status, swapped⟩, -⟩ := h
          exact .inr ⟨false, _, swapped, deletes_one⟩
      | discard stop => exact .inl h.2.unswapped
  | filling => exact .inl (onNext h.1.onNext)
  | settling _ => exact .inl (onNext h.1.onNext)
  | done outcome =>
      cases outcome with
      | invalid => exact .inl (h.1 ▸ fun _ mem => absurd mem List.not_mem_nil)
      | rejected =>
          cases h with
          | inl quiet => exact .inl quiet.unswapped
          | inr swapped =>
              obtain ⟨rest, swapped, deletes, -⟩ := swapped
              exact .inr ⟨false, rest, swapped, deletes⟩
      | stopped stop deleted =>
          cases stop with
          | unknown =>
              obtain ⟨W, created, whole, first, ⟨rfl, -⟩ | ⟨⟨u, status, is⟩, -⟩⟩ := h
              · exact .inl (onNext whole.1.onNext)
              · exact swap whole first is
          | creating | filling | swapping => exact .inl (Quiet.unswapped h)
      | resolved report =>
          obtain ⟨renamed | ⟨u, swapped⟩, -⟩ := h
          · exact .inr ⟨true, [], renamed, deletes_nil⟩
          · exact .inr ⟨false, _, swapped, deletes_one⟩

end Facts

section Runs
variable {w : World S F D}

theorem Inv.served (h : Inv s w) : w.indexes s.uid = s.indexes s.uid ∨ Serves s w := by
  cases h.apart with
  | inl apart =>
      cases h.shape.unswapped_or with
      | inl unswapped => exact .inl (unswapped.live apart h.sound.ran)
      | inr swapped =>
          obtain ⟨created, rest, swapped, deletes⟩ := swapped
          exact .inr (swapped.serves apart deletes h.sound.ran)
  | inr invalid =>
      obtain ⟨log, -⟩ : w.log = [] ∧ w.flight = [] := by
        have shape := h.shape
        rw [invalid] at shape
        exact shape
      have ran := h.sound.ran
      rw [log] at ran
      exact .inl (by rw [show w.indexes = s.indexes from ran])

theorem Inv.deleted (h : Inv s w) :
    ∀ t ∈ w.log, ∀ uid, t.kind = .indexDeletion uid → uid ≠ s.uid := by
  intro t mem uid kind
  cases h.apart with
  | inl apart =>
      have next (on : t.kind.indexUid = some s.nextUid) : uid ≠ s.uid := by
        rw [kind] at on
        obtain rfl : uid = s.nextUid := Option.some.inj on
        exact apart
      have swap {created : Bool} (is : t.kind = swapOf s created) : uid ≠ s.uid := by
        rw [kind] at is
        cases created <;> cases is
      cases h.shape.unswapped_or with
      | inl unswapped =>
          cases unswapped t mem with
          | inl on => exact next on
          | inr other =>
              obtain ⟨created, is⟩ := other.1
              exact swap is
      | inr swapped =>
          obtain ⟨created, rest, ⟨W, u, whole, -, is⟩, deletes⟩ := swapped
          rw [is] at mem
          cases List.mem_append.mp mem with
          | inl mem => exact next (whole.1.onNext t mem)
          | inr mem =>
              cases mem with
              | head => exact swap rfl
              | tail _ mem => exact next (by rw [deletes t mem]; rfl)
  | inr invalid =>
      have shape := h.shape
      rw [invalid] at shape
      obtain ⟨log, -⟩ : w.log = [] ∧ w.flight = [] := shape
      rw [log] at mem
      exact absurd mem List.not_mem_nil

/-- A rebuild that has ended stays as it ended. -/
theorem done_step {outcome : Outcome F} (h : w.phase = .done outcome) (act : Act S D) :
    (w.step s act).phase = .done outcome := by
  cases act with
  | work _ | cancel _ | others => exact h
  | arrive i =>
      rw [World.step]
      split
      next => exact h
      next => exact h
  | answer | fail | enqueue _ | resolve | reject => rw [World.step, h]; exact h

theorem done_run {outcome : Outcome F} {acts : List (Act S D)}
    (h : (run s acts).phase = .done outcome) (later : List (Act S D)) :
    (run s (acts ++ later)).phase = .done outcome := by
  induction later using List.reverseRecOn with
  | nil => rw [List.append_nil]; exact h
  | append_singleton later act ih =>
      rw [← List.append_assoc, run, List.foldl_append]
      exact done_step ih act

theorem Whole.deletesNothing {W rest : Log S F D} (h : Whole s w.sync W)
    (is : w.log = W ++ rest) (rest_ : ∀ t ∈ rest, ∃ created, t.kind = swapOf s created)
    (flight : ∀ kind ∈ w.flight, ∃ created, kind = swapOf s created) : DeletesNothing s w := by
  have swap {kind : Kind S F D} (is : ∃ created, kind = swapOf s created) (uid : Utf16) :
      kind ≠ .indexDeletion uid := by
    obtain ⟨created, rfl⟩ := is
    cases created <;> exact fun is => by cases is
  obtain ⟨⟨P, B, ⟨L, u, -, rfl, -⟩, rfl, fills⟩, -⟩ := h
  refine ⟨⟨L, u, B ++ rest, by simp [is], fun t mem uid => ?_⟩,
    fun kind mem => swap (flight kind mem)⟩
  cases List.mem_append.mp mem with
  | inl mem =>
      rcases fills t mem with ⟨update, is⟩ | ⟨effect, is⟩ <;> rw [is] <;> exact fun is => by cases is
  | inr mem => exact swap (rest_ t mem) uid

end Runs

/-- A rebuild swaps all or nothing: whatever its fill enqueues, whatever becomes of the tasks
and of its requests and waits, and whatever was left under the next uid. -/
theorem rebuildIndex_allOrNothing (s : Setup S F D) (acts : List (Act S D)) :
    AllOrNothing s acts where
  served := (inv_run s acts).served
  asItWas := by
    intro stop deleted stopped known later
    have inv := inv_run s (acts ++ later)
    have shape := inv.shape
    rw [done_run stopped later] at shape
    have quiet : Quiet s (run s (acts ++ later)).log (run s (acts ++ later)).flight := by
      cases stop with
      | unknown => exact absurd rfl known
      | creating | filling | swapping => exact shape
    cases inv.apart with
    | inl apart => exact quiet.unswapped.live apart inv.sound.ran
    | inr invalid => rw [done_run stopped later] at invalid; cases invalid
  unknown := by
    intro deleted stopped later
    have shape := (inv_run s (acts ++ later)).shape
    rw [done_run stopped later] at shape
    obtain ⟨W, created, whole, -, ⟨is, flight⟩ | ⟨⟨u, status, is⟩, flight⟩⟩ := shape
    · refine @Whole.deletesNothing _ _ _ _ _ W [] whole (is.trans (List.append_nil W).symm)
        (fun _ mem => absurd mem List.not_mem_nil) fun kind mem => ?_
      rw [flight] at mem
      exact ⟨created, List.mem_singleton.mp mem⟩
    · refine whole.deletesNothing is (fun t mem => ?_) fun kind mem => ?_
      · rw [List.mem_singleton.mp mem]
        exact ⟨created, rfl⟩
      · rw [flight] at mem
        exact absurd mem List.not_mem_nil
  kept := by
    intro there
    cases (inv_run s acts).served with
    | inl same => rw [same]; exact there
    | inr serves =>
        obtain ⟨-, -, -, -, -, -, -, -, some⟩ := serves
        exact some
  deleted := (inv_run s acts).deleted
  resolved := by
    intro report resolved later
    have inv := inv_run s (acts ++ later)
    have shape := inv.shape
    rw [done_run resolved later] at shape
    have apart : s.nextUid ≠ s.uid := by
      cases inv.apart with
      | inl apart => exact apart
      | inr invalid => rw [done_run resolved later] at invalid; cases invalid
    obtain ⟨renamed | ⟨u, swapped⟩, -⟩ := shape
    · obtain ⟨_, _, left, _, _, _, _, _, none, after⟩ :=
        renamed.live apart deletes_nil inv.sound.ran
      refine ⟨renamed.serves apart deletes_nil inv.sound.ran, ?_⟩
      rw [show (run s (acts ++ later)).indexes = left from after]
      exact none rfl
    · obtain ⟨_, _, left, _, _, _, _, _, _, gone⟩ :=
        swapped.live apart deletes_one inv.sound.ran
      obtain ⟨m, done, after⟩ := gone
      refine ⟨swapped.serves apart deletes_one inv.sound.ran, ?_⟩
      rw [show (run s (acts ++ later)).indexes = m from after]
      exact perform_deletion s.engine done

/-- A rebuild of `m` under `n`, where an earlier one left its index and a write that failed. -/
def movies : Setup Nat Nat (List Nat) where
  engine := ⟨0, [], fun update settings => settings + update.sum⟩
  uid := [109]
  primaryKey := [105]
  diffSettings settings := if settings = 3 then [] else [3 - settings]
  nextUidGiven := some [110]
  indexes uid :=
    if uid = [109] then some ⟨some [105], 2, [4]⟩
    else if uid = [110] then some ⟨some [105], 3, []⟩
    else none
  past := [⟨5, .indexCreation [110] [105], .succeeded⟩, ⟨6, .write [110] id, .failed none⟩]
  settled := by simp [Settled]
  count := 7
  known := by simp

-- The failed task of the earlier run is listed, and its uid is below the first of this one.
example : (run movies [.answer, .answer, .work false, .answer, .answer, .answer, .work false,
    .answer, .answer, .answer, .work false, .answer,
    .enqueue fun index => index.map fun i => { i with documents := [5] }, .resolve, .answer,
    .work false, .answer, .answer, .answer, .answer, .answer, .work false, .answer, .answer,
    .work false, .answer]).phase =
      .done (.resolved ⟨true, false, ⟨true, false, [3], [8, 9]⟩, [11, 12]⟩) := rfl

end NxgtData.Rebuild
