import NxgtData.Rebuild.Run

/-!
What the log of a rebuild looks like at each of its points: the leftover's deletion, the
creation, the tasks of the sync and of the caller, the swap and the deletion of the previous
index, in this order. Once it is on its way out, no swap is left to run.
-/
namespace NxgtData.Rebuild
open TaskLog

variable {S F D : Type} (s : Setup S F D)

abbrev Log (S F D : Type) := List (Task (Kind S F D) Code)

/-- The tasks before the creation, after which nothing is under the next uid. -/
def Cleared (L : Log S F D) : Prop :=
  L = [] ∧ s.indexes s.nextUid = none ∨
    ∃ u, L = [⟨u, .indexDeletion s.nextUid, .succeeded⟩]

/-- The sync has created the next index, by the first of its tasks. -/
def Created (sync : Sync F) (P : Log S F D) : Prop :=
  ∃ L u, Cleared s L ∧ P = L ++ [⟨u, .indexCreation s.nextUid s.primaryKey, .succeeded⟩] ∧
    sync.tasks.head? = some u

def Fills (kind : Kind S F D) : Prop :=
  (∃ update, kind = .settingsUpdate s.nextUid update) ∨
    ∃ effect, kind = .write s.nextUid effect

def Filling (sync : Sync F) (log : Log S F D) : Prop :=
  ∃ P B, Created s sync P ∧ log = P ++ B ∧ ∀ t ∈ B, Fills s t.kind

/-- Every task up to the swap has succeeded. -/
def Whole (sync : Sync F) (log : Log S F D) : Prop := Filling s sync log ∧ Succeeded log

/-- Nothing that has run or may still run is a task on another index than the next one. -/
def Quiet (log : Log S F D) (flight : List (Kind S F D)) : Prop :=
  (∀ t ∈ log, t.kind.indexUid = some s.nextUid ∨
    (∃ created, t.kind = swapOf s created) ∧ t.status ≠ .enqueued ∧ t.status ≠ .succeeded) ∧
  ∀ kind ∈ flight, kind.indexUid = some s.nextUid

/-- No swap has succeeded. -/
def Unswapped (log : Log S F D) : Prop :=
  ∀ t ∈ log, t.kind.indexUid = some s.nextUid ∨
    (∃ created, t.kind = swapOf s created) ∧ t.status ≠ .succeeded

/-- The swap has succeeded, and `rest` came after it. -/
def Swapped (sync : Sync F) (created : Bool) (log rest : Log S F D) : Prop :=
  ∃ W u, Whole s sync W ∧ created = (s.indexes s.uid).isNone ∧
    log = W ++ ⟨u, swapOf s created, .succeeded⟩ :: rest

def Shape (sync : Sync F) (log : Log S F D) (flight : List (Kind S F D)) : Phase F → Prop
  | .read .leftover | .send .deleteLeftover => log = [] ∧ flight = [] ∧ sync.tasks = []
  | .wait .deleteLeftover u =>
      (∃ status, log = [⟨u, .indexDeletion s.nextUid, status⟩]) ∧ flight = [] ∧ sync.tasks = []
  | .read .existing | .send .createIndex => Cleared s log ∧ flight = [] ∧ sync.tasks = []
  | .wait .createIndex u =>
      (∃ L status, Cleared s L ∧
        log = L ++ [⟨u, .indexCreation s.nextUid s.primaryKey, status⟩]) ∧
      flight = [] ∧ sync.tasks = []
  -- The next index is not there before its creation, and has its primary key after it.
  | .read .again | .send .updateIndex | .wait .updateIndex _ => False
  | .read .settings | .send (.updateSettings _) => Created s sync log ∧ flight = []
  | .wait (.updateSettings update) u =>
      (∃ P status, Created s sync P ∧
        log = P ++ [⟨u, .settingsUpdate s.nextUid update, status⟩]) ∧ flight = []
  | .filling | .read .pending | .settling _ => Filling s sync log ∧ flight = []
  | .read .failed => (Filling s sync log ∧ Settled log) ∧ flight = []
  | .read .live => Whole s sync log ∧ flight = []
  | .send (.swapIndexes created) =>
      (Whole s sync log ∧ created = (s.indexes s.uid).isNone) ∧ flight = []
  | .wait (.swapIndexes created) u =>
      (∃ W status, Whole s sync W ∧ created = (s.indexes s.uid).isNone ∧
        log = W ++ [⟨u, swapOf s created, status⟩]) ∧ flight = []
  | .send (.deletePrevious _) => Swapped s sync false log [] ∧ flight = []
  | .wait (.deletePrevious _) u =>
      (∃ status, Swapped s sync false log [⟨u, .indexDeletion s.nextUid, status⟩]) ∧ flight = []
  | .send (.discard stop) | .wait (.discard stop) _ => stop ≠ .unknown ∧ Quiet s log flight
  | .done .invalid => log = [] ∧ flight = []
  | .done .rejected =>
      Quiet s log flight ∨ ∃ rest, Swapped s sync false log rest ∧
        (∀ t ∈ rest, t.kind = .indexDeletion s.nextUid) ∧
        ∀ kind ∈ flight, kind = .indexDeletion s.nextUid
  | .done (.stopped .unknown _) =>
      ∃ W created, Whole s sync W ∧ created = (s.indexes s.uid).isNone ∧
        (log = W ∧ flight = [swapOf s created] ∨
          (∃ u status, log = W ++ [⟨u, swapOf s created, status⟩]) ∧ flight = [])
  | .done (.stopped _ _) => Quiet s log flight
  | .done (.resolved _) =>
      (Swapped s sync true log [] ∨
        ∃ u, Swapped s sync false log [⟨u, .indexDeletion s.nextUid, .succeeded⟩]) ∧ flight = []

section Parts
variable {s} {sync : Sync F} {log log' : Log S F D} {flight : List (Kind S F D)}

theorem Cleared.succeeded (h : Cleared s log) : Succeeded log := by
  cases h with
  | inl none => rw [none.1]; exact fun t mem => absurd mem List.not_mem_nil
  | inr deleted =>
      obtain ⟨u, rfl⟩ := deleted
      intro t mem
      rw [List.mem_singleton.mp mem]

theorem Created.succeeded (h : Created s sync log) : Succeeded log := by
  obtain ⟨L, u, cleared, rfl, -⟩ := h
  refine cleared.succeeded.append fun t mem => ?_
  rw [List.mem_singleton.mp mem]

theorem Created.filling (h : Created s sync log) : Filling s sync log :=
  ⟨log, [], h, (List.append_nil log).symm, fun _ mem => absurd mem List.not_mem_nil⟩

theorem Fills.onNext {kind : Kind S F D} (h : Fills s kind) : kind.indexUid = some s.nextUid := by
  rcases h with ⟨update, rfl⟩ | ⟨effect, rfl⟩ <;> rfl

theorem Cleared.onNext (h : Cleared s log) : ∀ t ∈ log, t.kind.indexUid = some s.nextUid := by
  cases h with
  | inl none => rw [none.1]; exact fun t mem => absurd mem List.not_mem_nil
  | inr deleted =>
      obtain ⟨u, rfl⟩ := deleted
      intro t mem
      rw [List.mem_singleton.mp mem]
      rfl

theorem Created.onNext (h : Created s sync log) :
    ∀ t ∈ log, t.kind.indexUid = some s.nextUid := by
  obtain ⟨L, u, cleared, rfl, -⟩ := h
  intro t mem
  cases List.mem_append.mp mem with
  | inl mem => exact cleared.onNext t mem
  | inr mem => rw [List.mem_singleton.mp mem]; rfl

theorem Filling.onNext (h : Filling s sync log) :
    ∀ t ∈ log, t.kind.indexUid = some s.nextUid := by
  obtain ⟨P, B, created, rfl, fills⟩ := h
  intro t mem
  cases List.mem_append.mp mem with
  | inl mem => exact created.onNext t mem
  | inr mem => exact (fills t mem).onNext

theorem Quiet.unswapped (h : Quiet s log flight) : Unswapped s log := by
  intro t mem
  cases h.1 t mem with
  | inl on => exact .inl on
  | inr ended => exact .inr ⟨ended.1, ended.2.2⟩

/-- A run with tasks on the next index only is quiet. -/
theorem quiet_of_onNext (log_ : ∀ t ∈ log, t.kind.indexUid = some s.nextUid)
    (flight_ : ∀ kind ∈ flight, kind.indexUid = some s.nextUid) : Quiet s log flight :=
  ⟨fun t mem => .inl (log_ t mem), flight_⟩

theorem quiet_nil (log_ : ∀ t ∈ log, t.kind.indexUid = some s.nextUid) : Quiet s log [] :=
  quiet_of_onNext log_ fun _ mem => absurd mem List.not_mem_nil

theorem Quiet.snoc (h : Quiet s log flight) {t : Task (Kind S F D) Code}
    (t_ : t.kind.indexUid = some s.nextUid ∨
      (∃ created, t.kind = swapOf s created) ∧ t.status ≠ .enqueued ∧ t.status ≠ .succeeded) :
    Quiet s (log ++ [t]) flight := by
  refine ⟨fun u mem => ?_, h.2⟩
  cases List.mem_append.mp mem with
  | inl mem => exact h.1 u mem
  | inr mem => rw [List.mem_singleton.mp mem]; exact t_

theorem Quiet.lose (h : Quiet s log flight) {kind : Kind S F D}
    (on : kind.indexUid = some s.nextUid) : Quiet s log (flight ++ [kind]) := by
  refine ⟨h.1, fun k mem => ?_⟩
  cases List.mem_append.mp mem with
  | inl mem => exact h.2 k mem
  | inr mem => rw [List.mem_singleton.mp mem]; exact on

theorem Filling.snoc (h : Filling s sync log) {t : Task (Kind S F D) Code}
    (fills : Fills s t.kind) : Filling s sync (log ++ [t]) := by
  obtain ⟨P, B, created, rfl, all⟩ := h
  refine ⟨P, B ++ [t], created, List.append_assoc .., fun u mem => ?_⟩
  cases List.mem_append.mp mem with
  | inl mem => exact all u mem
  | inr mem => rw [List.mem_singleton.mp mem]; exact fills

theorem Filling.advances (h : Filling s sync log) (adv : List.Forall₂ Advances log log') :
    Filling s sync log' := by
  obtain ⟨P, B, created, rfl, fills⟩ := h
  obtain ⟨B', rfl, adv'⟩ := advances_settled created.succeeded.settled adv
  exact ⟨P, B', created, rfl, advances_forall (P := fun _ kind => Fills s kind) adv' fills⟩

theorem Quiet.advances (h : Quiet s log flight) (adv : List.Forall₂ Advances log log') :
    Quiet s log' flight := by
  refine ⟨?_, h.2⟩
  have first := h.1
  clear h
  induction adv with
  | nil => exact first
  | @cons t t' rest rest' head _ ih =>
      intro u mem
      cases mem with
      | head =>
          cases first t (.head _) with
          | inl on => exact .inl (head.2.1.symm ▸ on)
          | inr ended => rw [head.2.2 ended.2.1]; exact .inr ended
      | tail _ mem => exact ih (fun u mem => first u (.tail _ mem)) u mem

/-- A settled log stays, and one more task may end. -/
theorem settled_advances (settled : Settled log) (adv : List.Forall₂ Advances log log') :
    log' = log := by
  rw [← List.append_nil log] at adv
  obtain ⟨B, rfl, rest⟩ := advances_settled settled adv
  cases rest
  exact List.append_nil log

theorem snoc_advances (settled : Settled log) {t : Task (Kind S F D) Code}
    (adv : List.Forall₂ Advances (log ++ [t]) log') :
    ∃ status, log' = log ++ [⟨t.uid, t.kind, status⟩] := by
  obtain ⟨B, rfl, one⟩ := advances_settled settled adv
  obtain ⟨status, rfl⟩ := advances_one one
  exact ⟨status, rfl⟩

theorem Swapped.advances {created : Bool} {rest : Log S F D} (h : Swapped s sync created log rest)
    (adv : List.Forall₂ Advances log log') :
    ∃ rest', Swapped s sync created log' rest' ∧ List.Forall₂ Advances rest rest' := by
  obtain ⟨W, u, whole, is, rfl⟩ := h
  obtain ⟨B, rfl, tail⟩ := advances_settled whole.2.settled adv
  cases tail with
  | cons head tail =>
      rw [head.2.2 (by simp)]
      exact ⟨_, ⟨W, u, whole, is, rfl⟩, tail⟩

end Parts

/-- Whatever the server does with its tasks, the log keeps its shape. -/
theorem shape_advances {sync : Sync F} {log log' : Log S F D} {flight : List (Kind S F D)}
    {phase : Phase F} (h : Shape s sync log flight phase)
    (adv : List.Forall₂ Advances log log') : Shape s sync log' flight phase := by
  cases phase with
  | read read =>
      cases read with
      | leftover => obtain ⟨rfl, rest⟩ := h; cases adv; exact ⟨rfl, rest⟩
      | existing => rw [settled_advances h.1.succeeded.settled adv]; exact h
      | again => exact h
      | settings => rw [settled_advances h.1.succeeded.settled adv]; exact h
      | pending => exact ⟨h.1.advances adv, h.2⟩
      | failed => rw [settled_advances h.1.2 adv]; exact h
      | live => rw [settled_advances h.1.2.settled adv]; exact h
  | send call =>
      cases call with
      | deleteLeftover => obtain ⟨rfl, rest⟩ := h; cases adv; exact ⟨rfl, rest⟩
      | createIndex => rw [settled_advances h.1.succeeded.settled adv]; exact h
      | updateIndex => exact h
      | updateSettings update => rw [settled_advances h.1.succeeded.settled adv]; exact h
      | swapIndexes created => rw [settled_advances h.1.1.2.settled adv]; exact h
      | deletePrevious swap =>
          obtain ⟨rest, swapped, none⟩ := h.1.advances adv
          cases none
          exact ⟨swapped, h.2⟩
      | discard stop => exact ⟨h.1, h.2.advances adv⟩
  | wait call u =>
      cases call with
      | deleteLeftover =>
          obtain ⟨⟨status, rfl⟩, rest⟩ := h
          exact ⟨advances_one adv, rest⟩
      | createIndex =>
          obtain ⟨⟨L, status, cleared, rfl⟩, rest⟩ := h
          obtain ⟨status', rfl⟩ := snoc_advances cleared.succeeded.settled adv
          exact ⟨⟨L, status', cleared, rfl⟩, rest⟩
      | updateIndex => exact h
      | updateSettings update =>
          obtain ⟨⟨P, status, created, rfl⟩, rest⟩ := h
          obtain ⟨status', rfl⟩ := snoc_advances created.succeeded.settled adv
          exact ⟨⟨P, status', created, rfl⟩, rest⟩
      | swapIndexes created =>
          obtain ⟨⟨W, status, whole, is, rfl⟩, rest⟩ := h
          obtain ⟨status', rfl⟩ := snoc_advances whole.2.settled adv
          exact ⟨⟨W, status', whole, is, rfl⟩, rest⟩
      | deletePrevious swap =>
          obtain ⟨⟨status, swapped⟩, rest⟩ := h
          obtain ⟨after, swapped', one⟩ := swapped.advances adv
          obtain ⟨status', rfl⟩ := advances_one one
          exact ⟨⟨status', swapped'⟩, rest⟩
      | discard stop => exact ⟨h.1, h.2.advances adv⟩
  | filling => exact ⟨h.1.advances adv, h.2⟩
  | settling uids => exact ⟨h.1.advances adv, h.2⟩
  | done outcome =>
      cases outcome with
      | invalid => obtain ⟨rfl, rest⟩ := h; cases adv; exact ⟨rfl, rest⟩
      | rejected =>
          cases h with
          | inl quiet => exact .inl (quiet.advances adv)
          | inr swapped =>
              obtain ⟨rest, swapped, deletes, flown⟩ := swapped
              obtain ⟨rest', swapped', adv'⟩ := swapped.advances adv
              exact .inr ⟨rest', swapped',
                advances_forall (P := fun _ kind => kind = _) adv' deletes, flown⟩
      | stopped stop deleted =>
          cases stop with
          | unknown =>
              obtain ⟨W, created, whole, is, either⟩ := h
              refine ⟨W, created, whole, is, ?_⟩
              cases either with
              | inl unsent =>
                  rw [settled_advances (unsent.1 ▸ whole.2.settled) adv]
                  exact .inl unsent
              | inr sent =>
                  obtain ⟨⟨u, status, rfl⟩, rest⟩ := sent
                  obtain ⟨status', rfl⟩ := snoc_advances whole.2.settled adv
                  exact .inr ⟨⟨u, status', rfl⟩, rest⟩
          | creating | filling | swapping => exact Quiet.advances h adv
      | resolved report =>
          refine ⟨?_, h.2⟩
          cases h.1 with
          | inl renamed =>
              obtain ⟨rest, swapped, none⟩ := renamed.advances adv
              cases none
              exact .inl swapped
          | inr deleted =>
              obtain ⟨u, swapped⟩ := deleted
              obtain ⟨rest, swapped', one⟩ := swapped.advances adv
              rw [settled_advances (by simp [Settled]) one] at swapped'
              exact .inr ⟨u, swapped'⟩

end NxgtData.Rebuild
