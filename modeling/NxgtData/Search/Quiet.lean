import NxgtData.Search.Follow

/-!
What an idle flush records. The point of the last change queued stays in `last`
once its batch is sent, so the position of the stream is recorded only while no
change was ever queued.
-/
namespace NxgtData.Search

variable {τ κ ι δ : Type}

/-- Nothing is pending, and no change is being handled. -/
def Found.Quiet (found : Found τ) : Prop := found.pending = 0 ∧ found.inFlight = 0

/-- No change was queued since the follower was opened, and the stream was read; or the
stream is still at the last change queued. A stopped follower records nothing. -/
def Found.KeepsUp (found : Found τ) : Prop :=
  if found.done then found.recorded = found.position
  else match found.last with
    | none => found.position ≠ none
    | some token => found.position = some token

instance [DecidableEq τ] (found : Found τ) : Decidable found.KeepsUp := by
  unfold Found.KeepsUp
  split
  · exact inferInstance
  · split <;> exact inferInstance

/-- A quiet flush recorded the position exactly when it could keep up. -/
def Flushed.Fair (fl : Flushed τ) : Prop :=
  fl.found.Quiet → (fl.recorded = fl.found.position ↔ fl.found.KeepsUp)

/-- What a flush that waits is about to record. -/
def Flush.Aims (fl : Flush τ κ ι δ) : Prop :=
  fl.found.done = false ∧ (fl.found.Quiet →
    match fl.phase with
    | .sending _ _ => False
    | .saving token => fl.found.last.or fl.found.position = some token)

structure Records (w : Follower τ κ ι δ) : Prop where
  saved : w.f.failure = none → w.f.done = false → w.recorded = some w.f.saved
  aims : ∀ fl, w.running = some fl → fl.Aims
  fair : ∀ fl ∈ w.resolved, fl.Fair

instance (found : Found τ) : Decidable found.Quiet := inferInstanceAs (Decidable (_ ∧ _))

theorem Found.keepsUp_none {found : Found τ} (running : found.done = false)
    (last : found.last = none) : found.KeepsUp ↔ found.position ≠ none := by
  simp [KeepsUp, running, last]

theorem Found.keepsUp_some {found : Found τ} {token : τ} (running : found.done = false)
    (last : found.last = some token) : found.KeepsUp ↔ found.position = some token := by
  simp [KeepsUp, running, last]

/-- Recording the last queued change, or else the position, is fair. -/
theorem fair_of_or {found : Found τ} {token : τ} (running : found.done = false)
    (aim : found.Quiet → found.last.or found.position = some token) :
    Flushed.Fair ⟨found, some token⟩ := by
  intro quiet
  have aim := aim quiet
  cases last : found.last with
  | none =>
      rw [last, Option.none_or] at aim
      simp [Found.keepsUp_none running last, aim]
  | some t =>
      rw [last, Option.some_or] at aim
      cases aim
      rw [Found.keepsUp_some running last, eq_comm]

/-- With no change queued and no read yet, the point recorded before stays. -/
theorem fair_of_none {found : Found τ} {token : τ} (running : found.done = false)
    (aim : found.Quiet → found.last.or found.position = none) :
    Flushed.Fair ⟨found, some token⟩ := by
  intro quiet
  obtain ⟨last, position⟩ := Option.or_eq_none_iff.mp (aim quiet)
  simp [Found.keepsUp_none running last, position]

namespace Records

variable {w : Follower τ κ ι δ}

/-- What leaves the points, the flushes and the failures alone. -/
theorem same {w' : Follower τ κ ι δ} (h : Records w) (f : w'.f.saved = w.f.saved)
    (failure : w'.f.failure = none → w.f.failure = none)
    (done : w'.f.done = false → w.f.done = false)
    (recorded : w'.recorded = w.recorded) (running : w'.running = w.running)
    (resolved : w'.resolved = w.resolved) : Records w' where
  saved none alive := by rw [recorded, f]; exact h.saved (failure none) (done alive)
  aims := by rw [running]; exact h.aims
  fair := by rw [resolved]; exact h.fair

theorem handled (h : Records w) : Records w.handled := by
  unfold Follower.handled
  split
  · exact h.same rfl id id rfl rfl rfl
  · exact h.same rfl id id rfl rfl rfl
  · exact h

theorem threw (h : Records w) : Records w.threw := h.same rfl id id rfl rfl rfl

theorem fail (h : Records w) (failure : Failure) : Records (w.fail failure) := by
  refine h.same rfl (fun none => ?_) id rfl rfl rfl
  exact (Option.or_eq_none_iff.mp none).1

theorem resolve (h : Records w) (caller : Caller) {found : Found τ}
    (fair : Flushed.Fair ⟨found, w.recorded⟩) : Records (w.resolve caller found) := by
  have here : Records { w with
      running := none, resolved := w.resolved ++ [⟨found, w.recorded⟩] } := by
    refine ⟨h.saved, nofun, fun fl mem => ?_⟩
    cases List.mem_append.mp mem with
    | inl old => exact h.fair fl old
    | inr new => rw [List.mem_singleton.mp new]; exact fair
  unfold Follower.resolve
  dsimp only
  split
  · exact here.handled
  · exact here

theorem reject (h : Records w) (caller : Caller) : Records (w.reject caller) := by
  have here : Records { w with running := none, broken := true } :=
    ⟨h.saved, nofun, h.fair⟩
  unfold Follower.reject
  dsimp only
  split
  · exact here.threw
  · exact here

theorem saves (h : Records w) (ok took : Bool) : Records (w.saved ok took) := by
  unfold Follower.saved
  split
  next caller found token eq =>
    obtain ⟨alive, aim⟩ := h.aims _ eq
    split
    · have here : Records { w with recorded := some token, f := { w.f with saved := token } } :=
        ⟨fun _ _ => rfl, h.aims, h.fair⟩
      exact here.resolve caller (fair_of_or alive aim)
    · have here : Records (({ w with
          recorded := if took then some token else w.recorded }).fail .sending) :=
        ⟨fun none => absurd (Option.or_eq_none_iff.mp none).2 nofun, h.aims, h.fair⟩
      exact here.reject caller
  · exact h

section
variable [DecidableEq τ]

theorem record (h : Records w) (caller : Caller) {found : Found τ} {upTo : Option τ} {idle : Bool}
    (running : found.done = false)
    (recorded : found.Quiet → w.recorded = some w.f.saved)
    (aim : found.Quiet → upTo.or (if idle then w.position else none) =
      found.last.or found.position) :
    Records (w.record caller found upTo idle) := by
  unfold Follower.record
  split
  next at_ =>
    refine h.resolve caller fun quiet => ?_
    rw [recorded quiet]
    exact fair_of_none running (fun quiet => by rw [← aim quiet, at_]) quiet
  next token at_ =>
    split
    next same =>
      refine h.resolve caller fun quiet => ?_
      rw [recorded quiet, ← same]
      exact fair_of_or running (fun quiet => by rw [← aim quiet, at_]) quiet
    · refine ⟨h.saved, fun fl eq => ?_, h.fair⟩
      cases eq
      exact ⟨running, fun quiet => by rw [← aim quiet, at_]⟩

theorem turn (h : Records w) : Records w.turn := by
  unfold Follower.turn
  split
  next caller waiting _ _ =>
    have here : Records { w with waiting } := h.same rfl id id rfl rfl rfl
    dsimp only
    split
    · exact here.reject caller
    next healthy =>
      simp only [Bool.or_eq_true, not_or, Bool.not_eq_true, Option.isSome_eq_false_iff,
        Option.isNone_iff_eq_none] at healthy
      split
      next done =>
        refine here.resolve caller fun quiet => ?_
        simp [Found.KeepsUp, Follower.found, done]
      next alive =>
        have alive : w.f.done = false := by simpa using alive
        have recorded := h.saved healthy.2 alive
        split
        next empty =>
          refine record ?_ caller alive (fun _ => recorded) fun quiet => ?_
          · exact h.same rfl id id rfl rfl rfl
          · have idle : w.f.inFlight = 0 := quiet.2
            simp [Follower.found, idle]
        next some =>
          refine ⟨h.saved, fun fl eq => ?_, h.fair⟩
          cases eq
          have nonempty : w.f.pending ≠ [] := by simpa using some
          exact ⟨alive, fun quiet => nonempty (List.length_eq_zero_iff.mp quiet.1)⟩
  · exact h

/-- A flush that sent something was not quiet. -/
theorem sent (h : Records w) (ok : Bool) : Records (w.sent ok) := by
  unfold Follower.sent
  split
  next caller found entries upTo eq =>
    obtain ⟨alive, busy⟩ := h.aims _ eq
    split
    · exact h.record caller alive (fun quiet => (busy quiet).elim) fun quiet => (busy quiet).elim
    · exact (h.fail .sending).reject caller
  · exact h

end

theorem transformed [DecidableEq κ] (h : Records w) (batchSize : Nat)
    (made : Option (Entry κ ι δ)) : Records (w.transformed batchSize made) := by
  unfold Follower.transformed
  split
  next token _ =>
    cases made with
    | none => exact threw ⟨nofun, h.aims, h.fair⟩
    | some entry =>
        dsimp only
        split
        · exact h.same rfl id id rfl rfl rfl
        · refine handled ?_
          exact h.same rfl id id rfl rfl rfl
  · exact h

theorem event (h : Records w) (token : τ) (delivered : Bool) :
    Records (w.event token delivered) := by
  unfold Follower.event
  split
  · split
    · exact h.same rfl id id rfl rfl rfl
    · split
      · exact h.threw
      · exact h.same rfl id id rfl rfl rfl
  · exact h

theorem stop (h : Records w) : Records w.stop := by
  unfold Follower.stop
  split
  · exact ⟨nofun, h.aims, h.fair⟩
  · exact h

theorem step [DecidableEq τ] [DecidableEq κ] (h : Records w) (batchSize : Nat)
    (a : Act τ κ ι δ) : Records (w.step batchSize a) := by
  cases a with
  | event token delivered => exact h.event token delivered
  | transformed made => exact h.transformed batchSize made
  | flush => exact h.same rfl id id rfl rfl rfl
  | turn => exact h.turn
  | sent ok => exact h.sent ok
  | saved ok took => exact h.saves ok took
  | leaseLost => exact h.fail .leaseLost
  | stop => exact h.stop
  | read token =>
      simp only [Follower.step, Follower.read]
      split
      · exact h.same rfl id id rfl rfl rfl
      · exact h
  | beat | timer | finish reason =>
      simp only [Follower.step]
      split
      · exact h.same rfl id id rfl rfl rfl
      · exact h
  | forget =>
      simp only [Follower.step]
      split
      next done =>
        simp only [Bool.and_eq_true] at done
        refine ⟨fun _ alive => ?_, h.aims, h.fair⟩
        exact absurd done.1.1.1 (Bool.eq_false_iff.mp alive)
      · exact h

end Records

theorem records_opened (token : τ) : Records (opened token : Follower τ κ ι δ) :=
  ⟨fun _ _ => rfl, nofun, nofun⟩

theorem follow_records [DecidableEq τ] [DecidableEq κ] (batchSize : Nat) (token : τ)
    (acts : List (Act τ κ ι δ)) : Records (follow batchSize token acts) := by
  induction acts using List.reverseRecOn with
  | nil => exact records_opened token
  | append_singleton acts a ih =>
      rw [follow, List.foldl_append]
      exact ih.step batchSize a

/-- Exactly when a quiet flush that resolves leaves the position recorded, over every
run of a follower: every order of reads, events, transforms and flushes. -/
theorem follow_keepsUp [DecidableEq τ] [DecidableEq κ] (batchSize : Nat) (token : τ)
    (acts : List (Act τ κ ι δ)) (fl : Flushed τ)
    (resolved : fl ∈ (follow batchSize token acts).resolved) (quiet : fl.found.Quiet) :
    fl.recorded = fl.found.position ↔ fl.found.KeepsUp :=
  (follow_records batchSize token acts).fair fl resolved quiet

/-- One change is handled, queued and sent, and the stream moves on. -/
def busyThenQuiet : List (Act Nat Nat Nat Nat) :=
  [.event 1 true, .transformed (some (.upsert 7 70)), .timer, .turn, .sent true,
    .saved true true, .read (some 2), .beat, .turn]

/-- A follower that heard nothing but empty reads. -/
def alwaysQuiet : List (Act Nat Nat Nat Nat) :=
  [.read (some 1), .beat, .turn, .saved true true]

theorem follow_keepsUp_alwaysQuiet : (some 1 : Option Nat) = some 1 ↔
    Found.KeepsUp ⟨0, 0, false, none, some (1 : Nat), some 0⟩ :=
  follow_keepsUp 10 0 alwaysQuiet ⟨⟨0, 0, false, none, some 1, some 0⟩, some 1⟩
    (by decide) (by decide)

/-- The beat over a collection that became quiet finds the stream at 2, and leaves the
point at the change sent before; over one quiet from the start, it records it. -/
theorem quiet_falls_behind :
    (follow 10 0 busyThenQuiet).resolved.getLast? =
        some ⟨⟨0, 0, false, some 1, some 2, some 1⟩, some 1⟩ ∧
      (follow 10 0 busyThenQuiet).running.isNone ∧
      (follow 10 0 alwaysQuiet).resolved.getLast? =
        some ⟨⟨0, 0, false, none, some 1, some 0⟩, some 1⟩ := by
  decide

end NxgtData.Search
