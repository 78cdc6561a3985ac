import NxgtData.Wait.Sound

/-!
What `finished` settles with. An outcome was read from the job's hash at a moment
after the call, or published after it, unless the channel was already subscribed;
and whichever brought it, it settles the call alike.
-/
namespace NxgtData.Wait
open Queue

variable {J V : Type}

/-- The world after acts, from an empty server. -/
def run (m : GroupArgs) (json : Json J) (id : String) (acts : List Act) : World :=
  acts.foldl (fun w a => w.step m json id a) {}

def Sends (acts : List Act) : Prop := ∀ a ∈ acts, a.Sends

/-- How the stored state settles a call. -/
def storedSettles (json : Json J) (schema : Option (Option J → Option V)) (id : String)
    (q : Keys) : Option (Settled V) :=
  (readStored json id q.toBoard).map (settleWith json schema)

/-- How a message settles a call. -/
def messageSettles (json : Json J) (schema : Option (Option J → Option V)) (id : String)
    (event : Event) : Option (Settled V) :=
  (fromMessage json id event).map (settleWith json schema)

namespace World

/-- What the call has settled with, and what brought it. -/
def settled (json : Json J) (schema : Option (Option J → Option V)) (w : World) :
    Option (Settled V × Source) :=
  match w.phase with
  | .settled o source => some (settleWith json schema o, source)
  | _ => none

end World

section Run
variable {m : GroupArgs} {json : Json J} {id : String}

theorem sound_empty : Sound m json id {} where
  sane := .empty m
  told _ _ was := by cases was
  wired := {
    fresh := fun _ => ⟨rfl, Or.inl rfl⟩
    asked := nofun
    none := fun _ => ⟨rfl, rfl⟩
    ready := nofun
    ordered := nofun
    bound := Nat.le_refl _ }
  waits := nofun
  real := nofun
  idle _ := ⟨rfl, rfl, rfl, List.not_mem_nil, fun _ => List.not_mem_nil, Nat.le_refl _⟩

theorem run_sound (acts : List Act) (sends : Sends acts) : Sound m json id (run m json id acts) := by
  induction acts using List.reverseRecOn with
  | nil => exact sound_empty
  | append_singleton acts a ih =>
      rw [run, List.foldl_append]
      have before := ih fun b mem => sends b (List.mem_append_left _ mem)
      exact step_sound before a (sends a (List.mem_append_right _ (List.mem_singleton.mpr rfl)))

theorem settleWith_eq_notFound {schema : Option (Option J → Option V)} {o : Outcome} :
    settleWith json schema o = .notFound ↔ o = .absent := by
  cases o with
  | completed result => simp only [settleWith]; split <;> simp
  | failed | canceled | absent => simp [settleWith]

end Run

/-- A wait reports a real outcome, over every order of the scripts, of the pushes, of
the answers and of the other listeners. What it settles with was in the hash at a
moment after the call, or was told by the message that settled it: one that came after
the call, and was published after it unless the channel was already subscribed then.
`NOT_FOUND` says that the job was absent at a moment after the
call, and that no message that came since the `SUBSCRIBE` told an outcome; where the
first read brought it, that is every message published before the `PING` that followed
that read. -/
theorem run_finished (m : GroupArgs) (json : Json J) (schema : Option (Option J → Option V))
    (id : String) (acts : List Act) (sends : Sends acts) :
    let w := run m json id acts
    (∀ value source, w.settled json schema = some (value, source) → value ≠ .notFound →
      (∃ q ∈ w.states, storedSettles json schema id q = some value) ∨
      ∃ k e, source = .heard k ∧ w.q.events[k]? = some e ∧
        messageSettles json schema id e = some value ∧ w.passed ≤ k ∧ k < w.next ∧
        (w.start ≤ k ∨ w.joined = true)) ∧
    (∀ source, w.settled json schema = some (.notFound, source) →
      (∃ q ∈ w.states, storedSettles json schema id q = some .notFound) ∧
      (∀ k e, w.passed ≤ k → w.since ≤ k → k < w.next → w.q.events[k]? = some e →
        fromMessage json id e = none) ∧
      ∀ n, source = .flushed n → w.readAt ≤ n ∧ n ≤ w.next) ∧
    ∀ value, storedSettles json schema id w.q = some value → value ≠ .notFound →
      ∃ e, lastOf id w.q.events = some e ∧
        (Written json e → messageSettles json schema id e = some value) := by
  intro w
  have sound : Sound m json id w := run_sound acts sends
  have real : ∀ value source, w.settled json schema = some (value, source) →
      ∃ o, value = settleWith json schema o ∧ Real json id w o source := by
    intro value source settled
    unfold World.settled at settled
    split at settled
    next o source' phase =>
      cases settled
      exact ⟨o, rfl, sound.real o source phase⟩
    next => cases settled
  refine ⟨fun value source settled found => ?_, fun source settled => ?_, fun value stored found => ?_⟩
  · obtain ⟨o, rfl, real⟩ := real value source settled
    have there : o ≠ .absent := fun absent => found (settleWith_eq_notFound.mpr absent)
    rcases real.there there with ⟨q, mem, stored⟩ | ⟨k, e, heard, is, told, came⟩
    · exact Or.inl ⟨q, mem, by rw [storedSettles, stored]; rfl⟩
    · exact Or.inr ⟨k, e, heard, is, by rw [messageSettles, told]; rfl, came⟩
  · obtain ⟨o, absent, real⟩ := real .notFound source settled
    obtain ⟨⟨q, mem, stored⟩, silent, flushed⟩ := real.absent (settleWith_eq_notFound.mp absent.symm)
    exact ⟨⟨q, mem, by rw [storedSettles, stored]; rfl⟩, silent, flushed⟩
  · obtain ⟨o, read, rfl⟩ := Option.map_eq_some_iff.mp stored
    have there : o ≠ .absent := fun absent => found (settleWith_eq_notFound.mpr absent)
    obtain ⟨e, last, told⟩ := sound.told.stored json read there
    exact ⟨e, last, fun written => by rw [messageSettles, told written]; rfl⟩

/-! Two runs, of a job whose one result is the number 1. -/

/-- JSON of texts alone: what is written is read back as it is. -/
def Json.texts : Json String where
  stringify := some
  parse := some
  text _ _ := none
  stable _ := ⟨_, rfl, rfl⟩

def onlyJob : AddJob := { id := "a", data := "null", priority := 0, attempts := 1 }

/-- The job is claimed, and completes: with `keep` 0 its hash goes with it. -/
def completing (keep : Int) : List Act :=
  [.call (1000, .claim 30000 none ["t"]),
    .call (2000, .complete "a" "t" keep keep 30000 "u" "1" none)]

/-- The channel has a listener before the call, to which the result of an earlier job
under the id is still on its way. -/
def lateMessage : List Act :=
  [.listen, .run, .push, .call (0, .add [onlyJob])] ++ completing (-1) ++
    [.call (3000, .remove "a"), .call (4000, .add [onlyJob]), .finished, .push]

/-- The first read finds the job waiting; its message is on its way while two re-reads
find its hash gone. -/
def lateResult : List Act :=
  [.call (0, .add [onlyJob]), .finished, .run, .push, .begin, .read, .answer, .goOn] ++
    completing 0 ++ [.reread, .read, .answer, .reread, .read, .answer]

theorem sends_lateResult : Sends lateResult := by
  intro a mem
  simp only [lateResult, completing, List.cons_append, List.nil_append, List.mem_cons,
    List.not_mem_nil, or_false] at mem
  rcases mem with rfl | rfl | rfl | rfl | rfl | rfl | rfl | rfl | rfl | rfl | rfl | rfl | rfl |
    rfl | rfl | rfl
  · intro j mem
    rw [List.mem_singleton.mp mem]
    rfl
  all_goals trivial

theorem run_finished_lateResult :
    (run ⟨false, 0⟩ .texts "a" lateResult).settled .texts (some fun v => v) = some (.notFound, .reread) ∧
      ∃ q ∈ (run ⟨false, 0⟩ .texts "a" lateResult).states,
        storedSettles .texts (some fun v => v) "a" q = some .notFound :=
  have settled : (run ⟨false, 0⟩ .texts "a" lateResult).settled .texts (some fun v => v) =
      some (.notFound, .reread) := by decide
  have finished := run_finished ⟨false, 0⟩ .texts (some fun v => v) "a" lateResult sends_lateResult
  ⟨settled, (finished.2.1 .reread settled).1⟩

/-- An outcome that is neither of the job nor reached after the call, and a `NOT_FOUND`
with an outcome that was published after the `SUBSCRIBE`. -/
theorem lateMessages_settle :
    (let w := run ⟨false, 0⟩ .texts "a" lateMessage;
      w.phase = .settled (.completed (some "1")) (.heard 0) ∧
        ¬ ((∃ q ∈ w.states, readStored .texts "a" q.toBoard = some (.completed (some "1"))) ∨
          ∃ k e, w.q.events[k]? = some e ∧
            fromMessage .texts "a" e = some (.completed (some "1")) ∧ w.start ≤ k)) ∧
    (let w := run ⟨false, 0⟩ .texts "a" lateResult;
      w.phase = .settled .absent .reread ∧ w.joined = false ∧
        ¬ ∀ k e, w.since ≤ k → w.q.events[k]? = some e → fromMessage .texts "a" e = none) := by
  refine ⟨⟨by decide, ?_⟩, by decide, by decide, fun silent => ?_⟩
  · have states : (run ⟨false, 0⟩ .texts "a" lateMessage).states.map
        (fun q => readStored .texts "a" q.toBoard) = [none] := by decide
    have published : (run ⟨false, 0⟩ .texts "a" lateMessage).q.events.length = 1 := by decide
    have start : (run ⟨false, 0⟩ .texts "a" lateMessage).start = 1 := by decide
    rintro (⟨q, mem, stored⟩ | ⟨k, e, is, -, after⟩)
    · have mem := List.mem_map_of_mem (f := fun q => readStored .texts "a" q.toBoard) mem
      rw [states, stored] at mem
      cases List.mem_singleton.mp mem
    · have lt := (List.getElem?_eq_some_iff.mp is).1
      omega
  · have told := silent 0 (.completed "a" "1") (by decide) (by decide)
    revert told
    decide

end NxgtData.Wait
