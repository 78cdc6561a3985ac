import Mathlib.Data.List.SplitOn
import NxgtData.Queue.ResolveAdd
import NxgtData.Wiring.Checks

/-!
`job.key`: the deployment's prefix, the queue's name, the job's id and a step's
name, joined with colons. A queue's name and a step's hold none, an id and a
prefix may. Read at its colons a key is the segments of its parts one after
another, so two keys can only be equal when their parts are, or when the prefix
of one deployment goes on, at a colon, with the other's prefix and queue.
-/
namespace NxgtData.Queue
open Wiring

/-- `MAX_STEP_NAME`. -/
def maxStepName : Nat := 128

def checkStepName (queue : Utf16) (call : String) : Js → Except Refusal Utf16
  | .string name =>
      if name.length = 0 ∨ maxStepName < name.length ∨ colon ∈ name then
        .error (refuseCall call queue "name is a string of 1 to 128 characters without \":\"")
      else .ok name
  | _ => .error (refuseCall call queue "name is a string of 1 to 128 characters without \":\"")

/-- What `stepKey` reads of its scope, and the step. -/
structure StepScope where
  keyPrefix : Option Utf16
  queue : Utf16
  id : Utf16

def StepScope.base (s : StepScope) : Utf16 :=
  match s.keyPrefix with
  | none => s.queue
  | some given => given ++ colon :: s.queue

def stepKey (s : StepScope) (name : Js) : Except Refusal Utf16 := do
  let step ← checkStepName s.queue "key" name
  .ok (s.base ++ colon :: (s.id ++ colon :: step))

/-- A scope a worker can run a job in: the instance that wires the queue, the
queue's definition and the `add` of the job were accepted. The script sends back
the text of the id it was sent. -/
structure StepScope.Accepted (s : StepScope) : Prop where
  wired : ∃ call name instance_ key, checkInstance call name instance_ = .ok () ∧
    instance_.keyPrefix = s.keyPrefix ∧ (key, s.queue) ∈ instance_.queues
  defined : ∃ call name, resolveName call name = .ok s.queue
  added : ∃ options uuid call grouped resolved,
    resolveAdd options uuid call s.queue grouped = .ok resolved ∧ resolved.id.text = s.id.text

/-! A key read at its colons. -/

/-- The parts of a text between its colons. -/
def segments (s : Utf16) : List Utf16 := s.splitOn colon

theorem segments_join (s t : Utf16) :
    segments (s ++ colon :: t) = segments s ++ segments t :=
  List.splitOn_append_cons_self s t

theorem segments_of_free {s : Utf16} (free : colon ∉ s) : segments s = [s] :=
  List.splitOn_eq_singleton free

theorem segments_injective : Function.Injective segments := by
  intro s t same
  have whole (u : Utf16) : [colon].intercalate (segments u) = u := List.intercalate_splitOn colon
  rw [← whole s, ← whole t, same]

/-- The segments of a prefix, none without one. -/
def StepScope.deployment (s : StepScope) : List Utf16 :=
  match s.keyPrefix with
  | none => []
  | some given => segments given

theorem deployment_eq {s t : StepScope} (same : s.deployment = t.deployment) :
    s.keyPrefix = t.keyPrefix := by
  obtain ⟨p, q, i⟩ := s
  obtain ⟨p', q', i'⟩ := t
  cases p with
  | none =>
      cases p' with
      | none => rfl
      | some given => exact absurd same.symm (List.splitOn_ne_nil colon given)
  | some given =>
      cases p' with
      | none => exact absurd same (List.splitOn_ne_nil colon given)
      | some given' => exact congrArg some (segments_injective same)

/-- The prefix of `t` goes on, at a colon, with the prefix and the queue of `s`, and
the id of `s` says the rest of that prefix, the queue of `t` and the id of `t`. -/
def StepScope.Continued (s t : StepScope) : Prop :=
  ∃ rest, t.deployment = s.deployment ++ s.queue :: rest ∧
    segments s.id = rest ++ t.queue :: segments t.id

theorem segments_base {s : StepScope} (free : colon ∉ s.queue) :
    segments s.base = s.deployment ++ [s.queue] := by
  obtain ⟨p, q, i⟩ := s
  cases p with
  | none => exact segments_of_free free
  | some given => exact (segments_join given q).trans (by rw [segments_of_free free]; rfl)

theorem resolveName_free {call : String} {given : Js} {name : Utf16}
    (ok : resolveName call given = .ok name) : colon ∉ name := by
  unfold resolveName at ok
  split at ok
  next u us =>
    dsimp only at ok
    split at ok
    next => cases ok
    next =>
      split at ok
      next => cases ok
      next free =>
        cases ok
        exact free
  next => cases ok

theorem checkStepName_ok {queue : Utf16} {call : String} {given : Js} {name : Utf16}
    (ok : checkStepName queue call given = .ok name) : given = .string name ∧ colon ∉ name := by
  unfold checkStepName at ok
  split at ok
  next =>
    split at ok
    next => cases ok
    next bounds =>
      cases ok
      exact ⟨rfl, fun has => bounds (Or.inr (Or.inr has))⟩
  next => cases ok

theorem StepScope.Accepted.free {s : StepScope} (h : s.Accepted) : colon ∉ s.queue := by
  obtain ⟨call, name, ok⟩ := h.defined
  exact resolveName_free ok

/-- The segments of a key are those of its parts, and the step's name is one. -/
theorem stepKey_ok {s : StepScope} {name : Js} {key : Utf16} (free : colon ∉ s.queue)
    (ok : stepKey s name = .ok key) :
    ∃ step, name = .string step ∧
      segments key = (s.deployment ++ s.queue :: segments s.id) ++ [step] := by
  obtain ⟨step, checked, rest⟩ := bind_ok ok
  cases rest
  obtain ⟨is, free'⟩ := checkStepName_ok checked
  refine ⟨step, is, ?_⟩
  rw [segments_join, segments_join, segments_base free, segments_of_free free']
  simp only [List.append_assoc, List.cons_append, List.nil_append]

theorem continued_of_longer {s t : StepScope} {more : List Utf16}
    (wiring : t.deployment = s.deployment ++ more)
    (jobs : s.queue :: segments s.id = more ++ t.queue :: segments t.id) :
    s = t ∨ s.Continued t := by
  cases more with
  | nil =>
      obtain ⟨queues, ids⟩ := List.cons.inj jobs
      have prefixes := deployment_eq (wiring.trans (List.append_nil _))
      refine Or.inl ?_
      obtain ⟨p, q, i⟩ := s
      obtain ⟨p', q', i'⟩ := t
      cases prefixes
      cases queues
      cases segments_injective ids
      rfl
  | cons first rest =>
      obtain ⟨queues, ids⟩ := List.cons.inj jobs
      exact Or.inr ⟨rest, by rw [wiring, queues], ids⟩

/-- Two scopes read the same before the step when they are the same, or one's
prefix goes on with the other's prefix and queue. -/
theorem parts_eq_iff {s t : StepScope} :
    s.deployment ++ s.queue :: segments s.id = t.deployment ++ t.queue :: segments t.id ↔
      s = t ∨ s.Continued t ∨ t.Continued s := by
  constructor
  next =>
    intro same
    rcases List.append_eq_append_iff.mp same with ⟨more, wiring, jobs⟩ | ⟨more, wiring, jobs⟩
    next => exact (continued_of_longer wiring jobs).imp_right Or.inl
    next => exact (continued_of_longer wiring jobs).imp Eq.symm Or.inr
  next =>
    rintro (rfl | ⟨rest, wiring, id⟩ | ⟨rest, wiring, id⟩)
    next => rfl
    next => rw [wiring, id, List.append_assoc, List.cons_append]
    next => rw [wiring, id, List.append_assoc, List.cons_append]

/-- Two keys are equal exactly when they are of one step of one job, or the prefix of
one deployment goes on with the other's prefix and queue and the job's id with the
rest. One deployment, and deployments of which neither's prefix goes on with the
other's, never share a key. -/
theorem stepKey_eq_iff {s t : StepScope} {m n : Js} {key key' : Utf16}
    (hs : s.Accepted) (ht : t.Accepted) (mine : stepKey s m = .ok key)
    (theirs : stepKey t n = .ok key') :
    key = key' ↔ m = n ∧ (s = t ∨ s.Continued t ∨ t.Continued s) := by
  obtain ⟨step, rfl, parts⟩ := stepKey_ok hs.free mine
  obtain ⟨step', rfl, parts'⟩ := stepKey_ok ht.free theirs
  rw [← segments_injective.eq_iff, parts, parts', ← List.concat_eq_append,
    ← List.concat_eq_append, List.concat_inj, parts_eq_iff, Js.string.injEq, and_comm]

/-- An instance with the prefix that wires the queue alone. -/
def StepScope.instanceConfig (s : StepScope) : InstanceConfig :=
  { client := true, keyPrefix := s.keyPrefix, queues := [([107], s.queue)] }

theorem accepted_of_checks {s : StepScope}
    (wiring : checkInstance "defineRedis" [114] s.instanceConfig = .ok ())
    (queue : resolveName "defineQueue" (.string s.queue) = .ok s.queue)
    (job : resolveAdd { id := .string s.id } [] "add" s.queue false =
      .ok ⟨s.id, ⟨0, Nat.zero_le _⟩, 0, -1, none, ⟨.none, [], 0, 0⟩, ⟨[], Or.inl rfl⟩⟩) :
    s.Accepted where
  wired := ⟨_, _, s.instanceConfig, [107], wiring, rfl, List.mem_singleton_self _⟩
  defined := ⟨_, _, queue⟩
  added := ⟨_, _, _, _, _, job, rfl⟩

/-- The jobs `a` and `b` of queue `x` under `app`. -/
theorem stepKey_ab : ([97, 112, 112, 58, 120, 58, 97, 58, 115] : Utf16) =
    [97, 112, 112, 58, 120, 58, 98, 58, 115] ↔ Js.string [115] = .string [115] ∧
      ((⟨some [97, 112, 112], [120], [97]⟩ : StepScope) = ⟨some [97, 112, 112], [120], [98]⟩ ∨
        StepScope.Continued ⟨some [97, 112, 112], [120], [97]⟩ ⟨some [97, 112, 112], [120], [98]⟩ ∨
        StepScope.Continued ⟨some [97, 112, 112], [120], [98]⟩
          ⟨some [97, 112, 112], [120], [97]⟩) :=
  stepKey_eq_iff (accepted_of_checks rfl rfl rfl) (accepted_of_checks rfl rfl rfl) rfl rfl

/-- Queue `x` under `app` with the job `y:1`, and queue `y` under `app:x` with the
job `1`. -/
theorem stepKey_merges : ¬ ∀ s t m n key key', s.Accepted → t.Accepted →
    stepKey s m = .ok key → stepKey t n = .ok key' → key = key' → s = t ∧ m = n := by
  intro unambiguous
  have same := unambiguous ⟨some [97, 112, 112], [120], [121, 58, 49]⟩
    ⟨some [97, 112, 112, 58, 120], [121], [49]⟩ (.string [115]) (.string [115])
    [97, 112, 112, 58, 120, 58, 121, 58, 49, 58, 115] _
    (accepted_of_checks rfl rfl rfl) (accepted_of_checks rfl rfl rfl) rfl rfl rfl
  exact absurd (congrArg StepScope.queue same.1) (by decide)

end NxgtData.Queue
