import Mathlib.Data.List.Forall2

/-!
A server that runs tasks in the order they were enqueued, each whole or not at all. `Ran`
reads a log of tasks as the state it leads to: what has succeeded was performed on what the
tasks before it left, and past the first task still enqueued nothing has been performed.
-/
namespace NxgtData
namespace TaskLog

/-- What has come of a task. A failure may have a code of the server's. -/
inductive Status (ε : Type) where
  | enqueued
  | succeeded
  | failed (code : Option ε)
  | canceled
  deriving DecidableEq

structure Task (κ ε : Type) where
  uid : Nat
  kind : κ
  status : Status ε

variable {κ σ ε α : Type}

/-- Runs the oldest enqueued task. At a `fault` it fails without having been performed. -/
def work (perform : κ → σ → Except ε σ) (fault : Bool) :
    List (Task κ ε) → σ → List (Task κ ε) × σ
  | [], s => ([], s)
  | t :: rest, s =>
      match t.status with
      | .enqueued =>
          if fault then ({ t with status := .failed none } :: rest, s)
          else
            match perform t.kind s with
            | .ok s' => ({ t with status := .succeeded } :: rest, s')
            | .error code => ({ t with status := .failed (some code) } :: rest, s)
      | _ => (t :: (work perform fault rest s).1, (work perform fault rest s).2)

/-- Cancels a task that is still enqueued. -/
def cancel (uid : Nat) (log : List (Task κ ε)) : List (Task κ ε) :=
  log.map fun t =>
    match t.status with
    | .enqueued => if t.uid = uid then { t with status := .canceled } else t
    | _ => t

def enqueue (uid : Nat) (kind : κ) (log : List (Task κ ε)) : List (Task κ ε) :=
  log ++ [⟨uid, kind, .enqueued⟩]

def find (uid : Nat) (log : List (Task κ ε)) : Option (Task κ ε) := log.find? (·.uid = uid)

/-- None of the tasks has been run. -/
def Idle (log : List (Task κ ε)) : Prop := ∀ t ∈ log, t.status = .enqueued ∨ t.status = .canceled

/-- None of the tasks is left to run. -/
def Settled (log : List (Task κ ε)) : Prop := ∀ t ∈ log, t.status ≠ .enqueued

def Succeeded (log : List (Task κ ε)) : Prop := ∀ t ∈ log, t.status = .succeeded

def Ran (perform : κ → σ → Except ε σ) : List (Task κ ε) → σ → σ → Prop
  | [], s, s' => s' = s
  | t :: rest, s, s' =>
      match t.status with
      | .enqueued => s' = s ∧ Idle rest
      | .succeeded => ∃ m, perform t.kind s = .ok m ∧ Ran perform rest m s'
      | .failed (some code) => perform t.kind s = .error code ∧ Ran perform rest s s'
      | .failed none | .canceled => Ran perform rest s s'

/-- What a task may become: one that is not enqueued stays as it is. -/
def Advances (t t' : Task κ ε) : Prop :=
  t'.uid = t.uid ∧ t'.kind = t.kind ∧ (t.status ≠ .enqueued → t' = t)

theorem Succeeded.settled {log : List (Task κ ε)} (h : Succeeded log) : Settled log := by
  intro t mem
  rw [h t mem]
  simp

theorem Succeeded.append {A B : List (Task κ ε)} (a : Succeeded A) (b : Succeeded B) :
    Succeeded (A ++ B) := by
  intro t mem
  cases List.mem_append.mp mem with
  | inl mem => exact a t mem
  | inr mem => exact b t mem

theorem Advances.refl (t : Task κ ε) : Advances t t := ⟨rfl, rfl, fun _ => rfl⟩

theorem advances_refl (log : List (Task κ ε)) : List.Forall₂ Advances log log := by
  induction log with
  | nil => exact .nil
  | cons t rest ih => exact .cons (.refl t) ih

/-- A settled part of the log stays as it is. -/
theorem advances_settled {A B log : List (Task κ ε)} (settled : Settled A)
    (h : List.Forall₂ Advances (A ++ B) log) :
    ∃ B', log = A ++ B' ∧ List.Forall₂ Advances B B' := by
  induction A generalizing log with
  | nil => exact ⟨log, rfl, h⟩
  | cons a A ih =>
      cases h with
      | cons head tail =>
          obtain ⟨B', rfl, rest⟩ := ih (fun t mem => settled t (.tail _ mem)) tail
          rw [head.2.2 (settled a (.head _))]
          exact ⟨B', rfl, rest⟩

theorem advances_one {t : Task κ ε} {log : List (Task κ ε)}
    (h : List.Forall₂ Advances [t] log) : ∃ status, log = [⟨t.uid, t.kind, status⟩] := by
  cases h with
  | cons head tail =>
      cases tail
      exact ⟨_, by rw [← head.1, ← head.2.1]⟩

/-- A fact about uids and kinds survives whatever the server does. -/
theorem advances_forall {P : Nat → κ → Prop} {log log' : List (Task κ ε)}
    (h : List.Forall₂ Advances log log') (all : ∀ t ∈ log, P t.uid t.kind) :
    ∀ t ∈ log', P t.uid t.kind := by
  induction h with
  | nil => simp
  | cons head _ ih =>
      intro t mem
      cases mem with
      | head => rw [head.1, head.2.1]; exact all _ (.head _)
      | tail _ mem => exact ih (fun t mem => all t (.tail _ mem)) t mem

theorem advances_uids {log log' : List (Task κ ε)} (h : List.Forall₂ Advances log log') :
    log'.map (·.uid) = log.map (·.uid) := by
  induction h with
  | nil => rfl
  | cons head _ ih => rw [List.map_cons, List.map_cons, head.1, ih]

theorem advances_work (perform : κ → σ → Except ε σ) (fault : Bool) (log : List (Task κ ε))
    (s : σ) : List.Forall₂ Advances log (work perform fault log s).1 := by
  induction log with
  | nil => exact .nil
  | cons t rest ih =>
      rw [work]
      split
      next enqueued =>
        split
        next => exact .cons ⟨rfl, rfl, fun ne => absurd enqueued ne⟩ (advances_refl rest)
        next =>
          split
          next => exact .cons ⟨rfl, rfl, fun ne => absurd enqueued ne⟩ (advances_refl rest)
          next => exact .cons ⟨rfl, rfl, fun ne => absurd enqueued ne⟩ (advances_refl rest)
      next => exact .cons (.refl t) ih

theorem advances_cancel (uid : Nat) (log : List (Task κ ε)) :
    List.Forall₂ Advances log (cancel uid log) := by
  induction log with
  | nil => exact .nil
  | cons t rest ih =>
      refine .cons ?_ ih
      dsimp only
      split
      next enqueued =>
        split
        next => exact ⟨rfl, rfl, fun ne => absurd enqueued ne⟩
        next => exact .refl t
      next => exact .refl t

section Ran
variable {perform : κ → σ → Except ε σ}

theorem Idle.ran {log : List (Task κ ε)} (h : Idle log) (s : σ) : Ran perform log s s := by
  induction log with
  | nil => rfl
  | cons t rest ih =>
      have idle : Idle rest := fun t mem => h t (.tail _ mem)
      cases h t (.head _) with
      | inl enqueued => simp only [Ran, enqueued]; exact ⟨trivial, idle⟩
      | inr canceled => simp only [Ran, canceled]; exact ih idle

/-- Past a settled part, a log runs from what that part left. -/
theorem ran_append {A B : List (Task κ ε)} (settled : Settled A) {s s' : σ} :
    Ran perform (A ++ B) s s' ↔ ∃ m, Ran perform A s m ∧ Ran perform B m s' := by
  induction A generalizing s with
  | nil => simp [Ran]
  | cons t rest ih =>
      have rest_settled : Settled rest := fun t mem => settled t (.tail _ mem)
      simp only [List.cons_append, Ran]
      cases status : t.status with
      | enqueued => exact absurd status (settled t (.head _))
      | succeeded =>
          simp only [ih rest_settled]
          constructor
          · rintro ⟨n, done, m, before, after⟩
            exact ⟨m, ⟨n, done, before⟩, after⟩
          · rintro ⟨m, ⟨n, done, before⟩, after⟩
            exact ⟨n, done, m, before, after⟩
      | failed code =>
          cases code with
          | none => exact ih rest_settled
          | some code =>
              simp only [ih rest_settled]
              constructor
              · rintro ⟨refused, m, before, after⟩
                exact ⟨m, ⟨refused, before⟩, after⟩
              · rintro ⟨m, ⟨refused, before⟩, after⟩
                exact ⟨refused, m, before, after⟩
      | canceled => exact ih rest_settled

theorem ran_enqueue {log : List (Task κ ε)} {s s' : σ} (h : Ran perform log s s') (uid : Nat)
    (kind : κ) : Ran perform (enqueue uid kind log) s s' := by
  induction log generalizing s with
  | nil => exact ⟨h, by simp [Idle]⟩
  | cons t rest ih =>
      rw [enqueue, List.cons_append, ← enqueue, Ran]
      rw [Ran] at h
      cases status : t.status with
      | enqueued =>
          simp only [status] at h
          refine ⟨h.1, ?_⟩
          intro u mem
          cases List.mem_append.mp mem with
          | inl mem => exact h.2 u mem
          | inr mem => exact .inl (by rw [List.mem_singleton.mp mem])
      | succeeded =>
          simp only [status] at h
          obtain ⟨m, done, after⟩ := h
          exact ⟨m, done, ih after⟩
      | failed code =>
          cases code with
          | none => simp only [status] at h; exact ih h
          | some code => simp only [status] at h; exact ⟨h.1, ih h.2⟩
      | canceled => simp only [status] at h; exact ih h

theorem ran_cancel {log : List (Task κ ε)} {s s' : σ} (h : Ran perform log s s') (uid : Nat) :
    Ran perform (cancel uid log) s s' := by
  induction log generalizing s with
  | nil => exact h
  | cons t rest ih =>
      rw [cancel, List.map_cons, ← cancel]
      rw [Ran] at h
      cases status : t.status with
      | enqueued =>
          simp only [status] at h
          obtain ⟨rfl, idle⟩ := h
          have idle' : Idle (cancel uid rest) := by
            intro u mem
            obtain ⟨v, there, rfl⟩ := List.mem_map.mp mem
            cases idle v there with
            | inl enqueued => simp only [enqueued]; split <;> simp [enqueued]
            | inr canceled => simp [canceled]
          dsimp only
          split
          · simp only [Ran]; exact idle'.ran _
          · simp only [Ran, status]; exact ⟨trivial, idle'⟩
      | succeeded =>
          simp only [status] at h
          obtain ⟨m, done, after⟩ := h
          simp only [Ran, status]
          exact ⟨m, done, ih after⟩
      | failed code =>
          cases code with
          | none => simp only [status] at h; simp only [Ran, status]; exact ih h
          | some code => simp only [status] at h; simp only [Ran, status]; exact ⟨h.1, ih h.2⟩
      | canceled => simp only [status] at h; simp only [Ran, status]; exact ih h

/-- The oldest enqueued task is performed on what the log came to. -/
theorem ran_work {log : List (Task κ ε)} {s s' : σ} (h : Ran perform log s s') (fault : Bool) :
    Ran perform (work perform fault log s').1 s (work perform fault log s').2 := by
  induction log generalizing s with
  | nil => exact h.symm ▸ rfl
  | cons t rest ih =>
      rw [work]
      rw [Ran] at h
      cases status : t.status with
      | enqueued =>
          simp only [status] at h
          obtain ⟨rfl, idle⟩ := h
          dsimp only
          split
          next => simp only [Ran]; exact idle.ran _
          next =>
            split
            next m done => simp only [Ran]; exact ⟨m, done, idle.ran m⟩
            next code refused => simp only [Ran]; exact ⟨refused, idle.ran _⟩
      | succeeded =>
          simp only [status] at h
          obtain ⟨m, done, after⟩ := h
          simp only [Ran, status]
          exact ⟨m, done, ih after⟩
      | failed code =>
          cases code with
          | none => simp only [status] at h; simp only [Ran, status]; exact ih h
          | some code => simp only [status] at h; simp only [Ran, status]; exact ⟨h.1, ih h.2⟩
      | canceled => simp only [status] at h; simp only [Ran, status]; exact ih h

/-- What no performed task changes is as it was. -/
theorem Ran.keeps {log : List (Task κ ε)} {s s' : σ} (h : Ran perform log s s') (f : σ → α)
    (frame : ∀ t ∈ log, t.status = .succeeded →
      ∀ a b, perform t.kind a = .ok b → f b = f a) : f s' = f s := by
  induction log generalizing s with
  | nil => rw [show s' = s from h]
  | cons t rest ih =>
      have frame' := fun u mem => frame u (List.mem_cons_of_mem t mem)
      rw [Ran] at h
      cases status : t.status with
      | enqueued => simp only [status] at h; rw [h.1]
      | succeeded =>
          simp only [status] at h
          obtain ⟨m, done, after⟩ := h
          rw [ih after frame', frame t (.head _) status s m done]
      | failed code =>
          cases code with
          | none => simp only [status] at h; exact ih h frame'
          | some code => simp only [status] at h; exact ih h.2 frame'
      | canceled => simp only [status] at h; exact ih h frame'

end Ran

/-- A task is found by its uid when uids are not given twice. -/
theorem find_append {log rest : List (Task κ ε)} {t : Task κ ε}
    (before : ∀ u ∈ log, u.uid ≠ t.uid) : find t.uid (log ++ t :: rest) = some t := by
  have none : log.find? (fun u => decide (u.uid = t.uid)) = none := by
    rw [List.find?_eq_none]
    intro u mem
    simpa using before u mem
  rw [find, List.find?_append, none]
  simp

end TaskLog
end NxgtData
