import NxgtData.Wait.World
import NxgtData.Queue.Paths.Exec

/-!
The subscriber connection. The messages on their way are the events that follow those
that came, in their order, and a `PONG` among them comes after those that were
published before its `PING` was run.
-/
namespace NxgtData.Wait
open Queue

variable {J : Type} {m : GroupArgs} {w : World}

/-- What is on its way to the client: the messages in the order of the events from
`next` on, and each `PONG` after those published before its `PING` ran. -/
def Ordered (events : List Event) : Nat → List Push → Prop
  | next, [] => next = events.length
  | next, .message k e :: pushes =>
      k = next ∧ events[next]? = some e ∧ Ordered events (next + 1) pushes
  | next, .pong n :: pushes => n = next ∧ Ordered events next pushes
  | next, .confirmed :: pushes => Ordered events next pushes

section Ordered
variable {events : List Event} {next : Nat} {pushes : List Push}

theorem Ordered.snoc (h : Ordered events next pushes) {p : Push}
    (last : p = .confirmed ∨ p = .pong events.length) : Ordered events next (pushes ++ [p]) := by
  induction pushes generalizing next with
  | nil =>
      cases (show next = events.length from h)
      rcases last with rfl | rfl
      · rfl
      · exact ⟨rfl, rfl⟩
  | cons first pushes ih =>
      cases first with
      | confirmed => exact ih h
      | message k e => exact ⟨h.1, h.2.1, ih h.2.2⟩
      | pong n => exact ⟨h.1, ih h.2⟩

theorem ordered_messages (events new : List Event) :
    Ordered (events ++ new) events.length (messages events.length new) := by
  induction new generalizing events with
  | nil => simp [messages, Ordered]
  | cons e new ih =>
      refine ⟨rfl, by simp, ?_⟩
      have rest := ih (events ++ [e])
      simpa using rest

theorem Ordered.publish (h : Ordered events next pushes) (new : List Event) :
    Ordered (events ++ new) next (pushes ++ messages events.length new) := by
  induction pushes generalizing next with
  | nil =>
      cases (show next = events.length from h)
      exact ordered_messages events new
  | cons first pushes ih =>
      cases first with
      | confirmed => exact ih h
      | message k e =>
          obtain ⟨rfl, there, rest⟩ := h
          refine ⟨rfl, ?_, ih rest⟩
          obtain ⟨lt, -⟩ := List.getElem?_eq_some_iff.mp there
          rw [List.getElem?_append_left lt]
          exact there
      | pong n => exact ⟨h.1, ih h.2⟩

end Ordered

theorem pong_messages (before : Nat) (events : List Event) (n : Nat) :
    .pong n ∉ messages before events := by
  induction events generalizing before with
  | nil => exact List.not_mem_nil
  | cons e events ih =>
      intro mem
      rcases List.mem_cons.mp mem with eq | mem
      · cases eq
      · exact ih (before + 1) mem

/-- A script only appends to what was published. -/
theorem step_events {q : Keys} (c : Timed) (sends : c.2.Sends NewJob.GroupSound)
    (hb : Sane m q.toBoard) : q.events <+: (Queue.step m c q).2.events := by
  obtain ⟨as, path, -⟩ := exec_leads c.1 c.2 sends (fun _ sound => sound) hb
  refine (path.invariant (I := fun b => q.events <+: b.events) ?_ List.prefix_rfl)
  intro b a b' before move
  obtain ⟨ev, -, events⟩ := move.change
  rw [events]
  exact before.trans (List.prefix_append _ _)

structure Wired (w : World) : Prop where
  fresh : w.subscribed = false → w.pushes = [] ∧ (w.commands = [] ∨ w.commands = [.subscribe])
  asked : w.subscribed = true → .subscribe ∉ w.commands
  none : w.entry = none → w.commands = [] ∧ w.subscribed = false
  ready : w.entry = some true → w.subscribed = true
  ordered : w.subscribed = true → Ordered w.q.events w.next w.pushes ∧ w.since ≤ w.next
  bound : w.next ≤ w.published

/-- Nothing else is about the connection. -/
theorem Wired.kept (h : Wired w) {others absent readAt : Nat} {reads : List Read}
    {replies : List (Read × Option Outcome)} {phase : Phase} :
    Wired { w with others, reads, replies, absent, phase, readAt } :=
  ⟨h.fresh, h.asked, h.none, h.ready, h.ordered, h.bound⟩

theorem join_wired (h : Wired w) : Wired w.join := by
  unfold World.join
  split
  next none =>
    obtain ⟨commands, subscribed⟩ := h.none none
    obtain ⟨pushes, -⟩ := h.fresh subscribed
    refine ⟨fun _ => ⟨pushes, Or.inr ?_⟩, ?_, nofun, nofun, h.ordered, h.bound⟩
    · rw [commands, List.nil_append]
    · rw [subscribed]
      exact nofun
  next => exact h

theorem drop_wired (h : Wired w) : Wired w.drop :=
  ⟨fun _ => ⟨rfl, Or.inl rfl⟩, nofun, fun _ => ⟨rfl, rfl⟩, nofun, nofun, h.bound⟩

theorem join_of_entry (entry : w.entry ≠ none) : w.join = w := by
  unfold World.join
  split
  next none => exact absurd none entry
  next => rfl

theorem join_commands (c : Command) (mem : c ∈ w.join.commands) (ne : c ≠ .subscribe) :
    c ∈ w.commands := by
  unfold World.join at mem
  split at mem
  next =>
    rcases List.mem_append.mp mem with mem | mem
    · exact mem
    · exact absurd (List.mem_singleton.mp mem) ne
  next => exact mem

theorem join_same : w.join.q = w.q ∧ w.join.subscribed = w.subscribed ∧ w.join.next = w.next ∧
    w.join.reads = w.reads ∧ w.join.replies = w.replies ∧ w.join.absent = w.absent ∧
    w.join.readAt = w.readAt ∧ w.join.phase = w.phase ∧ w.join.pushes = w.pushes := by
  unfold World.join
  split <;> exact ⟨rfl, rfl, rfl, rfl, rfl, rfl, rfl, rfl, rfl⟩

theorem join_entry : w.join.entry ≠ none := by
  unfold World.join
  split
  next => exact Option.some_ne_none false
  next some =>
    rw [some]
    exact Option.some_ne_none _

theorem runCommand_wired (h : Wired w) : Wired w.runCommand := by
  unfold World.runCommand
  split
  next => exact h
  next commands eq =>
    have fresh : w.subscribed = false := by
      cases subscribed : w.subscribed with
      | false => rfl
      | true => exact absurd (eq ▸ List.mem_cons_self) (h.asked subscribed)
    obtain ⟨pushes, sent⟩ := h.fresh fresh
    have none : commands = [] := by
      rcases sent with sent | sent <;> rw [eq] at sent <;> cases sent
      rfl
    refine ⟨nofun, fun _ => ?_, fun entry => ?_, fun _ => rfl, fun _ => ⟨?_, Nat.le_refl _⟩,
      Nat.le_refl _⟩
    · change .subscribe ∉ commands
      rw [none]
      exact List.not_mem_nil
    · rw [(h.none entry).1] at eq
      cases eq
    · change Ordered w.q.events w.published (w.pushes ++ [.confirmed])
      rw [pushes]
      exact rfl
  next commands eq =>
    have now : w.subscribed = true := by
      cases subscribed : w.subscribed with
      | true => rfl
      | false =>
          rcases (h.fresh subscribed).2 with sent | sent <;> rw [eq] at sent <;> cases sent
    obtain ⟨ordered, since⟩ := h.ordered now
    refine ⟨fun fresh => ?_, fun _ mem => ?_, fun entry => ?_, h.ready,
      fun _ => ⟨ordered.snoc (Or.inr rfl), since⟩, h.bound⟩
    · rw [show w.subscribed = false from fresh] at now
      cases now
    · exact h.asked now (eq ▸ List.mem_cons_of_mem _ mem)
    · rw [(h.none entry).1] at eq
      cases eq

theorem subscribed_of_pushes (h : Wired w) {p : Push} {pushes : List Push}
    (eq : w.pushes = p :: pushes) : w.subscribed = true := by
  cases subscribed : w.subscribed with
  | true => rfl
  | false =>
      rw [(h.fresh subscribed).1] at eq
      cases eq

/-- The client takes the next push, which moves `next` on or leaves it. -/
theorem take_wired {entry : Option Bool} {pushes : List Push} {next : Nat} (h : Wired w)
    (now : w.subscribed = true) (none : entry = none → w.entry = none)
    (ordered : Ordered w.q.events next pushes) (le : w.next ≤ next) (bound : next ≤ w.published) :
    Wired { w with pushes, entry, next } where
  fresh fresh := by
    rw [show w.subscribed = false from fresh] at now
    cases now
  asked := h.asked
  none gone := h.none (none gone)
  ready _ := now
  ordered _ := ⟨ordered, (h.ordered now).2.trans le⟩
  bound := bound

end NxgtData.Wait
