import NxgtData.Wait.Connection
import NxgtData.Lib.Machine

/-!
What a wait settles with is real, over any acts in any order. Until it settles, it
has heard no outcome in the messages that reached it, and each answer to a read is
what the job's hash said at a moment after the call.
-/
namespace NxgtData.Wait
open Queue

variable {J V : Type} {m : GroupArgs} {json : Json J} {id : String}

/-- What the wait knows, until it has settled. -/
structure Waits (json : Json J) (id : String) (w : World) : Prop where
  entry : w.entry ≠ none
  begun : w.phase.polling = true → w.entry = some true
  passed : w.passed ≤ w.next
  late : w.joined = false → w.subscribed = true → w.start ≤ w.since
  start : w.start ≤ w.published
  now : w.q ∈ w.states
  /-- No message that it heard told an outcome of the job. -/
  silent : ∀ k e, w.passed ≤ k → w.since ≤ k → k < w.next → w.q.events[k]? = some e →
    fromMessage json id e = none
  replies : ∀ r o, (r, o) ∈ w.replies → ∃ q ∈ w.states, readStored json id q.toBoard = o
  answered : ∀ o, w.phase = .answered o → ∃ q ∈ w.states, readStored json id q.toBoard = o
  gone : w.phase = .flushing ∨ (∃ n, w.phase = .flushed n) ∨ 0 < w.absent →
    ∃ q ∈ w.states, readStored json id q.toBoard = some .absent
  once : w.reads.count .first + (w.replies.map Prod.fst).count .first ≤
    if w.phase = .reading then 1 else 0
  readAt : w.readAt ≤ w.published
  pings : .ping ∈ w.commands → w.phase.asked = true
  pongs : ∀ n, .pong n ∈ w.pushes → w.phase.asked = true ∧ w.readAt ≤ n
  flushed : ∀ n, w.phase = .flushed n → w.readAt ≤ n ∧ n ≤ w.next

/-- What it has settled with. -/
structure Real (json : Json J) (id : String) (w : World) (o : Outcome) (source : Source) : Prop where
  there : o ≠ .absent → (∃ q ∈ w.states, readStored json id q.toBoard = some o) ∨
    ∃ k e, source = .heard k ∧ w.q.events[k]? = some e ∧ fromMessage json id e = some o ∧
      w.passed ≤ k ∧ k < w.next ∧ (w.start ≤ k ∨ w.joined = true)
  absent : o = .absent → (∃ q ∈ w.states, readStored json id q.toBoard = some .absent) ∧
    (∀ k e, w.passed ≤ k → w.since ≤ k → k < w.next → w.q.events[k]? = some e →
      fromMessage json id e = none) ∧
    ∀ n, source = .flushed n → w.readAt ≤ n ∧ n ≤ w.next

structure Sound (m : GroupArgs) (json : Json J) (id : String) (w : World) : Prop where
  sane : Sane m w.q.toBoard
  told : Told w.q.toBoard
  wired : Wired w
  waits : w.phase.pending = true → Waits json id w
  real : ∀ o source, w.phase = .settled o source → Real json id w o source
  /-- Until the call there are no reads, and nothing but a `SUBSCRIBE` was sent. -/
  idle : w.phase = .idle → w.reads = [] ∧ w.replies = [] ∧ w.absent = 0 ∧
    .ping ∉ w.commands ∧ (∀ n, .pong n ∉ w.pushes) ∧ w.readAt ≤ w.published

theorem pending_of {phase : Phase} (running : ∀ o source, phase ≠ .settled o source)
    (going : phase ≠ .rejected) (called : phase ≠ .idle) : phase.pending = true := by
  cases phase with
  | idle => exact absurd rfl called
  | settled o source => exact absurd rfl (running o source)
  | rejected => exact absurd rfl going
  | _ => rfl

section Steps
variable {w : World}

theorem Waits.others (h : Waits json id w) (n : Nat) : Waits json id { w with others := n } :=
  { h with }

/-- A phase that no flush has led to tells of nothing absent but what was counted. -/
theorem Waits.counted (h : Waits json id w) {phase : Phase} (asked : phase.asked = false)
    (gone : phase = .flushing ∨ (∃ n, phase = .flushed n) ∨ 0 < w.absent) :
    ∃ q ∈ w.states, readStored json id q.toBoard = some .absent := by
  rcases gone with rfl | ⟨n, rfl⟩ | some
  · cases asked
  · cases asked
  · exact h.gone (Or.inr (Or.inr some))

theorem Sound.others (h : Sound m json id w) (n : Nat) : Sound m json id { w with others := n } where
  sane := h.sane
  told := h.told
  wired := h.wired.kept
  waits pending := (h.waits pending).others n
  real o source settled := ⟨(h.real o source settled).there, (h.real o source settled).absent⟩
  idle := h.idle

theorem serve_sound (h : Sound m json id w) (c : Timed) (sends : c.2.Sends NewJob.GroupSound)
    (running : ∀ o source, w.phase ≠ .settled o source) : Sound m json id (w.serve m c) := by
  have leads := exec_leads (q := w.q) c.1 c.2 sends (fun _ sound => sound) h.sane
  obtain ⟨new, events⟩ := step_events c sends h.sane
  have drop : (Queue.step m c w.q).2.events.drop w.published = new := by
    rw [← events]
    exact List.drop_left
  have published : (Queue.step m c w.q).2.events.length = w.published + new.length := by
    rw [← events, List.length_append]
    rfl
  have same : ∀ k, k < w.published → (Queue.step m c w.q).2.events[k]? = w.q.events[k]? := by
    intro k lt
    rw [← events]
    exact List.getElem?_append_left lt
  have wired := h.wired
  have bound := wired.bound
  refine ⟨leads.sane h.sane, h.told.leads leads h.sane, ?_, fun pending => ?_,
    fun o source settled => absurd settled (running o source), fun idle => ?_⟩
  · refine ⟨fun fresh => ?_, wired.asked, wired.none, wired.ready, fun subscribed => ?_, ?_⟩
    · simp only [World.serve, show w.subscribed = false from fresh]
      exact wired.fresh fresh
    · obtain ⟨ordered, since⟩ := wired.ordered subscribed
      simp only [World.serve, show w.subscribed = true from subscribed, ite_true, drop]
      refine ⟨?_, since⟩
      rw [← events]
      exact ordered.publish new
    · change w.next ≤ (Queue.step m c w.q).2.events.length
      omega
  · have waits := h.waits pending
    have states : (w.serve m c).states = w.states ++ [(Queue.step m c w.q).2] := if_pos pending
    have there : ∀ {o}, (∃ q ∈ w.states, readStored json id q.toBoard = o) →
        ∃ q ∈ (w.serve m c).states, readStored json id q.toBoard = o := by
      rintro o ⟨q, mem, stored⟩
      exact ⟨q, states ▸ List.mem_append_left _ mem, stored⟩
    have pushes : ∀ n, .pong n ∈ (w.serve m c).pushes → .pong n ∈ w.pushes := by
      intro n mem
      simp only [World.serve] at mem
      split at mem
      next => exact (List.mem_append.mp mem).resolve_right (pong_messages _ _ n)
      next => exact mem
    exact {
      entry := waits.entry
      begun := waits.begun
      passed := waits.passed
      late := waits.late
      start := by
        have start := waits.start
        change w.start ≤ (Queue.step m c w.q).2.events.length
        omega
      now := states ▸ List.mem_append_right _ (List.mem_singleton.mpr rfl)
      silent := fun k e passed since lt is =>
        waits.silent k e passed since lt ((same k (lt.trans_le bound)).symm.trans is)
      replies := fun r o mem => there (waits.replies r o mem)
      answered := fun o phase => there (waits.answered o phase)
      gone := fun gone => there (waits.gone gone)
      once := waits.once
      readAt := by
        have readAt := waits.readAt
        change w.readAt ≤ (Queue.step m c w.q).2.events.length
        omega
      pings := waits.pings
      pongs := fun n mem => waits.pongs n (pushes n mem)
      flushed := waits.flushed }
  · obtain ⟨reads, replies, absent, pings, pongs, readAt⟩ := h.idle idle
    refine ⟨reads, replies, absent, pings, fun n mem => ?_, ?_⟩
    · simp only [World.serve] at mem
      split at mem
      next => exact (List.mem_append.mp mem).elim (pongs n) (pong_messages _ _ n)
      next => exact pongs n mem
    · change w.readAt ≤ (Queue.step m c w.q).2.events.length
      omega

/-- The wait settles with an outcome that is real. -/
theorem settle_sound {o : Outcome} {source : Source} (sane : Sane m w.q.toBoard)
    (told : Told w.q.toBoard) (wired : Wired w) (real : Real json id w o source) :
    Sound m json id { w with phase := .settled o source } where
  sane := sane
  told := told
  wired := wired.kept
  waits := nofun
  real o' source' settled := by
    cases settled
    exact ⟨real.there, real.absent⟩
  idle := nofun

theorem stored_real {o : Outcome} {source : Source} (waits : Waits json id w)
    (stored : ∃ q ∈ w.states, readStored json id q.toBoard = some o)
    (flushed : ∀ n, source = .flushed n → w.readAt ≤ n ∧ n ≤ w.next) :
    Real json id w o source where
  there _ := Or.inl stored
  absent eq := by
    subst eq
    exact ⟨stored, waits.silent, flushed⟩

theorem reject_sound (h : Sound m json id w) : Sound m json id { w with phase := .rejected } where
  sane := h.sane
  told := h.told
  wired := h.wired.kept
  waits := nofun
  real := nofun
  idle := nofun

/-- While the wait is not called, all there is to keep is the connection. -/
theorem idle_sound {w' : World} (h : Sound m json id w) (idle : w.phase = .idle)
    (phase : w'.phase = .idle) (q : w'.q = w.q) (wired : Wired w') (reads : w'.reads = w.reads)
    (replies : w'.replies = w.replies) (absent : w'.absent = w.absent)
    (readAt : w'.readAt = w.readAt) (pings : .ping ∉ w'.commands)
    (pongs : ∀ n, .pong n ∉ w'.pushes) : Sound m json id w' where
  sane := q ▸ h.sane
  told := q ▸ h.told
  wired := wired
  waits pending := by
    rw [phase] at pending
    cases pending
  real o source settled := by
    rw [phase] at settled
    cases settled
  idle _ := by
    obtain ⟨none, none', zero, -, -, le⟩ := h.idle idle
    rw [reads, replies, absent, readAt, World.published, q]
    exact ⟨none, none', zero, pings, pongs, le⟩

theorem listen_sound (h : Sound m json id w) (running : ∀ o source, w.phase ≠ .settled o source)
    (going : w.phase ≠ .rejected) (n : Nat) : Sound m json id { w.join with others := n } := by
  by_cases idle : w.phase = .idle
  · obtain ⟨q, -, -, reads, replies, absent, readAt, phase, pushes⟩ := join_same (w := w)
    obtain ⟨-, -, -, pings, pongs, -⟩ := h.idle idle
    have joined : Sound m json id w.join := by
      refine idle_sound h idle (phase.trans idle) q (join_wired h.wired) reads replies absent readAt
        (fun mem => pings (join_commands _ mem nofun)) fun n mem => ?_
      rw [pushes] at mem
      exact pongs n mem
    exact joined.others n
  · rw [join_of_entry (h.waits (pending_of running going idle)).entry]
    exact h.others n

theorem leave_sound (h : Sound m json id w) (idle : w.phase = .idle) (n : Nat) :
    Sound m json id { w.drop with others := n } := by
  have dropped : Sound m json id w.drop :=
    idle_sound h idle idle rfl (drop_wired h.wired) rfl rfl rfl rfl List.not_mem_nil
      fun _ => List.not_mem_nil
  exact dropped.others n

theorem call_sound (h : Sound m json id w) (idle : w.phase = .idle) :
    Sound m json id w.call := by
  obtain ⟨reads, replies, absent, pings, pongs, readAt⟩ := h.idle idle
  obtain ⟨q, subscribed, next, reads', replies', absent', readAt', -, pushes⟩ := join_same (w := w)
  have wired := join_wired h.wired
  refine ⟨q ▸ h.sane, q ▸ h.told, ⟨wired.fresh, wired.asked, wired.none, wired.ready, wired.ordered,
    wired.bound⟩, fun _ => ?_, nofun, nofun⟩
  exact {
    entry := join_entry
    begun := nofun
    passed := next.ge
    late := fun before now => by
      rw [show w.join.subscribed = true from now] at subscribed
      rw [show w.subscribed = false from before] at subscribed
      cases subscribed
    start := by
      change w.published ≤ w.join.published
      rw [World.published, World.published, q]
    now := by
      change w.join.q ∈ [w.q]
      rw [q]
      exact List.mem_singleton.mpr rfl
    silent := fun k e passed _ lt => by
      change k < w.join.next at lt
      rw [next] at lt
      exact absurd lt (Nat.not_lt.mpr passed)
    replies := fun r o mem => by
      change (r, o) ∈ w.join.replies at mem
      rw [replies', replies] at mem
      exact absurd mem List.not_mem_nil
    answered := nofun
    gone := fun gone => by
      rcases gone with flushing | ⟨n, flushed⟩ | some
      · cases flushing
      · cases flushed
      · change 0 < w.join.absent at some
        rw [absent', absent] at some
        exact absurd some (Nat.lt_irrefl 0)
    once := by
      change w.join.reads.count .first + (w.join.replies.map Prod.fst).count .first ≤ 0
      rw [reads', replies', reads, replies]
      exact Nat.le_refl 0
    readAt := by
      change w.join.readAt ≤ w.join.published
      rw [readAt', World.published, q]
      exact readAt
    pings := fun mem => absurd (join_commands _ mem nofun) pings
    pongs := fun n mem => by
      change .pong n ∈ w.join.pushes at mem
      rw [pushes] at mem
      exact absurd mem (pongs n)
    flushed := nofun }

theorem runCommand_waits (wired : Wired w) (h : Waits json id w) : Waits json id w.runCommand := by
  unfold World.runCommand
  split
  next => exact h
  next commands eq =>
    exact { h with
      passed := h.passed.trans wired.bound
      late := fun _ _ => h.start
      silent := fun k e _ since lt => absurd lt (Nat.not_lt.mpr since)
      pings := fun mem => h.pings (eq ▸ List.mem_cons_of_mem _ mem)
      pongs := fun n mem => by
        rcases List.mem_append.mp mem with mem | mem
        · exact h.pongs n mem
        · cases List.mem_singleton.mp mem
      flushed := fun n phase => by
        obtain ⟨readAt, le⟩ := h.flushed n phase
        exact ⟨readAt, le.trans wired.bound⟩ }
  next commands eq =>
    exact { h with
      pings := fun mem => h.pings (eq ▸ List.mem_cons_of_mem _ mem)
      pongs := fun n mem => by
        rcases List.mem_append.mp mem with mem | mem
        · exact h.pongs n mem
        · cases List.mem_singleton.mp mem
          exact ⟨h.pings (eq ▸ List.mem_cons_self), h.readAt⟩ }

theorem runCommand_sound (h : Sound m json id w)
    (running : ∀ o source, w.phase ≠ .settled o source) : Sound m json id w.runCommand := by
  have same : w.runCommand.q = w.q ∧ w.runCommand.phase = w.phase ∧
      w.runCommand.reads = w.reads ∧ w.runCommand.replies = w.replies ∧
      w.runCommand.absent = w.absent ∧ w.runCommand.readAt = w.readAt := by
    unfold World.runCommand
    split <;> exact ⟨rfl, rfl, rfl, rfl, rfl, rfl⟩
  obtain ⟨q, phase, reads, replies, absent, readAt⟩ := same
  by_cases idle : w.phase = .idle
  · obtain ⟨-, -, -, pings, pongs, -⟩ := h.idle idle
    refine idle_sound h idle (phase.trans idle) q (runCommand_wired h.wired) reads replies absent
      readAt (fun mem => ?_) fun n mem => ?_
    · unfold World.runCommand at mem
      split at mem
      next => exact pings mem
      next eq => exact pings (eq ▸ List.mem_cons_of_mem _ mem)
      next eq => exact pings (eq ▸ List.mem_cons_self)
    · unfold World.runCommand at mem
      split at mem
      next => exact pongs n mem
      next =>
        rcases List.mem_append.mp mem with mem | mem
        · exact pongs n mem
        · cases List.mem_singleton.mp mem
      next eq => exact pings (eq ▸ List.mem_cons_self)
  · refine ⟨q ▸ h.sane, q ▸ h.told, runCommand_wired h.wired, fun pending => ?_,
      fun o source settled => ?_, fun now => ?_⟩
    · rw [phase] at pending
      exact runCommand_waits h.wired (h.waits pending)
    · rw [phase] at settled
      exact absurd settled (running o source)
    · rw [phase] at now
      exact absurd now idle

theorem confirmed_sound {pushes : List Push} (h : Sound m json id w)
    (running : ∀ o source, w.phase ≠ .settled o source) (eq : w.pushes = .confirmed :: pushes) :
    Sound m json id { w with pushes, entry := w.entry.map fun _ => true } := by
  have now := subscribed_of_pushes h.wired eq
  have ordered : Ordered w.q.events w.next (.confirmed :: pushes) := eq ▸ (h.wired.ordered now).1
  have wired : Wired { w with pushes, entry := w.entry.map fun _ => true } :=
    take_wired h.wired now Option.map_eq_none_iff.mp ordered (Nat.le_refl _) h.wired.bound
  have rest : ∀ n, .pong n ∈ pushes → .pong n ∈ w.pushes := fun n mem =>
    eq ▸ List.mem_cons_of_mem _ mem
  refine ⟨h.sane, h.told, wired, fun pending => ?_,
    fun o source settled => absurd settled (running o source), fun idle => ?_⟩
  · have waits := h.waits pending
    exact { waits with
      entry := fun gone => waits.entry (Option.map_eq_none_iff.mp gone)
      begun := fun polling => by
        change w.entry.map (fun _ => true) = some true
        rw [waits.begun polling]
        rfl
      pongs := fun n mem => waits.pongs n (rest n mem) }
  · obtain ⟨reads, replies, absent, pings, pongs, readAt⟩ := h.idle idle
    exact ⟨reads, replies, absent, pings, fun n mem => pongs n (rest n mem), readAt⟩

theorem message_sound {k : Nat} {e : Event} {pushes : List Push} (h : Sound m json id w)
    (running : ∀ o source, w.phase ≠ .settled o source) (eq : w.pushes = .message k e :: pushes) :
    Sound m json id
      ({ w with pushes, next := k + 1 }.apply (fromMessage json id e) (.heard k)) := by
  have now := subscribed_of_pushes h.wired eq
  obtain ⟨rfl, there, ordered⟩ : Ordered w.q.events w.next (.message k e :: pushes) :=
    eq ▸ (h.wired.ordered now).1
  have bound : w.next + 1 ≤ w.published := (List.getElem?_eq_some_iff.mp there).1
  have wired : Wired { w with pushes, next := w.next + 1 } :=
    take_wired h.wired now (fun gone => gone) ordered (Nat.le_succ _) bound
  have rest : ∀ n, .pong n ∈ pushes → .pong n ∈ w.pushes := fun n mem =>
    eq ▸ List.mem_cons_of_mem _ mem
  have unheard (silent : w.phase.pending = true → fromMessage json id e = none) :
      Sound m json id { w with pushes, next := w.next + 1 } := by
    refine ⟨h.sane, h.told, wired, fun pending => ?_,
      fun o source settled => absurd settled (running o source), fun idle => ?_⟩
    · have waits := h.waits pending
      exact { waits with
        passed := waits.passed.trans (Nat.le_succ _)
        silent := fun k e' passed since lt is => by
          rcases Nat.lt_succ_iff_lt_or_eq.mp lt with lt | rfl
          · exact waits.silent k e' passed since lt is
          · cases Option.some.inj (there.symm.trans is)
            exact silent pending
        pongs := fun n mem => waits.pongs n (rest n mem)
        flushed := fun n phase => by
          obtain ⟨readAt, le⟩ := waits.flushed n phase
          exact ⟨readAt, le.trans (Nat.le_succ _)⟩ }
    · obtain ⟨reads, replies, absent, pings, pongs, readAt⟩ := h.idle idle
      exact ⟨reads, replies, absent, pings, fun n mem => pongs n (rest n mem), readAt⟩
  unfold World.apply
  split
  next o outcome =>
    split
    next pending =>
      have waits := h.waits pending
      have real : ∃ k e, Source.heard w.next = .heard k ∧ w.q.events[k]? = some e ∧
          fromMessage json id e = some o ∧ w.passed ≤ k ∧ k < w.next + 1 ∧
          (w.start ≤ k ∨ w.joined = true) := by
        refine ⟨_, e, rfl, there, outcome, waits.passed, Nat.lt_succ_self _, ?_⟩
        cases joined : w.joined with
        | true => exact Or.inr rfl
        | false => exact Or.inl ((waits.late joined now).trans (h.wired.ordered now).2)
      refine settle_sound h.sane h.told wired ⟨fun _ => Or.inr real, fun absent => ?_⟩
      subst absent
      exact absurd outcome (fromMessage_ne_absent json id e)
    next still => exact unheard fun pending => absurd pending still
  next silent => exact unheard fun _ => silent

theorem pong_sound {n : Nat} {pushes : List Push} (h : Sound m json id w)
    (running : ∀ o source, w.phase ≠ .settled o source) (going : w.phase ≠ .rejected)
    (eq : w.pushes = .pong n :: pushes) :
    Sound m json id { w with pushes, phase := if w.phase = .flushing then .flushed n else w.phase } := by
  have now := subscribed_of_pushes h.wired eq
  obtain ⟨rfl, ordered⟩ : Ordered w.q.events w.next (.pong n :: pushes) :=
    eq ▸ (h.wired.ordered now).1
  have mem : .pong w.next ∈ w.pushes := eq ▸ List.mem_cons_self
  have rest : ∀ n, .pong n ∈ pushes → .pong n ∈ w.pushes := fun n mem =>
    eq ▸ List.mem_cons_of_mem _ mem
  have wired : Wired { w with pushes } :=
    take_wired h.wired now (fun gone => gone) ordered (Nat.le_refl _) h.wired.bound
  have pending : w.phase.pending = true := by
    refine pending_of running going fun idle => ?_
    obtain ⟨-, -, -, -, pongs, -⟩ := h.idle idle
    exact pongs _ mem
  have waits := h.waits pending
  split
  next flushing =>
    have once := waits.once
    rw [flushing] at once
    refine ⟨h.sane, h.told, wired.kept, fun _ => ?_, nofun, nofun⟩
    exact { waits with
      begun := fun _ => waits.begun (by rw [flushing]; rfl)
      answered := nofun
      gone := fun _ => waits.gone (Or.inl flushing)
      once
      pings := fun _ => rfl
      pongs := fun n mem => ⟨rfl, (waits.pongs n (rest n mem)).2⟩
      flushed := by
        rintro n ⟨⟩
        exact ⟨(waits.pongs _ mem).2, Nat.le_refl _⟩ }
  next =>
    refine ⟨h.sane, h.told, wired, fun _ => ?_,
      fun o source settled => absurd settled (running o source), fun idle => ?_⟩
    · exact { waits with pongs := fun n mem => waits.pongs n (rest n mem) }
    · rw [show w.phase = .idle from idle] at pending
      cases pending

theorem receive_sound (h : Sound m json id w) (running : ∀ o source, w.phase ≠ .settled o source)
    (going : w.phase ≠ .rejected) : Sound m json id (w.receive json id) := by
  unfold World.receive
  split
  next => exact h
  next eq => exact confirmed_sound h running eq
  next eq => exact message_sound h running eq
  next eq => exact pong_sound h running going eq

theorem begin_sound (h : Sound m json id w) (subscribing : w.phase = .subscribing)
    (ready : w.entry = some true) :
    Sound m json id { w with phase := .reading, reads := w.reads ++ [.first] } := by
  have waits := h.waits (by rw [subscribing]; rfl)
  have once := waits.once
  rw [subscribing] at once
  refine ⟨h.sane, h.told, h.wired.kept, fun _ => ?_, nofun, nofun⟩
  have unasked : w.phase.asked ≠ true := by
    rw [subscribing]
    exact nofun
  exact { waits with
    begun := fun _ => ready
    answered := nofun
    gone := waits.counted rfl
    once := by
      change (w.reads ++ [Read.first]).count Read.first +
        (w.replies.map Prod.fst).count Read.first ≤ 1
      rw [List.count_append, List.count_singleton_self]
      simp only [reduceCtorEq, if_false] at once
      omega
    pings := fun mem => absurd (waits.pings mem) unasked
    pongs := fun n mem => absurd (waits.pongs n mem).1 unasked
    flushed := nofun }

/-- What concerns the reads alone. -/
theorem reads_sound {reads : List Read} {replies : List (Read × Option Outcome)} {readAt : Nat}
    (h : Sound m json id w) (pending : w.phase.pending = true)
    (stored : ∀ r o, (r, o) ∈ replies → (∃ q ∈ w.states, readStored json id q.toBoard = o))
    (once : reads.count .first + (replies.map Prod.fst).count .first ≤
      if w.phase = .reading then 1 else 0)
    (le : readAt ≤ w.published) (same : w.phase ≠ .reading → readAt = w.readAt) :
    Sound m json id { w with reads, replies, readAt } := by
  have waits := h.waits pending
  have asked : w.phase.asked = true → readAt = w.readAt := by
    intro asked
    refine same fun reading => ?_
    rw [reading] at asked
    cases asked
  refine ⟨h.sane, h.told, h.wired.kept, fun _ => ?_, fun o source settled => ?_, fun idle => ?_⟩
  · exact { waits with
      replies := stored
      once
      readAt := le
      pongs := fun n mem => by
        obtain ⟨was, before⟩ := waits.pongs n mem
        exact ⟨was, (asked was).le.trans before⟩
      flushed := fun n phase => by
        rw [show readAt = w.readAt from asked (by rw [show w.phase = .flushed n from phase]; rfl)]
        exact waits.flushed n phase }
  · rw [show w.phase = .settled o source from settled] at pending
    cases pending
  · rw [show w.phase = .idle from idle] at pending
    cases pending

theorem reread_sound (h : Sound m json id w) (polling : w.phase.polling = true) :
    Sound m json id { w with reads := w.reads ++ [.again] } := by
  have pending : w.phase.pending = true := (Bool.and_eq_true_iff.mp polling).1
  have waits := h.waits pending
  refine reads_sound h pending waits.replies ?_ waits.readAt fun _ => rfl
  have again : [Read.again].count .first = 0 := rfl
  rw [List.count_append, again, Nat.add_zero]
  exact waits.once

theorem runRead_sound (h : Sound m json id w) (running : ∀ o source, w.phase ≠ .settled o source)
    (going : w.phase ≠ .rejected) : Sound m json id (w.runRead json id) := by
  unfold World.runRead
  split
  next => exact h
  next read reads eq =>
    have pending : w.phase.pending = true := by
      refine pending_of running going fun idle => ?_
      rw [(h.idle idle).1] at eq
      cases eq
    have waits := h.waits pending
    have once := waits.once
    rw [eq, List.count_cons] at once
    refine reads_sound h pending (fun r o mem => ?_) ?_ ?_ fun elsewhere => if_neg fun first => ?_
    · rcases List.mem_append.mp mem with mem | mem
      · exact waits.replies r o mem
      · cases List.mem_singleton.mp mem
        exact ⟨w.q, waits.now, rfl⟩
    · rw [List.map_append, List.count_append, List.map_singleton, List.count_singleton]
      change _ + (_ + if read == .first then 1 else 0) ≤ _
      omega
    · split
      next => exact Nat.le_refl _
      next => exact waits.readAt
    · subst first
      rw [if_neg elsewhere] at once
      simp at once

theorem answer_sound {o : Option Outcome} {replies : List (Read × Option Outcome)}
    (h : Sound m json id w) (pending : w.phase.pending = true)
    (eq : w.replies = (.first, o) :: replies) :
    Sound m json id
      { w with replies, phase := if w.phase = .reading then .answered o else w.phase } := by
  have waits := h.waits pending
  have once := waits.once
  rw [eq, List.map_cons, List.count_cons_self] at once
  have reading : w.phase = .reading := by
    by_contra elsewhere
    rw [if_neg elsewhere] at once
    omega
  rw [if_pos reading] at once ⊢
  refine ⟨h.sane, h.told, h.wired.kept, fun _ => ?_, nofun, nofun⟩
  have unasked : w.phase.asked ≠ true := by
    rw [reading]
    exact nofun
  exact { waits with
    begun := fun _ => waits.begun (by rw [reading]; rfl)
    replies := fun r o mem => waits.replies r o (eq ▸ List.mem_cons_of_mem _ mem)
    answered := fun o' phase => by
      cases phase
      exact waits.replies .first o (eq ▸ List.mem_cons_self)
    gone := waits.counted rfl
    once := by
      change w.reads.count .first + (replies.map Prod.fst).count .first ≤ 0
      omega
    pings := fun mem => absurd (waits.pings mem) unasked
    pongs := fun n mem => absurd (waits.pongs n mem).1 unasked
    flushed := nofun }

theorem reanswer_sound {o : Option Outcome} {replies : List (Read × Option Outcome)}
    (h : Sound m json id w) (pending : w.phase.pending = true)
    (eq : w.replies = (.again, o) :: replies) :
    let absent := if o = some .absent then w.absent + 1 else 0
    Sound m json id { w with replies, absent } := by
  have waits := h.waits pending
  have once := waits.once
  rw [eq, List.map_cons, List.count_cons_of_ne (by exact nofun)] at once
  refine ⟨h.sane, h.told, h.wired.kept, fun _ => ?_, ?_, ?_⟩
  · exact { waits with
      replies := fun r o mem => waits.replies r o (eq ▸ List.mem_cons_of_mem _ mem)
      gone := fun gone => by
        rcases gone with flushing | flushed | some
        · exact waits.gone (Or.inl flushing)
        · exact waits.gone (Or.inr (Or.inl flushed))
        · by_cases absent : o = Option.some Outcome.absent
          · obtain ⟨q, mem, stored⟩ := waits.replies .again o (eq ▸ List.mem_cons_self)
            exact ⟨q, mem, stored.trans absent⟩
          · change 0 < (if o = Option.some Outcome.absent then w.absent + 1 else 0) at some
            rw [if_neg absent] at some
            exact absurd some (Nat.lt_irrefl 0)
      once }
  · intro o source settled
    rw [show w.phase = .settled o source from settled] at pending
    cases pending
  · intro idle
    rw [show w.phase = .idle from idle] at pending
    cases pending

theorem reapply_sound {o : Option Outcome} (h : Sound m json id w)
    (pending : w.phase.pending = true)
    (stored : ∃ q ∈ w.states, readStored json id q.toBoard = o) :
    Sound m json id (w.apply o .reread) := by
  unfold World.apply
  cases o with
  | none => exact h
  | some o =>
      simp only [if_pos pending]
      exact settle_sound h.sane h.told h.wired (stored_real (h.waits pending) stored nofun)

theorem receiveRead_sound (h : Sound m json id w)
    (running : ∀ o source, w.phase ≠ .settled o source) (going : w.phase ≠ .rejected) :
    Sound m json id w.receiveRead := by
  have called {reply : Read × Option Outcome} {replies : List (Read × Option Outcome)}
      (eq : w.replies = reply :: replies) : w.phase.pending = true := by
    refine pending_of running going fun idle => ?_
    rw [(h.idle idle).2.1] at eq
    cases eq
  unfold World.receiveRead
  split
  next => exact h
  next eq => exact answer_sound h (called eq) eq
  next o replies eq =>
    have pending := called eq
    have known := reanswer_sound h pending eq
    have waits := h.waits pending
    by_cases last : o ≠ some .absent ∨ (if o = some .absent then w.absent + 1 else 0) ≥ 2
    · simp only [if_pos last]
      exact reapply_sound known pending (waits.replies .again _ (eq ▸ List.mem_cons_self))
    · simp only [if_neg last]
      exact known

theorem goOn_sound (h : Sound m json id w) : Sound m json id w.goOn := by
  unfold World.goOn
  split
  next phase =>
    have waits := h.waits (by rw [phase]; rfl)
    have ready := waits.begun (by rw [phase]; rfl)
    have once := waits.once
    rw [phase] at once
    have unasked : w.phase.asked ≠ true := by
      rw [phase]
      exact nofun
    have wired : Wired { w with commands := w.commands ++ [.ping] } := by
      have now := h.wired.ready ready
      refine ⟨fun fresh => ?_, fun _ mem => ?_, fun none => absurd none waits.entry, h.wired.ready,
        h.wired.ordered, h.wired.bound⟩
      · rw [show w.subscribed = false from fresh] at now
        cases now
      · rcases List.mem_append.mp mem with mem | mem
        · exact h.wired.asked now mem
        · cases List.mem_singleton.mp mem
    refine ⟨h.sane, h.told, wired.kept, fun _ => ?_, nofun, nofun⟩
    exact { waits with
      begun := fun _ => ready
      answered := nofun
      gone := fun _ => waits.answered _ phase
      once
      pings := fun _ => rfl
      pongs := fun n mem => absurd (waits.pongs n mem).1 unasked
      flushed := nofun }
  next o _ phase =>
    have waits := h.waits (by rw [phase]; rfl)
    exact settle_sound h.sane h.told h.wired (stored_real waits (waits.answered _ phase) nofun)
  next phase =>
    have waits := h.waits (by rw [phase]; rfl)
    have once := waits.once
    rw [phase] at once
    have unasked : w.phase.asked ≠ true := by
      rw [phase]
      exact nofun
    refine ⟨h.sane, h.told, h.wired.kept, fun _ => ?_, nofun, nofun⟩
    exact { waits with
      begun := fun _ => waits.begun (by rw [phase]; rfl)
      answered := nofun
      gone := waits.counted rfl
      once
      pings := fun mem => absurd (waits.pings mem) unasked
      pongs := fun n mem => absurd (waits.pongs n mem).1 unasked
      flushed := nofun }
  next n phase =>
    have waits := h.waits (by rw [phase]; rfl)
    refine settle_sound h.sane h.told h.wired (stored_real waits ?_ ?_)
    · exact waits.gone (Or.inr (Or.inl ⟨n, phase⟩))
    · rintro n' ⟨⟩
      exact waits.flushed n phase
  next => exact h

/-- What an act may do: a script that adds jobs gives each a group that is sound. -/
def Act.Sends : Act → Prop
  | .call c => c.2.Sends NewJob.GroupSound
  | _ => True

theorem step_sound (h : Sound m json id w) (a : Act) (sends : a.Sends) :
    Sound m json id (w.step m json id a) := by
  unfold World.step
  split
  next => exact h
  next => exact h
  next running going =>
    cases a with
    | call c => exact serve_sound h c sends running
    | listen => exact listen_sound h running going _
    | leave =>
        simp only
        split
        next last => exact leave_sound h last.2 0
        next => exact h.others _
    | finished =>
        simp only
        split
        next idle => exact call_sound h idle
        next => exact h
    | run => exact runCommand_sound h running
    | push => exact receive_sound h running going
    | «begin» =>
        simp only
        split
        next ready => exact begin_sound h ready.1 ready.2
        next => exact h
    | reread =>
        simp only
        split
        next polling => exact reread_sound h polling
        next => exact h
    | read => exact runRead_sound h running going
    | answer => exact receiveRead_sound h running going
    | goOn => exact goOn_sound h
    | reject =>
        simp only
        split
        next => exact reject_sound h
        next => exact h

end Steps
end NxgtData.Wait
