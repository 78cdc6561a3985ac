import NxgtData.Idempotency.Run

/-!
Who holds the key, by the history: the run that took it last, until its record
expires, is deleted or released. Whatever happens next, its entry is one that the
history before it allows, and the key stays as its holder wrote it.
-/
namespace NxgtData.Idempotency

variable {J : Type} {ctx : Context J}

/-- The run whose record the key holds, after one more entry. -/
def Entry.holder (held : Option Nat) : Entry J → Option Nat
  | .took i => some i
  | .released _ | .expired | .deleted => none
  | _ => held

def holder (log : List (Entry J)) : Option Nat := log.foldl Entry.holder none

theorem holder_snoc (log : List (Entry J)) (e : Entry J) :
    holder (log ++ [e]) = e.holder (holder log) := by
  rw [holder, List.foldl_append]
  rfl

/-- What may come next in a history. -/
def Allowed (ctx : Context J) (log : List (Entry J)) : Entry J → Prop
  | .took _ => holder log = none
  | .called i => .took i ∈ log ∧ .called i ∉ log ∧ .abandoned i ∉ log
  | .worked _ json value => fromStored ctx json = .ok value
  | .abandoned i => .called i ∉ log
  | .stored i _ json => holder log = some i ∧ ∃ value, .worked i json value ∈ log
  | .released i => holder log = some i ∧ (.failed i ∈ log ∨ .abandoned i ∈ log)
  | .replayed _ fp value => ∃ i json, .stored i fp json ∈ log ∧ fromStored ctx json = .ok value
  | .failed _ | .expired | .deleted => True

/-- The key is absent, or a record of its holder in one of two shapes. -/
inductive Kept (log : List (Entry J)) (runs : Nat → Option (Run J)) : Option Key → Prop where
  | absent (free : holder log = none) : Kept log runs none
  | running {i : Nat} {r : Run J} {k : Key} (held : holder log = some i) (run : runs i = some r)
      (shape : Running r.token.1 r.fp.1 k) : Kept log runs (some k)
  | done {i : Nat} {r : Run J} {k : Key} {json : String} (held : holder log = some i)
      (run : runs i = some r) (shape : Done r.fp.1 json k) (stored : .stored i r.fp.1 json ∈ log) :
      Kept log runs (some k)

/-- A run that has not had its answer yet. -/
def Phase.waits : Phase J → Prop
  | .beginning _ | .sleeping _ _ => True
  | _ => False

/-- What holds between a history and the world it led to. -/
structure Sound (log : List (Entry J)) (w : World J) : Prop where
  used : ∀ i r, w.runs i = some r → r.token ∈ w.used
  fresh : ∀ i j r s, w.runs i = some r → w.runs j = some s → r.token = s.token → i = j
  kept : Kept log w.runs w.key
  releases : ∀ i, (i, .release) ∈ w.sent → .failed i ∈ log ∨ .abandoned i ∈ log
  completes : ∀ i json, (i, .complete json) ∈ w.sent → ∃ value, .worked i json value ∈ log
  started : ∀ i, (i, .begun .started) ∈ w.answers → .took i ∈ log
  done : ∀ i json, (i, .begun (.done json)) ∈ w.answers →
    ∃ r j, w.runs i = some r ∧ .stored j r.fp.1 json ∈ log
  waits : ∀ i, (∀ r, w.runs i = some r → r.phase.waits) → .called i ∉ log ∧ .abandoned i ∉ log
  replays : ∀ i r value, w.runs i = some r → r.phase = .returned value true →
    .replayed i r.fp.1 value ∈ log

theorem sound_empty : Sound ([] : List (Entry J)) .empty where
  used := fun _ _ run => by cases run
  fresh := fun _ _ _ _ run => by cases run
  kept := .absent rfl
  releases := fun _ mem => absurd mem List.not_mem_nil
  completes := fun _ _ mem => absurd mem List.not_mem_nil
  started := fun _ mem => absurd mem List.not_mem_nil
  done := fun _ _ mem => absurd mem List.not_mem_nil
  waits := fun _ _ => ⟨List.not_mem_nil, List.not_mem_nil⟩
  replays := fun _ _ _ run => by cases run

namespace Kept
variable {log : List (Entry J)} {runs runs' : Nat → Option (Run J)} {key : Option Key} {i : Nat}
  {r : Run J}

/-- A record that a token holds is its run's. -/
theorem owner (h : Kept log runs key)
    (fresh : ∀ i j r s, runs i = some r → runs j = some s → r.token = s.token → i = j)
    (run : runs i = some r) (held : holds r.token.1 key = true) :
    holder log = some i ∧ ∃ k, key = some k ∧ Running r.token.1 r.fp.1 k := by
  cases h with
  | absent => cases held
  | @running j s k owns run' shape =>
      have same : s.token = r.token := Subtype.ext (shape.holds_iff.mp held)
      obtain rfl := fresh j i s r run' run same
      rw [run] at run'
      cases run'
      exact ⟨owns, k, rfl, shape⟩
  | done _ _ shape =>
      rw [shape.not_holds] at held
      cases held

/-- Entries that leave the holder leave the record kept. -/
theorem snoc (h : Kept log runs key) {e : Entry J} (same : e.holder (holder log) = holder log) :
    Kept (log ++ [e]) runs key := by
  have holds := (holder_snoc log e).trans same
  cases h with
  | absent free => exact .absent (holds.trans free)
  | running held run shape => exact .running (holds.trans held) run shape
  | done held run shape stored =>
      exact .done (holds.trans held) run shape (List.mem_append_left _ stored)

/-- Runs that keep their token and fingerprint keep the record. -/
theorem runs_congr (h : Kept log runs key)
    (same : ∀ i r, runs i = some r → ∃ r', runs' i = some r' ∧ r'.token = r.token ∧ r'.fp = r.fp) :
    Kept log runs' key := by
  cases h with
  | absent free => exact .absent free
  | running held run shape =>
      obtain ⟨r', run', token, fp⟩ := same _ _ run
      exact .running held run' (token ▸ fp ▸ shape)
  | done held run shape stored =>
      obtain ⟨r', run', -, fp⟩ := same _ _ run
      exact .done held run' (fp ▸ shape) (fp ▸ stored)

/-- A record has three fields. -/
theorem hlen {k : Key} (h : Kept log runs (some k)) : k.hash.hlen = 3 := by
  cases h with
  | running _ _ shape => exact shape.hlen
  | done _ _ shape _ => exact shape.hlen

end Kept

namespace Sound
variable {log : List (Entry J)} {w : World J} {i : Nat} {r : Run J}

/-- A run that stands elsewhere, and does not go back to waiting. -/
theorem put (h : Sound log w) (was : w.runs i = some r) (r' : Run J) (token : r'.token = r.token)
    (fp : r'.fp = r.fp) (waits : r'.phase.waits → r.phase.waits)
    (replays : ∀ value, r'.phase = .returned value true → .replayed i r.fp.1 value ∈ log) :
    Sound log (w.put i r') := by
  have same : ∀ j s, w.runs j = some s → ∃ s', (w.put i r').runs j = some s' ∧
      s'.token = s.token ∧ s'.fp = s.fp ∧ (s'.phase.waits → s.phase.waits) := by
    intro j s run
    by_cases own : j = i
    · subst own
      rw [was] at run
      cases run
      exact ⟨r', Function.update_self .., token, fp, waits⟩
    · exact ⟨s, (Function.update_of_ne own _ _).trans run, rfl, rfl, id⟩
  have back : ∀ j s', (w.put i r').runs j = some s' →
      ∃ s, w.runs j = some s ∧ s'.token = s.token := by
    intro j s' run
    by_cases own : j = i
    · subst own
      have new : Function.update w.runs j (some r') j = some s' := run
      rw [Function.update_self] at new
      cases new
      exact ⟨r, was, token⟩
    · exact ⟨s', (Function.update_of_ne own _ _).symm.trans run, rfl⟩
  refine { h with used := ?_, fresh := ?_, kept := ?_, done := ?_, waits := ?_, replays := ?_ }
  · intro j s' run
    obtain ⟨s, run, same⟩ := back j s' run
    exact same ▸ h.used j s run
  · intro j k s' u' run run' tokens
    obtain ⟨s, run, sToken⟩ := back j s' run
    obtain ⟨u, run', uToken⟩ := back k u' run'
    exact h.fresh j k s u run run' (sToken.symm.trans (tokens.trans uToken))
  · refine h.kept.runs_congr fun j s run => ?_
    obtain ⟨s', run', token, fp, -⟩ := same j s run
    exact ⟨s', run', token, fp⟩
  · intro j json mem
    obtain ⟨s, k, run, stored⟩ := h.done j json mem
    obtain ⟨s', run', -, fp, -⟩ := same j s run
    exact ⟨s', k, run', fp ▸ stored⟩
  · intro j still
    refine h.waits j fun s run => ?_
    obtain ⟨s', run', -, -, waits⟩ := same j s run
    exact waits (still s' run')
  · intro j s value run phase
    change Function.update w.runs i (some r') j = some s at run
    by_cases own : j = i
    · subst own
      rw [Function.update_self] at run
      cases run
      rw [fp]
      exact replays value phase
    · rw [Function.update_of_ne own] at run
      exact h.replays j s value run phase

/-- A new run, under a token never used. -/
theorem start (h : Sound log w) (free : w.runs i = none) (unused : r.token ∉ w.used)
    (waits : r.phase.waits) : Sound log ({ w with used := r.token :: w.used }.put i r) := by
  have split : ∀ j s, Function.update w.runs i (some r) j = some s →
      (j = i ∧ s = r) ∨ w.runs j = some s := by
    intro j s run
    by_cases own : j = i
    · subst own
      rw [Function.update_self] at run
      cases run
      exact Or.inl ⟨rfl, rfl⟩
    · rw [Function.update_of_ne own] at run
      exact Or.inr run
  have old : ∀ j s, w.runs j = some s → Function.update w.runs i (some r) j = some s := by
    intro j s run
    have other : j ≠ i := by
      rintro rfl
      rw [free] at run
      cases run
    rw [Function.update_of_ne other]
    exact run
  refine { h with used := ?_, fresh := ?_, kept := ?_, done := ?_, waits := ?_, replays := ?_ }
  · intro j s run
    rcases split j s run with ⟨rfl, rfl⟩ | run
    · exact List.mem_cons_self
    · exact List.mem_cons_of_mem _ (h.used j s run)
  · intro j k s u run run' tokens
    rcases split j s run with ⟨eq, rfl⟩ | was
    · rcases split k u run' with ⟨eq', -⟩ | was'
      · exact eq.trans eq'.symm
      · exact absurd (tokens ▸ h.used k u was') unused
    · rcases split k u run' with ⟨-, rfl⟩ | was'
      · exact absurd (tokens ▸ h.used j s was) unused
      · exact h.fresh j k s u was was' tokens
  · exact h.kept.runs_congr fun j s run => ⟨s, old j s run, rfl, rfl⟩
  · intro j json mem
    obtain ⟨s, k, run, stored⟩ := h.done j json mem
    exact ⟨s, k, old j s run, stored⟩
  · intro j still
    exact h.waits j fun s run => still s (old j s run)
  · intro j s value run phase
    rcases split j s run with ⟨-, rfl⟩ | was
    · rw [phase] at waits
      exact waits.elim
    · exact h.replays j s value was phase

/-- A command that may be sent. -/
theorem send (h : Sound log w) {c : Command}
    (releases : c = .release → .failed i ∈ log ∨ .abandoned i ∈ log)
    (completes : ∀ json, c = .complete json → ∃ value, .worked i json value ∈ log) :
    Sound log (w.send i c) := by
  refine { h with releases := ?_, completes := ?_ }
  · intro j mem
    rcases List.mem_cons.mp mem with eq | mem
    · cases eq
      exact releases rfl
    · exact h.releases j mem
  · intro j json mem
    rcases List.mem_cons.mp mem with eq | mem
    · cases eq
      exact completes json rfl
    · exact h.completes j json mem

/-- A command that was executed, with its answer. -/
theorem answered (h : Sound log w) (c : Nat × Command) {a : Answer}
    (started : a = .begun .started → .took i ∈ log)
    (done : ∀ json, a = .begun (.done json) →
      ∃ r j, w.runs i = some r ∧ .stored j r.fp.1 json ∈ log) :
    Sound log { w with sent := w.sent.erase c, answers := (i, a) :: w.answers } := by
  refine { h with releases := ?_, completes := ?_, started := ?_, done := ?_ }
  · exact fun j mem => h.releases j (List.mem_of_mem_erase mem)
  · exact fun j json mem => h.completes j json (List.mem_of_mem_erase mem)
  · intro j mem
    rcases List.mem_cons.mp mem with eq | mem
    · cases eq
      exact started rfl
    · exact h.started j mem
  · intro j json mem
    rcases List.mem_cons.mp mem with eq | mem
    · cases eq
      exact done json rfl
    · exact h.done j json mem

/-- An answer that has reached its run. -/
theorem received (h : Sound log w) (a : Nat × Answer) :
    Sound log { w with answers := w.answers.erase a } :=
  { h with
    started := fun j mem => h.started j (List.mem_of_mem_erase mem)
    done := fun j json mem => h.done j json (List.mem_of_mem_erase mem) }

theorem rekey (h : Sound log w) {key : Option Key} (kept : Kept log w.runs key) :
    Sound log { w with key } := { h with kept }

/-- An entry, once the key and the runs stand as it says. -/
theorem snoc (h : Sound log w) (e : Entry J) (key : Option Key)
    (kept : Kept (log ++ [e]) w.runs key)
    (answers : ∀ i, e = .called i ∨ e = .abandoned i → ∃ r, w.runs i = some r ∧ ¬ r.phase.waits) :
    Sound (log ++ [e]) { w with key } where
  used := h.used
  fresh := h.fresh
  kept := kept
  releases := fun i mem => (h.releases i mem).imp (List.mem_append_left _) (List.mem_append_left _)
  completes := fun i json mem => by
    obtain ⟨value, worked⟩ := h.completes i json mem
    exact ⟨value, List.mem_append_left _ worked⟩
  started := fun i mem => List.mem_append_left _ (h.started i mem)
  done := fun i json mem => by
    obtain ⟨r, j, run, stored⟩ := h.done i json mem
    exact ⟨r, j, run, List.mem_append_left _ stored⟩
  waits := fun i still => by
    have before := h.waits i still
    have other : ¬ (e = .called i ∨ e = .abandoned i) := fun eq => by
      obtain ⟨r, run, answered⟩ := answers i eq
      exact answered (still r run)
    simp only [List.mem_append, List.mem_singleton]
    exact ⟨fun mem => mem.elim before.1 fun eq => other (Or.inl eq.symm),
      fun mem => mem.elim before.2 fun eq => other (Or.inr eq.symm)⟩
  replays := fun i r value run phase => List.mem_append_left _ (h.replays i r value run phase)

/-- An entry that tells of no change of the key and no answer. -/
theorem tell (h : Sound log w) (e : Entry J) (same : e.holder (holder log) = holder log)
    (silent : ∀ i, e ≠ .called i ∧ e ≠ .abandoned i) : Sound (log ++ [e]) w :=
  h.snoc e w.key (h.kept.snoc same) fun i eq => (eq.elim (silent i).1 (silent i).2).elim

end Sound

/-- A step's entry is allowed, and the world it leads to is sound. -/
structure Follows (ctx : Context J) (log : List (Entry J)) (o : Option (Entry J) × World J) :
    Prop where
  sound : Sound (log ++ o.1.toList) o.2
  allowed : ∀ e ∈ o.1, Allowed ctx log e

section Steps
variable {log : List (Entry J)} {w : World J} {i now : Nat} {r : Run J}

theorem Follows.silent (h : Sound log w) : Follows ctx log (none, w) where
  sound := by rwa [Option.toList_none, List.append_nil]
  allowed := fun e mem => by cases mem

theorem Follows.telling {e : Entry J} (h : Sound (log ++ [e]) w) (allowed : Allowed ctx log e) :
    Follows ctx log (some e, w) where
  sound := h
  allowed := fun e mem => by cases mem; exact allowed

/-- No `BEGIN` or settle of a key calls `work`. -/
theorem ne_called {e : Entry J} (other : ∀ i, e ≠ .called i) (still : ∀ i, e ≠ .abandoned i) (i : Nat)
    (eq : e = .called i ∨ e = .abandoned i) : ∃ r, w.runs i = some r ∧ ¬ r.phase.waits :=
  (eq.elim (other i) (still i)).elim

theorem begin_follows (h : Sound log w) (run : w.runs i = some r) :
    Follows ctx log ((Command.begin.exec ctx i r now w.key).1,
      { w with
        key := (Command.begin.exec ctx i r now w.key).2.2
        sent := w.sent.erase (i, .begin)
        answers := (i, (Command.begin.exec ctx i r now w.key).2.1) :: w.answers }) := by
  have kept := h.kept
  cases key : w.key with
  | none =>
      rw [key] at kept
      cases kept with
      | absent free =>
          have took := h.snoc (.took i) (some
            ⟨{ state := some "running", token := some r.token.1, fp := some r.fp.1 },
              some (now + ctx.lease)⟩) (.running (holder_snoc log (.took i)) run ⟨rfl, rfl⟩)
            (ne_called nofun nofun)
          exact .telling (took.answered (i, .begin) (fun _ => by simp) fun json eq => by cases eq) free
  | some k =>
      rw [key] at kept
      obtain ⟨same, taken⟩ := begin_some kept.hlen now r.token.1 r.fp.1 ctx.lease
      have out : Command.begin.exec ctx i r now (some k) =
          (none, .begun (begin now r.token.1 r.fp.1 ctx.lease (some k)).1, some k) := by
        simp only [Command.exec, same, if_neg taken]
      rw [out]
      refine .silent ((h.rekey kept).answered (i, .begin) (fun eq => ?_) fun json eq => ?_)
      · exact absurd (Answer.begun.inj eq) taken
      · obtain ⟨finished, fp, value⟩ := begin_done (Answer.begun.inj eq)
        cases kept with
        | running _ _ shape =>
            rw [shape.hash] at finished
            cases finished
        | @done j s _ json' _ run' shape stored =>
            rw [shape.hash] at fp value
            cases value
            exact ⟨r, j, run, Option.some.inj fp ▸ stored⟩

theorem complete_follows {json : String} (h : Sound log w) (run : w.runs i = some r)
    (sent : (i, .complete json) ∈ w.sent) :
    Follows ctx log (((Command.complete json).exec ctx i r now w.key).1,
      { w with
        key := ((Command.complete json).exec ctx i r now w.key).2.2
        sent := w.sent.erase (i, .complete json)
        answers := (i, ((Command.complete json).exec ctx i r now w.key).2.1) :: w.answers }) := by
  cases held : holds r.token.1 w.key with
  | false =>
      rw [Command.exec, complete_unheld held]
      exact .silent (h.answered (i, .complete json) nofun nofun)
  | true =>
      obtain ⟨owns, k, key, shape⟩ := h.kept.owner h.fresh run held
      obtain ⟨k', completed, done⟩ := shape.complete now json ctx.ttl
      have stored := h.snoc (.stored i r.fp.1 json) (some k')
        (.done ((holder_snoc log (.stored i r.fp.1 json)).trans owns) run done (by simp))
        (ne_called nofun nofun)
      rw [Command.exec, key, completed]
      exact .telling (stored.answered (i, .complete json) nofun nofun)
        ⟨owns, h.completes i json sent⟩

theorem renew_follows (h : Sound log w) (run : w.runs i = some r) :
    Follows ctx log ((Command.renew.exec ctx i r now w.key).1,
      { w with
        key := (Command.renew.exec ctx i r now w.key).2.2
        sent := w.sent.erase (i, .renew)
        answers := (i, (Command.renew.exec ctx i r now w.key).2.1) :: w.answers }) := by
  cases held : holds r.token.1 w.key with
  | false =>
      rw [Command.exec, renew_unheld held]
      exact .silent (h.answered (i, .renew) nofun nofun)
  | true =>
      obtain ⟨owns, k, key, shape⟩ := h.kept.owner h.fresh run held
      obtain ⟨k', renewed, running⟩ := shape.renew now ctx.lease
      have kept := h.rekey (.running owns run running)
      rw [Command.exec, key, renewed]
      exact .silent (kept.answered (i, .renew) nofun nofun)

theorem release_follows (h : Sound log w) (run : w.runs i = some r)
    (sent : (i, .release) ∈ w.sent) :
    Follows ctx log ((Command.release.exec ctx i r now w.key).1,
      { w with
        key := (Command.release.exec ctx i r now w.key).2.2
        sent := w.sent.erase (i, .release)
        answers := (i, (Command.release.exec ctx i r now w.key).2.1) :: w.answers }) := by
  cases held : holds r.token.1 w.key with
  | false =>
      rw [Command.exec, release_unheld held]
      exact .silent (h.answered (i, .release) nofun nofun)
  | true =>
      obtain ⟨owns, k, key, shape⟩ := h.kept.owner h.fresh run held
      have freed := h.snoc (.released i) none (.absent (holder_snoc log (.released i))) (ne_called nofun nofun)
      rw [Command.exec, key, shape.release]
      exact .telling (freed.answered (i, .release) nofun nofun) ⟨owns, h.releases i sent⟩

theorem exec_follows (h : Sound log w) (run : w.runs i = some r) (c : Command)
    (sent : (i, c) ∈ w.sent) :
    Follows ctx log ((c.exec ctx i r now w.key).1,
      { w with
        key := (c.exec ctx i r now w.key).2.2
        sent := w.sent.erase (i, c)
        answers := (i, (c.exec ctx i r now w.key).2.1) :: w.answers }) := by
  cases c with
  | begin => exact begin_follows h run
  | complete json => exact complete_follows h run sent
  | renew => exact renew_follows h run
  | release => exact release_follows h run sent

/-- What a run makes of its `BEGIN`'s answer. -/
theorem onBegun_follows (h : Sound log w) (run : w.runs i = some r) (pause now : Nat)
    (waits : r.phase.waits) (found : Begun) (started : found = .started → .took i ∈ log)
    (done : ∀ json, found = .done json → ∃ j, .stored j r.fp.1 json ∈ log) :
    Follows ctx log ((onBegun ctx i r pause now found).1,
      w.put i { r with phase := (onBegun ctx i r pause now found).2 }) := by
  have put : ∀ phase : Phase J, (∀ value, phase ≠ .returned value true) →
      Sound log (w.put i { r with phase }) := fun phase other =>
    h.put run { r with phase } rfl rfl (fun _ => waits) fun value eq => absurd eq (other value)
  cases found with
  | mismatch => exact .silent (put _ nofun)
  | corrupt => exact .silent (put _ nofun)
  | running pttl =>
      simp only [onBegun]
      split
      next => exact .silent (put _ nofun)
      next => exact .silent (put _ nofun)
  | started =>
      have answered : ∃ r', (w.put i { r with phase := .working }).runs i = some r' ∧
          ¬ r'.phase.waits := ⟨_, Function.update_self i _ w.runs, id⟩
      have none := h.waits i fun r' run' => by
        rw [run] at run'
        cases run'
        exact waits
      have working := put .working nofun
      refine .telling (working.snoc (.called i) w.key (working.kept.snoc rfl) ?_) ⟨started rfl, none⟩
      intro j eq
      rcases eq with eq | eq <;> cases eq
      exact answered
  | done json =>
      obtain ⟨j, stored⟩ := done json rfl
      simp only [onBegun]
      split
      next value read =>
        have told := h.tell (.replayed i r.fp.1 value) rfl fun _ => ⟨nofun, nofun⟩
        refine .telling (told.put run _ rfl rfl False.elim fun value' eq => ?_) ⟨j, json, stored, read⟩
        cases eq
        simp
      next => exact .silent (put _ nofun)

/-- A run takes the answer it awaits, and no other. -/
theorem take_follows (h : Sound log w) (run : w.runs i = some r) (now : Nat) (a : Answer)
    (mem : (i, a) ∈ w.answers) :
    Follows ctx log ((r.take ctx i now a).1,
      { w with answers := w.answers.erase (i, a) }.put i (r.take ctx i now a).2) := by
  have left := h.received (i, a)
  have same : Sound log ({ w with answers := w.answers.erase (i, a) }.put i r) :=
    left.put run r rfl rfl id fun value phase => h.replays i r value run phase
  unfold Run.take
  split
  next found pause phase =>
    have waits : r.phase.waits := by
      rw [phase]
      trivial
    refine onBegun_follows left run pause now waits found (fun eq => ?_) fun json eq => ?_
    · exact h.started i (eq ▸ mem)
    · obtain ⟨r', j, run', stored⟩ := h.done i json (eq ▸ mem)
      rw [run] at run'
      cases run'
      exact ⟨j, stored⟩
  next held phase =>
    split
    next => exact .silent same
    next => 
      refine .silent (left.put run { r with lost := true } rfl rfl id fun value eq => ?_)
      exact h.replays i r value run eq
  next stored json value phase =>
    cases stored with
    | true => exact .silent (left.put run _ rfl rfl False.elim nofun)
    | false => exact .silent (left.put run _ rfl rfl False.elim nofun)
  next => exact .silent (left.put run _ rfl rfl False.elim nofun)
  next => exact .silent same

theorem settle_follows (h : Sound log w) (run : w.runs i = some r) (result : Except Unit J) :
    Follows ctx log (r.settle ctx i result w) := by
  have releasing : ∀ error, Follows ctx log (some (.failed i),
      (w.put i { r with phase := .releasing error }).send i .release) := by
    intro error
    have failed := (h.put run { r with phase := .releasing error } rfl rfl False.elim nofun).tell
      (.failed i) rfl fun _ => ⟨nofun, nofun⟩
    exact .telling (failed.send (fun _ => Or.inl (by simp)) nofun) trivial
  unfold Run.settle
  split
  next => exact releasing _
  next =>
    split
    next => exact releasing _
    next json value stored =>
      split
      next => exact .silent (h.put run _ rfl rfl False.elim nofun)
      next =>
        have worked := (h.put run { r with phase := .completing json value } rfl rfl False.elim
          nofun).tell (.worked i json value) rfl fun _ => ⟨nofun, nofun⟩
        refine .telling (worked.send nofun fun json' eq => ?_) (fromStored_toStored stored)
        cases eq
        exact ⟨value, by simp⟩
  next => exact .silent h

theorem reject_follows (h : Sound log w) (run : w.runs i = some r) (late : Bool) :
    Follows ctx log (r.reject ctx i late w) := by
  have threw : ∀ error, Sound log (w.put i { r with phase := .threw error }) := fun error =>
    h.put run { r with phase := .threw error } rfl rfl False.elim nofun
  unfold Run.reject
  split
  next pause phase =>
    have none := h.waits i fun r' run' => by
      rw [run] at run'
      cases run'
      rw [phase]
      trivial
    dsimp only
    generalize r.rejection ctx late "`work` was not called; a key it took is released" = error
    have answered : ∃ r', (w.put i { r with phase := .threw error }).runs i = some r' ∧
        ¬ r'.phase.waits := ⟨_, Function.update_self i _ w.runs, id⟩
    have abandoned := (threw error).snoc (.abandoned i) w.key ((threw error).kept.snoc rfl)
      fun j eq => by
        rcases eq with eq | eq <;> cases eq
        exact answered
    exact .telling (abandoned.send (fun _ => Or.inr (by simp)) nofun) none.1
  next => exact .silent (threw _)
  next => exact .silent (threw _)
  next => exact .silent h

/-- One act, whatever it is. -/
theorem step_follows (h : Sound log w) (a : Act J) : Follows ctx log (w.step ctx a) := by
  cases a with
  | start i token fp now wait timeoutMs =>
      unfold World.step
      dsimp only
      split
      next => exact .silent h
      next new =>
        rw [not_or, Option.not_isSome_iff_eq_none] at new
        let r : Run J :=
          { token, fp, deadline := now + wait, timeoutMs, phase := .beginning firstPoll }
        exact .silent ((h.start (r := r) new.1 new.2 trivial).send nofun nofun)
  | wake i =>
      unfold World.step
      dsimp only
      split
      next => exact .silent h
      next r run =>
        split
        next ms pause phase =>
          have polls := h.put run { r with phase := .beginning (min (pause * 2) lastPoll) } rfl rfl
            (fun _ => by rw [phase]; trivial) nofun
          exact .silent (polls.send nofun nofun)
        next => exact .silent h
  | beat i =>
      unfold World.step
      dsimp only
      split
      next => exact .silent h
      next r run =>
        split
        next =>
          split
          next => exact .silent h
          next => exact .silent (h.send nofun nofun)
        next => exact .silent h
  | work i result =>
      unfold World.step
      dsimp only
      split
      next => exact .silent h
      next r run => exact settle_follows h run result
  | exec i c now =>
      unfold World.step
      dsimp only
      split
      next => exact .silent h
      next r run =>
        split
        next sent => exact exec_follows h run c sent
        next => exact .silent h
  | answer i a now =>
      unfold World.step
      dsimp only
      split
      next => exact .silent h
      next r run =>
        split
        next mem => exact take_follows h run now a mem
        next => exact .silent h
  | fail i late =>
      unfold World.step
      dsimp only
      split
      next => exact .silent h
      next r run => exact reject_follows h run late
  | expire now =>
      unfold World.step
      dsimp only
      split
      next key =>
        split
        next =>
          exact .telling (h.snoc .expired none (.absent (holder_snoc log _)) (ne_called nofun nofun))
            trivial
        next => exact .silent h
      next => exact .silent h
  | forget =>
      unfold World.step
      dsimp only
      split
      next =>
        exact .telling (h.snoc .deleted none (.absent (holder_snoc log _)) (ne_called nofun nofun))
          trivial
      next => exact .silent h

end Steps
end NxgtData.Idempotency
