import NxgtData.Lib.Turns
import NxgtData.Queue.WakeUps

/-!
Fairness between groups. The moments of a run are the starts of its scripts and
the turns of `pop_groups` inside its claims, each with the group it serves. A
turn takes the head of the round-robin list, and nothing else leaves the list, so
a group that stays claimable is served before any other is served twice.
-/
namespace NxgtData.Queue
open Decimal Gcra

/-- A board, and the group a job of which is popped from it next. -/
abbrev Moment := Board × Option String

variable (m : GroupArgs)

/-- The turns of `pop_groups`, as `popGroups` takes them. -/
def popMoments (now lease : Nat) (tokens : List String) (n : Nat) :
    Nat → Nat → Claiming → List Moment
  | 0, _, _ => []
  | takes + 1, got, st =>
      if got < n then
        match popTurn m now lease tokens st with
        | none => []
        | some (some g, st') =>
            (st.q.toBoard, some g) :: popMoments now lease tokens n takes (got + 1) st'
        | some (none, st') => (st.q.toBoard, none) :: popMoments now lease tokens n takes got st'
      else []

/-- The turns of a claim. -/
def claimMoments (us n lease : Nat) (tokens : List String) (rate : Option Rate) (q : Keys) :
    List Moment :=
  let st := claimReady m (us / 1000) q
  let most := admitted us n rate st.q
  if most > 0 ∧ m.grouped then
    popMoments m (us / 1000) lease tokens most (2 * most + 10) 0 st
  else []

/-- The turns of the claim that a settle carries. -/
def settleMoments (us lease : Nat) (claimToken : String) (rate : Option Rate) (q : Keys) :
    List Moment :=
  if claimToken ≠ "" then claimMoments m us 1 lease [claimToken] rate q else []

/-- The turns of a script, past the groups check. -/
def Call.turns (us : Nat) : Call → Keys → List Moment
  | .claim lease rate tokens, q => claimMoments m us tokens.length lease tokens (rateOf rate) q
  | .complete id token keepAge keepCount lease claimToken result rate, q =>
      let (_, _, b) := completeSettle m (us / 1000) id token keepAge keepCount result q.toBoard
      settleMoments m us lease claimToken (rateOf rate) { q with toBoard := b }
  | .fail id token error retryIn keepFailed lease claimToken rate, q =>
      let (_, b) := failSettle m (us / 1000) id token error retryIn keepFailed q.toBoard
      settleMoments m us lease claimToken (rateOf rate) { q with toBoard := b }
  | _, _ => []

/-- The moments of a run from `q`. -/
def moments : List Timed → Keys → List Moment
  | [], _ => []
  | c :: calls, q =>
      (q.toBoard, none) :: (((q.groupModeCheck m).map (c.2.turns m c.1)).getD [] ++
        moments calls (step m c q).2)

variable {m}

section Lists
variable {b : Board} {st st' : Claiming} {now lease : Nat} {tokens : List String} {id g : String}

/-- A job outside `active` is refused without a group going back into the list. -/
theorem refuse_list (idle : id ∉ b.active) :
    (b.refuse m now id).groups.list = b.groups.list := by
  let b' := { b with delayed := b.delayed.rem id }.readyRem m id (b.groupOf id)
  have still : b'.activeRem m id (b.groupOf id) = (false, b') := if_neg idle
  have list : b'.groups.list = b.groups.list := by
    change (b.groups.readyRem m id (b.groupOf id)).list = b.groups.list
    unfold GroupKeys.readyRem
    split <;> rfl
  unfold Board.refuse
  dsimp only
  rw [still, ← list]
  split <;> rfl

theorem beginJob_list (now lease : Nat) (tokens : List String) (g : String) {st : Claiming}
    (idle : id ∉ st.q.active) :
    (beginJob m now lease tokens id g st).q.groups.list = st.q.groups.list := by
  unfold beginJob
  dsimp only
  split
  next => exact refuse_list idle
  next =>
    change (st.q.groups.slotTaken m g).list = st.q.groups.list
    unfold GroupKeys.slotTaken
    split <;> rfl

theorem requeue_list (b : Board) (g : String) :
    (b.requeue m g).groups.list = b.groups.list ∨
      (b.requeue m g).groups.list = b.groups.list ++ [g] := by
  unfold Board.requeue
  split
  next =>
    change (b.groups.rrPush g).list = _ ∨ (b.groups.rrPush g).list = _
    unfold GroupKeys.rrPush
    split
    next => exact Or.inl rfl
    next => exact Or.inr rfl
  next => exact Or.inl rfl

/-- One turn of `pop_groups` serves the head of the list, or skips it. -/
theorem popTurn_turn {served : Option String} (hm : m.grouped = true) (hb : Sane m st.q.toBoard)
    (turn : popTurn m now lease tokens st = some (served, st')) :
    Turn (fun b : Board => b.groups.list) (fun g b => b.groups.Claimable m g) st.q.toBoard served
      st'.q.toBoard := by
  unfold popTurn at turn
  split at turn
  next => cases turn
  next g k taken =>
    obtain ⟨rest, list, keys⟩ := GroupKeys.rrTake_eq_some taken
    have rests : k.list = rest := by rw [keys]
    dsimp only at turn
    split at turn
    next id l z popped =>
      obtain ⟨-, head, -⟩ := Claiming.popped_cons popped
      have idle : id ∉ st.q.active := by
        intro mem
        have waiting := (((hb.grouped hm).mirror g id).mp (by rw [keys] at head; exact head)).1
        have state := (hb.placed.mem_place id .waiting).mp waiting
        rw [(hb.placed.mem_place id .active).mp mem] at state
        cases state
      cases turn
      refine .serve list ?_
      let b := Board.popGroup id g z { st.q.toBoard with groups := k }
      have still : id ∉ ({ st with q := { st.q with toBoard := b } } : Claiming).q.active := idle
      have begun := beginJob_list (m := m) now lease tokens g still
      have requeued := requeue_list (m := m) (beginJob m now lease tokens id g
        { st with q := { st.q with toBoard := b } }).q.toBoard g
      rw [begun] at requeued
      exact rests ▸ requeued
    next z popped =>
      cases turn
      refine .skip list ?_ rests
      rintro ⟨slot, job, mem⟩
      rcases Claiming.popped_nil popped with full | none
      · rw [keys] at full
        exact absurd (full.symm.trans slot) (by simp)
      · rw [keys] at none
        exact none job mem

/-- What takes back and promotes jobs only lets groups in, at the end. -/
theorem refuse_opens (b : Board) : Opens m true b (b.refuse m now id) := by
  let b' := { b with delayed := b.delayed.rem id }.readyRem m id (b.groupOf id)
  have undelayed : Opens m false b { b with delayed := b.delayed.rem id } := .congr rfl rfl
  have cleared : Opens m false b b' := undelayed.before (.readyRem _ _)
  have left := (cleared.before (Opens.activeRem id (b.groupOf id))).any
  unfold Board.refuse
  dsimp only
  split
  next => exact left
  next => exact left.after (.congr rfl rfl)

theorem reclaimOne_opens :
    Opens m true st.q.toBoard (reclaimOne m now st id).q.toBoard := by
  unfold reclaimOne
  dsimp only
  split
  next => exact refuse_opens st.q.toBoard
  next =>
    have left := (Opens.activeRem (m := m) (b := st.q.toBoard) id
      ((st.q.hmget id).group.getD "")).any
    generalize (st.q.toBoard.activeRem m id ((st.q.hmget id).group.getD "")).2 = b at left ⊢
    split
    next =>
      refine (left.trans (Opens.before ?_ (readyAgain_opens _ _))).any
      exact .congr rfl rfl
    next => exact left.after (.congr rfl rfl)

theorem promoteOne_opens :
    Opens m true st.q.toBoard (promoteOne m now st id).q.toBoard := by
  unfold promoteOne
  dsimp only
  split
  next => exact refuse_opens st.q.toBoard
  next =>
    refine (Opens.before ?_ (readyAgain_opens _ _)).any
    exact .congr rfl rfl

theorem foldl_opens {f : Claiming → String → Claiming}
    (turn : ∀ st id, Opens m true st.q.toBoard (f st id).q.toBoard) (ids : List String)
    (st : Claiming) : Opens m true st.q.toBoard (ids.foldl f st).q.toBoard := by
  induction ids generalizing st with
  | nil => exact .refl _ true
  | cons id ids ih => exact (turn st id).trans (ih _)

theorem claimReady_opens (q : Keys) : Opens m true q.toBoard (claimReady m now q).q.toBoard :=
  (foldl_opens (fun _ _ => reclaimOne_opens) _ { q }).trans
    (foldl_opens (fun _ _ => promoteOne_opens) _ _)

end Lists

/-- A moment as a step of the round-robin line. -/
abbrev Serving (m : GroupArgs) : Board → Moment → Board → Prop :=
  Serves (fun b : Board => b.groups.list) (fun g b => b.groups.Claimable m g)

/-- Moments that lead from `b` to `b'`, each on a sane board. -/
structure Passes (m : GroupArgs) (b : Board) (ms : List Moment) (b' : Board) : Prop where
  path : Path (Serving m) b ms b'
  sane : ∀ x ∈ ms, Sane m x.1

namespace Passes
variable {b b' b'' : Board} {ms ms' : List Moment}

theorem nil (b : Board) : Passes m b [] b := ⟨.nil b, by simp⟩

theorem cons {served : Option String} (hb : Sane m b)
    (turn : Turn (fun b : Board => b.groups.list) (fun g b => b.groups.Claimable m g) b served b')
    (rest : Passes m b' ms b'') : Passes m b ((b, served) :: ms) b'' where
  path := .cons ⟨rfl, turn⟩ rest.path
  sane := by
    intro x mem
    rcases List.mem_cons.mp mem with rfl | later
    · exact hb
    · exact rest.sane x later

theorem append (h : Passes m b ms b') (k : Passes m b' ms' b'') :
    Passes m b (ms ++ ms') b'' where
  path := h.path.append k.path
  sane := fun x mem => (List.mem_append.mp mem).elim (h.sane x) (k.sane x)

end Passes

section Turns
variable {st : Claiming} {q : Keys} {now us lease : Nat} {tokens : List String}
  {rate : Option Rate}

theorem popMoments_passes (hm : m.grouped = true) (n takes got : Nat) (hb : Sane m st.q.toBoard) :
    Passes m st.q.toBoard (popMoments m now lease tokens n takes got st)
      (popGroups m now lease tokens n takes got st).q.toBoard := by
  induction takes generalizing got st with
  | zero => exact .nil _
  | succ takes ih =>
      unfold popMoments popGroups
      split
      next =>
        cases turn : popTurn m now lease tokens st with
        | none => exact .nil _
        | some r =>
            obtain ⟨served, st'⟩ := r
            have sane := (Claiming.popTurn_leads (Q := fun _ _ => True) hm hb turn).sane hb
            have took := popTurn_turn hm hb turn
            cases served with
            | none => exact .cons hb took (ih got sane)
            | some g => exact .cons hb took (ih (got + 1) sane)
      next => exact .nil _

/-- From some board the list has only grown to, the turns lead to `b'`. -/
def Takes (m : GroupArgs) (b : Board) (ms : List Moment) (b' : Board) : Prop :=
  ∃ b₁, b.groups.list <+: b₁.groups.list ∧ Passes m b₁ ms b'

theorem claimMoments_takes (hm : m.grouped = true) (n : Nat) (hb : Sane m q.toBoard) :
    Takes m q.toBoard (claimMoments m us n lease tokens rate q)
      (claim m us n lease tokens rate q).2.toBoard := by
  have sane := (Claiming.claimReady_leads (Q := fun _ _ => True) (us / 1000) hb).sane hb
  refine ⟨(claimReady m (us / 1000) q).q.toBoard, (claimReady_opens q).appends, ?_⟩
  rw [claim_toBoard]
  unfold claimMoments claimPop
  dsimp only
  split
  next => exact popMoments_passes hm _ _ _ sane
  next idle =>
    split
    next pops => exact absurd ⟨pops, hm⟩ idle
    next => exact .nil _

theorem settleMoments_takes {claimToken : String} {freed : Bool} (hm : m.grouped = true)
    (hb : Sane m q.toBoard) :
    Takes m q.toBoard (settleMoments m us lease claimToken rate q)
      (settleClaim m us lease claimToken rate freed q).2.toBoard := by
  unfold settleMoments settleClaim
  split
  next => exact claimMoments_takes hm 1 hb
  next =>
    refine ⟨q.toBoard, List.prefix_rfl, ?_⟩
    simp only [apply_ite Keys.toBoard, Keys.wakeUp_toBoard, ite_self]
    exact .nil _

theorem Takes.grow {b b₁ b' : Board} {ms : List Moment} (grows : b.groups.list <+: b₁.groups.list)
    (h : Takes m b₁ ms b') : Takes m b ms b' := by
  obtain ⟨b₂, more, passes⟩ := h
  exact ⟨b₂, grows.trans more, passes⟩

theorem turns_of_idle {c : Call} (idle : c.claims = false) (q : Keys) : c.turns m us q = [] := by
  cases c with
  | claim => cases idle
  | complete | fail =>
      simp only [Call.claims, ne_eq, decide_eq_false_iff_not, not_not] at idle
      simp [Call.turns, settleMoments, idle]
  | _ => rfl

/-- A script that runs no claim only lets groups in, at the end. -/
theorem exec_appends {c : Call} (idle : c.claims = false) :
    q.groups.list <+: (exec m us c q).2.groups.list := by
  cases switches : c.switches with
  | false =>
      obtain ⟨q', marked, hands⟩ := exec_hands (m := m) (q := q) us c idle switches
      have board : q'.toBoard = q.toBoard := by
        rcases marked with rfl | marker
        · rfl
        · exact (groupModeCheck_toBoard marker).1
      rw [← board]
      exact hands.appends
  | true =>
      cases c with
      | pause => exact List.prefix_rfl
      | resume =>
          have board : (exec m us .resume q).2.toBoard = q.toBoard := by
            simp only [exec, guarded]
            split
            next => rfl
            next marker =>
              simp only [resume, apply_ite Keys.toBoard, Keys.wakeUp_toBoard, ite_self]
              exact (groupModeCheck_toBoard marker).1
          rw [board]
      | _ => simp [Call.switches] at switches

/-- The turns of a script, from where its marker check lets it run. -/
theorem turns_takes (us : Nat) (hm : m.grouped = true) (c : Call) (hb : Sane m q.toBoard) :
    Takes m q.toBoard (((q.groupModeCheck m).map (c.turns m us)).getD [])
      (exec m us c q).2.toBoard := by
  cases claims : c.claims with
  | false =>
      have none : ((q.groupModeCheck m).map (c.turns m us)).getD [] = [] := by
        cases q.groupModeCheck m <;> simp [turns_of_idle claims]
      rw [none]
      exact ⟨_, exec_appends claims, .nil _⟩
  | true =>
      cases marker : q.groupModeCheck m with
      | none =>
          have refused : (exec m us c q).2 = q := by
            cases c <;> first
              | (simp only [exec, guarded, marker]; done)
              | simp [Call.claims] at claims
          rw [refused]
          exact ⟨_, List.prefix_rfl, .nil _⟩
      | some q' =>
          have board := (groupModeCheck_toBoard marker).1
          rw [← board] at hb ⊢
          cases c with
          | claim lease rate tokens =>
              simp only [exec, guarded, marker, answering, Call.turns, Option.map_some,
                Option.getD_some]
              exact claimMoments_takes hm _ hb
          | complete id token keepAge keepCount lease claimToken result rate =>
              simp only [exec, guarded, marker]
              have settled := completeSettle_leads (Q := fun _ _ => True) (us / 1000) id token
                keepAge keepCount result hb
              have opens := completeSettle_opens (m := m) (us / 1000) id token keepAge keepCount result
                q'.toBoard
              simp only [answering, complete, Call.turns, Option.map_some, Option.getD_some]
              generalize completeSettle m (us / 1000) id token keepAge keepCount result q'.toBoard
                = r at settled opens
              exact (settleMoments_takes (q := { q' with toBoard := r.2.2 }) hm
                (settled.sane hb)).grow opens.appends
          | fail id token error retryIn keepFailed lease claimToken rate =>
              simp only [exec, guarded, marker]
              have settled := failSettle_leads (Q := fun _ _ => True) (us / 1000) id token error
                retryIn keepFailed hb
              have opens := failSettle_opens (m := m) (us / 1000) id token error retryIn keepFailed
                q'.toBoard
              simp only [answering, fail, apply_ite Keys.toBoard, Keys.wakeUp_toBoard, ite_self,
                Call.turns, Option.map_some, Option.getD_some]
              generalize failSettle m (us / 1000) id token error retryIn keepFailed q'.toBoard
                = r at settled opens
              exact (settleMoments_takes (q := { q' with toBoard := r.2 }) hm
                (settled.sane hb)).grow opens.appends
          | _ => simp [Call.claims] at claims

end Turns

theorem moments_passes (hm : m.grouped = true) (calls : List Timed)
    (sends : Sends NewJob.GroupSound calls) {q : Keys} (hb : Sane m q.toBoard) :
    Passes m q.toBoard (moments m calls q) (runFrom m calls q).toBoard := by
  induction calls generalizing q with
  | nil => exact .nil _
  | cons c calls ih =>
      have sane := (exec_leads c.1 c.2 (sends c List.mem_cons_self) (fun _ sound => sound)
        hb).sane hb
      obtain ⟨b₁, grows, turns⟩ := turns_takes c.1 hm c.2 hb
      have rest := ih (fun d later => sends d (List.mem_cons_of_mem _ later)) sane
      exact .cons hb (.wait grows) (turns.append rest)

/-- Between two jobs of one group that are popped, every other group that stays
claimable has a job popped. -/
theorem run_fair (m : GroupArgs) (hm : m.grouped = true) (calls : List Timed)
    (sends : Sends NewJob.GroupSound calls) {g h : String} (other : h ≠ g) {i j : Nat} (lt : i < j)
    (first : servedAt (moments m calls .empty) i = some g)
    (again : servedAt (moments m calls .empty) j = some g)
    (claimable : ∀ k x, i < k → k ≤ j → (moments m calls .empty)[k]? = some x →
      x.1.groups.Claimable m h) :
    ∃ k, i < k ∧ k < j ∧ servedAt (moments m calls .empty) k = some h := by
  have passes := moments_passes hm calls sends (q := .empty) (.empty m)
  have turns := fun x mem => ((passes.sane x mem).grouped hm).turns
  refine served_between passes.path (fun x mem => (turns x mem).nodup) ?_ other lt first again
    claimable
  intro x mem waits
  exact ((turns x mem).listed h).mpr ((turns x mem).queued h id waits)

/-- Two jobs each of the groups `g` and `h`, and a claim of three. -/
def twoGroups : List Timed :=
  let job (id group : String) : AddJob :=
    { id, data := "null", priority := 0, attempts := 1, group }
  [(0, .add [job "a" "g", job "b" "g", job "c" "h", job "d" "h"]),
    (1000, .claim 30000 none ["t", "u", "v"])]

theorem run_fair_twoGroups :
    ∃ k, 2 < k ∧ k < 4 ∧ servedAt (moments ⟨true, 0⟩ twoGroups .empty) k = some "h" := by
  refine run_fair ⟨true, 0⟩ rfl twoGroups ?_ (g := "g") (by decide) (by decide) (by decide)
    (by decide) ?_
  · intro c mem
    simp only [twoGroups, List.mem_cons, List.not_mem_nil, or_false] at mem
    rcases mem with rfl | rfl
    · intro j mem
      simp only [List.mem_cons, List.not_mem_nil, or_false] at mem
      rcases mem with rfl | rfl | rfl | rfl <;> change groupSound _ = true <;> decide
    · trivial
  · intro k x low high atK
    have waits : ∀ k ∈ [3, 4], ((moments ⟨true, 0⟩ twoGroups .empty)[k]?).all
        (fun x => x.1.groups.hasSlot ⟨true, 0⟩ "h" && decide ("d" ∈ x.1.groups.ready "h")) := by
      decide
    have here := waits k (by simp; omega)
    rw [atK] at here
    simp only [Option.all_some, Bool.and_eq_true, decide_eq_true_eq] at here
    exact ⟨here.1, "d", here.2⟩

end NxgtData.Queue
