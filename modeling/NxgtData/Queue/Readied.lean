import NxgtData.Queue.Order

/-!
The jobs of a run in the order they became ready. Each job a script may put into `ready` is one
turn of a loop, so what became ready is read off the keys before and after the turn. Over a
run the list orders `ready`.
-/
namespace NxgtData.Queue
open Decimal Gcra

variable (m : GroupArgs)

/-- The job, if it became ready. -/
def becameReady (id : String) (q q' : Keys) : List String :=
  if id ∉ q.ready ∧ id ∈ q'.ready then [id] else []

/-- The jobs of `ADD` that became ready. -/
def addReadied (now : Nat) (paused : Bool) : List AddJob → Keys → List String
  | [], _ => []
  | j :: rest, q =>
      let q' := (addOne m now paused j q).2
      becameReady j.id q q' ++ addReadied now paused rest q'

/-- The jobs of a loop of a claim that became ready. -/
def loopReadied (turn : Claiming → String → Claiming) : List String → Claiming → List String
  | [], _ => []
  | id :: rest, st => becameReady id st.q (turn st id).q ++ loopReadied turn rest (turn st id)

/-- The jobs a claim reclaims and promotes into `ready`. -/
def claimReadied (now : Nat) (q : Keys) : List String :=
  let st := reclaim m now { q }
  loopReadied (reclaimOne m now) ((q.active.range (· < now) 100).map Prod.snd) { q } ++
    loopReadied (promoteOne m now) ((st.q.delayed.range (· ≤ now) 1000).map Prod.snd) st

/-- Those of the claim that a settle carries. -/
def settleReadied (us : Nat) (claimToken : String) (q : Keys) : List String :=
  if claimToken ≠ "" then claimReadied m (us / 1000) q else []

def releaseReadied : List (String × String) → Keys → List String
  | [], _ => []
  | (id, token) :: rest, q =>
      let q' := (releaseOne m id token q).2.2
      becameReady id q q' ++ releaseReadied rest q'

/-- The jobs that became ready in a script, past the groups check. -/
def Call.readied (us : Nat) : Call → Keys → List String
  | .add jobs, q => addReadied m (us / 1000) q.paused jobs q
  | .claim _ _ _, q => claimReadied m (us / 1000) q
  | .complete id token keepAge keepCount _ claimToken result _, q =>
      let (_, _, b) := completeSettle m (us / 1000) id token keepAge keepCount result q.toBoard
      settleReadied m us claimToken { q with toBoard := b }
  | .fail id token error retryIn keepFailed _ claimToken _, q =>
      let (_, b) := failSettle m (us / 1000) id token error retryIn keepFailed q.toBoard
      settleReadied m us claimToken { q with toBoard := b }
  | .release jobs, q => releaseReadied m jobs q
  | .retry id fresh, q => becameReady id q (Queue.retry m (us / 1000) id fresh q).2
  | .fire id due next attempts timeout, q =>
      becameReady (occurrence id due) q
        (Queue.fire m (us / 1000) id due next attempts timeout q).2
  | _, _ => []

/-- The jobs of a run from `q`, in the order they became ready. -/
def readied : List Timed → Keys → List String
  | [], _ => []
  | c :: calls, q =>
      ((q.groupModeCheck m).map (c.2.readied m c.1)).getD [] ++ readied calls (step m c q).2

variable {m} {q q' : Keys} {log : List String} {id : String} {now : Nat}

/-- The log orders `ready`, and `seq` counts it. -/
structure Tallied (m : GroupArgs) (log : List String) (q : Keys) : Prop where
  ordered : Ordered m log q.toBoard
  count : q.seq = log.length

/-- What a part of a script that is about one job may do to the order. -/
inductive Part (id : String) (q q' : Keys) : Prop where
  | stays (board : q.toBoard.Stays q'.toBoard) (seq : q'.seq = q.seq)
  | readies {priority : Nat} (le : priority ≤ 1000) (out : id ∉ q.ready)
      (board : Board.Readies id priority (q.seq + 1) q.toBoard q'.toBoard)
      (seq : q'.seq = q.seq + 1)
  | delays {priority : Nat} {h : JobHash} (le : priority ≤ 1000) (out : id ∉ q.ready)
      (written : q'.job = Function.update q.job id (some h))
      (priority_ : h.priority = some (toString priority)) (ready : q'.ready = q.ready)
      (groups : q'.groups.ready = q.groups.ready) (seq : q'.seq = q.seq)

theorem becameReady_stays (stays : q.toBoard.Stays q'.toBoard) : becameReady id q q' = [] := by
  refine if_neg fun ⟨out, mem⟩ => out ?_
  obtain ⟨s, there⟩ := SortedSet.mem_iff_score.mp mem
  exact SortedSet.mem_iff_score.mpr ⟨s, stays.ready id s there⟩

/-- Only the board and `seq` matter. -/
theorem Part.congr {q'' : Keys} (part : Part id q q') (board : q''.toBoard = q'.toBoard)
    (seq : q''.seq = q'.seq) : Part id q q'' := by
  cases part with
  | stays stays same => exact .stays (board ▸ stays) (seq.trans same)
  | readies le out readies same => exact .readies le out (board ▸ readies) (seq.trans same)
  | delays le out written priority_ ready groups same =>
      exact .delays le out ((congrArg Board.job board).trans written) priority_
        ((congrArg Board.ready board).trans ready)
        ((congrArg (·.groups.ready) board).trans groups) (seq.trans same)

namespace Tallied

theorem part (h : Tallied m log q) (part : Part id q q') (hb : Sane m q'.toBoard) :
    Tallied m (log ++ becameReady id q q') q' := by
  cases part with
  | stays board seq =>
      rw [becameReady_stays board, List.append_nil]
      exact ⟨h.ordered.stays board hb, seq.trans h.count⟩
  | readies le out board seq =>
      rw [becameReady, if_pos ⟨out, board.mem⟩]
      rw [h.count] at board
      refine ⟨h.ordered.readies board le out hb, ?_⟩
      rw [seq, h.count, List.length_append, List.length_singleton]
  | delays le out written priority_ ready groups seq =>
      rw [becameReady, if_neg fun both => out (ready ▸ both.2), List.append_nil]
      exact ⟨h.ordered.delays ready groups le written priority_ out, seq.trans h.count⟩

theorem stays (h : Tallied m log q) (board : q.toBoard.Stays q'.toBoard) (seq : q'.seq = q.seq)
    (hb : Sane m q'.toBoard) : Tallied m log q' :=
  ⟨h.ordered.stays board hb, seq.trans h.count⟩

end Tallied

section Parts
variable {st : Claiming}

theorem wakeUp_seq (q : Keys) : q.wakeUp.seq = q.seq := by
  unfold Keys.wakeUp
  split <;> rfl

theorem ite_wakeUp_seq (b : Bool) (q : Keys) : (if b then q.wakeUp else q).seq = q.seq := by
  split
  · exact wakeUp_seq q
  · rfl

theorem ite_wakeUp_toBoard (b : Bool) (q : Keys) :
    (if b then q.wakeUp else q).toBoard = q.toBoard := by
  rw [apply_ite Keys.toBoard, Keys.wakeUp_toBoard, ite_self]

theorem poke_seq (q : Keys) (paused : Bool) : (q.poke paused).seq = q.seq := by
  unfold Keys.poke
  split
  · rfl
  · exact wakeUp_seq q

theorem notMem_ready (hb : Sane m q.toBoard) {s : JobState} (mem : id ∈ q.toBoard.place s)
    (other : s ≠ .waiting) : id ∉ q.ready := fun ready => by
  have state := (hb.placed.mem_place id s).mp mem
  have waits := (hb.placed.mem_place id .waiting).mp ready
  exact other (Option.some.inj (state.symm.trans waits))

theorem number_priority {h : JobHash} {p : Nat} (is : h.priority = some (toString p)) :
    number h.priority = p := by
  rw [is, number, Option.map_some, Option.getD_some, tonumber_toString]

/-- A job that comes to `ready` again, under its own priority. -/
theorem readyAgain_part {b : Board} {h : JobHash} {p : Nat} (g : String)
    (stays : q.toBoard.Stays b) (out : id ∉ q.ready) (was : b.job id = some h) (le : p ≤ 1000)
    (priority_ : h.priority = some (toString p)) :
    Part id q (Keys.readyAgain m id p g { q with toBoard := b }).2 :=
  .readies le out (.of_stays stays (.readyAdd was priority_ g)) rfl

theorem addJob_part (paused : Bool) {j : NewJob} (le : j.priority ≤ 1000)
    (hb : Sane m q.toBoard) : Part j.id q (addJob m now paused j q).2 := by
  unfold addJob
  split
  · exact .stays (.refl _) rfl
  next fresh =>
    have absent : q.job j.id = none := by simpa using fresh
    have out : j.id ∉ q.ready := fun mem => by
      obtain ⟨h, was, -⟩ := hb.placed.job_of_mem (s := .waiting) mem
      exact absurd (absent.symm.trans was) nofun
    dsimp only
    split
    next due =>
      let b := q.toBoard.hset j.id fun _ => j.hash m now
      let g := if m.grouped then j.group else ""
      have was : b.job j.id = some (j.hash m now) := Function.update_self ..
      have added := @Board.Readies.readyAdd m _ _ _ (q.seq + 1) _ was rfl g
      have hashes : ∀ x, x ≠ j.id → ∀ h', b.job x = some h' →
          ∃ h, q.job x = some h ∧ h'.priority = h.priority := fun x other h' is =>
        ⟨h', (Function.update_of_ne other ..).symm.trans is, rfl⟩
      have readies : Board.Readies j.id j.priority (q.seq + 1) q.toBoard
          (b.readyAdd m j.id (readyScore j.priority (q.seq + 1)) g).2 :=
        ⟨added.mem, added.ready, added.groups, added.own, fun x other h'' is => by
          obtain ⟨h', is', same'⟩ := added.hashes x other h'' is
          obtain ⟨h, is, same⟩ := hashes x other h' is'
          exact ⟨h, is, same'.trans same⟩⟩
      refine .readies le out ?_ ?_
      · simp only [apply_ite Keys.toBoard, Keys.poke_toBoard, ite_self]
        exact readies
      · simp only [apply_ite Keys.seq, poke_seq, ite_self]
    next later =>
      refine .delays (h := j.hash m now) le out ?_ rfl ?_ ?_ ?_
      · simp only [apply_ite Keys.toBoard, Keys.poke_toBoard, ite_self]
        rfl
      · simp only [apply_ite Keys.toBoard, Keys.poke_toBoard, ite_self]
        rfl
      · simp only [apply_ite Keys.toBoard, Keys.poke_toBoard, ite_self]
        rfl
      · simp only [apply_ite Keys.seq, poke_seq, ite_self]

theorem waitingJob_job {b : Board} (waits : waitingJob id b = true) : ∃ h, b.job id = some h :=
  let ⟨h, was, _⟩ := job_of_waitingJob waits
  ⟨h, was⟩

theorem debounceJob_stays (paused : Bool) (j : AddJob) (waits : waitingJob id q.toBoard = true) :
    q.toBoard.Stays (debounceJob m now paused id j q).toBoard ∧
      (debounceJob m now paused id j q).seq = q.seq := by
  obtain ⟨h, was⟩ := waitingJob_job waits
  unfold debounceJob
  dsimp only
  constructor
  · simp only [Keys.setDedupe, apply_ite Keys.toBoard, Keys.poke_toBoard, ite_self]
    let b := q.toBoard.hset id fun h => { h with
      data := some j.data, state := some .delayed, runAt := some (toString (now + j.delayMs)) }
    have written : q.toBoard.Stays b := .hset was rfl
    have out : b.Stays (b.readyRem m id (b.groupOf id)) := .readyRem id _
    exact (written.trans out).trans (.congr rfl rfl rfl)
  · simp only [Keys.setDedupe, apply_ite Keys.seq, poke_seq, ite_self]

theorem addOne_part (paused : Bool) {j : AddJob} (le : j.priority ≤ 1000)
    (hb : Sane m q.toBoard) : Part j.id q (addOne m now paused j q).2 := by
  unfold addOne
  dsimp only
  split
  next id hit =>
    split
    next debounce =>
      have waits : waitingJob id q.toBoard = true := by
        rw [debounce] at hit
        exact (Option.filter_eq_some_iff.mp hit).2
      obtain ⟨board, seq⟩ := @debounceJob_stays m _ _ now paused j waits
      exact .stays board seq
    · exact .stays (.refl _) rfl
  next hit =>
    have added := @addJob_part m _ now paused _ le hb
    split
    next q' eq =>
      rw [eq] at added
      split
      · exact added
      · exact added.congr rfl rfl
    next q' eq =>
      rw [eq] at added
      exact added

theorem fire_part {due next attempts : Nat} {timeout : Int} (hb : Sane m q.toBoard) :
    Part (occurrence id due) q (fire m now id due next attempts timeout q).2 := by
  unfold fire
  split
  · exact .stays (.refl _) rfl
  · split
    · exact .stays (.refl _) rfl
    · split
      · exact .stays (.refl _) rfl
      · dsimp only
        split
        · exact .stays (.refl _) rfl
        · have added := @addJob_part m _ now q.paused
            (occurrenceJob id due attempts timeout ((q.scheduleHash id).data.getD ""))
            (Nat.zero_le _) hb
          exact added.congr rfl rfl

/-- The priority a sound job is put back under is its own. -/
theorem priority_of_sound (h : Ordered m log q.toBoard) (trusted : sound (q.hmget id) = true) :
    ∃ p ≤ 1000, (q.hmget id).priority = some (toString p) ∧
      number (q.hmget id).priority = p := by
  obtain ⟨p, le, is⟩ := h.hashes id _ (job_of_sound trusted)
  exact ⟨p, le, is, number_priority is⟩

theorem reclaimOne_part (h : Ordered m log st.q.toBoard) (hb : Sane m st.q.toBoard)
    (mem : id ∈ st.q.active) : Part id st.q (reclaimOne m now st id).q := by
  unfold reclaimOne
  dsimp only
  split
  · exact .stays (.refuse now id) rfl
  next trusted =>
    rw [Bool.not_eq_true', Bool.not_eq_false] at trusted
    obtain ⟨p, le, is, same⟩ := priority_of_sound h trusted
    let b := (st.q.toBoard.activeRem m id ((st.q.hmget id).group.getD "")).2
    have was : b.job id = some (st.q.hmget id) :=
      (congrFun (Board.activeRem_job ..) id).trans (job_of_sound trusted)
    have cleared := Board.hdel_job was fun h => { h with token := none }
    have left : st.q.toBoard.Stays (b.hdel id fun h => { h with token := none }) :=
      (Board.Stays.activeRem id _).trans (.hdel id fun _ => rfl)
    split
    · rw [same]
      exact readyAgain_part _ (left.trans (.hset cleared rfl))
        (notMem_ready hb (s := .active) mem (by simp)) (Board.hset_job cleared _) le is
    · refine .stays (left.trans ((Board.Stays.hset cleared (f := fun h => { h with
        state := some .failed, error := some lapsedError, finished := some (toString now) })
        rfl).trans ?_)) rfl
      exact .congr rfl rfl rfl

theorem promoteOne_part (h : Ordered m log st.q.toBoard) (hb : Sane m st.q.toBoard)
    (mem : id ∈ st.q.delayed) : Part id st.q (promoteOne m now st id).q := by
  unfold promoteOne
  dsimp only
  split
  · exact .stays (.refuse now id) rfl
  next trusted =>
    rw [Bool.not_eq_true', Bool.not_eq_false] at trusted
    obtain ⟨p, le, is, same⟩ := priority_of_sound h trusted
    let b : Board := { st.q.toBoard with delayed := st.q.delayed.rem id }
    have left : st.q.toBoard.Stays b := .congr rfl rfl rfl
    have was : b.job id = some (st.q.hmget id) := job_of_sound trusted
    rw [same]
    exact readyAgain_part _ (left.trans (.hset was rfl))
      (notMem_ready hb (s := .delayed) mem (by simp)) (Board.hset_job was _) le is

theorem releaseOne_part {token : String} (h : Ordered m log q.toBoard) (hb : Sane m q.toBoard) :
    Part id q (releaseOne m id token q).2.2 := by
  unfold releaseOne
  dsimp only
  split
  next holds =>
    obtain ⟨p, le, is, same⟩ := priority_of_sound h holds.2.2.1
    have there := job_of_sound holds.2.2.1
    let b := (q.toBoard.activeRem m id ((q.hmget id).group.getD "")).2
    have was : b.job id = some (q.hmget id) := (congrFun (Board.activeRem_job ..) id).trans there
    have mem : id ∈ q.active :=
      (hb.placed.mem_place id .active).mpr ((Board.stateOf_of_job there).trans holds.2.1)
    have left : q.toBoard.Stays b := .activeRem id _
    have waits := Board.hset_job was fun h => { h with
      state := some .waiting, attempt := some (toString (number (q.hmget id).attempt - 1)) }
    rw [same]
    exact readyAgain_part _ ((left.trans (.hset was rfl)).trans (.hdel id fun _ => rfl))
      (notMem_ready hb (s := .active) mem (by simp)) (Board.hdel_job waits _) le is
  · exact .stays (.refl _) rfl

theorem retry_part {fresh : Bool} (h : Ordered m log q.toBoard) (hb : Sane m q.toBoard) :
    Part id q (retry m now id fresh q).2 := by
  unfold retry
  dsimp only
  split
  · exact .stays (.refl _) rfl
  next failed =>
    split
    · exact .stays (.refl _) rfl
    · split
      · exact .stays (.refl _) rfl
      next trusted =>
        rw [Bool.not_eq_true', Bool.not_eq_false] at trusted
        obtain ⟨p, le, is, same⟩ := priority_of_sound h trusted
        have out := notMem_ready hb (s := .failed) (not_not.mp failed) (by simp)
        let b : Board := { q.toBoard with failed := q.failed.rem id }
        have was : b.job id = some (q.hmget id) := job_of_sound trusted
        let waiting : JobHash → JobHash := fun h => { h with
          state := some .waiting, attempt := some (toString 0), retried := some "1"
          runAt := some (toString now) }
        let cleared : JobHash → JobHash := fun h =>
          { h with error := none, finished := none, token := none }
        have left : q.toBoard.Stays b := .congr rfl rfl rfl
        have written : b.Stays (b.hset id waiting) := .hset was rfl
        have stays : q.toBoard.Stays ((b.hset id waiting).hdel id cleared) :=
          (left.trans written).trans (.hdel id fun _ => rfl)
        have again : Board.Readies id p (q.seq + 1) q.toBoard _ := .of_stays stays
          (.readyAdd (m := m) (Board.hdel_job (Board.hset_job was waiting) cleared) is
            (((b.hset id waiting).hdel id cleared).groupOf id))
        rw [same]
        cases fresh with
        | false =>
            exact @Part.congr _ (Keys.readyAgain m id p _ { q with toBoard := _ }).2 _ _
              (.readies le out again rfl) (ite_wakeUp_toBoard _ _) (ite_wakeUp_seq _ _)
        | true =>
            let q' := (Keys.readyAgain m id p (((b.hset id waiting).hdel id cleared).groupOf id)
              { q with toBoard := (b.hset id waiting).hdel id cleared }).2
            exact @Part.congr _
              { q' with toBoard := q'.toBoard.hdel id fun h => { h with step := fun _ => none } } _ _
              (.readies le out (again.hdel fun _ => rfl) rfl) (ite_wakeUp_toBoard _ _)
              (ite_wakeUp_seq _ _)

end Parts

/-! Every script keeps the count of the jobs that became ready. -/

section Scripts
variable {us lease : Nat} {st st' : Claiming} {tokens : List String} {g token : String}

/-- A job within the reader's limits of group and priority. -/
structure NewJob.Ranked (j : NewJob) : Prop where
  group : j.GroupSound
  priority : j.priority ≤ 1000

theorem addAll_tallied (paused : Bool) (jobs : List AddJob) (hb : Sane m q.toBoard)
    (h : Tallied m log q) (sent : ∀ j ∈ jobs, j.toNewJob.Ranked) :
    Tallied m (log ++ addReadied m now paused jobs q) (addAll m now paused jobs q).2 := by
  induction jobs generalizing q log with
  | nil =>
      rw [addReadied, List.append_nil]
      exact h
  | cons j jobs ih =>
      have ranked := sent j List.mem_cons_self
      have sane : Sane m (addOne m now paused j q).2.toBoard :=
        (addOne_leads (P := NewJob.Ranked) now paused hb ranked ranked.group).sane hb
      have first := h.part (@addOne_part m _ now paused _ ranked.priority hb) sane
      have rest := ih sane first fun j mem => sent j (List.mem_cons_of_mem _ mem)
      rw [List.append_assoc] at rest
      exact rest

theorem releaseAll_tallied (jobs : List (String × String)) (hb : Sane m q.toBoard)
    (h : Tallied m log q) :
    Tallied m (log ++ releaseReadied m jobs q) (releaseAll m jobs q).2.2 := by
  induction jobs generalizing q log with
  | nil =>
      rw [releaseReadied, List.append_nil]
      exact h
  | cons job jobs ih =>
      have sane := (releaseOne_leads (Q := fun _ _ => True) job.1 job.2 hb).sane hb
      have first := h.part (@releaseOne_part m _ _ _ job.2 h.ordered hb) sane
      have rest := ih sane first
      rw [List.append_assoc] at rest
      exact rest

/-- A loop over jobs of one zset, whose turns move each its own job. -/
theorem loop_tallied {turn : Claiming → String → Claiming} {I : Claiming → Prop} (s : JobState)
    (moves : ∀ st id, Sane m st.q.toBoard → I st → id ∈ st.q.toBoard.place s →
      (∃ a, a.id = id ∧ Move m st.q.toBoard a (turn st id).q.toBoard) ∧ I (turn st id))
    (part : ∀ log st id, Ordered m log st.q.toBoard → Sane m st.q.toBoard →
      id ∈ st.q.toBoard.place s → Part id st.q (turn st id).q)
    (ids : List String) (nodup : ids.Nodup) (hb : Sane m st.q.toBoard) (hI : I st)
    (mem : ∀ id ∈ ids, id ∈ st.q.toBoard.place s) (h : Tallied m log st.q) :
    Tallied m (log ++ loopReadied turn ids st) (ids.foldl turn st).q ∧
      Sane m (ids.foldl turn st).q.toBoard := by
  induction ids generalizing st log with
  | nil =>
      rw [loopReadied, List.append_nil]
      exact ⟨h, hb⟩
  | cons id ids ih =>
      obtain ⟨fresh, distinct⟩ := List.nodup_cons.mp nodup
      obtain ⟨⟨a, rfl, move⟩, kept⟩ := moves st id hb hI (mem id List.mem_cons_self)
      have first := h.part (part log st a.id h.ordered hb (mem a.id List.mem_cons_self))
        (hb.move move)
      have still : ∀ id' ∈ ids, id' ∈ (turn st a.id).q.toBoard.place s := fun id' later =>
        (move.mem_of_ne hb.placed (fun is => fresh (is ▸ later)) s).mpr
          (mem id' (List.mem_cons_of_mem _ later))
      have rest := ih distinct (hb.move move) kept still first
      rw [List.append_assoc] at rest
      exact rest

theorem mem_of_range {z : ZSet} {p : Nat → Bool} {n : Nat} {x : String}
    (mem : x ∈ (z.range p n).map Prod.snd) : x ∈ z := by
  obtain ⟨⟨s, a⟩, ranged, rfl⟩ := List.mem_map.mp mem
  exact SortedSet.mem_iff_score.mpr ⟨s, (SortedSet.mem_range ranged).1⟩

/-- A claim counts the jobs it reclaims and promotes, before it pops any. -/
theorem claimReady_tallied (hb : Sane m q.toBoard) (h : Tallied m log q) :
    Tallied m (log ++ claimReadied m now q) (claimReady m now q).q ∧
      Sane m (claimReady m now q).q.toBoard := by
  obtain ⟨reclaimed, sane⟩ := @loop_tallied m _ { q } (reclaimOne m now)
    (fun st => st.jobs = []) .active
    (fun st id hb none mem =>
      let ⟨moves, kept⟩ := Claiming.reclaimOne_moves now hb none mem
      ⟨moves.move, kept⟩)
    (fun _ _ _ h hb mem => reclaimOne_part h hb mem) _
    (q.active.nodup_range (· < now) 100) hb rfl (fun _ => mem_of_range) h
  obtain ⟨promoted, sane'⟩ := @loop_tallied m _ (reclaim m now { q }) (promoteOne m now)
    (fun _ => True) .delayed
    (fun st id hb _ mem => ⟨(Claiming.promoteOne_moves now hb mem).move, trivial⟩)
    (fun _ _ _ h hb mem => promoteOne_part h hb mem) _
    ((reclaim m now { q }).q.delayed.nodup_range (· ≤ now) 1000) sane trivial
    (fun _ => mem_of_range) reclaimed
  rw [List.append_assoc] at promoted
  exact ⟨promoted, sane'⟩

/-- A part of a claim that starts jobs: nothing comes to `ready`. -/
structure Keys.Stays (q q' : Keys) : Prop where
  board : q.toBoard.Stays q'.toBoard
  seq : q'.seq = q.seq

theorem Keys.Stays.refl (q : Keys) : Keys.Stays q q := ⟨.refl _, rfl⟩

theorem Keys.Stays.trans {q'' : Keys} (h : Keys.Stays q q') (k : Keys.Stays q' q'') :
    Keys.Stays q q'' := ⟨h.board.trans k.board, k.seq.trans h.seq⟩

theorem beginJob_stays (now lease : Nat) (tokens : List String) (id g : String) (st : Claiming) :
    Keys.Stays st.q (beginJob m now lease tokens id g st).q := by
  unfold beginJob
  dsimp only
  split
  · exact ⟨.refuse now id, rfl⟩
  next trusted =>
    rw [Bool.not_eq_true', Bool.not_eq_false] at trusted
    refine ⟨(Board.Stays.hset (job_of_sound trusted) (f := fun h => { h with
      state := some .active, token := some (tokens.getD st.jobs.length "")
      attempt := some (toString (number (st.q.hmget id).attempt + 1)) }) rfl).trans ?_, rfl⟩
    exact .congr rfl rfl (GroupKeys.slotTaken_ready _ g)

theorem requeue_stays (b : Board) (g : String) : b.Stays (b.requeue m g) := by
  unfold Board.requeue
  split
  · exact .congr rfl rfl (GroupKeys.rrPush_ready _ g)
  · exact .refl b

theorem popMin_score {z : ZSet} {n : Nat} {x : String} {s : Nat}
    (is : (z.popMin n).2.score x = some s) : z.score x = some s := by
  rw [SortedSet.popMin_eq_foldl_rem, SortedSet.score_foldl_rem] at is
  split at is
  · exact absurd is nofun
  · exact is

/-- A pop takes one job out of `ready` and out of its group. -/
theorem popGroup_stays {b : Board} {id : String} {later : List String} {z : ZSet}
    (popped : b.popped m g = (id :: later, z)) : b.Stays (b.popGroup id g z) := by
  have left : (b.groups.ready g).popMin 1 = (id :: later, z) := by
    unfold Board.popped at popped
    split at popped
    · exact popped
    · exact absurd popped nofun
  refine ⟨fun x s is => ?_, fun g' x s is => ?_, fun x h is => ⟨h, is, rfl⟩⟩
  · change (b.ready.rem id).score x = some s at is
    rw [SortedSet.score_rem] at is
    split at is
    · exact absurd is nofun
    · exact is
  · change (Function.update b.groups.ready g z g').score x = some s at is
    rw [Function.update_apply] at is
    split at is
    next own =>
      rw [show z = ((b.groups.ready g).popMin 1).2 by rw [left]] at is
      rw [own]
      exact popMin_score is
    · exact is

theorem popTurn_stays {served : Option String}
    (turn : popTurn m now lease tokens st = some (served, st')) : Keys.Stays st.q st'.q := by
  unfold popTurn at turn
  split at turn
  · exact absurd turn nofun
  next g k taken =>
    obtain ⟨rest, -, rfl⟩ := GroupKeys.rrTake_eq_some taken
    dsimp only at turn
    split at turn
    next id later z popped =>
      cases turn
      let b : Board := { st.q.toBoard with
        groups := { st.q.groups with list := rest, queued := st.q.groups.queued.rem g } }
      let out : Claiming := { st with q := { st.q with toBoard := b.popGroup id g z } }
      have listed : st.q.toBoard.Stays b := .congr rfl rfl rfl
      have left : Keys.Stays st.q out.q := ⟨listed.trans (popGroup_stays popped), rfl⟩
      have begun := beginJob_stays (m := m) now lease tokens id g out
      exact (left.trans begun).trans ⟨requeue_stays _ g, rfl⟩
    next =>
      cases turn
      exact ⟨.congr rfl rfl rfl, rfl⟩

theorem popGroups_stays (n takes got : Nat) :
    Keys.Stays st.q (popGroups m now lease tokens n takes got st).q := by
  induction takes generalizing got st with
  | zero => exact .refl _
  | succ takes ih =>
      unfold popGroups
      split
      · split
        · exact .refl _
        next turn => exact (popTurn_stays turn).trans (ih _)
        next turn => exact (popTurn_stays turn).trans (ih _)
      · exact .refl _

theorem begins_stays (ids : List String) (st : Claiming) : Keys.Stays st.q
    (ids.foldl (fun st id => beginJob m now lease tokens id "" st) st).q := by
  induction ids generalizing st with
  | nil => exact .refl _
  | cons id ids ih => exact (beginJob_stays now lease tokens id "" st).trans (ih _)

theorem claimPop_stays (n : Nat) (rate : Option Rate) (st : Claiming) :
    Keys.Stays st.q (claimPop m now us n lease tokens rate st).q := by
  unfold claimPop
  dsimp only
  split
  · exact popGroups_stays _ _ _
  · split
    · have popped : Keys.Stays st.q { st.q with
          ready := (st.q.ready.popMin (admitted us n rate st.q)).2 } :=
        ⟨⟨fun x s is => popMin_score is, fun _ _ _ is => is, fun x h is => ⟨h, is, rfl⟩⟩, rfl⟩
      exact popped.trans (begins_stays _ { st with q := { st.q with
        ready := (st.q.ready.popMin (admitted us n rate st.q)).2 } })
    · exact .refl _

/-- A claim counts the jobs it reclaims and promotes. -/
theorem claim_tallied {n : Nat} {rate : Option Rate} (hb : Sane m q.toBoard)
    (h : Tallied m log q) :
    Tallied m (log ++ claimReadied m (us / 1000) q) (claim m us n lease tokens rate q).2 := by
  obtain ⟨ready, -⟩ := @claimReady_tallied m _ _ (us / 1000) hb h
  have sane := (claim_leads (Q := fun _ _ => True) us n lease tokens rate hb).sane hb
  have popped := @claimPop_stays m (us / 1000) us lease tokens n rate (claimReady m (us / 1000) q)
  have charged : ∀ k q, (charge us rate k q).seq = q.seq := by
    intro k q
    unfold charge
    split
    · rfl
    · split <;> rfl
  have settled : ∀ retry q, (settleWake m retry q).seq = q.seq := by
    intro retry q
    unfold settleWake
    split
    · exact wakeUp_seq q
    · rfl
  refine ready.stays ?_ ?_ sane
  · simp only [claim, settleWake_toBoard, charge_toBoard]
    exact popped.board
  · simp only [claim, settled, charged]
    exact popped.seq

theorem settleClaim_tallied {b : Board} {claimToken : String} {rate : Option Rate} {freed : Bool}
    (hb : Sane m b) (stays : q.toBoard.Stays b) (h : Tallied m log q) :
    Tallied m (log ++ settleReadied m us claimToken { q with toBoard := b })
      (settleClaim m us lease claimToken rate freed { q with toBoard := b }).2 := by
  have settled : Tallied m log { q with toBoard := b } := h.stays stays rfl hb
  unfold settleClaim settleReadied
  split
  · exact claim_tallied hb settled
  · rw [List.append_nil]
    exact settled.stays (by rw [ite_wakeUp_toBoard]; exact .refl _) (ite_wakeUp_seq _ _)
      (by rw [ite_wakeUp_toBoard]; exact hb)

theorem job_of_token {b : Board} (holds : (b.hmget id).token = some token) :
    b.job id = some (b.hmget id) := by
  cases was : b.job id with
  | some h => rw [Board.hmget_of_job was]
  | none =>
      rw [Board.hmget, was] at holds
      cases holds

theorem completeSettle_stays (keepAge keepCount : Int) (result : String) (b : Board) :
    b.Stays (completeSettle m now id token keepAge keepCount result b).2.2 := by
  unfold completeSettle
  split
  · exact .refl b
  next holds =>
    have there := job_of_token (not_not.mp holds)
    have left : b.Stays (b.activeRem m id (b.groupOf id)).2 := .activeRem id _
    have was := (congrFun (Board.activeRem_job (m := m) b id (b.groupOf id)) id).trans there
    dsimp only
    generalize (b.activeRem m id (b.groupOf id)).2 = b' at left was ⊢
    refine Board.Stays.trans ?_ (.publish _)
    split
    · exact (left.trans (.del id)).trans (.trimCompleted ..)
    · refine Board.Stays.trans (left.trans ?_) (.trimCompleted ..)
      refine (Board.Stays.hset was (f := fun h => { h with
        state := some .completed, finished := some (toString now)
        result := if result ≠ "" then some result else h.result }) rfl).trans
        ((Board.Stays.hdel id (f := fun h => { h with token := none }) fun _ => rfl).trans ?_)
      exact .congr rfl rfl rfl

theorem failSettle_stays (error : String) (retryIn : Int) (keepFailed : Nat) (b : Board) :
    b.Stays (failSettle m now id token error retryIn keepFailed b).2 := by
  unfold failSettle
  dsimp only
  split
  · exact .refl b
  next holds =>
    have there := job_of_token (not_not.mp holds)
    have left : b.Stays (b.activeRem m id (b.groupOf id)).2 := .activeRem id _
    have was := (congrFun (Board.activeRem_job (m := m) b id (b.groupOf id)) id).trans there
    generalize (b.activeRem m id (b.groupOf id)).2 = b' at left was ⊢
    have cleared := Board.hdel_job was fun h => { h with token := none }
    have left' : b.Stays (b'.hdel id fun h => { h with token := none }) :=
      left.trans (.hdel id fun _ => rfl)
    split
    · refine left'.trans ((Board.Stays.hset cleared (f := fun h => { h with
        state := some .delayed, error := some error
        runAt := some (toString (now + retryIn.toNat)) }) rfl).trans ?_)
      exact .congr rfl rfl rfl
    · refine Board.Stays.trans ?_ (.publish _)
      refine Board.Stays.trans (left'.trans ((Board.Stays.hset cleared (f := fun h => { h with
        state := some .failed, error := some error, finished := some (toString now) })
        rfl).trans ?_)) (.trimFailed ..)
      exact .congr rfl rfl rfl

theorem cancelJob_stays {freed : Bool} {b b' : Board}
    (done : cancelJob m id b = some (freed, b')) : b.Stays b' := by
  simp only [cancelJob] at done
  split at done
  next =>
    split at done <;> cases done
    exact ((Board.Stays.readyRem id _).trans (.del id)).trans (.publish _)
  next =>
    split at done <;> cases done
    let left : Board := { b with delayed := b.delayed.rem id }
    have out : b.Stays left := .congr rfl rfl rfl
    exact (out.trans (.del id)).trans (.publish _)
  next =>
    split at done <;> cases done
    exact ((Board.Stays.activeRem id _).trans (.del id)).trans (.publish _)
  next => cases done

theorem remove_stays (b : Board) : b.Stays (remove m id b).2 := by
  unfold remove
  split
  · exact .refl b
  · let unready := b.readyRem m id (b.groupOf id)
    let left : Board := { unready with
      delayed := unready.delayed.rem id, active := unready.active.rem id
      completed := unready.completed.rem id, failed := unready.failed.rem id }
    have gone : b.Stays unready := .readyRem id _
    have out : unready.Stays left := .congr rfl rfl rfl
    exact (gone.trans out).trans (.del id)

theorem renew_stays (entries : List (String × String)) (b : Board) :
    b.Stays (renew now lease entries b).2 := by
  induction entries generalizing b with
  | nil => exact .refl b
  | cons entry entries ih =>
      unfold renew
      split
      · refine Board.Stays.trans ?_ (ih _)
        split
        · exact .congr rfl rfl rfl
        · exact .refl b
      · exact ih b

theorem progress_stays {value : String} (b : Board) :
    b.Stays (progress id token value b).2 := by
  unfold progress
  split
  · exact .refl b
  next holds =>
    exact .hset (job_of_token (not_not.mp holds)) (f := fun h => { h with progress := some value })
      rfl

theorem stepBegin_stays {name : String} (b : Board) :
    b.Stays (stepBegin now id token name lease b).2 := by
  unfold stepBegin
  split
  · exact .refl b
  · split
    · exact .refl b
    · dsimp only
      split
      · exact .congr rfl rfl rfl
      · exact .refl b

theorem stepCommit_stays {name json : String} (b : Board) :
    b.Stays (stepCommit now id token name json b).2 := by
  unfold stepCommit
  split
  · exact .refl b
  next holds =>
    rw [Bool.not_eq_true', Bool.not_eq_false, held, Bool.and_eq_true, decide_eq_true_eq] at holds
    exact .hset (job_of_token holds.1)
      (f := fun h => { h with step := Function.update h.step name (some json) }) rfl

end Scripts

end NxgtData.Queue
