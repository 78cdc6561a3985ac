import NxgtData.Queue.Fairness
import NxgtData.Queue.Readied
import NxgtData.Queue.Tokens

/-!
Priority, then first in, first out. While `seq` stays below 2^40 no priority reaches into the
scores of the next, so `ready` is in the order of the priorities, and of the moments the jobs
last became ready among those of one priority. A claim pops from its front.
-/
namespace NxgtData.Queue
open Decimal Gcra

variable {m : GroupArgs} {q q' : Keys} {log : List String} {us : Nat}

section Runs

theorem marked_seq (marker : q.groupModeCheck m = some q') : q'.seq = q.seq := by
  unfold Keys.groupModeCheck at marker
  split at marker
  · split at marker
    · exact absurd marker nofun
    · cases marker
      rfl
  · cases marker
    rfl

/-- A script behind the marker check counts what it counts past the check. -/
theorem guarded_tallied {script : Keys → Reply × Keys} {jobs : Keys → List String}
    (hb : Sane m q.toBoard) (h : Tallied m log q)
    (counts : ∀ q, Sane m q.toBoard → Tallied m log q → Tallied m (log ++ jobs q) (script q).2) :
    Tallied m (log ++ ((q.groupModeCheck m).map jobs).getD []) (guarded m script q).2 := by
  unfold guarded
  split
  next refused =>
    rw [refused, Option.map_none, Option.getD_none, List.append_nil]
    exact h
  next q' marker =>
    have board := (groupModeCheck_toBoard marker).1
    rw [marker, Option.map_some, Option.getD_some]
    refine counts q' (board ▸ hb) ⟨board ▸ h.ordered, (marked_seq marker).trans h.count⟩

/-- A script that readies no job. -/
theorem unready_tallied {c : Call} (none : c.readied m us = fun _ => [])
    (stays : Keys.Stays q (exec m us c q).2) (sane : Sane m (exec m us c q).2.toBoard)
    (h : Tallied m log q) :
    Tallied m (log ++ ((q.groupModeCheck m).map (c.readied m us)).getD []) (exec m us c q).2 := by
  have nothing : ((q.groupModeCheck m).map (c.readied m us)).getD [] = [] := by
    rw [none]
    cases q.groupModeCheck m <;> rfl
  rw [nothing, List.append_nil]
  exact h.stays stays.board stays.seq sane

theorem guarded_stays {script : Keys → Reply × Keys} (stays : ∀ q, Keys.Stays q (script q).2) :
    Keys.Stays q (guarded m script q).2 := by
  unfold guarded
  split
  · exact .refl q
  next q' marker =>
    have board := (groupModeCheck_toBoard marker).1
    exact Keys.Stays.trans ⟨.congr (congrArg Board.job board) (congrArg Board.ready board)
      (congrArg (·.groups.ready) board), marked_seq marker⟩ (stays q')

theorem unscheduling_seq : Unscheduling Keys.seq := fun _ _ _ _ => rfl

/-- What leaves the board and `seq` alone readies nothing. -/
theorem Keys.Stays.of_eq (board : q'.toBoard = q.toBoard) (seq : q'.seq = q.seq) :
    Keys.Stays q q' := ⟨board ▸ .refl _, seq⟩

theorem onBoard_stays {α : Type} {reply : α → Reply} {script : Board → α × Board}
    (stays : ∀ b : Board, b.Stays (script b).2) : Keys.Stays q (onBoard reply script q).2 :=
  ⟨stays q.toBoard, rfl⟩

theorem cancel_stays (id : String) : Keys.Stays q (cancel m id q).2 := by
  unfold cancel
  split
  · exact .refl q
  next freed b done =>
    exact ⟨by rw [ite_wakeUp_toBoard]; exact cancelJob_stays done, ite_wakeUp_seq _ _⟩

theorem exec_tallied (c : Call) (sends : c.Sends NewJob.Ranked) (hb : Sane m q.toBoard)
    (h : Tallied m log q) :
    Tallied m (log ++ ((q.groupModeCheck m).map (c.readied m us)).getD []) (exec m us c q).2 := by
  have sane : Sane m (exec m us c q).2.toBoard :=
    (exec_leads us c sends (fun _ ranked => ranked.group) hb).sane hb
  cases c with
  | add jobs => exact guarded_tallied hb h fun q hb h => addAll_tallied q.paused jobs hb h sends
  | claim => exact guarded_tallied hb h fun q hb h => claim_tallied hb h
  | complete id token keepAge keepCount lease claimToken result rate =>
      refine guarded_tallied hb h fun q hb h => ?_
      have settled := completeSettle_leads (Q := fun _ _ => True) (us / 1000) id token keepAge
        keepCount result hb
      exact settleClaim_tallied (settled.sane hb) (completeSettle_stays keepAge keepCount result _) h
  | fail id token error retryIn keepFailed lease claimToken rate =>
      refine guarded_tallied hb h fun q hb h => ?_
      have settled := failSettle_leads (Q := fun _ _ => True) (us / 1000) id token error retryIn
        keepFailed hb
      have claimed := @settleClaim_tallied m _ _ us lease _ claimToken (rateOf rate)
        (failSettle m (us / 1000) id token error retryIn keepFailed q.toBoard).1.freed
        (settled.sane hb) (failSettle_stays error retryIn keepFailed _) h
      have again := claimed.ordered
      refine ⟨?_, ?_⟩
      · simp only [answering, fail, ite_wakeUp_toBoard]
        exact claimed.ordered
      · simp only [answering, fail, ite_wakeUp_seq]
        exact claimed.count
  | release jobs =>
      refine guarded_tallied hb h fun q hb h => ?_
      have released := releaseAll_tallied jobs hb h
      exact ⟨by simp only [answering, release, ite_wakeUp_toBoard]; exact released.ordered,
        (ite_wakeUp_seq _ _).trans released.count⟩
  | retry id fresh =>
      refine guarded_tallied hb h fun q hb h => ?_
      exact h.part (retry_part h.ordered hb) ((retry_leads (Q := fun _ _ => True) hb).sane hb)
  | fire id due next attempts timeout =>
      refine guarded_tallied hb h fun q hb h => ?_
      exact h.part (fire_part hb) ((fire_leads sends).sane hb)
  | renew lease entries => exact unready_tallied rfl (onBoard_stays (renew_stays entries)) sane h
  | cancel id => exact unready_tallied rfl (guarded_stays fun q => cancel_stays id) sane h
  | remove id => exact unready_tallied rfl (guarded_stays fun q => onBoard_stays remove_stays) sane h
  | pause => exact unready_tallied rfl ⟨.refl _, rfl⟩ sane h
  | resume =>
      refine unready_tallied rfl (guarded_stays fun q => ?_) sane h
      exact .of_eq (ite_wakeUp_toBoard _ _) (ite_wakeUp_seq _ _)
  | progress => exact unready_tallied rfl (onBoard_stays progress_stays) sane h
  | stepBegin => exact unready_tallied rfl (onBoard_stays stepBegin_stays) sane h
  | stepCommit => exact unready_tallied rfl (onBoard_stays stepCommit_stays) sane h
  | defer id due untl =>
      exact unready_tallied rfl (.of_eq (defer_keeps unscheduling_toBoard id due untl)
        (defer_keeps unscheduling_seq id due untl)) sane h
  | upsert s =>
      exact unready_tallied rfl (.of_eq (upsert_keeps unscheduling_toBoard s)
        (upsert_keeps unscheduling_seq s)) sane h
  | unschedule id =>
      exact unready_tallied rfl (.of_eq (unschedule_keeps unscheduling_toBoard id)
        (unschedule_keeps unscheduling_seq id)) sane h
  | sync list =>
      exact unready_tallied rfl (.of_eq (sync_keeps unscheduling_toBoard list)
        (sync_keeps unscheduling_seq list)) sane h

/-- The jobs of a run that became ready are as many as `seq` tallied, and order `ready`. -/
theorem runFrom_tallied (calls : List Timed) (sends : Sends NewJob.Ranked calls)
    (hb : Sane m q.toBoard) (h : Tallied m log q) :
    Tallied m (log ++ readied m calls q) (runFrom m calls q) := by
  induction calls generalizing q log with
  | nil =>
      rw [readied, List.append_nil]
      exact h
  | cons c calls ih =>
      have ranked := sends c List.mem_cons_self
      have sane := (exec_leads c.1 c.2 ranked (fun _ ranked => ranked.group) hb).sane hb
      have rest := ih (fun d later => sends d (List.mem_cons_of_mem _ later)) sane
        (@exec_tallied m _ _ c.1 c.2 ranked hb h)
      rw [List.append_assoc] at rest
      exact rest

end Runs

/-! The order of `ready`, read off the log. -/

/-- A smaller priority, or the same one and ready since an earlier moment. -/
def Ahead (log : List String) (b : Board) (x y : String) : Prop :=
  number (b.hmget x).priority < number (b.hmget y).priority ∨
    number (b.hmget x).priority = number (b.hmget y).priority ∧
      ∃ i j, LastAt log x i ∧ LastAt log y j ∧ i < j

/-- The scores of `ready` are distinct integers a double holds exactly, in the jobs' order. -/
structure Board.InOrder (log : List String) (b : Board) : Prop where
  exact : ∀ x s, b.ready.score x = some s → s < 9007199254740992
  distinct : ∀ x y s, b.ready.score x = some s → b.ready.score y = some s → x = y
  order : ∀ x y s t, b.ready.score x = some s → b.ready.score y = some t →
    (s < t ↔ Ahead log b x y)

section Order
variable {b : Board} {x y : String} {s t : Nat}

/-- The score of a ready job, from its own priority and its last place in the log. -/
theorem Ordered.score_eq (h : Ordered m log b) (hb : Sane m b) (is : b.ready.score x = some s) :
    ∃ p ≤ 1000, ∃ i, number (b.hmget x).priority = p ∧ LastAt log x i ∧
      s = p * 1099511627776 + (i + 1) := by
  obtain ⟨hash, was, -⟩ :=
    hb.placed.job_of_mem (s := .waiting) (SortedSet.mem_iff_score.mpr ⟨s, is⟩)
  obtain ⟨p, i, priority, last, score⟩ := h.scored x hash s was is
  obtain ⟨p', le, same⟩ := h.hashes x hash was
  have eq : number (b.hmget x).priority = p := by
    rw [Board.hmget_of_job was, number_priority priority]
  have le : p ≤ 1000 := by
    have same := (number_priority same).symm.trans (number_priority priority)
    exact same ▸ le
  exact ⟨p, le, i, eq, last, score⟩

theorem Ordered.inOrder (h : Ordered m log b) (hb : Sane m b)
    (small : log.length < 1099511627776) : b.InOrder log where
  exact := fun x s is => by
    obtain ⟨p, le, i, -, last, rfl⟩ := h.score_eq hb is
    have := last.lt
    omega
  distinct := fun x y s is is' => by
    obtain ⟨p, le, i, -, last, rfl⟩ := h.score_eq hb is
    obtain ⟨p', le', j, -, last', same⟩ := h.score_eq hb is'
    have := last.lt
    have := last'.lt
    obtain rfl : i = j := by omega
    exact last.inj last'
  order := fun x y s t is is' => by
    obtain ⟨p, le, i, priority, last, rfl⟩ := h.score_eq hb is
    obtain ⟨p', le', j, priority', last', rfl⟩ := h.score_eq hb is'
    have first := last.lt
    have second := last'.lt
    unfold Ahead
    rw [priority, priority']
    constructor
    · intro lt
      rcases Nat.lt_trichotomy p p' with smaller | same | larger
      · exact .inl smaller
      · exact .inr ⟨same, i, j, last, last', by omega⟩
      · omega
    · rintro (smaller | ⟨same, i', j', at_, at_', lt⟩)
      · omega
      · obtain rfl := last.unique at_
        obtain rfl := last'.unique at_'
        omega

end Order

/-! What a claim pops. -/

/-- A pop: the board, the group it serves on a grouped queue, and how many jobs it asks for. -/
structure Pop where
  board : Board
  group : Option String
  most : Nat

/-- The zset it pops from. -/
def Pop.zset (p : Pop) : ZSet := p.group.elim p.board.ready p.board.groups.ready

def Pop.jobs (p : Pop) : List String := (p.zset.popMin p.most).1

/-- The jobs popped that start; the others are refused. -/
def Pop.started (p : Pop) : List String := p.jobs.filter fun id => sound (p.board.hmget id)

/-- A job it may take. -/
def Pop.Waits (p : Pop) (id : String) : Prop :=
  id ∈ p.board.ready ∧ ∀ g, p.group = some g → p.board.groupOf id = g

/-- It takes as many jobs as it asks for, or all there are, each ahead of those it leaves. -/
structure Pop.InOrder (log : List String) (p : Pop) : Prop where
  waits : ∀ x ∈ p.jobs, p.Waits x
  pairwise : p.jobs.Pairwise (Ahead log p.board)
  first : ∀ x ∈ p.jobs, ∀ y, p.Waits y → y ∉ p.jobs → Ahead log p.board x y
  le : p.jobs.length ≤ p.most
  all : p.jobs.length < p.most → ∀ y, p.Waits y → y ∈ p.jobs

/-- The pops of moments: of one job of the group each serves. -/
def popsOf (moments : List Moment) : List Pop :=
  moments.filterMap fun x => x.2.map fun g => ⟨x.1, some g, 1⟩

/-- The pops of a claim: one on an ungrouped queue, else one for each group served. -/
def claimPops (m : GroupArgs) (us n lease : Nat) (tokens : List String) (rate : Option Rate)
    (q : Keys) : List Pop :=
  if m.grouped then popsOf (claimMoments m us n lease tokens rate q)
  else
    let st := claimReady m (us / 1000) q
    [⟨st.q.toBoard, none, admitted us n rate st.q⟩]

/-- The pops of the claim that a settle carries. -/
def settlePops (m : GroupArgs) (us lease : Nat) (claimToken : String) (rate : Option Rate)
    (q : Keys) : List Pop :=
  if claimToken ≠ "" then claimPops m us 1 lease [claimToken] rate q else []

/-- The pops of a script, past the groups check. -/
def Call.pops (m : GroupArgs) (us : Nat) : Call → Keys → List Pop
  | .claim lease rate tokens, q => claimPops m us tokens.length lease tokens (rateOf rate) q
  | .complete id token keepAge keepCount lease claimToken result rate, q =>
      let (_, _, b) := completeSettle m (us / 1000) id token keepAge keepCount result q.toBoard
      settlePops m us lease claimToken (rateOf rate) { q with toBoard := b }
  | .fail id token error retryIn keepFailed lease claimToken rate, q =>
      let (_, b) := failSettle m (us / 1000) id token error retryIn keepFailed q.toBoard
      settlePops m us lease claimToken (rateOf rate) { q with toBoard := b }
  | _, _ => []

/-- The pops of a call. -/
def pops (m : GroupArgs) (c : Timed) (q : Keys) : List Pop :=
  ((q.groupModeCheck m).map (c.2.pops m c.1)).getD []

/-- The jobs a reply starts. -/
def Reply.jobs : Reply → List ClaimedJob
  | .claimed claim | .completed _ claim | .failed _ _ claim => claim.jobs
  | _ => []

/-- The jobs started are those the pops take, in the order of the log. -/
structure Popped (log : List String) (jobs : List ClaimedJob) (pops : List Pop) : Prop where
  jobs : jobs.map ClaimedJob.id = pops.flatMap Pop.started
  inOrder : ∀ p ∈ pops, p.InOrder log

section Pops
variable {p : Pop} {st st' : Claiming} {now n lease : Nat} {tokens : List String}
  {rate : Option Rate} {id g x : String}

theorem Pop.mem_zset (hb : Sane m p.board) (group : p.group.isSome = true → m.grouped = true) :
    x ∈ p.zset ↔ p.Waits x := by
  unfold Pop.zset Pop.Waits
  cases is : p.group with
  | none => simp
  | some g =>
      rw [is] at group
      rw [Option.elim_some, (hb.grouped (group rfl)).mirror g x]
      simp only [Option.some.injEq, forall_eq']

/-- A group's zset scores its jobs as `ready` does. -/
theorem Pop.score_ready (h : Ordered m log p.board)
    (group : p.group.isSome = true → m.grouped = true) {s : Nat} (is : p.zset.score x = some s) :
    p.board.ready.score x = some s := by
  unfold Pop.zset at is
  cases of : p.group with
  | none => rwa [of] at is
  | some g =>
      rw [of] at is group
      exact h.mirror (group rfl) g x s is

theorem Pop.inOrder (h : Ordered m log p.board) (hb : Sane m p.board)
    (group : p.group.isSome = true → m.grouped = true) (small : log.length < 1099511627776) :
    p.InOrder log := by
  have order := h.inOrder hb small
  have scored : ∀ x ∈ p.zset, ∃ s, p.zset.score x = some s := fun x => SortedSet.mem_iff_score.mp
  have popped : ∀ x ∈ p.jobs, x ∈ p.zset := fun x => SortedSet.mem_of_mem_popMin
  -- No two jobs have one score, so a lower or equal score is a lower one.
  have ahead : ∀ x y s t, p.zset.score x = some s → p.zset.score y = some t → x ≠ y → s ≤ t →
      Ahead log p.board x y := fun x y s t is is' other le => by
    have hx := score_ready h group is
    have hy := score_ready h group is'
    refine (order.order x y s t hx hy).mp (lt_of_le_of_ne le fun same => other ?_)
    exact order.distinct x y s hx (same ▸ hy)
  refine ⟨fun x mem => (mem_zset hb group).mp (popped x mem), ?_, ?_, ?_, ?_⟩
  · have nodup : p.jobs.Pairwise (· ≠ ·) := SortedSet.nodup_popMin p.most p.zset
    refine (nodup.and (SortedSet.popMin_pairwise p.most p.zset)).imp_of_mem ?_
    rintro x y mem mem' ⟨other, le⟩
    obtain ⟨s, is⟩ := scored x (popped x mem)
    obtain ⟨t, is'⟩ := scored y (popped y mem')
    exact ahead x y s t is is' other (le s t is is')
  · intro x mem y waits out
    obtain ⟨s, is⟩ := scored x (popped x mem)
    obtain ⟨t, is'⟩ := scored y ((mem_zset hb group).mpr waits)
    exact ahead x y s t is is' (fun same => out (same ▸ mem)) (SortedSet.popMin_le mem out is is')
  · exact SortedSet.length_popMin_le p.most p.zset
  · intro short y waits
    have whole := SortedSet.length_popMin p.most p.zset
    have split := SortedSet.members_popMin p.most p.zset
    have length := congrArg List.length split
    rw [List.length_append, SortedSet.members, List.length_map] at length
    change p.zset.card = (p.jobs).length + _ at length
    change (p.jobs).length = _ at whole
    have none : (p.zset.popMin p.most).2.members = [] :=
      List.eq_nil_of_length_eq_zero (by omega)
    have mem : y ∈ p.zset := (mem_zset hb group).mpr waits
    rw [SortedSet.mem_def, split, none, List.append_nil] at mem
    exact mem

/-! The jobs popped are those the reply starts. -/

def Claiming.ids (st : Claiming) : List String := st.jobs.map ClaimedJob.id

theorem beginJob_ids (now lease : Nat) (tokens : List String) (id g : String) (st : Claiming) :
    (beginJob m now lease tokens id g st).ids =
      st.ids ++ if sound (st.q.hmget id) then [id] else [] := by
  unfold beginJob
  dsimp only
  cases sound (st.q.hmget id) with
  | false => exact (List.append_nil _).symm
  | true => exact List.map_append

/-- The other jobs' hashes are as they were. -/
theorem refuse_hmget {b : Board} (other : x ≠ id) : (b.refuse m now id).hmget x = b.hmget x := by
  let b' := { b with delayed := b.delayed.rem id }.readyRem m id (b.groupOf id)
  have job : (b'.activeRem m id (b.groupOf id)).2.job = b.job := Board.activeRem_job ..
  unfold Board.refuse
  dsimp only
  split
  · exact congrArg (fun j => (j x).getD {}) job
  · refine congrArg (fun h : Option JobHash => h.getD {}) ?_
    refine (Function.update_of_ne other ..).trans ((Function.update_of_ne other ..).trans ?_)
    exact congrFun job x

theorem beginJob_hmget (now lease : Nat) (tokens : List String) (g : String) (st : Claiming)
    (other : x ≠ id) : (beginJob m now lease tokens id g st).q.hmget x = st.q.hmget x := by
  unfold beginJob
  dsimp only
  split
  · exact refuse_hmget other
  · exact congrArg (fun h : Option JobHash => h.getD {}) (Function.update_of_ne other ..)

theorem begins_ids (ids : List String) (nodup : ids.Nodup) (st : Claiming) :
    (ids.foldl (fun st id => beginJob m now lease tokens id "" st) st).ids =
      st.ids ++ ids.filter fun id => sound (st.q.hmget id) := by
  induction ids generalizing st with
  | nil => exact (List.append_nil _).symm
  | cons id ids ih =>
      obtain ⟨fresh, distinct⟩ := List.nodup_cons.mp nodup
      have rest : (ids.filter fun x =>
          sound ((beginJob m now lease tokens id "" st).q.hmget x)) =
          ids.filter fun x => sound (st.q.hmget x) := by
        refine List.filter_congr fun x mem => ?_
        have other : x ≠ id := fun same => fresh (same ▸ mem)
        rw [beginJob_hmget now lease tokens "" st other]
      rw [List.foldl_cons, ih distinct, beginJob_ids, rest, List.append_assoc, List.filter_cons]
      cases sound (st.q.hmget id) <;> rfl

theorem popTurn_ids {served : Option String}
    (turn : popTurn m now lease tokens st = some (served, st')) :
    st'.ids = st.ids ++ served.elim [] fun g => Pop.started ⟨st.q.toBoard, some g, 1⟩ := by
  unfold popTurn at turn
  split at turn
  · exact absurd turn nofun
  next g k taken =>
    obtain ⟨rest, -, rfl⟩ := GroupKeys.rrTake_eq_some taken
    dsimp only at turn
    split at turn
    next id later z popped =>
      cases turn
      let b : Board := { st.q.toBoard with
        groups := { st.q.groups with list := rest, queued := st.q.groups.queued.rem g } }
      let out : Claiming := { st with q := { st.q with toBoard := b.popGroup id g z } }
      have one : (b.groups.ready g).popMin 1 = (id :: later, z) := by
        unfold Board.popped at popped
        split at popped
        · exact popped
        · exact absurd popped nofun
      obtain ⟨rfl, -, -⟩ := SortedSet.popMin_one (congrArg Prod.fst one)
      have jobs : Pop.jobs ⟨st.q.toBoard, some g, 1⟩ = [id] := congrArg Prod.fst one
      have begun := beginJob_ids (m := m) now lease tokens id g out
      rw [Option.elim_some, Pop.started, jobs, List.filter_cons]
      exact begun
    next =>
      cases turn
      exact (List.append_nil _).symm

theorem popGroups_ids (n takes got : Nat) (st : Claiming) :
    (popGroups m now lease tokens n takes got st).ids =
      st.ids ++ (popsOf (popMoments m now lease tokens n takes got st)).flatMap Pop.started := by
  induction takes generalizing got st with
  | zero => exact (List.append_nil _).symm
  | succ takes ih =>
      unfold popGroups popMoments
      split
      · cases turn : popTurn m now lease tokens st with
        | none => exact (List.append_nil _).symm
        | some next =>
            obtain ⟨served, st'⟩ := next
            have first := popTurn_ids turn
            cases served with
            | none =>
                refine (ih got st').trans ?_
                rw [first]
                exact congrArg (· ++ _) (List.append_nil _)
            | some g =>
                refine (ih (got + 1) st').trans ?_
                rw [first, List.append_assoc]
                rfl
      · exact (List.append_nil _).symm

theorem popMoments_ordered (hm : m.grouped = true) (n takes got : Nat) (st : Claiming)
    (hb : Sane m st.q.toBoard) (h : Ordered m log st.q.toBoard) :
    ∀ x ∈ popMoments m now lease tokens n takes got st, Ordered m log x.1 ∧ Sane m x.1 := by
  induction takes generalizing got st with
  | zero => exact fun _ mem => absurd mem List.not_mem_nil
  | succ takes ih =>
      unfold popMoments
      split
      · split
        · exact fun _ mem => absurd mem List.not_mem_nil
        next turn =>
          have sane := (Claiming.popTurn_leads (Q := fun _ _ => True) hm hb turn).sane hb
          have rest := ih (got + 1) _ sane (h.stays (popTurn_stays turn).board sane)
          exact List.forall_mem_cons.mpr ⟨⟨h, hb⟩, rest⟩
        next turn =>
          have sane := (Claiming.popTurn_leads (Q := fun _ _ => True) hm hb turn).sane hb
          have rest := ih got _ sane (h.stays (popTurn_stays turn).board sane)
          exact List.forall_mem_cons.mpr ⟨⟨h, hb⟩, rest⟩
      · exact fun _ mem => absurd mem List.not_mem_nil

theorem mem_popsOf {moments : List Moment} (mem : p ∈ popsOf moments) :
    ∃ x ∈ moments, ∃ g, p = ⟨x.1, some g, 1⟩ := by
  obtain ⟨x, there, is⟩ := List.mem_filterMap.mp mem
  obtain ⟨g, -, rfl⟩ := Option.map_eq_some_iff.mp is
  exact ⟨x, there, g, rfl⟩

/-- A claim pops after what it readies, and answers what it pops. -/
theorem claim_popped (n lease : Nat) (tokens : List String) (rate : Option Rate)
    (hb : Sane m q.toBoard) (h : Tallied m log q)
    (small : (log ++ claimReadied m (us / 1000) q).length < 1099511627776) :
    Popped (log ++ claimReadied m (us / 1000) q) (claim m us n lease tokens rate q).1.jobs
      (claimPops m us n lease tokens rate q) := by
  obtain ⟨ready, sane⟩ := @claimReady_tallied m _ _ (us / 1000) hb h
  have none : (claimReady m (us / 1000) q).ids = [] := congrArg (List.map _) (claimReady_jobs q)
  change Popped _ (claimPop m (us / 1000) us n lease tokens rate (claimReady m (us / 1000) q)).jobs _
  unfold claimPop claimPops claimMoments
  dsimp only
  generalize claimReady m (us / 1000) q = st at ready sane none ⊢
  generalize admitted us n rate st.q = most
  cases hm : m.grouped with
  | true =>
      simp only [and_true, if_true]
      split
      · refine ⟨?_, fun p mem => ?_⟩
        · have ids := @popGroups_ids m (us / 1000) lease tokens most (2 * most + 10) 0 st
          rw [none] at ids
          exact ids
        · obtain ⟨x, there, g, rfl⟩ := mem_popsOf mem
          obtain ⟨ordered, sane⟩ := popMoments_ordered hm most (2 * most + 10) 0 st sane
            ready.ordered x there
          exact Pop.inOrder ordered sane (fun _ => hm) small
      · exact ⟨none, fun _ mem => absurd mem List.not_mem_nil⟩
  | false =>
      simp only [Bool.false_eq_true, and_false, if_false]
      refine ⟨?_, fun p mem => ?_⟩
      · rw [List.flatMap_singleton]
        split
        · let popping : Claiming := { st with q := { st.q with ready := (st.q.ready.popMin most).2 } }
          have begun := @begins_ids m (us / 1000) lease tokens
            (st.q.ready.popMin most).1 (SortedSet.nodup_popMin ..) popping
          refine begun.trans ?_
          rw [show popping.ids = [] from none, List.nil_append]
          rfl
        next idle =>
          obtain rfl : most = 0 := by omega
          exact none
      · cases List.mem_singleton.mp mem
        exact Pop.inOrder ready.ordered sane (fun is => absurd is Bool.false_ne_true) small

theorem settleClaim_popped {b : Board} {freed : Bool} (lease : Nat) (claimToken : String)
    (rate : Option Rate) (hb : Sane m b) (stays : q.toBoard.Stays b) (h : Tallied m log q)
    (small : (log ++ settleReadied m us claimToken { q with toBoard := b }).length <
      1099511627776) :
    Popped (log ++ settleReadied m us claimToken { q with toBoard := b })
      (settleClaim m us lease claimToken rate freed { q with toBoard := b }).1.jobs
      (settlePops m us lease claimToken rate { q with toBoard := b }) := by
  have settled : Tallied m log { q with toBoard := b } := h.stays stays rfl hb
  unfold settleClaim settlePops
  unfold settleReadied at small ⊢
  split
  next asks =>
    rw [if_pos asks] at small
    exact claim_popped 1 lease [claimToken] rate hb settled small
  · exact ⟨rfl, fun _ mem => absurd mem List.not_mem_nil⟩

theorem guarded_popped {script : Keys → Reply × Keys} {jobs : Keys → List String}
    {pops : Keys → List Pop} (hb : Sane m q.toBoard) (h : Tallied m log q)
    (small : (log ++ ((q.groupModeCheck m).map jobs).getD []).length < 1099511627776)
    (popped : ∀ q, Sane m q.toBoard → Tallied m log q →
      (log ++ jobs q).length < 1099511627776 → Popped (log ++ jobs q) (script q).1.jobs (pops q)) :
    Popped (log ++ ((q.groupModeCheck m).map jobs).getD []) (guarded m script q).1.jobs
      (((q.groupModeCheck m).map pops).getD []) := by
  unfold guarded
  cases marker : q.groupModeCheck m with
  | none => exact ⟨rfl, fun _ mem => absurd mem List.not_mem_nil⟩
  | some q' =>
      have board := (groupModeCheck_toBoard marker).1
      rw [marker] at small
      exact popped q' (board ▸ hb) ⟨board ▸ h.ordered, (marked_seq marker).trans h.count⟩ small

/-- A script with no claim in it starts no job. -/
theorem unpopped {c : Call} (none : ∀ q, c.pops m us q = []) (starts : (exec m us c q).1.jobs = [])
    (log : List String) :
    Popped log (exec m us c q).1.jobs (((q.groupModeCheck m).map (c.pops m us)).getD []) := by
  have nothing : ((q.groupModeCheck m).map (c.pops m us)).getD [] = [] := by
    cases q.groupModeCheck m with
    | none => rfl
    | some q' => exact none q'
  rw [nothing, starts]
  exact ⟨rfl, fun _ mem => absurd mem List.not_mem_nil⟩

theorem guarded_starts {script : Keys → Reply × Keys} (none : ∀ q, (script q).1.jobs = []) :
    (guarded m script q).1.jobs = [] := by
  unfold guarded
  split
  · rfl
  · exact none _

theorem orError_starts {α : Type} {reply : α → Reply} (none : ∀ a, (reply a).jobs = [])
    (r : Except String α) : (orError reply r).jobs = [] := by
  cases r with
  | error => rfl
  | ok a => exact none a

/-- Every script starts the jobs its pops take, in the order of what became ready so far. -/
theorem exec_popped (c : Call) (hb : Sane m q.toBoard) (h : Tallied m log q)
    (small : (log ++ ((q.groupModeCheck m).map (c.readied m us)).getD []).length < 1099511627776) :
    Popped (log ++ ((q.groupModeCheck m).map (c.readied m us)).getD []) (exec m us c q).1.jobs
      (((q.groupModeCheck m).map (c.pops m us)).getD []) := by
  cases c with
  | claim lease rate tokens =>
      exact guarded_popped hb h small fun q hb h small =>
        claim_popped tokens.length lease tokens (rateOf rate) hb h small
  | complete id token keepAge keepCount lease claimToken result rate =>
      refine guarded_popped hb h small fun q hb h small => ?_
      have settled := completeSettle_leads (Q := fun _ _ => True) (us / 1000) id token keepAge
        keepCount result hb
      exact settleClaim_popped lease claimToken (rateOf rate) (settled.sane hb)
        (completeSettle_stays keepAge keepCount result _) h small
  | fail id token error retryIn keepFailed lease claimToken rate =>
      refine guarded_popped hb h small fun q hb h small => ?_
      have settled := failSettle_leads (Q := fun _ _ => True) (us / 1000) id token error retryIn
        keepFailed hb
      exact settleClaim_popped lease claimToken (rateOf rate) (settled.sane hb)
        (failSettle_stays error retryIn keepFailed _) h small
  | add | release | cancel | retry | remove | resume =>
      refine unpopped (fun _ => rfl) ?_ _
      exact guarded_starts fun _ => rfl
  | renew | pause | progress | stepBegin | stepCommit | upsert | unschedule =>
      exact unpopped (fun _ => rfl) rfl _
  | fire =>
      refine unpopped (fun _ => rfl) ?_ _
      exact guarded_starts fun _ => orError_starts (fun _ => rfl) _
  | defer | sync =>
      refine unpopped (fun _ => rfl) ?_ _
      exact orError_starts (fun _ => rfl) _

theorem readied_append (m : GroupArgs) (calls : List Timed) (c : Timed) (q : Keys) :
    readied m (calls ++ [c]) q = readied m calls q ++
      (((runFrom m calls q).groupModeCheck m).map (c.2.readied m c.1)).getD [] := by
  induction calls generalizing q with
  | nil => exact List.append_nil _
  | cons d calls ih =>
      rw [List.cons_append, readied, readied, ih, List.append_assoc]
      rfl

theorem Tallied.empty (m : GroupArgs) : Tallied m [] .empty := ⟨.empty m, rfl⟩


end Pops

/-- After every run in which `seq` stays below 2^40 the scores of `ready` are distinct, exact
and in the order of priority and then of the last time ready; and what the last script started
it popped in that order, as many jobs as it was admitted, or all there were. -/
theorem run_ordered (m : GroupArgs) (calls : List Timed) (c : Timed)
    (sends : Sends NewJob.Ranked (calls ++ [c]))
    (small : (run m (calls ++ [c])).seq < 1099511627776) :
    (run m (calls ++ [c])).toBoard.InOrder (readied m (calls ++ [c]) .empty) ∧
      Popped (readied m (calls ++ [c]) .empty) (step m c (run m calls)).1.jobs
        (pops m c (run m calls)) := by
  have before : Sends NewJob.Ranked calls := fun d mem => sends d (List.mem_append_left _ mem)
  have group : ∀ j : NewJob, j.Ranked → j.GroupSound := fun _ ranked => ranked.group
  have tallied := runFrom_tallied calls before (.empty m) (.empty m)
  have whole := runFrom_tallied (calls ++ [c]) sends (.empty m) (.empty m)
  rw [List.nil_append] at tallied whole
  have short : (readied m (calls ++ [c]) .empty).length < 1099511627776 := whole.count ▸ small
  refine ⟨whole.ordered.inOrder ((run_leads _ sends group).sane (.empty m)) short, ?_⟩
  rw [readied_append] at short ⊢
  exact exec_popped c.2 ((run_leads calls before group).sane (.empty m)) tallied short

/-- Two jobs of priority 1 and then one of priority 0. -/
def lateUrgent : List Timed :=
  let job (id : String) (priority : Nat) : AddJob := { id, data := "null", priority, attempts := 1 }
  [(0, .add [job "a" 1, job "b" 1, job "c" 0])]

theorem run_ordered_lateUrgent :
    (run ⟨false, 0⟩ (lateUrgent ++ [(1000, .claim 30000 none ["t", "u"])])).toBoard.InOrder
        ["a", "b", "c"] ∧
      Popped ["a", "b", "c"] [⟨"c", "null", 1, 1, "t", -1⟩, ⟨"a", "null", 1, 1, "u", -1⟩]
        (pops ⟨false, 0⟩ (1000, .claim 30000 none ["t", "u"]) (run ⟨false, 0⟩ lateUrgent)) := by
  have sends : Sends NewJob.Ranked (lateUrgent ++ [(1000, .claim 30000 none ["t", "u"])]) := by
    intro c mem
    simp only [lateUrgent, List.cons_append, List.nil_append, List.mem_cons, List.not_mem_nil,
      or_false] at mem
    rcases mem with rfl | rfl
    · intro j mem
      simp only [List.mem_cons, List.not_mem_nil, or_false] at mem
      rcases mem with rfl | rfl | rfl
      all_goals
        refine ⟨?_, by decide⟩
        change groupSound _ = true
        decide
    · trivial
  exact run_ordered ⟨false, 0⟩ lateUrgent (1000, .claim 30000 none ["t", "u"]) sends (by decide)

end NxgtData.Queue
