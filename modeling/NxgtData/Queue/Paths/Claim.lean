import NxgtData.Queue.History

/-!
The claim as a path of moves: its reclaims, promotions, refusals and starts, one
move each. The claim's own tables say which reclaims and starts they were, in
order.
-/
namespace NxgtData.Queue
open Decimal Gcra

variable {m : GroupArgs} {Q : String → JobHash → Prop}

/-- A stretch of a claim: moves whose marks the claim's tables have gained. -/
def Claiming.Leads (m : GroupArgs) (Q : String → JobHash → Prop) (st st' : Claiming) : Prop :=
  ∃ ms, Queue.Leads m Q st.q.toBoard ms st'.q.toBoard ∧ st'.marks = st.marks ++ ms

/-- One move of a claim, on the job `id`. -/
def Claiming.Moves (m : GroupArgs) (id : String) (st st' : Claiming) : Prop :=
  ∃ a, a.id = id ∧ (∀ id h, a ≠ .create id h) ∧ Move m st.q.toBoard a st'.q.toBoard ∧
    st'.marks = st.marks ++ Queue.marks [a]

namespace Claiming
variable {st st' st'' : Claiming} {id : String}

theorem Leads.refl (st : Claiming) : Leads m Q st st := ⟨[], .refl _, by simp⟩

theorem Leads.trans (h : Leads m Q st st') (k : Leads m Q st' st'') : Leads m Q st st'' := by
  obtain ⟨ms, leads, marks⟩ := h
  obtain ⟨ns, leads', marks'⟩ := k
  exact ⟨ms ++ ns, leads.trans leads', by rw [marks', marks, List.append_assoc]⟩

theorem Leads.sane (h : Leads m Q st st') (hb : Sane m st.q.toBoard) : Sane m st'.q.toBoard := by
  obtain ⟨ms, leads, -⟩ := h
  exact leads.sane hb

theorem Moves.leads (h : Moves m id st st') : Leads m Q st st' := by
  obtain ⟨a, -, new, move, marks⟩ := h
  exact ⟨Queue.marks [a], .single move new, marks⟩

theorem Moves.move (h : Moves m id st st') :
    ∃ a, a.id = id ∧ Move m st.q.toBoard a st'.q.toBoard := by
  obtain ⟨a, eq, -, move, -⟩ := h
  exact ⟨a, eq, move⟩

end Claiming

section Boards
variable {b : Board} {id : String} {h : JobHash}

theorem groupName_of_sound (trusted : sound h = true) : h.groupName = h.group.getD "" := by
  have group : groupSound h.group = true := by
    simp only [sound, Bool.and_eq_true] at trusted
    exact trusted.2
  unfold JobHash.groupName
  cases hg : h.group with
  | none => rfl
  | some g => rw [hg] at group; simp [group]

/-- Trust starts with a `data` field, so a trusted hash is there. -/
theorem job_of_sound (trusted : sound (b.hmget id) = true) : b.job id = some (b.hmget id) := by
  cases was : b.job id with
  | some h => simp [Board.hmget, was]
  | none => simp [Board.hmget, was, sound] at trusted

theorem Board.activeRem_idle (still : id ∉ b.active) (g : String) : (b.activeRem m id g).2 = b := by
  simp [Board.activeRem, still]

theorem Board.undelayed (idle : id ∉ b.delayed) :
    ({ b with delayed := b.delayed.rem id } : Board) = b := by
  rw [SortedSet.rem_of_notMem idle]

/-- Clearing a job out of `delayed`, `ready` and `active` takes it out of the
one it is in. -/
theorem Placed.clear_eq_leave (hb : Placed b) (mirror : b.Unmirrored m id)
    (was : b.job id = some h)
    (state : h.state = some .waiting ∨ h.state = some .delayed ∨ h.state = some .active) :
    ((({ b with delayed := b.delayed.rem id }.readyRem m id (b.groupOf id)).activeRem m id
      (b.groupOf id)).2) = b.leave m id := by
  have stateOf := Board.stateOf_of_job was
  have out : ∀ s, h.state ≠ some s → id ∉ b.place s := fun s ne mem =>
    ne (stateOf ▸ (hb.mem_place id s).mp mem)
  rcases state with state | state | state
  · have still : id ∉ (b.readyRem m id (b.groupOf id)).active := out .active (by simp [state])
    rw [Board.undelayed (out .delayed (by simp [state])), Board.activeRem_idle still,
      Board.leave_waiting (stateOf.trans state)]
  · have idle : id ∉ b.ready := out .waiting (by simp [state])
    have mirror' : ({ b with delayed := b.delayed.rem id } : Board).Unmirrored m id := mirror
    have still : id ∉ ({ b with delayed := b.delayed.rem id } : Board).active :=
      out .active (by simp [state])
    rw [Board.readyRem_idle mirror' idle, Board.activeRem_idle still,
      Board.leave_delayed (stateOf.trans state)]
  · have idle : id ∉ b.ready := out .waiting (by simp [state])
    rw [Board.undelayed (out .delayed (by simp [state])), Board.readyRem_idle mirror idle,
      Board.leave_active (stateOf.trans state)]

/-- A refusal is one shift, from wherever the job waited or ran. -/
theorem Placed.refuse_eq (hb : Placed b) (mirror : b.Unmirrored m id) (was : b.job id = some h)
    (state : h.state = some .waiting ∨ h.state = some .delayed ∨ h.state = some .active)
    (now : Nat) :
    b.refuse m now id = b.shift m id h.groupName
      (some { h with
        state := some .failed, error := some invalidError, finished := some (toString now)
        token := none }) now [.failed id invalidError] := by
  have cleared := hb.clear_eq_leave mirror was state
  have job : (b.leave m id).job id = some h := by rw [Board.leave_job, was]
  rw [Board.shift_failed rfl]
  simp only [Board.refuse, cleared, job, Option.isNone_some, Bool.false_eq_true, ite_false,
    Board.hset_of_job _ job, Board.hdel_put]
  rfl

theorem GroupKeys.readyRem_readyRem (k : GroupKeys) (id g : String) :
    (k.readyRem m id g).readyRem m id g = k.readyRem m id g := by
  unfold GroupKeys.readyRem
  split
  · simp [SortedSet.rem_of_notMem]
  · rfl

/-- A refusal finds the popped job's mirror already gone. -/
theorem Board.refuse_popped (v : Board) (id : String) (z : ZSet) (now : Nat) :
    ({ v.readyRem m id (v.groupOf id) with ready := z } : Board).refuse m now id =
      { v.refuse m now id with ready := z.rem id } := by
  have groupOf : ∀ delayed ready active completed failed groups events,
      (Board.mk v.job delayed ready active completed failed groups events).groupOf id =
        v.groupOf id := fun _ _ _ _ _ _ _ => rfl
  have again := GroupKeys.readyRem_readyRem (m := m) v.groups id (v.groupOf id)
  simp only [Board.refuse, groupOf, Board.readyRem, again, Board.activeRem]
  by_cases active : id ∈ v.active <;> by_cases gone : (v.job id).isNone <;>
    simp [active, gone, Board.hset, Board.hdel, Board.hmget, Board.publish]

end Boards
namespace Claiming
variable {st : Claiming} {id : String} {h : JobHash} {now : Nat}

theorem refuse_moves (hb : Sane m st.q.toBoard) (was : st.q.job id = some h)
    (state : h.state = some .waiting ∨ h.state = some .delayed ∨ h.state = some .active)
    (untrusted : sound h = false) : Moves m id st (refuse m now id st) := by
  refine ⟨.refuse id, rfl, by simp, ?_, by simp [refuse, marks, Queue.marks, Act.mark]⟩
  refine .of_shift now was (.refuse (some (toString now)) state untrusted)
    (by simp [Act.isStart]) ?_ (hb.placed.refuse_eq (Grouped.unmirrored hb.grouped) was state now)
  rcases state with s | s | s <;> simp [s]

theorem reclaimOne_moves (now : Nat) (hb : Sane m st.q.toBoard) (none : st.jobs = [])
    (mem : id ∈ st.q.toBoard.place .active) :
    Moves m id st (reclaimOne m now st id) ∧ (reclaimOne m now st id).jobs = [] := by
  obtain ⟨h, was, state⟩ := hb.placed.job_of_mem mem
  have stateOf := (Board.stateOf_of_job was).trans state
  have hmget := Board.hmget_of_job was
  cases trusted : sound h with
  | false =>
      simp only [reclaimOne, hmget, trusted, Bool.not_false, ite_true]
      exact ⟨refuse_moves hb was (Or.inr (Or.inr state)) trusted, none⟩
  | true =>
      have left : (st.q.toBoard.activeRem m id h.groupName).2 = st.q.toBoard.leave m id := by
        rw [Board.leave_active stateOf, Board.groupOf_of_job was]
      have job : (st.q.toBoard.leave m id).job id = some h := by rw [Board.leave_job, was]
      simp only [reclaimOne, hmget, trusted, Bool.not_true, Bool.false_eq_true, ite_false,
        ← groupName_of_sound trusted, left]
      refine ⟨⟨.reclaim id, rfl, by simp, ?_, ?_⟩, none⟩
      · by_cases more : number h.attempt < number h.attempts
        · refine .of_shift (readyScore (number h.priority) (st.q.seq + 1)) was
            (.reclaim state trusted more) (by simp [Act.isStart]) (by simp [state]) ?_
          simp only [more, ite_true, Board.hdel_of_job _ job, Board.hset_put]
          rw [Board.shift_waiting rfl, Board.announce_nil]
          rfl
        · refine .of_shift now was (.lapse (some (toString now)) state trusted more)
            (by simp [Act.isStart]) (by simp [state]) ?_
          simp only [more, ite_false, Board.hdel_of_job _ job, Board.hset_put]
          rw [Board.shift_failed rfl]
          rfl
      · simp [marks, claimMarks, Queue.marks, Act.mark, none]

theorem reclaim_leads (now : Nat) (hb : Sane m st.q.toBoard) (none : st.jobs = []) :
    Leads m Q st (reclaim m now st) ∧ (reclaim m now st).jobs = [] := by
  unfold reclaim
  refine Sane.foldl (fun st => st.q.toBoard) (I := fun st => st.jobs = []) .active Leads.refl
    Leads.trans (fun st id hb none mem => ?_) _ (st.q.active.nodup_range (· < now) 100) hb none
    fun id mem => ?_
  · obtain ⟨moves, kept⟩ := reclaimOne_moves now hb none mem
    exact ⟨moves.move, moves.leads, kept⟩
  · obtain ⟨⟨score, id⟩, ranged, rfl⟩ := List.mem_map.mp mem
    exact SortedSet.mem_iff_score.mpr ⟨score, (SortedSet.mem_range ranged).1⟩

theorem promoteOne_moves (now : Nat) (hb : Sane m st.q.toBoard) (mem : id ∈ st.q.toBoard.place .delayed) :
    Moves m id st (promoteOne m now st id) := by
  obtain ⟨h, was, state⟩ := hb.placed.job_of_mem mem
  have stateOf := (Board.stateOf_of_job was).trans state
  have hmget := Board.hmget_of_job was
  cases trusted : sound h with
  | false =>
      simp only [promoteOne, hmget, trusted, Bool.not_false, ite_true]
      exact refuse_moves hb was (Or.inr (Or.inl state)) trusted
  | true =>
      have job : (st.q.toBoard.leave m id).job id = some h := by rw [Board.leave_job, was]
      refine ⟨.promote id, rfl, by simp, ?_, ?_⟩
      · refine .of_shift (readyScore (number h.priority) (st.q.seq + 1)) was
          (.promote state trusted) (by simp [Act.isStart]) (by simp [state]) ?_
        rw [Act.id, Board.shift_waiting rfl, Board.announce_nil]
        rw [Board.leave_delayed stateOf] at job ⊢
        simp only [promoteOne, hmget, trusted, Bool.not_true, Bool.false_eq_true, ite_false,
          ← groupName_of_sound trusted, Board.hset_of_job _ job]
        rfl
      · simp [promoteOne, hmget, trusted, marks, Queue.marks, Act.mark]

theorem promote_leads (now : Nat) (hb : Sane m st.q.toBoard) : Leads m Q st (promote m now st) := by
  unfold promote
  refine (Sane.foldl (fun st => st.q.toBoard) (I := fun _ => True) .delayed Leads.refl
    Leads.trans (fun st id hb _ mem => ?_) _ (st.q.delayed.nodup_range (· ≤ now) 1000) hb trivial
    fun id mem => ?_).1
  · have moves := promoteOne_moves now hb mem
    exact ⟨moves.move, moves.leads, trivial⟩
  · obtain ⟨⟨score, id⟩, ranged, rfl⟩ := List.mem_map.mp mem
    exact SortedSet.mem_iff_score.mpr ⟨score, (SortedSet.mem_range ranged).1⟩

/-- A popped job begins, or is refused. `v` is the board before the pop, and `z`
what the pop left of `ready`. -/
theorem beginJob_eq {v : Board} {z : ZSet} (g : String) (now lease : Nat) (tokens : List String)
    (st : Claiming)
    (placed : Placed v) (mirror : v.Unmirrored m id) (was : v.job id = some h)
    (waiting : h.state = some .waiting)
    (board : st.q.toBoard = { v.readyRem m id h.groupName with ready := z }) (out : id ∉ z)
    (group : m.grouped = true → g = h.groupName) :
    ∃ a ev h' score, a.id = id ∧ (a.isStart ∨ ∃ id, a = .refuse id) ∧
      (∀ id h, a ≠ .create id h) ∧ h'.bind JobHash.state ≠ some .waiting ∧
      Change a (some h) ev h' ∧
      (beginJob m now lease tokens id g st).q.toBoard =
        { v.shift m id (hashGroup h') h' score ev with ready := z } ∧
      (beginJob m now lease tokens id g st).marks = st.marks ++ Queue.marks [a] := by
  have stateOf := (Board.stateOf_of_job was).trans waiting
  have groupOf := Board.groupOf_of_job was
  have job : st.q.toBoard.job id = some h := by rw [board]; exact was
  have hmget := Board.hmget_of_job job
  cases trusted : sound h with
  | false =>
      refine ⟨.refuse id, _, _, now, rfl, Or.inr ⟨id, rfl⟩, by simp, ?_,
        .refuse (some (toString now)) (Or.inl waiting) trusted, ?_, ?_⟩
      · simp
      · have refused := placed.refuse_eq mirror was (Or.inl waiting) now
        simp only [beginJob, hmget, trusted, Bool.not_false, ite_true, refuse]
        rw [board, ← groupOf, Board.refuse_popped, refused, SortedSet.rem_of_notMem out]
        rfl
      · simp [beginJob, hmget, trusted, refuse, marks, Queue.marks, Act.mark]
  | true =>
      let token := tokens.getD st.jobs.length ""
      refine ⟨.start id token, _, _, now + lease, rfl, Or.inl rfl, by simp, ?_,
        .start waiting trusted, ?_, ?_⟩
      · simp
      · rw [Board.shift_active rfl, Board.announce_nil, Board.leave_waiting stateOf, groupOf]
        simp only [beginJob, hmget, trusted, Bool.not_true, Bool.false_eq_true, ite_false,
          Board.hset_of_job _ job]
        rw [board]
        by_cases grouped : m.grouped = true
        · rw [group grouped]
          rfl
        · simp [GroupKeys.slotTaken, grouped, Board.put, Board.readyRem, GroupKeys.readyRem, token]
      · simp [beginJob, hmget, trusted, marks, claimMarks, Queue.marks, Act.mark, token]

theorem popped_cons {b : Board} {g : String} {l : List String} {z : ZSet}
    (popped : b.popped m g = (id :: l, z)) :
    b.groups.hasSlot m g = true ∧ id ∈ b.groups.ready g ∧ z = (b.groups.ready g).rem id := by
  unfold Board.popped at popped
  split at popped
  next slot =>
    have one := SortedSet.popMin_one (congrArg Prod.fst popped)
    exact ⟨slot, one.2.1, by rw [← one.2.2, popped]⟩
  next => cases popped

theorem popped_nil {b : Board} {g : String} {z : ZSet} (popped : b.popped m g = ([], z)) :
    b.groups.hasSlot m g = false ∨ ∀ id, id ∉ b.groups.ready g := by
  unfold Board.popped at popped
  split at popped
  next => exact Or.inr (SortedSet.popMin_nil one_pos (congrArg Prod.fst popped))
  next full => exact Or.inl (by simpa using full)

theorem popGroup_eq {v : Board} {g : String} (hm : m.grouped = true) :
    v.popGroup id g ((v.groups.ready g).rem id) =
      { v.readyRem m id g with ready := v.ready.rem id } := by
  simp [Board.popGroup, Board.readyRem, GroupKeys.readyRem, hm]

/-- One turn of `pop_groups` is one move: the group is served, or dropped. -/
theorem popTurn_leads {lease : Nat} {tokens : List String} {served : Option String}
    (hm : m.grouped = true) (hb : Sane m st.q.toBoard) {st' : Claiming}
    (turn : popTurn m now lease tokens st = some (served, st')) : Leads m Q st st' := by
  have grouped := hb.grouped hm
  unfold popTurn at turn
  split at turn
  next => cases turn
  next g k taken =>
    obtain ⟨rest, list, keys⟩ := GroupKeys.rrTake_eq_some taken
    have placed := hb.placed.groups k
    have same : ({ st.q.toBoard with groups := k } : Board).groups.ready = st.q.groups.ready := by
      rw [keys]
    generalize hv : ({ st.q.toBoard with groups := k } : Board) = v at turn placed same
    have job : v.job = st.q.job := by rw [← hv]
    have ready : v.ready = st.q.ready := by rw [← hv]
    have groups : v.groups = k := by rw [← hv]
    dsimp only at turn
    split at turn
    next id l z popped =>
      obtain ⟨slot, head, rfl⟩ := popped_cons popped
      obtain ⟨mem, groupOf⟩ := (grouped.mirror g id).mp (same ▸ head)
      obtain ⟨h, was, waiting⟩ := hb.placed.job_of_mem (s := .waiting) mem
      rw [Board.groupOf_of_job was] at groupOf
      rw [← job] at was
      have waits := (Board.stateOf_of_job was).trans waiting
      have mirror : v.Unmirrored m id := fun idle _ g' mem' =>
        idle (ready ▸ ((grouped.mirror g' id).mp (same ▸ mem')).1)
      rw [popGroup_eq hm] at turn
      obtain ⟨a, ev, h', score, rfl, kind, new, done, change, board, marked⟩ :=
        beginJob_eq g now lease tokens { st with q := { st.q with toBoard :=
            { v.readyRem m id g with ready := v.ready.rem id } } } placed mirror was waiting
          (by rw [groupOf]) (by simp) (fun _ => groupOf.symm)
      cases turn
      refine ⟨Queue.marks [a], .single (a := a) ?_ new, marked⟩
      rw [job] at was
      have move := Move.serve (m := m) (b := st.q.toBoard) score hm taken list (groups ▸ slot)
        (same ▸ head) (was ▸ change) kind
      rw [hv] at move
      have whole : ({ v.shift m a.id (hashGroup h') h' score ev with
          ready := v.ready.rem a.id } : Board) = v.shift m a.id (hashGroup h') h' score ev := by
        rw [← placed.ready_shift (m := m) waits done]
      exact (congrArg (fun b => Move m _ a (b.requeue m g)) (board.trans whole)).mpr move
    next z popped =>
      cases turn
      have idle := popped_nil popped
      rw [groups] at idle
      refine ⟨[], .single (a := .drop g) ?_ (by simp), by simp [marks]⟩
      rw [← hv]
      exact .drop hm taken idle

theorem popGroups_leads {lease : Nat} {tokens : List String} (n : Nat) (hm : m.grouped = true)
    (takes got : Nat) (hb : Sane m st.q.toBoard) :
    Leads m Q st (popGroups m now lease tokens n takes got st) := by
  induction takes generalizing got st with
  | zero => exact .refl st
  | succ takes ih =>
      unfold popGroups
      split
      next =>
        split
        next => exact .refl st
        next g st' turn =>
          have served := popTurn_leads (Q := Q) hm hb turn
          exact served.trans (ih (got + 1) (served.sane hb))
        next st' turn =>
          have dropped := popTurn_leads (Q := Q) hm hb turn
          exact dropped.trans (ih got (dropped.sane hb))
      next => exact .refl st

/-- The starts of one `ZPOPMIN`. `v` is the board with the ids still to begin
put back into `ready`, so each start is a move of its own. -/
theorem begins_leads {lease : Nat} {tokens : List String} (hm : m.grouped = false)
    (ids : List String) (nodup : ids.Nodup) {v : Board} (hv : Sane m v)
    (mem : ∀ id ∈ ids, id ∈ v.ready)
    (board : st.q.toBoard = { v with ready := ids.foldl (fun z id => z.rem id) v.ready }) :
    ∃ ms, Queue.Leads m Q v ms
        (ids.foldl (fun st id => beginJob m now lease tokens id "" st) st).q.toBoard ∧
      (ids.foldl (fun st id => beginJob m now lease tokens id "" st) st).marks =
        st.marks ++ ms := by
  induction ids generalizing st v with
  | nil => exact ⟨[], by rw [List.foldl_nil, board]; exact .refl v, by simp⟩
  | cons id ids ih =>
      obtain ⟨fresh, rest⟩ := List.nodup_cons.mp nodup
      obtain ⟨h, was, waiting⟩ := hv.placed.job_of_mem (s := .waiting) (mem id List.mem_cons_self)
      have ungrouped : v.readyRem m id h.groupName = { v with ready := v.ready.rem id } := by
        simp [Board.readyRem, GroupKeys.readyRem, hm]
      obtain ⟨a, ev, h', score, rfl, -, new, done, change, begun, marked⟩ :=
        beginJob_eq "" now lease tokens st hv.placed (Grouped.unmirrored hv.grouped) was waiting
          (z := ids.foldl (fun z id => z.rem id) (v.ready.rem id))
          (by rw [board, ungrouped]; rfl) (by simp [SortedSet.mem_foldl_rem]) (by simp [hm])
      have ready : (v.shift m a.id (hashGroup h') h' score ev).ready = v.ready.rem a.id :=
        hv.placed.ready_shift ((Board.stateOf_of_job was).trans waiting) done
      have move : Move m v a (v.shift m a.id (hashGroup h') h' score ev) :=
        .of_shift score was change (fun _ => hm) (by simp [waiting]) rfl
      rw [← ready] at begun
      obtain ⟨ms, leads, marks⟩ := ih rest (hv.move move) (fun id later => by
        rw [ready, SortedSet.mem_rem]
        exact ⟨mem id (List.mem_cons_of_mem _ later), fun eq => fresh (eq ▸ later)⟩) begun
      exact ⟨_, (Queue.Leads.single move new).trans leads, by
        rw [List.foldl_cons, marks, marked, List.append_assoc]⟩

theorem popReady_leads {lease : Nat} {tokens : List String} (most : Nat) (hm : m.grouped = false)
    (hb : Sane m st.q.toBoard) : Leads m Q st (popReady m now lease tokens most st) := by
  unfold popReady
  refine begins_leads hm _ (SortedSet.nodup_popMin _ _) hb
    (fun id mem => SortedSet.mem_of_mem_popMin mem) ?_
  rw [← SortedSet.popMin_eq_foldl_rem]
  rfl

/-- The claim's start: what lapsed is taken back, and what is due promoted. -/
theorem claimReady_leads {q : Keys} (now : Nat) (hb : Sane m q.toBoard) :
    Leads m Q { q } (claimReady m now q) := by
  have start : Sane m ({ q } : Claiming).q.toBoard := hb
  obtain ⟨reclaimed, none⟩ := reclaim_leads (Q := Q) now start rfl
  exact reclaimed.trans (promote_leads now (reclaimed.sane hb))

end Claiming

@[simp] theorem charge_toBoard (us k : Nat) (rate : Option Rate) (q : Keys) :
    (charge us rate k q).toBoard = q.toBoard := by
  unfold charge
  split
  next => rfl
  next => split <;> rfl

@[simp] theorem settleWake_toBoard (retry : Int) (q : Keys) :
    (settleWake m retry q).toBoard = q.toBoard := by
  unfold settleWake
  split
  next => exact Keys.wakeUp_toBoard q
  next => rfl

/-- After its pop a claim writes only the rate and the wake list. -/
theorem claim_toBoard (us n lease : Nat) (tokens : List String) (rate : Option Rate) (q : Keys) :
    (claim m us n lease tokens rate q).2.toBoard =
      (claimPop m (us / 1000) us n lease tokens rate (claimReady m (us / 1000) q)).q.toBoard := by
  simp only [claim, settleWake_toBoard, charge_toBoard]

theorem claim_leads (us n lease : Nat) (tokens : List String) (rate : Option Rate) {q : Keys}
    (hb : Sane m q.toBoard) :
    Leads m Q q.toBoard (claim m us n lease tokens rate q).1.marks
      (claim m us n lease tokens rate q).2.toBoard := by
  have ready := Claiming.claimReady_leads (Q := Q) (us / 1000) hb
  have popped : Claiming.Leads m Q { q }
      (claimPop m (us / 1000) us n lease tokens rate (claimReady m (us / 1000) q)) := by
    refine ready.trans ?_
    unfold claimPop
    dsimp only
    split
    next pop => exact Claiming.popGroups_leads _ pop.2 _ _ (ready.sane hb)
    next =>
      split
      next notGrouped pop =>
        exact Claiming.popReady_leads _ (by simpa [pop] using notGrouped) (ready.sane hb)
      next => exact .refl _
  obtain ⟨ms, leads, marks⟩ := popped
  have tables : ms = (claim m us n lease tokens rate q).1.marks := by
    rw [show ({ q } : Claiming).marks = [] from rfl, List.nil_append] at marks
    rw [← marks]
    rfl
  rw [claim_toBoard, ← tables]
  exact leads

end NxgtData.Queue
