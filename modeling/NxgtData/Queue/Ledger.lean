import NxgtData.Queue.Invariants

/-!
The history as a ledger of its own: who holds a job, which steps were written,
how often it was handed out, all read off the marks. `Lawful` says what a queue
of leases allows at each mark. The scripts are shown to keep to it, and their
hashes to say what the ledger says.
-/
namespace NxgtData.Queue
open Decimal

namespace Mark

def id : Mark → String
  | created id _ | claimed id _ | reclaimed id | settled id _ | released id | canceled id
  | retried id _ | begun id _ _ | committed id _ _ _ => id

/-- The holder a mark leaves, when it says anything about it. -/
def holding : Mark → Option (Option String)
  | claimed _ token => some (some token)
  | begun _ _ _ | committed _ _ _ _ => none
  | created _ _ | reclaimed _ | settled _ _ | released _ | canceled _ | retried _ _ => some none

/-- Whether the job starts over: its attempts count from here. -/
def restarts : Mark → Bool
  | created _ _ | retried _ _ => true
  | _ => false

/-- Whether the job's stored steps are gone from here on. -/
def clears : Mark → Bool
  | created _ _ => true
  | retried _ fresh => fresh
  | _ => false

end Mark

/-- A fold over the marks of one job. -/
def track {α : Type} (f : α → Mark → α) (a : α) (id : String) (ms : List Mark) : α :=
  ms.foldl (fun a mk => if mk.id = id then f a mk else a) a

/-- The token of the job's last claim, unless something ended it since. -/
def holder (id : String) (ms : List Mark) : Option String :=
  track (fun o mk => mk.holding.getD o) none id ms

/-- The values committed for a step since the job's steps were last cleared. -/
def writes (id name : String) (ms : List Mark) : List String :=
  track (fun l mk =>
    if mk.clears then [] else
    match mk with
    | .committed _ _ n json => if n = name then l ++ [json] else l
    | _ => l) [] id ms

def stored (id name : String) (ms : List Mark) : Option String := (writes id name ms).getLast?

/-- How often the job was handed out since it last started over. -/
def claims (id : String) (ms : List Mark) : Nat :=
  track (fun n mk =>
    if mk.restarts then 0 else
    match mk with
    | .claimed _ _ => n + 1
    | _ => n) 0 id ms

/-- How often it was given back since it last started over. -/
def releases (id : String) (ms : List Mark) : Nat :=
  track (fun n mk =>
    if mk.restarts then 0 else
    match mk with
    | .released _ => n + 1
    | _ => n) 0 id ms

/-- The attempts the job was last created with. -/
def granted (id : String) (ms : List Mark) : Nat :=
  track (fun n mk =>
    match mk with
    | .created _ attempts => attempts
    | _ => n) 0 id ms

/-- The tokens handed out, in order. -/
def handed (ms : List Mark) : List String :=
  ms.filterMap fun
    | .claimed _ token => some token
    | _ => none

/-- The tokens that settled, in order. -/
def settledTokens (ms : List Mark) : List String :=
  ms.filterMap fun
    | .settled _ token => some token
    | _ => none

/-- What may be marked next. -/
def Mark.Allowed : Mark → List Mark → Prop
  | .settled id token, past => holder id past = some token
  | .begun id token name, past => holder id past = some token ∧ stored id name past = none
  | .committed id token _ _, past => holder id past = some token
  | _, _ => True

/-- A ledger whose every mark was allowed when it was made. -/
abbrev Lawful (ms : List Mark) : Prop := Along (fun past mk => mk.Allowed past) ms

section Track
variable {α : Type} (f : α → Mark → α) (a : α) (id : String)

@[simp] theorem track_nil : track f a id [] = a := rfl

theorem track_append (xs ys : List Mark) :
    track f a id (xs ++ ys) = track f (track f a id xs) id ys := List.foldl_append

theorem track_snoc (ms : List Mark) (mk : Mark) :
    track f a id (ms ++ [mk]) = if mk.id = id then f (track f a id ms) mk else track f a id ms := by
  rw [track_append]; rfl

end Track

theorem handed_append (xs ys : List Mark) : handed (xs ++ ys) = handed xs ++ handed ys :=
  List.filterMap_append

theorem mem_handed {id token : String} {ms : List Mark} (mem : .claimed id token ∈ ms) :
    token ∈ handed ms := List.mem_filterMap.mpr ⟨_, mem, rfl⟩

/-- A holder was handed its token. -/
theorem claimed_of_holder {id token : String} {ms : List Mark}
    (holds : holder id ms = some token) : .claimed id token ∈ ms := by
  induction ms using List.reverseRecOn with
  | nil => cases holds
  | append_singleton ms mk ih =>
      rw [holder, track_snoc] at holds
      rw [List.mem_append, List.mem_singleton]
      split at holds
      next own =>
        cases mk with
        | claimed id' token' =>
            cases holds
            cases own
            exact Or.inr rfl
        | begun | committed => exact Or.inl (ih holds)
        | created | reclaimed | settled | released | canceled | retried => cases holds
      next => exact Or.inl (ih holds)

/-- Under fresh tokens a token names one job. -/
theorem claimed_unique {id id' token : String} {ms : List Mark} (fresh : (handed ms).Nodup)
    (mem : .claimed id token ∈ ms) (mem' : .claimed id' token ∈ ms) : id = id' := by
  induction ms with
  | nil => cases mem
  | cons mk ms ih =>
      rw [← List.singleton_append, handed_append, List.nodup_append] at fresh
      have outside : ∀ id, mk = .claimed id token → token ∉ handed ms := by
        rintro id rfl later
        exact fresh.2.2 token (by simp [handed]) token later rfl
      rcases List.mem_cons.mp mem with eq | later <;> rcases List.mem_cons.mp mem' with eq' | later'
      · cases eq.trans eq'.symm
        rfl
      · exact absurd (mem_handed later') (outside id eq.symm)
      · exact absurd (mem_handed later) (outside id' eq'.symm)
      · exact ih fresh.2.1 later later'

section Lawful
variable {ms : List Mark}

/-- A settle was by the holder of that time, so its token had been handed out. -/
theorem settled_spec (h : Lawful ms) (fresh : (handed ms).Nodup) {id token : String}
    (mem : .settled id token ∈ ms) : .claimed id token ∈ ms ∧ holder id ms ≠ some token := by
  induction ms using List.reverseRecOn with
  | nil => cases mem
  | append_singleton past mk ih =>
      obtain ⟨lawful, ok⟩ := along_snoc.mp h
      rw [handed_append, List.nodup_append] at fresh
      have ih := ih lawful fresh.1
      rw [holder, track_snoc]
      rcases List.mem_append.mp mem with before | now
      · obtain ⟨claimed, ended⟩ := ih before
        refine ⟨List.mem_append_left _ claimed, ?_⟩
        split
        next own =>
          cases mk with
          | claimed id' token' =>
              rintro ⟨⟩
              exact fresh.2.2 token (mem_handed claimed) token (by simp [handed]) rfl
          | begun | committed => exact ended
          | created | reclaimed | settled | released | canceled | retried => simp [Mark.holding]
        next => exact ended
      · rw [List.mem_singleton] at now
        subst now
        exact ⟨List.mem_append_left _ (claimed_of_holder ok), by simp [Mark.id, Mark.holding]⟩

/-- A token settles at most once. -/
theorem settledTokens_nodup (h : Lawful ms) (fresh : (handed ms).Nodup) :
    (settledTokens ms).Nodup := by
  induction ms using List.reverseRecOn with
  | nil => exact .nil
  | append_singleton past mk ih =>
      obtain ⟨lawful, ok⟩ := along_snoc.mp h
      rw [handed_append, List.nodup_append] at fresh
      have before := ih lawful fresh.1
      cases mk with
      | settled id token =>
          rw [settledTokens, List.filterMap_append]
          refine List.nodup_append.mpr ⟨before, List.nodup_singleton token, ?_⟩
          rintro t mem t' mem' rfl
          have same : t = token := List.mem_singleton.mp mem'
          subst same
          obtain ⟨mk, settled, eq⟩ := List.mem_filterMap.mp mem
          cases mk with
          | settled id' t' =>
              cases eq
              obtain ⟨claimed, ended⟩ := settled_spec lawful fresh.1 settled
              have same := claimed_unique fresh.1 claimed (claimed_of_holder ok)
              subst same
              exact ended ok
          | created | claimed | reclaimed | released | canceled | retried | begun | committed =>
              cases eq
      | created | claimed | reclaimed | released | canceled | retried | begun | committed =>
          simpa [settledTokens, List.filterMap_append] using before

end Lawful

section Marks
variable {α : Type} {f : α → Mark → α} {x : α} {id : String} {a : Act} {past : List Mark}

theorem Act.mark_id {mk : Mark} (h : a.mark = some mk) : mk.id = a.id := by
  cases a <;> cases h <;> rfl

theorem marks_single {mk : Mark} (h : a.mark = some mk) : marks [a] = [mk] := by simp [marks, h]

theorem marks_single_none (h : a.mark = none) : marks [a] = [] := by simp [marks, h]

/-- An act adds nothing to the ledger of another job. -/
theorem track_marks_of_ne (ne : id ≠ a.id) :
    track f x id (past ++ marks [a]) = track f x id past := by
  cases h : a.mark with
  | none => rw [marks_single_none h, List.append_nil]
  | some mk => rw [marks_single h, track_snoc, Act.mark_id h, if_neg ne.symm]

end Marks

/-- A hash says what the ledger says of its job. -/
structure Tells (past : List Mark) (id : String) (h : JobHash) : Prop where
  token : ∀ token, h.token = some token → holder id past = some token
  step : ∀ name, h.step name = stored id name past

theorem Tells.of_ne {past : List Mark} {id : String} {h : JobHash} {a : Act}
    (tells : Tells past id h) (ne : id ≠ a.id) : Tells (past ++ marks [a]) id h where
  token := by
    intro token holds
    rw [holder, track_marks_of_ne ne]
    exact tells.token token holds
  step := by
    intro name
    rw [stored, writes, track_marks_of_ne ne]
    exact tells.step name

namespace Change
variable {a : Act} {o : Option JobHash} {ev : List Event} {past : List Mark}

/-- Every change is one the ledger allows. -/
theorem allowed {o' : Option JobHash} (change : Change a o ev o')
    (tells : ∀ h, o = some h → Tells past a.id h) {mk : Mark} (marked : a.mark = some mk) :
    mk.Allowed past := by
  cases change with
  | complete _ _ _ holds | vanish holds | retryLater _ _ holds | failFinal _ _ holds
  | commit holds =>
      cases marked
      exact (tells _ rfl).token _ holds
  | begun holds absent =>
      cases marked
      exact ⟨(tells _ rfl).token _ holds, ((tells _ rfl).step _).symm.trans absent⟩
  | create | debounce | promote | reclaim | lapse | refuse | start | release | renew | progress
  | cancel | retry | remove | trim | drop => cases marked <;> trivial

/-- Every change keeps the hash and the ledger in agreement. -/
theorem tells {h' : JobHash} (change : Change a o ev (some h'))
    (ok : ∀ h, o = some h → h.Ok) (tells : ∀ h, o = some h → Tells past a.id h) :
    Tells (past ++ marks [a]) a.id h' := by
  cases change with
  | create state token attempt step =>
      refine ⟨by simp [token], fun name => ?_⟩
      simp [step, stored, writes, track_snoc, marks, Act.mark, Act.id, Mark.id, Mark.clears]
  | @debounce _ h | @promote _ h | @progress _ _ h =>
      rw [marks_single_none rfl, List.append_nil]
      exact ⟨(tells h rfl).token, (tells h rfl).step⟩
  | @refuse _ h =>
      rw [marks_single_none rfl, List.append_nil]
      exact ⟨by simp, (tells h rfl).step⟩
  | renew | drop =>
      rw [marks_single_none rfl, List.append_nil]
      exact tells h' rfl
  | @reclaim _ h | @lapse _ h | @complete _ _ h | @retryLater _ _ h | @failFinal _ _ h
  | @release _ _ h =>
      refine ⟨by simp, fun name => ((tells h rfl).step name).trans ?_⟩
      simp [marks, Act.mark, stored, writes, track_snoc, Mark.clears]
  | @start _ _ h =>
      refine ⟨?_, fun name => ((tells h rfl).step name).trans ?_⟩
      · rintro token ⟨⟩
        simp [marks, Act.mark, holder, track_snoc, Act.id, Mark.id, Mark.holding]
      · simp [marks, Act.mark, stored, writes, track_snoc, Mark.clears]
  | begun =>
      refine ⟨fun token holds => ?_, fun name => ((tells h' rfl).step name).trans ?_⟩
      · have before := (tells h' rfl).token token holds
        simpa [marks, Act.mark, holder, track_snoc, Mark.holding] using before
      · simp [marks, Act.mark, stored, writes, track_snoc, Mark.clears]
  | @commit _ _ name json h =>
      refine ⟨fun token holds => ?_, fun other => ?_⟩
      · have before := (tells h rfl).token token holds
        simpa [marks, Act.mark, holder, track_snoc, Mark.holding] using before
      · have before := (tells h rfl).step other
        simp only [Function.update_apply]
        by_cases same : other = name
        · simp [marks, Act.mark, stored, writes, track_snoc, Mark.clears, Act.id, Mark.id, same]
        · rw [if_neg same, before]
          simp [marks, Act.mark, stored, writes, track_snoc, Mark.clears, Ne.symm same]
  | @retry _ fresh h =>
      refine ⟨by simp, fun name => ?_⟩
      cases fresh with
      | false =>
          refine ((tells h rfl).step name).trans ?_
          simp [marks, Act.mark, stored, writes, track_snoc, Mark.clears]
      | true => simp [marks, Act.mark, stored, writes, track_snoc, Mark.clears, Act.id, Mark.id]

end Change

/-- The board under its ledger: lawful marks, and hashes that agree with them. -/
structure Kept (m : GroupArgs) (past : List Mark) (b : Board) : Prop where
  sane : Sane m b
  lawful : Lawful past
  tells : ∀ id h, b.job id = some h → Tells past id h

theorem Kept.empty (m : GroupArgs) : Kept m [] {} := ⟨.empty m, along_nil, by simp⟩

theorem Kept.move {m : GroupArgs} {past : List Mark} {b b' : Board} {a : Act}
    (kept : Kept m past b) (move : Move m b a b') : Kept m (past ++ marks [a]) b' where
  sane := kept.sane.move move
  lawful := by
    obtain ⟨ev, change, -⟩ := move.change
    cases h : a.mark with
    | none =>
        rw [marks_single_none h, List.append_nil]
        exact kept.lawful
    | some mk =>
        rw [marks_single h]
        exact along_snoc.mpr ⟨kept.lawful, change.allowed (kept.tells a.id) h⟩
  tells := by
    intro id h is
    by_cases own : id = a.id
    · subst own
      obtain ⟨ev, change, -⟩ := move.change
      rw [is] at change
      exact change.tells (fun h was => kept.sane.placed.ok was) (kept.tells a.id)
    · rw [move.job_of_ne own] at is
      exact (kept.tells id h is).of_ne own

theorem Kept.leads {m : GroupArgs} {Q : String → JobHash → Prop} {past ms : List Mark}
    {b b' : Board} (kept : Kept m past b) (leads : Leads m Q b ms b') : Kept m (past ++ ms) b' :=
  leads.history _ (fun kept move _ => kept.move move) kept

/-- Every run keeps its own history as a lawful ledger. -/
theorem run_kept {m : GroupArgs} (calls : List Timed) (sends : Sends NewJob.GroupSound calls) :
    Kept m (history (log m calls)) (run m calls).toBoard :=
  (Kept.empty m).leads (run_leads calls sends fun _ sound => sound)

end NxgtData.Queue
