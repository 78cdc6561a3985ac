import NxgtData.Queue.Tokens

/-!
Durable steps commit once. A worker commits a step only after its own begin was
told to run it, and once. The ledger then writes a step at most once between two
clearings: whoever holds the job and has begun a step it has not committed finds
the step unwritten.
-/
namespace NxgtData.Queue
open Decimal Gcra

/-- The worker's protocol, read off a log: a commit follows a `run` answer to the
same attempt's begin of that step, and no attempt commits a step twice. -/
def FollowsProtocol (log : List (Timed × Reply)) : Prop :=
  Along (fun before e => ∀ id token name json, e.1.2 = .stepCommit id token name json →
    (∃ us lease, ((us, Call.stepBegin id token name lease), Reply.begun .run) ∈ before) ∧
    ∀ e' ∈ before, ∀ json', e'.1.2 ≠ .stepCommit id token name json') log

/-- The value a mark writes to a step of a job. -/
def Mark.wrote (id name : String) : Mark → Option String
  | .committed i _ n json => if i = id ∧ n = name then some json else none
  | _ => none

/-- The values written to a step of a job, in order. -/
def commits (id name : String) (ms : List Mark) : List String := ms.filterMap (Mark.wrote id name)

/-- The protocol on a ledger. -/
def Careful (ms : List Mark) : Prop :=
  Along (fun past mk => ∀ id token name json, mk = .committed id token name json →
    .begun id token name ∈ past ∧ ∀ json', .committed id token name json' ∉ past) ms

section Protocol
variable {id token name json : String}

theorem created_of_mem_addMarks {mk : Mark} {jobs : List AddJob} {replies : List AddReply}
    (mem : mk ∈ addMarks jobs replies) : ∃ id attempts, mk = .created id attempts := by
  induction jobs generalizing replies with
  | nil => cases replies <;> cases mem
  | cons j jobs ih =>
      cases replies with
      | nil => cases mem
      | cons r replies =>
          rcases List.mem_append.mp mem with now | later
          · cases r with
            | added => exact ⟨j.id, j.attempts, List.mem_singleton.mp now⟩
            | existed | held => cases now
          · exact ih later

/-- Only a commit's own reply says that it wrote. -/
theorem committed_mem_marks {c : Call} {r : Reply} (mem : .committed id token name json ∈ c.marks r) :
    c = .stepCommit id token name json ∧ c.marks r = [.committed id token name json] := by
  have unclaimed : ∀ stalled jobs, .committed id token name json ∉ claimMarks stalled jobs := by
    simp [claimMarks]
  have unsettled : ∀ settled i t r, .committed id token name json ∉ settleMarks settled i t r := by
    intro settled i t r mem
    rcases List.mem_append.mp mem with now | later
    · cases settled <;> simp at now
    · exact unclaimed _ _ later
  cases c with
  | add =>
      cases r with
      | added replies =>
          obtain ⟨_, _, eq⟩ := created_of_mem_addMarks mem
          cases eq
      | _ => cases mem
  | claim =>
      cases r with
      | claimed r => exact absurd mem (unclaimed _ _)
      | _ => cases mem
  | complete =>
      cases r with
      | completed settled r => exact absurd mem (unsettled _ _ _ _)
      | _ => cases mem
  | fail =>
      cases r with
      | failed settled final r => exact absurd mem (unsettled _ _ _ _)
      | _ => cases mem
  | release =>
      cases r with
      | released ids => simp [Call.marks] at mem
      | _ => cases mem
  | stepCommit =>
      cases r with
      | answer yes =>
          cases yes with
          | false => cases mem
          | true =>
              cases List.mem_singleton.mp mem
              exact ⟨rfl, rfl⟩
      | _ => cases mem
  | cancel | retry | fire =>
      cases r with
      | answer yes => cases yes <;> simp [Call.marks] at mem
      | _ => cases mem
  | stepBegin =>
      cases r with
      | begun step => cases step <;> simp [Call.marks] at mem
      | _ => cases mem
  | renew | remove | pause | resume | progress | defer | upsert | unschedule | sync =>
      simp [Call.marks] at mem

theorem careful_history {log : List (Timed × Reply)} (follows : FollowsProtocol log) :
    Careful (history log) := by
  induction log using List.reverseRecOn with
  | nil => exact along_nil
  | append_singleton log e ih =>
      obtain ⟨before, now⟩ := along_snoc.mp follows
      rw [history_append]
      refine (ih before).append ?_
      rintro front mk later parts id token name json rfl
      have single : history [e] = e.1.2.marks e.2 := List.append_nil _
      rw [single] at parts
      have mem : .committed id token name json ∈ e.1.2.marks e.2 := by rw [parts]; simp
      obtain ⟨call, only⟩ := committed_mem_marks mem
      have nothing : front = [] := by
        rw [only] at parts
        cases front with
        | nil => rfl
        | cons mk front => simp at parts
      obtain ⟨⟨us, lease, began⟩, once⟩ := now id token name json call
      rw [nothing, List.append_nil]
      refine ⟨List.mem_flatMap.mpr ⟨_, began, List.mem_singleton_self _⟩, ?_⟩
      intro json' mem
      obtain ⟨e', mem, committed⟩ := List.mem_flatMap.mp mem
      exact once e' mem json' (committed_mem_marks committed).1

end Protocol

section Ledger
variable {ms : List Mark} {id name : String}

theorem writes_snoc (id name : String) (ms : List Mark) (mk : Mark) :
    writes id name (ms ++ [mk]) =
      if mk.id = id ∧ mk.clears = true then [] else writes id name ms ++ (mk.wrote id name).toList := by
  rw [writes, track_snoc, ← writes]
  by_cases own : mk.id = id
  · cases mk with
    | committed i token n json =>
        by_cases same : n = name <;> simp_all [Mark.id, Mark.clears, Mark.wrote]
    | _ => simp [own, Mark.wrote]
  · cases mk with
    | committed i token n json =>
        have other : ¬ i = id := own
        simp [Mark.id, Mark.wrote, other]
    | _ => simp [own, Mark.wrote]

theorem holder_snoc (id : String) (ms : List Mark) (mk : Mark) :
    holder id (ms ++ [mk]) =
      if mk.id = id then mk.holding.getD (holder id ms) else holder id ms := track_snoc _ _ _ _ _

theorem claimed_of_begun (lawful : Lawful ms) {token : String}
    (mem : .begun id token name ∈ ms) : .claimed id token ∈ ms := by
  obtain ⟨before, later, rfl⟩ := List.append_of_mem mem
  have allowed := lawful before _ later rfl
  exact List.mem_append_left _ (claimed_of_holder allowed.1)

/-- A step is written at most once, and not at all as long as its job's holder
has begun it and not yet committed it. -/
theorem writes_invariant (id name : String) (h : Lawful ms) (follows : Careful ms)
    (fresh : (handed ms).Nodup) :
    (writes id name ms).length ≤ 1 ∧
      ∀ token, holder id ms = some token → .begun id token name ∈ ms →
        (∀ json, .committed id token name json ∉ ms) → writes id name ms = [] := by
  induction ms using List.reverseRecOn with
  | nil => exact ⟨by simp [writes], by simp [writes]⟩
  | append_singleton past mk ih =>
      obtain ⟨lawful, allowed⟩ := along_snoc.mp h
      obtain ⟨careful, cared⟩ := along_snoc.mp follows
      rw [handed_append, List.nodup_append] at fresh
      obtain ⟨bound, unwritten⟩ := ih lawful careful fresh.1
      have carry : ∀ token, holder id past = some token → .begun id token name ∈ past →
          (∀ json, .committed id token name json ∉ past ++ [mk]) → writes id name past = [] :=
        fun token held began free => unwritten token held began fun json mem =>
          free json (List.mem_append_left _ mem)
      rw [writes_snoc, holder_snoc]
      cases mk with
      | created i attempts | retried i fresh | reclaimed i | settled i token | released i
      | canceled i =>
          -- The mark writes nothing, and if it is the job's own, nobody holds the job.
          simp only [Mark.wrote, Option.toList_none, List.append_nil, List.mem_append,
            List.mem_singleton, reduceCtorEq, or_false]
          simp only [List.mem_append, List.mem_singleton, reduceCtorEq, or_false] at carry
          refine ⟨by split <;> simp [bound], fun token held began free => ?_⟩
          split at held
          next => cases held
          next other =>
            rw [if_neg fun own => other own.1]
            exact carry token held began free
      | claimed i token =>
          simp only [Mark.wrote, Mark.clears, Option.toList_none, List.append_nil,
            Bool.false_eq_true, and_false, ite_false, List.mem_append, List.mem_singleton,
            reduceCtorEq, or_false]
          simp only [List.mem_append, List.mem_singleton, reduceCtorEq, or_false] at carry
          refine ⟨bound, fun holding held began free => ?_⟩
          split at held
          next own =>
            -- A fresh token has begun nothing.
            cases held
            have before := mem_handed (claimed_of_begun lawful began)
            exact absurd rfl (fresh.2.2 token before token (by simp [handed]))
          next => exact carry holding held began free
      | begun i token n =>
          simp only [Mark.wrote, Mark.clears, Option.toList_none, List.append_nil,
            Bool.false_eq_true, and_false, ite_false, List.mem_append, List.mem_singleton,
            reduceCtorEq, or_false, Mark.holding, Option.getD_none, ite_self]
          simp only [List.mem_append, List.mem_singleton, reduceCtorEq, or_false] at carry
          refine ⟨bound, fun holding held began free => ?_⟩
          rcases began with before | now
          · exact carry holding held before free
          · cases now
            exact List.getLast?_eq_none_iff.mp allowed.2
      | committed i token n json =>
          simp only [Mark.clears, Bool.false_eq_true, and_false, ite_false, Mark.holding,
            Option.getD_none, ite_self, Mark.wrote]
          by_cases own : i = id ∧ n = name
          · obtain ⟨rfl, rfl⟩ := own
            obtain ⟨began, once⟩ := cared i token n json rfl
            have nothing := unwritten token allowed began once
            simp only [and_self, ite_true, nothing, Option.toList_some, List.nil_append,
              List.length_singleton, le_refl, true_and]
            intro holding held _ free
            have same : token = holding := Option.some.inj (allowed.symm.trans held)
            subst same
            exact absurd (by simp) (free json)
          · simp only [own, ite_false, Option.toList_none, List.append_nil]
            refine ⟨bound, fun holding held began free => carry holding held ?_ free⟩
            simpa using began

end Ledger

/-- Without a clearing, a stretch adds its commits to what was written. -/
theorem writes_append {id name : String} (before during : List Mark)
    (quiet : ∀ mk ∈ during, mk.clears = true → mk.id ≠ id) :
    writes id name (before ++ during) = writes id name before ++ commits id name during := by
  induction during using List.reverseRecOn with
  | nil => simp [commits]
  | append_singleton during mk ih =>
      have kept : ¬ (mk.id = id ∧ mk.clears = true) := fun ⟨own, clears⟩ =>
        quiet mk (by simp) clears own
      have before := ih fun mk mem => quiet mk (List.mem_append_left _ mem)
      rw [← List.append_assoc, writes_snoc, if_neg kept, before, commits, commits,
        List.filterMap_append, List.append_assoc]
      congr 2

/-- Between two clearings of a job's steps at most one commit writes a step, and
from then on every begin of it that is not refused answers that value. -/
theorem run_steps (m : GroupArgs) (calls : List Timed) (sends : Sends NewJob.GroupSound calls)
    (fresh : FreshTokens calls) (follows : FollowsProtocol (log m calls))
    (before during : List Timed) (id name : String) (parts : calls = before ++ during)
    (quiet : ∀ mk ∈ history (logFrom m during (run m before)), mk.clears = true → mk.id ≠ id) :
    let written := commits id name (history (logFrom m during (run m before)))
    written.length ≤ 1 ∧
    ∀ json ∈ written, ∀ us token lease,
      (exec m us (.stepBegin id token name lease) (run m calls)).1 = .begun .lost ∨
      (exec m us (.stepBegin id token name lease) (run m calls)).1 = .begun (.stored json) := by
  have kept := run_kept (m := m) calls sends
  have bound := (writes_invariant id name kept.lawful (careful_history follows)
    (handed_nodup fresh)).1
  have whole : history (log m calls) =
      history (log m before) ++ history (logFrom m during (run m before)) := by
    subst parts
    rw [← history_append]
    exact congrArg history (served_append (step m) before during .empty)
  rw [whole, writes_append _ _ quiet, List.length_append] at bound
  refine ⟨by omega, fun json mem us token lease => ?_⟩
  have only : writes id name (history (log m calls)) = [json] := by
    rw [whole, writes_append _ _ quiet]
    generalize commits id name _ = written at bound mem
    generalize writes id name _ = earlier at bound
    have length := List.length_pos_of_mem mem
    obtain rfl := List.eq_nil_of_length_eq_zero (by omega : earlier.length = 0)
    obtain ⟨value, rfl⟩ := List.length_eq_one_iff.mp (by omega : written.length = 1)
    rw [List.mem_singleton.mp mem, List.nil_append]
  change Reply.begun (stepBegin (us / 1000) id token name lease (run m calls).toBoard).1 = _ ∨
    Reply.begun (stepBegin (us / 1000) id token name lease (run m calls).toBoard).1 = _
  unfold stepBegin
  split
  next => exact Or.inl rfl
  next fenced =>
    obtain ⟨h, was, -⟩ := held_of_held kept.sane (by simpa using fenced)
    have step : h.step name = some json := by
      rw [(kept.tells id h was).step name, stored, only]
      rfl
    rw [Board.hmget_of_job was, step]
    exact Or.inr rfl

/-- A job whose worker begins a step and commits it. -/
def beginAndCommit : List Timed :=
  [(0, .add [{ id := "a", data := "null", priority := 0, attempts := 2 }]),
    (1000, .claim 30000 none ["t1"]), (2000, .stepBegin "a" "t1" "pay" 30000),
    (3000, .stepCommit "a" "t1" "pay" "7")]

theorem follows_beginAndCommit : FollowsProtocol (log ⟨false, 0⟩ beginAndCommit) := by
  change FollowsProtocol ([] ++ [((0, _), _)] ++ [((1000, _), _)] ++ [((2000, _), _)] ++
    [((3000, _), _)])
  refine along_snoc.mpr ⟨along_snoc.mpr ⟨along_snoc.mpr ⟨along_snoc.mpr ⟨along_nil, ?_⟩, ?_⟩, ?_⟩, ?_⟩
  · rintro _ _ _ _ ⟨⟩
  · rintro _ _ _ _ ⟨⟩
  · rintro _ _ _ _ ⟨⟩
  · rintro _ _ _ _ ⟨⟩
    refine ⟨⟨2000, 30000, ?_⟩, fun e mem json' => ?_⟩
    · exact List.mem_append_right _ (List.mem_singleton.mpr (congrArg (Prod.mk _) (by decide)))
    · simp only [List.nil_append, List.cons_append, List.mem_cons, List.not_mem_nil, or_false] at mem
      rcases mem with rfl | rfl | rfl <;> simp

theorem run_steps_beginAndCommit :
    (exec ⟨false, 0⟩ 4000 (.stepBegin "a" "t1" "pay" 30000) (run ⟨false, 0⟩ beginAndCommit)).1 =
        .begun .lost ∨
    (exec ⟨false, 0⟩ 4000 (.stepBegin "a" "t1" "pay" 30000) (run ⟨false, 0⟩ beginAndCommit)).1 =
        .begun (.stored "7") := by
  have sends : Sends NewJob.GroupSound beginAndCommit := by
    intro c mem
    simp only [beginAndCommit, List.mem_cons, List.not_mem_nil, or_false] at mem
    rcases mem with rfl | rfl | rfl | rfl
    · intro j mem
      rw [List.mem_singleton.mp mem]
      rfl
    all_goals trivial
  exact (run_steps ⟨false, 0⟩ beginAndCommit sends (by decide) follows_beginAndCommit
    (beginAndCommit.take 1) (beginAndCommit.drop 1) "a" "pay" rfl (by decide)).2 "7"
    (by decide) 4000 "t1" 30000

end NxgtData.Queue
