import NxgtData.Queue.GroupInvariant
import NxgtData.Queue.Script

/-!
What the replies of a run say happened to each job, as a list of marks, oldest
first. A move leaves the same marks, so a script whose moves leave the marks of
its reply has told the whole of what it did to the jobs.
-/
namespace NxgtData.Queue

inductive Mark where
  | created (id : String) (attempts : Nat)
  | claimed (id token : String)
  | reclaimed (id : String)
  | settled (id token : String)
  | released (id : String)
  | canceled (id : String)
  | retried (id : String) (fresh : Bool)
  | begun (id token name : String)
  | committed (id token name json : String)
  deriving DecidableEq, Repr

/-- The marks of a claim: what it took back, then what it started. -/
def claimMarks (stalled : List String) (jobs : List ClaimedJob) : List Mark :=
  stalled.map .reclaimed ++ jobs.map fun j => .claimed j.id j.token

def ClaimReply.marks (r : ClaimReply) : List Mark := claimMarks r.stalled r.jobs

def Claiming.marks (st : Claiming) : List Mark := claimMarks st.stalled st.jobs

def settleMarks (settled : Bool) (id token : String) (claim : ClaimReply) : List Mark :=
  (if settled then [.settled id token] else []) ++ claim.marks

/-- The marks of one job of `ADD`. -/
def AddReply.marks (j : AddJob) : AddReply → List Mark
  | .added => [.created j.id j.attempts]
  | .existed | .held _ => []

def addMarks : List AddJob → List AddReply → List Mark
  | j :: jobs, r :: replies => r.marks j ++ addMarks jobs replies
  | _, _ => []

/-- What the reply to a call says the call did. -/
def Call.marks : Call → Reply → List Mark
  | .add jobs, .added replies => addMarks jobs replies
  | .claim _ _ _, .claimed r => r.marks
  | .complete id token _ _ _ _ _ _, .completed settled r => settleMarks settled id token r
  | .fail id token _ _ _ _ _ _, .failed settled _ r => settleMarks settled id token r
  | .release _, .released ids => ids.map .released
  | .cancel id, .answer true => [.canceled id]
  | .retry id fresh, .answer true => [.retried id fresh]
  | .stepBegin id token name _, .begun .run => [.begun id token name]
  | .stepCommit id token name json, .answer true => [.committed id token name json]
  | .fire id due _ attempts _, .answer true => [.created (occurrence id due) attempts]
  | _, _ => []

/-- What a log says happened, oldest first. -/
def history (log : List (Timed × Reply)) : List Mark := log.flatMap fun e => e.1.2.marks e.2

/-- The jobs a call may write a hash for, whatever the schedules hold. -/
def Call.Sends (P : NewJob → Prop) : Call → Prop
  | .add jobs => ∀ j ∈ jobs, P j.toNewJob
  | .fire id due _ attempts timeout => ∀ data, P (occurrenceJob id due attempts timeout data)
  | _ => True

def Act.mark : Act → Option Mark
  | .create id h => some (.created id (number h.attempts))
  | .start id token => some (.claimed id token)
  | .reclaim id => some (.reclaimed id)
  | .complete id token | .fail id token => some (.settled id token)
  | .release id => some (.released id)
  | .cancel id => some (.canceled id)
  | .retry id fresh => some (.retried id fresh)
  | .begun id token name => some (.begun id token name)
  | .commit id token name json => some (.committed id token name json)
  | .debounce _ | .promote _ | .refuse _ | .renew _ _ | .progress _ _ | .remove _ | .trim _
  | .drop _ => none

def marks (as : List Act) : List Mark := as.filterMap Act.mark

@[simp] theorem marks_nil : marks [] = [] := rfl

@[simp] theorem marks_append (as bs : List Act) : marks (as ++ bs) = marks as ++ marks bs :=
  List.filterMap_append

@[simp] theorem history_append (xs ys : List (Timed × Reply)) :
    history (xs ++ ys) = history xs ++ history ys := List.flatMap_append

/-- `b'` comes from `b` by moves that leave these marks and write new hashes
under `Q` only. -/
def Leads (m : GroupArgs) (Q : String → JobHash → Prop) (b : Board) (ms : List Mark)
    (b' : Board) : Prop :=
  ∃ as, Path (Move m) b as b' ∧ marks as = ms ∧ ∀ id h, Act.create id h ∈ as → Q id h

namespace Leads
variable {m : GroupArgs} {Q : String → JobHash → Prop} {b b' b'' : Board} {ms ms' : List Mark}

theorem refl (b : Board) : Leads m Q b [] b := ⟨[], .nil _, rfl, by simp⟩

theorem trans (h : Leads m Q b ms b') (k : Leads m Q b' ms' b'') :
    Leads m Q b (ms ++ ms') b'' := by
  obtain ⟨as, path, rfl, new⟩ := h
  obtain ⟨bs, path', rfl, new'⟩ := k
  refine ⟨as ++ bs, path.append path', marks_append as bs, fun id h mem => ?_⟩
  exact (List.mem_append.mp mem).elim (new id h) (new' id h)

theorem sane (h : Leads m Q b ms b') (hb : Sane m b) : Sane m b' := by
  obtain ⟨as, path, -⟩ := h
  exact hb.path path

theorem single {a : Act} (h : Move m b a b') (new : ∀ id h, a ≠ .create id h) :
    Leads m Q b (marks [a]) b' := by
  refine ⟨[a], .single h, rfl, fun id h mem => ?_⟩
  exact absurd (List.mem_singleton.mp mem).symm (new id h)

/-- What every move keeps of a board and the marks left so far, a path keeps. -/
theorem history {R : List Mark → Board → Prop} (past : List Mark) (h : Leads m Q b ms b')
    (step : ∀ {past b a b'}, R past b → Move m b a b' → (∀ id h, a = .create id h → Q id h) →
      R (past ++ marks [a]) b') (hb : R past b) : R (past ++ ms) b' := by
  obtain ⟨as, path, rfl, new⟩ := h
  induction path generalizing past with
  | nil => simpa using hb
  | @cons _ _ _ a as move _ ih =>
      have first := step hb move fun id h eq => new id h (by simp [eq])
      have rest := ih _ first fun id h mem => new id h (List.mem_cons_of_mem _ mem)
      rwa [List.append_assoc, ← marks_append, List.singleton_append] at rest

/-- What new hashes have and every change keeps, every hash has. -/
theorem hashes {I : JobHash → Prop} (h : Leads m Q b ms b') (new : ∀ id h, Q id h → I h)
    (change : ∀ {a h ev h'}, Change a (some h) ev (some h') → I h → I h')
    (hb : ∀ id h, b.job id = some h → I h) : ∀ id h, b'.job id = some h → I h := by
  refine h.history [] (R := fun _ b => ∀ id h, b.job id = some h → I h) ?_ hb
  intro past b a b' known move created id h' is
  by_cases own : id = a.id
  · subst own
    obtain ⟨ev, changed, -⟩ := move.change
    rw [is] at changed
    cases was : b.job a.id with
    | some h =>
        rw [was] at changed
        exact change changed (known a.id h was)
    | none =>
        rw [was] at changed
        cases changed with
        | create => exact new _ _ (created _ _ rfl)
  · rw [move.job_of_ne own] at is
    exact known id h' is

end Leads
end NxgtData.Queue
