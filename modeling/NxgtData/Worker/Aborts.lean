import NxgtData.Worker.Leases

/-!
A run is aborted only by what is about it. The runs registered for an id are of that
id, each under its own token, so an abort with a token reaches the runs of that id and
token and no other; and the keeper drops an id only for the token it holds. What is
said of an older token changes nothing for the run that came after it.
-/
namespace NxgtData.Leases
open Queue

/-! Aborts. -/

/-- A run after an abort that reaches it. -/
def Run.cut (code : Code) (token : Option String) (r : Run) : Run :=
  if r.reason.isSome then r
  else if token.any (· ≠ r.token) then r
  else { r with reason := some code }

/-- The run as it is registered. -/
def Run.name (r : Run) : String × String := (r.id, r.token)

theorem Run.cut_name (code : Code) (token : Option String) (r : Run) :
    (r.cut code token).name = r.name := by
  unfold Run.cut
  split
  next => rfl
  next => split <;> rfl

theorem Run.cut_cut (code : Code) (token : Option String) (r : Run) :
    (r.cut code token).cut code token = r.cut code token := by
  by_cases aborted : r.reason.isSome = true
  next => simp [Run.cut, aborted]
  next =>
    by_cases other : token.any (· ≠ r.token) = true
    next => simp only [Run.cut, aborted, other, if_true, Bool.false_eq_true, if_false]
    next => simp only [Run.cut, aborted, other, if_false, Option.isSome_some, if_true,
      Bool.false_eq_true]

theorem Run.cut_of_ne {r : Run} {token : String} (other : token ≠ r.token) (code : Code) :
    r.cut code (some token) = r := by
  simp [Run.cut, other]

namespace World

theorem abortOne_get (code : Code) (token : Option String) (runs : List Run) (n k : Nat) :
    (abortOne code token runs n)[k]? =
      (runs[k]?).map fun r => if k = n then r.cut code token else r := by
  unfold abortOne
  by_cases same : k = n
  next =>
    subst same
    cases is : runs[k]? with
    | none => simp [is]
    | some r =>
        have inside : k < runs.length := (List.getElem?_eq_some_iff.mp is).1
        simp only [Run.cut, if_true, Option.map_some]
        split
        next => exact is
        next =>
          split
          next => exact is
          next => exact List.getElem?_set_self inside
  next =>
    have other (r : Run) : (runs.set n r)[k]? = runs[k]? := List.getElem?_set_ne (Ne.symm same)
    simp only [same, if_false, Option.map_id']
    split
    next => rfl
    next =>
      split
      next => rfl
      next =>
        split
        next => rfl
        next => exact other _

theorem foldl_abortOne_get (code : Code) (token : Option String) (ns : List Nat)
    (runs : List Run) (k : Nat) : (ns.foldl (abortOne code token) runs)[k]? =
      (runs[k]?).map fun r => if k ∈ ns then r.cut code token else r := by
  induction ns generalizing runs with
  | nil => simp
  | cons n ns ih =>
      rw [List.foldl_cons, ih, abortOne_get, Option.map_map]
      congr 1
      funext r
      by_cases first : k = n
      next =>
        subst first
        by_cases later : k ∈ ns
        next => simp [later, Run.cut_cut]
        next => simp [later]
      next => simp [first]

/-- The numbers of the runs registered for an id. -/
def numbers (w : World) (id : String) : List Nat := (w.tokens id).entries.map Sigma.snd

theorem abortRun_get (w : World) (code : Code) (id : String) (token : Option String) (k : Nat) :
    (w.abortRun code id token).runs[k]? =
      (w.runs[k]?).map fun r => if k ∈ w.numbers id then r.cut code token else r :=
  foldl_abortOne_get code token _ w.runs k

/-- The ids and tokens of the runs, which nothing changes once they have begun. -/
def names (w : World) : List (String × String) := w.runs.map Run.name

theorem abortRun_names (w : World) (code : Code) (id : String) (token : Option String) :
    (w.abortRun code id token).names = w.names := by
  refine List.ext_getElem? fun k => ?_
  rw [names, names, List.getElem?_map, List.getElem?_map, abortRun_get, Option.map_map]
  congr 1
  funext r
  rw [Function.comp]
  split
  next => exact Run.cut_name code token r
  next => rfl

end World

/-- A run registered for an id and a token is of that id and token. -/
def Registered (w : World) : Prop :=
  ∀ id token n, (w.tokens id).lookup token = some n → w.names[n]? = some (id, token)

section
variable {w : World} {code : Code} {id : String} {token : Option String} {k : Nat} {r : Run}

theorem Registered.of_mem (h : Registered w) (mem : k ∈ w.numbers id)
    (is : w.runs[k]? = some r) : r.id = id := by
  obtain ⟨e, entry, same⟩ := List.mem_map.mp mem
  have named := h id e.1 e.2 (AList.mem_lookup_iff.mpr entry)
  rw [World.names, List.getElem?_map, same, is] at named
  exact congrArg Prod.fst (Option.some.inj named)

theorem Registered.abortRun (h : Registered w) : Registered (w.abortRun code id token) := by
  intro id' token' n is
  rw [World.abortRun_names]
  exact h id' token' n is

/-- An abort under a token leaves every other run as it is. -/
theorem Registered.apart (h : Registered w) {t : String} (is : w.runs[k]? = some r)
    (other : (id, t) ≠ r.name) : (w.abortRun code id (some t)).runs[k]? = some r := by
  rw [World.abortRun_get, is, Option.map_some]
  split
  next mem =>
    have own := h.of_mem mem is
    have token : t ≠ r.token := fun same => other (by rw [Run.name, own, same])
    rw [Run.cut_of_ne token]
  next => rfl

theorem Registered.apart_lost {lost : List (String × String)} (h : Registered w)
    (is : w.runs[k]? = some r) (others : ∀ e ∈ lost, e ≠ r.name) :
    (w.abortLost lost).runs[k]? = some r := by
  induction lost generalizing w with
  | nil => exact is
  | cons e lost ih =>
      obtain ⟨first, rest⟩ := List.forall_mem_cons.mp others
      exact ih h.abortRun (h.apart is first) rest

end

/-! What each abort rests on. -/

/-- A `RENEW` that carried the id under the token answered that it is lost. -/
def Reported (log : List Note) (e : String × String) : Prop :=
  ∃ entries lost, .answered entries lost ∈ log ∧ e ∈ entries ∧ e.1 ∈ lost

structure Justified (log : List Note) (r : Run) : Prop where
  lost : r.reason = some .leaseLost → Reported log r.name ∨ .refused r.id r.token ∈ log
  canceled : r.reason = some .canceled → .canceled r.id r.token ∈ log

theorem Justified.other {log : List Note} {r : Run} (lost : r.reason ≠ some .leaseLost)
    (canceled : r.reason ≠ some .canceled) : Justified log r :=
  ⟨fun is => absurd is lost, fun is => absurd is canceled⟩

theorem Justified.cut {log : List Note} {r : Run} {code : Code} {token : Option String}
    (h : Justified log r)
    (why : (∀ t ∈ token, r.token = t) → Justified log { r with reason := some code }) :
    Justified log (r.cut code token) := by
  unfold Run.cut
  split
  next => exact h
  next =>
    split
    next => exact h
    next reached =>
      refine why fun t mem => ?_
      cases mem
      by_contra other
      exact reached (by simpa using Ne.symm other)

structure Inv (w : World) : Prop where
  registered : Registered w
  justified : ∀ (k : Nat) (r : Run), w.runs[k]? = some r → Justified w.log r
  answers : ∀ (n : Nat) entries lost, w.renewals[n]? = some ⟨entries, .answered lost⟩ →
    .answered entries lost ∈ w.log

theorem Justified.note {log : List Note} {r : Run} (h : Justified log r) (note : Note) :
    Justified (log ++ [note]) r where
  lost is := by
    rcases h.lost is with ⟨entries, lost, mem, rest⟩ | refused
    next => exact Or.inl ⟨entries, lost, List.mem_append_left _ mem, rest⟩
    next => exact Or.inr (List.mem_append_left _ refused)
  canceled is := List.mem_append_left _ (h.canceled is)

section
variable {w : World} {m : GroupArgs} {lease : Nat}

theorem Inv.start (server : Keys) : Inv { server } where
  registered id token n is := by simp [World.tokens] at is
  justified k r is := by simp at is
  answers n entries lost is := by simp at is

theorem Inv.note (h : Inv w) (note : Note) : Inv (w.note note) where
  registered := h.registered
  justified k r is := (h.justified k r is).note note
  answers n entries lost is := List.mem_append_left _ (h.answers n entries lost is)

/-- An abort whose code is accounted for. -/
theorem Inv.abortRun (h : Inv w) {code : Code} {id : String} {token : Option String}
    (why : ∀ r : Run, r.id = id → (∀ t ∈ token, r.token = t) →
      Justified w.log { r with reason := some code }) : Inv (w.abortRun code id token) where
  registered := h.registered.abortRun
  justified k r is := by
    rw [World.abortRun_get] at is
    obtain ⟨r₀, before, made⟩ := Option.map_eq_some_iff.mp is
    have old := h.justified k r₀ before
    split at made
    next mem => exact made ▸ old.cut (why r₀ (h.registered.of_mem mem before))
    next => exact made ▸ old
  answers := h.answers

theorem Inv.abortLost {lost : List (String × String)} (h : Inv w)
    (reported : ∀ e ∈ lost, Reported w.log e) : Inv (w.abortLost lost) := by
  induction lost generalizing w with
  | nil => exact h
  | cons e lost ih =>
      obtain ⟨first, rest⟩ := List.forall_mem_cons.mp reported
      refine ih (h.abortRun fun r id token => ⟨fun _ => Or.inl ?_, fun is => by cases is⟩) rest
      have same : r.name = e := by rw [Run.name, id, token e.2 rfl]
      exact same ▸ first

theorem Inv.abortAll (h : Inv w) : Inv w.abortAll := by
  have each (ids : List String) (w : World) (h : Inv w) :
      Inv (ids.foldl (fun w id => w.abortRun .closed id) w) := by
    induction ids generalizing w with
    | nil => exact h
    | cons id ids ih =>
        exact ih _ (h.abortRun fun r _ _ => .other (by simp) (by simp))
  exact each _ w h

theorem Inv.settle (h : Inv w) (n : Nat) {flight : Flight}
    (why : ∀ entries f lost, w.renewals[n]? = some ⟨entries, f⟩ → flight = .answered lost →
      .answered entries lost ∈ w.log) : Inv (w.settle n flight) where
  registered := h.registered
  justified := h.justified
  answers k entries lost is := by
    rw [World.settle, List.getElem?_modify] at is
    obtain ⟨⟨entries', f⟩, before, made⟩ := Option.map_eq_some_iff.mp is
    split at made
    next same =>
      subst same
      simp only [Renewal.mk.injEq] at made
      obtain ⟨rfl, answered⟩ := made
      exact why entries' f lost before answered
    next =>
      cases made
      exact h.answers k _ _ before

theorem Inv.beginRun (h : Inv w) (id token : String) : Inv (w.beginRun id token) where
  registered id' token' n is := by
    have named : (w.beginRun id token).names = w.names ++ [(id, token)] := by
      simp [World.names, World.beginRun, Run.name]
    have length : w.names.length = w.runs.length := List.length_map _
    have old (is : (w.tokens id').lookup token' = some n) :
        (w.names ++ [(id, token)])[n]? = some (id', token') := by
      have before := h.registered id' token' n is
      rw [List.getElem?_append_left (List.getElem?_eq_some_iff.mp before).1, before]
    rw [named]
    by_cases same : id' = id
    next =>
      subst same
      have tokens : (w.beginRun id' token).tokens id' =
          (w.tokens id').insert token w.runs.length := by
        simp [World.beginRun, World.tokens]
      rw [tokens] at is
      by_cases last : token' = token
      next =>
        subst last
        rw [AList.lookup_insert] at is
        cases is
        rw [← length, List.getElem?_concat_length]
      next => exact old ((AList.lookup_insert_ne last).symm.trans is)
    next =>
      refine old ?_
      rw [World.tokens, World.beginRun, AList.lookup_insert_ne same] at is
      exact is
  justified k r is := by
    rcases List.mem_append.mp (List.mem_of_getElem? is) with old | new
    next =>
      obtain ⟨k, before⟩ := List.mem_iff_getElem?.mp old
      exact h.justified k r before
    next =>
      cases List.mem_singleton.mp new
      exact .other (by simp) (by simp)
  answers := h.answers

/-- What is registered once a run has ended was registered before. -/
theorem tokens_endRun {id token id' token' : String} {n : Nat}
    (is : ((w.endRun id token).tokens id').lookup token' = some n) :
    (w.tokens id').lookup token' = some n := by
  unfold World.endRun at is
  split at is
  next => exact is
  next tokens there =>
    by_cases same : id' = id
    next =>
      subst same
      have erased : (tokens.erase token).lookup token' = some n := by
        dsimp only at is
        split at is
        next => simp [World.tokens] at is
        next => simpa [World.tokens] using is
      have other : token' ≠ token := by
        rintro rfl
        rw [AList.lookup_erase] at erased
        cases erased
      rw [AList.lookup_erase_ne other] at erased
      rwa [World.tokens, there]
    next =>
      dsimp only at is
      split at is
      next => rwa [World.tokens, AList.lookup_erase_ne same] at is
      next => rwa [World.tokens, AList.lookup_insert_ne same] at is

theorem names_endRun (id token : String) : (w.endRun id token).names = w.names := by
  unfold World.endRun
  split <;> rfl

theorem Inv.endRun (h : Inv w) (id token : String) : Inv (w.endRun id token) := by
  have registered : Registered (w.endRun id token) := by
    intro id' token' n is
    rw [names_endRun]
    exact h.registered id' token' n (tokens_endRun is)
  refine ⟨registered, ?_, ?_⟩
  next =>
    unfold World.endRun
    split
    next => exact h.justified
    next => exact h.justified
  next =>
    unfold World.endRun
    split
    next => exact h.answers
    next => exact h.answers

theorem Inv.beat (h : Inv w) : Inv w.beat := by
  unfold World.beat
  split
  next => exact h
  next =>
    have noted := h.note (.sent (w.held.entries.map fun e => (e.1, e.2)))
    refine ⟨noted.registered, noted.justified, fun n entries lost is => ?_⟩
    rcases List.mem_append.mp (List.mem_of_getElem? is) with old | new
    next =>
      obtain ⟨k, before⟩ := List.mem_iff_getElem?.mp old
      exact noted.answers k entries lost before
    next => cases List.mem_singleton.mp new

theorem Inv.resolve (h : Inv w) {entries : List (String × String)} {lost : List String}
    (answered : .answered entries lost ∈ w.log) : Inv (w.resolve entries lost) := by
  unfold World.resolve
  split
  next => exact h
  next =>
    have dropped : Inv { w with held := World.erased w.held (w.gone entries lost) } :=
      ⟨h.registered, h.justified, h.answers⟩
    refine dropped.abortLost fun e mem => ?_
    obtain ⟨sent, kept⟩ := List.mem_filter.mp mem
    rw [Bool.and_eq_true, decide_eq_true_eq] at kept
    exact ⟨entries, lost, answered, sent, kept.1⟩

theorem Inv.step (h : Inv w) (a : Act) : Inv (step m lease w a) := by
  cases a with
  | call m' c => exact ⟨h.registered, h.justified, h.answers⟩
  | start id token =>
      have begun := h.beginRun id token
      exact ⟨begun.registered, begun.justified, begun.answers⟩
  | finish n =>
      rw [Leases.step]
      split
      next => exact h
      next r is =>
        refine Inv.endRun ?_ r.id r.token
        unfold World.delete
        split
        next => exact ⟨h.registered, h.justified, h.answers⟩
        next => exact h
  | beat => exact h.beat
  | serve n us =>
      rw [Leases.step]
      split
      next entries sent =>
        split
        next lost server answer =>
          have served : Inv { w with server } := ⟨h.registered, h.justified, h.answers⟩
          refine (served.note (.answered entries lost)).settle n fun entries' f lost' is same => ?_
          cases same
          cases sent.symm.trans is
          exact List.mem_append_right _ List.mem_cons_self
        next => exact ⟨h.registered, h.justified, h.answers⟩
      next => exact h
  | hear n =>
      rw [Leases.step]
      split
      next entries lost is =>
        exact (h.resolve (h.answers n entries lost is)).settle n fun _ _ _ _ same => by cases same
      next => exact h
  | fail n => exact h.settle n fun _ _ _ _ same => by cases same
  | event e =>
      cases e with
      | completed _ _ | failed _ _ => exact h
      | canceled id token =>
          cases token with
          | none => exact h
          | some token =>
              refine (h.note _).abortRun fun r own under => ⟨fun is => ?_, fun _ => ?_⟩
              next => cases is
              next =>
                dsimp only
                rw [own, under token rfl]
                exact List.mem_append_right _ List.mem_cons_self
  | refuse n =>
      rw [Leases.step]
      split
      next => exact h
      next run is =>
        refine (h.note _).abortRun fun r own under => ⟨fun _ => Or.inr ?_, fun is => ?_⟩
        next =>
          dsimp only
          rw [own, under run.token rfl]
          exact List.mem_append_right _ List.mem_cons_self
        next => cases is
  | timeout n =>
      rw [Leases.step]
      split
      next => exact h
      next =>
        exact h.abortRun fun r _ _ => .other (by simp) (by simp)
  | closeRuns => exact h.abortAll
  | stop => exact ⟨h.registered, h.justified, h.answers⟩

theorem Inv.run (h : Inv w) (acts : List Act) : Inv (run m lease acts w) := by
  induction acts generalizing w with
  | nil => exact h
  | cons a acts ih => exact ih (h.step a)

/-! What an act is about. -/

/-- The reply that is on its way says that the id is lost, and the renewal carried it
under the token. -/
def World.Reports (w : World) (n : Nat) (e : String × String) : Prop :=
  ∃ entries lost, w.renewals[n]? = some ⟨entries, .answered lost⟩ ∧ e ∈ entries ∧ e.1 ∈ lost

/-- The act may abort a run of the id and the token. -/
def Act.Aborts (w : World) (e : String × String) : Act → Prop
  | .hear n => w.Reports n e
  | .event ev => ev = .canceled e.1 (some e.2)
  | .refuse n | .timeout n => ∃ r, w.runs[n]? = some r ∧ r.name = e
  | .closeRuns => True
  | _ => False

/-- The act may end the renewals of the id under the token: it is replaced, deleted
under it, or reported lost under it, or the keeper is stopped. -/
def Act.Releases (w : World) (e : String × String) : Act → Prop
  | .start id _ => id = e.1
  | .finish n => ∃ r, w.runs[n]? = some r ∧ r.name = e
  | .hear n => w.Reports n e
  | .stop => True
  | _ => False

theorem abortLost_held (lost : List (String × String)) : (w.abortLost lost).held = w.held ∧
    (w.abortLost lost).stopped = w.stopped := by
  induction lost generalizing w with
  | nil => exact ⟨rfl, rfl⟩
  | cons e lost ih => exact ih

theorem abortAll_held : w.abortAll.held = w.held ∧ w.abortAll.stopped = w.stopped := by
  have each (ids : List String) (w : World) :
      (ids.foldl (fun w id => w.abortRun .closed id) w).held = w.held ∧
        (ids.foldl (fun w id => w.abortRun .closed id) w).stopped = w.stopped := by
    induction ids generalizing w with
    | nil => exact ⟨rfl, rfl⟩
    | cons id ids ih => exact ih _
  exact each _ w

theorem lookup_erased {held : AList (fun _ : String => String)} {gone : List (String × String)}
    {id : String} (none : ∀ e ∈ gone, e.1 ≠ id) :
    (World.erased held gone).lookup id = held.lookup id := by
  induction gone generalizing held with
  | nil => rfl
  | cons e gone ih =>
      obtain ⟨first, rest⟩ := List.forall_mem_cons.mp none
      exact (ih rest).trans (AList.lookup_erase_ne first.symm)

theorem lookup_delete {id token id' token' : String} (holds : w.held.lookup id = some token)
    (other : (id', token') ≠ (id, token)) : (w.delete id' token').held.lookup id = some token := by
  unfold World.delete
  split
  next own =>
    have apart : id ≠ id' := by
      rintro rfl
      rw [holds] at own
      exact other (by rw [Option.some.inj own])
    exact (AList.lookup_erase_ne apart).trans holds
  next => exact holds

/-- A reply that is not about the token leaves it held. -/
theorem lookup_resolve {entries : List (String × String)} {lost : List String}
    {id token : String} (holds : w.held.lookup id = some token)
    (other : ¬ ((id, token) ∈ entries ∧ id ∈ lost)) :
    (w.resolve entries lost).held.lookup id = some token := by
  unfold World.resolve
  split
  next => exact holds
  next =>
    rw [(abortLost_held _).1]
    refine (lookup_erased fun e mem same => ?_).trans holds
    obtain ⟨sent, kept⟩ := List.mem_filter.mp mem
    rw [Bool.and_eq_true, decide_eq_true_eq, decide_eq_true_eq, same, holds] at kept
    have entry : e = (id, token) := Prod.ext same (Option.some.inj kept.2).symm
    exact other ⟨entry ▸ sent, kept.1⟩

theorem runs_endRun (id token : String) : (w.endRun id token).runs = w.runs ∧
    (w.endRun id token).held = w.held ∧ (w.endRun id token).stopped = w.stopped := by
  unfold World.endRun
  split <;> exact ⟨rfl, rfl, rfl⟩

theorem runs_delete (id token : String) : (w.delete id token).runs = w.runs ∧
    (w.delete id token).stopped = w.stopped := by
  unfold World.delete
  split <;> exact ⟨rfl, rfl⟩

/-- An act that is not about a run leaves it as it is. -/
theorem step_apart (h : Inv w) {a : Act} {k : Nat} {r : Run} (is : w.runs[k]? = some r)
    (other : ¬ a.Aborts w r.name) : (step m lease w a).runs[k]? = some r := by
  cases a with
  | call | fail | stop => exact is
  | start id token =>
      exact (List.getElem?_append_left (List.getElem?_eq_some_iff.mp is).1).trans is
  | finish n =>
      rw [Leases.step]
      split
      next => exact is
      next run _ => rwa [(runs_endRun run.id run.token).1, (runs_delete run.id run.token).1]
  | beat =>
      rw [Leases.step, World.beat]
      split <;> exact is
  | serve n us =>
      rw [Leases.step]
      split
      next => split <;> exact is
      next => exact is
  | hear n =>
      rw [Leases.step]
      split
      next entries lost flight =>
        have apart : (w.resolve entries lost).runs[k]? = some r := by
          unfold World.resolve
          split
          next => exact is
          next =>
            refine Registered.apart_lost (fun id' token' => h.registered id' token') is
              fun e mem same => ?_
            obtain ⟨sent, kept⟩ := List.mem_filter.mp mem
            rw [Bool.and_eq_true, decide_eq_true_eq] at kept
            exact other ⟨entries, lost, flight, same ▸ sent, same ▸ kept.1⟩
        exact apart
      next => exact is
  | event e =>
      cases e with
      | completed _ _ | failed _ _ => exact is
      | canceled id token =>
          cases token with
          | none => exact is
          | some token =>
              refine Registered.apart (w := w.note _) h.registered is fun same => other ?_
              rw [Act.Aborts, ← same]
  | refuse n =>
      rw [Leases.step]
      split
      next => exact is
      next run there =>
        exact Registered.apart (w := w.note _) h.registered is fun same => other ⟨run, there, same⟩
  | timeout n =>
      rw [Leases.step]
      split
      next => exact is
      next run there => exact h.registered.apart is fun same => other ⟨run, there, same⟩
  | closeRuns => exact absurd trivial other

/-- The keeper goes on holding a token until an act releases it. -/
theorem step_holds {a : Act} {id token : String} (holds : w.held.lookup id = some token)
    (going : w.stopped = false) (other : ¬ a.Releases w (id, token)) :
    (step m lease w a).held.lookup id = some token ∧ (step m lease w a).stopped = false := by
  cases a with
  | call | fail => exact ⟨holds, going⟩
  | closeRuns =>
      obtain ⟨held, stopped⟩ := abortAll_held (w := w)
      exact ⟨held ▸ holds, stopped.trans going⟩
  | start id' token' =>
      have apart : id ≠ id' := fun same => other same.symm
      exact ⟨(AList.lookup_insert_ne apart).trans holds, going⟩
  | finish n =>
      rw [Leases.step]
      split
      next => exact ⟨holds, going⟩
      next run there =>
        obtain ⟨-, held, stopped⟩ := runs_endRun (w := w.delete run.id run.token) run.id run.token
        refine ⟨held ▸ lookup_delete holds fun same => other ⟨run, there, same⟩, ?_⟩
        rw [stopped, (runs_delete run.id run.token).2, going]
  | beat =>
      rw [Leases.step, World.beat]
      split <;> exact ⟨holds, going⟩
  | serve n us =>
      rw [Leases.step]
      split
      next => split <;> exact ⟨holds, going⟩
      next => exact ⟨holds, going⟩
  | hear n =>
      rw [Leases.step]
      split
      next entries lost flight =>
        refine ⟨lookup_resolve holds fun ⟨sent, gone⟩ => other ⟨entries, lost, flight, sent, gone⟩,
          ?_⟩
        change (w.resolve entries lost).stopped = false
        rw [World.resolve, if_neg (by simp [going])]
        exact (abortLost_held _).2.trans going
      next => exact ⟨holds, going⟩
  | event e =>
      cases e with
      | completed _ _ | failed _ _ => exact ⟨holds, going⟩
      | canceled id token => cases token <;> exact ⟨holds, going⟩
  | refuse n | timeout n =>
      rw [Leases.step]
      split <;> exact ⟨holds, going⟩
  | stop => exact absurd trivial other

/-- A held token is in what a beat sends. -/
theorem beat_sends {id token : String} (holds : w.held.lookup id = some token)
    (going : w.stopped = false) : ∃ entries, (id, token) ∈ entries ∧
      w.beat.log = w.log ++ [.sent entries] ∧ w.beat.renewals = w.renewals ++ [⟨entries, .sent⟩] := by
  have entry := AList.mem_lookup_iff.mp holds
  have some : ¬ (w.stopped = true ∨ w.held.keys.length = 0) := by
    rintro (stopped | empty)
    next => rw [going] at stopped; cases stopped
    next =>
      have key : id ∈ w.held.keys := AList.mem_keys.mp (AList.lookup_isSome.mp (by rw [holds]; rfl))
      rw [List.length_eq_zero_iff.mp empty] at key
      cases key
  rw [World.beat, if_neg some]
  refine ⟨w.held.entries.map fun e => (e.1, e.2), ?_, rfl, rfl⟩
  exact List.mem_map.mpr ⟨_, entry, rfl⟩

theorem run_holds {acts : List Act} {id token : String} (holds : w.held.lookup id = some token)
    (going : w.stopped = false)
    (none : ∀ before a later, acts = before ++ a :: later →
      ¬ a.Releases (run m lease before w) (id, token)) :
    (run m lease acts w).held.lookup id = some token ∧ (run m lease acts w).stopped = false := by
  induction acts generalizing w with
  | nil => exact ⟨holds, going⟩
  | cons a acts ih =>
      obtain ⟨holds, going⟩ := @step_holds w m lease a id token holds going (none [] a acts rfl)
      refine ih holds going fun before b later eq => ?_
      exact none (a :: before) b later (by rw [eq, List.cons_append])

end

/-- Whatever happens and in whatever order, a run is aborted with `LEASE_LOST` only
when a `RENEW` that carried its id and token answered that id or its own step was
refused, and with `CANCELED` only by an event with its own token. An act that is not
about a run's own token neither aborts it nor ends its renewals; and the latest token
added for an id is in every beat until an act releases it. -/
theorem leases_right_run (m : GroupArgs) (lease : Nat) (server : Keys) (acts : List Act) :
    let w := run m lease acts { server }
    (∀ r ∈ w.runs, r.reason = some .leaseLost →
      Reported w.log (r.id, r.token) ∨ .refused r.id r.token ∈ w.log) ∧
    (∀ r ∈ w.runs, r.reason = some .canceled → .canceled r.id r.token ∈ w.log) ∧
    (∀ (a : Act) (k : Nat) r, w.runs[k]? = some r → ¬ a.Aborts w (r.id, r.token) →
      (step m lease w a).runs[k]? = some r) ∧
    (∀ (a : Act) id token, w.stopped = false → w.held.lookup id = some token →
      ¬ a.Releases w (id, token) → (step m lease w a).held.lookup id = some token) ∧
    ∀ id token later, w.stopped = false →
      let begun := step m lease w (.start id token)
      (∀ before a after, later = before ++ a :: after →
        ¬ a.Releases (run m lease before begun) (id, token)) →
      let now := run m lease later begun
      ∃ entries, (id, token) ∈ entries ∧ (step m lease now .beat).log = now.log ++ [.sent entries] ∧
        (step m lease now .beat).renewals = now.renewals ++ [⟨entries, .sent⟩] := by
  have inv : Inv (run m lease acts { server }) := (Inv.start server).run acts
  refine ⟨?_, ?_, ?_, ?_, ?_⟩
  next =>
    intro r mem lost
    obtain ⟨k, is⟩ := List.mem_iff_getElem?.mp mem
    exact (inv.justified k r is).lost lost
  next =>
    intro r mem canceled
    obtain ⟨k, is⟩ := List.mem_iff_getElem?.mp mem
    exact (inv.justified k r is).canceled canceled
  next => exact fun a k r is other => step_apart inv is other
  next => exact fun a id token going holds other => (step_holds holds going other).1
  next =>
    intro id token later going begun none
    obtain ⟨holds, going⟩ := run_holds (w := begun) (AList.lookup_insert _) going none
    exact beat_sends holds going

end NxgtData.Leases
