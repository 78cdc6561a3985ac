import NxgtData.MongoBackup.Target

/-!
A restore without `replace` from inside: as long as it has not dropped the database, what
was there before is there as it was, and every name it follows is one it made and has.
-/
namespace NxgtData.MongoBackup
open Bson

variable {σ α β : Type}

/-- What was there is there as it was. -/
def Intact (before db : Db σ) : Prop := ∀ name item, before name = some item → db name = some item

/-- Besides, the names followed are there, and were not before. -/
def Landed (before : Db σ) (held : Finset Name) (db : Db σ) : Prop :=
  Intact before db ∧ ∀ name ∈ held, before name = none ∧ (db name).isSome

section Databases
variable {before db : Db σ} {held : Finset Name} {name to_ : Name} {item : Item σ}

theorem Intact.absent (h : Intact before db) (gone : db name = none) : before name = none := by
  cases was : before name with
  | none => rfl
  | some item => exact absurd ((h name item was).symm.trans gone) nofun

theorem Intact.update (h : Intact before db) (new : before name = none) (x : Option (Item σ)) :
    Intact before (Function.update db name x) := by
  intro other item was
  by_cases same : other = name
  · subst same
    exact absurd (was.symm.trans new) nofun
  · rw [Function.update_of_ne same]
    exact h other item was

theorem Landed.mono {held' : Finset Name} (h : Landed before held db) (le : held' ⊆ held) :
    Landed before held' db := ⟨h.1, fun name mem => h.2 name (le mem)⟩

theorem Landed.put (h : Landed before held db) (new : before name = none)
    {x : Option (Item σ)} (there : x.isSome) :
    Landed before (insert name held) (Function.update db name x) := by
  refine ⟨h.1.update new _, fun other mem => ?_⟩
  by_cases same : other = name
  · subst same
    rw [Function.update_self]
    exact ⟨new, there⟩
  · rw [Function.update_of_ne same]
    exact h.2 other (Finset.mem_of_mem_insert_of_ne mem same)

theorem Landed.write (h : Landed before held db) (mem : name ∈ held)
    {x : Option (Item σ)} (there : x.isSome) :
    Landed before held (Function.update db name x) := by
  have put := h.put (h.2 name mem).1 there
  rwa [Finset.insert_eq_of_mem mem] at put

theorem Landed.drop (h : Landed before held db) (new : before name = none) :
    Landed before (held.erase name) (Function.update db name none) := by
  refine ⟨h.1.update new _, fun other mem => ?_⟩
  obtain ⟨ne, mem⟩ := Finset.mem_erase.mp mem
  rw [Function.update_of_ne ne]
  exact h.2 other mem

theorem Landed.moved (h : Landed before held db) (new : before name = none)
    (new' : before to_ = none) :
    Landed before (insert to_ (held.erase name)) (moved db name to_ item) :=
  (h.drop new).put new' rfl

end Databases

/-- A condition on the database, until it is dropped. -/
def Until (P : Db σ → Prop) (t : Target σ) : Prop := t.dropped = false → P t.db

abbrev Safe (before : Db σ) : Target σ → Prop := Until (Intact before)

/-- A program that leaves what was there as it was, however it ends, and `post` if it
returns. -/
def Leaves (before : Db σ) (pre : Target σ → Prop) (m : Restore σ α)
    (post : α → Target σ → Prop) : Prop :=
  Triple (fun w => pre w.target) m (fun a w => post a w.target) fun _ w => Safe before w.target

section Programs
variable {before : Db σ} {pre pre' mid : Target σ → Prop} {post post' : α → Target σ → Prop}
  {m : Restore σ α} {effect : Target σ → Except Error α × Target σ}

theorem exec_call (effect : Target σ → Except Error α × Target σ) (w : World σ) :
    (call effect).exec w =
      if w.stopped then (.error .other, w)
      else match w.faults with
        | [] => ((effect w.target).1, { w with target := (effect w.target).2 })
        | .none :: later =>
            ((effect w.target).1, { w with target := (effect w.target).2, faults := later })
        | .fails false :: later => (.error .other, { w with faults := later })
        | .fails true :: later =>
            (.error .other, { w with target := (effect w.target).2, faults := later })
        | .stops :: later => (.error .other, { w with faults := later, stopped := true }) := rfl

/-- A call is about its effect: a fault leaves the database as it was or as the effect does,
and is an error that no handler ignores. -/
theorem call_triple {fail : Error → Target σ → Prop}
    (answered : ∀ t, pre t → match effect t with
      | (.ok a, t') => post a t'
      | (.error e, t') => fail e t')
    (lost : ∀ t, pre t → fail .other t) (applied : ∀ t, pre t → fail .other (effect t).2) :
    Triple (fun w => pre w.target) (call effect) (fun a w => post a w.target)
      fun e w => fail e w.target := by
  intro w h
  have reply := answered w.target h
  have gone := lost w.target h
  have done_ := applied w.target h
  rw [exec_call]
  by_cases stopped : w.stopped = true
  · rw [if_pos stopped]
    exact gone
  rw [if_neg stopped]
  revert reply done_
  generalize effect w.target = result
  intro reply done_
  match w.faults with
  | [] => obtain ⟨_ | _, _⟩ := result <;> exact reply
  | .none :: _ => obtain ⟨_ | _, _⟩ := result <;> exact reply
  | .fails false :: _ => exact gone
  | .fails true :: _ => exact done_
  | .stops :: _ => exact gone

theorem Leaves.call (safe : ∀ t, pre t → Safe before t) (kept : ∀ t, pre t → Safe before (effect t).2)
    (ok : ∀ t a, pre t → (effect t).1 = .ok a → post a (effect t).2) :
    Leaves before pre (call effect) post := by
  refine call_triple (fun t h => ?_) safe kept
  have kept := kept t h
  have ok := ok t
  revert kept ok
  generalize effect t = result
  intro kept ok
  obtain ⟨e | a, t'⟩ := result
  · exact kept
  · exact ok a h rfl

theorem Leaves.conseq (h : Leaves before pre' m post') (weak : ∀ t, pre t → pre' t)
    (strong : ∀ a t, post' a t → post a t) : Leaves before pre m post :=
  Triple.conseq h (fun _ => weak _) (fun _ _ => strong _ _) fun _ _ => id

theorem Leaves.bind {f : α → Restore σ β} {post : β → Target σ → Prop}
    (mid : α → Target σ → Prop) (first : Leaves before pre m mid)
    (second : ∀ a, Leaves before (mid a) (f a) post) : Leaves before pre (m >>= f) post :=
  Triple.bind (fun a w => mid a w.target) first second

theorem Leaves.pure {a : α} (h : ∀ t, pre t → post a t) :
    Leaves before pre (Pure.pure a : Restore σ α) post := Triple.pure fun w => h w.target

theorem Leaves.throw {e : Error} (h : ∀ t, pre t → Safe before t) :
    Leaves before pre (MonadExcept.throw e : Restore σ α) post := Triple.throw fun w => h w.target

/-- However a program ends. -/
theorem Leaves.ends (h : Leaves before pre m fun _ => Safe before) {w : World σ}
    (start : pre w.target) : Safe before (m.exec w).2.target := by
  have ended := h w start
  revert ended
  generalize m.exec w = result
  obtain ⟨_ | _, _⟩ := result <;> exact id

end Programs

section Calls
variable {server : Server σ} {before : Db σ} {pre : Target σ → Prop} {held : Finset Name}
  {name from_ to_ : Name}

/-- Every followed name is there, and was not before, until the database is dropped. -/
abbrev Held (before : Db σ) (held : Finset Name) : Target σ → Prop := Until (Landed before held)

/-- Besides, a fact that no program changes. -/
abbrev HeldAnd (before : Db σ) (held : Finset Name) (q : Prop) : Target σ → Prop :=
  Until fun db => Landed before held db ∧ q

/-- Besides, a name is new. -/
abbrev HeldNew (before : Db σ) (held : Finset Name) (name : Name) : Target σ → Prop :=
  HeldAnd before held (before name = none)

theorem Held.safe {t : Target σ} (h : Held before held t) : Safe before t := fun live => (h live).1

theorem HeldAnd.left {q : Prop} {t : Target σ} (h : HeldAnd before held q t) :
    Held before held t := fun live => (h live).1

theorem HeldAnd.safe {q : Prop} {t : Target σ} (h : HeldAnd before held q t) : Safe before t :=
  h.left.safe

theorem Held.and {t : Target σ} (h : Held before held t) : HeldAnd before held True t :=
  fun live => ⟨h live, trivial⟩

theorem read_leaves (safe : ∀ t, pre t → Safe before t) :
    Leaves before pre read fun _ => pre :=
  Leaves.call safe safe fun _ _ h _ => h

theorem exists_leaves (safe : ∀ t, pre t → Safe before t) :
    Leaves before pre (exists_ name) fun there t => pre t ∧ there = (t.db name).isSome :=
  Leaves.call safe safe fun _ _ h eq => ⟨h, (Except.ok.inj eq).symm⟩

theorem createCollection_leaves {options : JsValue σ} :
    Leaves before (HeldNew before held name) (createCollection server name options) fun _ =>
      HeldAnd before (insert name held) (name ∉ held) := by
  refine Leaves.call (fun t => HeldAnd.safe) (fun t h => ?_) fun t a h eq => ?_
  · dsimp only
    split
    · exact h.safe
    split
    · exact fun live => (h live).1.1.update (h live).2 _
    · exact h.safe
  · revert eq
    dsimp only
    split
    · exact nofun
    next gone =>
    split
    · refine fun _ live => ⟨(h live).1.put (h live).2 rfl, fun mem => gone ?_⟩
      exact ((h live).1.2 name mem).2
    · exact nofun

/-- A command on a followed name leaves every one there, also where it fails. -/
theorem write_triple {w : Write σ} {q : Prop} (mem : name ∈ held) :
    Triple (fun w => HeldAnd before held q w.target) (write server name w)
      (fun _ w => HeldAnd before held q w.target) fun _ w => HeldAnd before held q w.target := by
  have kept : ∀ t : Target σ, HeldAnd before held q t → HeldAnd before held q
      { t with db := Function.update t.db name (server.write w (t.db name)).2 } := by
    intro t h live
    refine ⟨(h live).1.write mem ?_, (h live).2⟩
    obtain ⟨item, eq⟩ := Option.isSome_iff_exists.mp ((h live).1.2 name mem).2
    rw [eq]
    exact server.keeps w item
  refine call_triple (fun t h => ?_) (fun t h => h) kept
  have kept := kept t h
  revert kept
  generalize (server.write w (t.db name)).1 = reply
  intro kept
  cases reply <;> exact kept

theorem write_leaves {w : Write σ} {q : Prop} (mem : name ∈ held) :
    Leaves before (HeldAnd before held q) (write server name w) fun _ => HeldAnd before held q :=
  Triple.conseq (write_triple mem) (fun _ => id) (fun _ _ => id) fun _ _ => HeldAnd.safe

theorem ignoring_write {codes : List Error} {w : Write σ} (mem : name ∈ held) :
    Leaves before (Held before held) (ignoring codes (write server name w)) fun _ =>
      Held before held := by
  refine Triple.conseq (Triple.tryCatch _ (write_triple mem) fun e => ?_) (fun _ => Held.and)
    (fun _ _ => HeldAnd.left) fun _ _ => id
  split
  · exact Triple.pure fun _ => id
  · exact Triple.throw fun _ => HeldAnd.safe

theorem dropIfThere_leaves :
    Leaves before (HeldNew before held name) (dropIfThere name) fun _ =>
      Held before (held.erase name) := by
  have gone : ∀ t : Target σ, HeldNew before held name t →
      Held before (held.erase name) { t with db := Function.update t.db name none } :=
    fun t h live => (h live).1.drop (h live).2
  have same : ∀ t : Target σ, HeldNew before held name t → Held before (held.erase name) t :=
    fun t h live => (h live).1.mono (Finset.erase_subset _ _)
  refine Triple.tryCatch (fun _ w => Held before (held.erase name) w.target) ?_ fun e => ?_
  · refine call_triple (fun t h => ?_) same fun t h => ?_
    · split <;> rename_i eq
      · split at eq <;> cases eq
        exact gone t h
      · split at eq <;> cases eq
        exact same t h
    · split
      · exact gone t h
      · exact same t h
  · split
    · exact Triple.pure fun _ => id
    · exact Triple.throw fun _ => Held.safe

/-- A rename of a followed name moves it; the name it takes is new, or was followed. -/
theorem rename_triple {dropTarget : Bool} {q : Prop} (mem : from_ ∈ held)
    (drops : dropTarget = true → to_ ∈ held) :
    Triple (fun w : World σ => HeldAnd before held q w.target) (rename from_ to_ dropTarget)
      (fun _ w => HeldAnd before (insert to_ (held.erase from_)) q w.target)
      fun e w => Safe before w.target ∧ (e = .namespaceNotFound → w.target.dropped = true) := by
  have move : ∀ (t : Target σ) (item : Item σ), HeldAnd before held q t →
      (t.dropped = false → before to_ = none) → HeldAnd before (insert to_ (held.erase from_)) q
        { t with db := moved t.db from_ to_ item } :=
    fun t item h new live =>
      ⟨(h live).1.moved ((h live).1.2 from_ mem).1 (new live), (h live).2⟩
  let Fail : Error → Target σ → Prop := fun e t =>
    Safe before t ∧ (e = .namespaceNotFound → t.dropped = true)
  have failed : ∀ (t : Target σ) (e : Error), HeldAnd before held q t → e ≠ .namespaceNotFound →
      Fail e t := fun t e h ne => ⟨h.safe, fun eq => absurd eq ne⟩
  refine @call_triple σ Unit _ _ _ Fail (fun t h => ?_) (fun t h => failed t _ h nofun)
    fun t h => ?_
  · cases source : t.db from_ with
    | none =>
        refine ⟨h.safe, fun _ => ?_⟩
        by_contra live
        have there := ((h (Bool.eq_false_iff.mpr live)).1.2 from_ mem).2
        rw [source] at there
        exact absurd there nofun
    | some item =>
        cases item with
        | view _ => exact failed t _ h nofun
        | collection o i d =>
            cases target : t.db to_ with
            | none => exact move t _ h fun live => (h live).1.1.absent target
            | some item =>
                cases item with
                | view _ => exact failed t _ h nofun
                | collection _ _ _ =>
                    dsimp only
                    split <;> rename_i eq
                    · split at eq
                      · cases eq
                      · split at eq
                        next yes =>
                          cases eq
                          exact move t _ h fun live => ((h live).1.2 to_ (drops yes)).1
                        · cases eq
                    · split at eq
                      · cases eq
                        exact failed t _ h nofun
                      · split at eq <;> cases eq
                        exact failed t _ h nofun
  · refine ⟨?_, nofun⟩
    split
    · exact h.safe
    · exact h.safe
    · exact h.safe
    · split
      · exact h.safe
      · split
        next yes => exact (move t _ h fun live => ((h live).1.2 to_ (drops yes)).1).safe
        · exact h.safe
    next target => exact (move t _ h fun live => (h live).1.1.absent target).safe

end Calls

end NxgtData.MongoBackup
