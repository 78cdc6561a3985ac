import NxgtData.MongoBackup.Events
import Mathlib.Tactic.Common

/-!
The database backed up, by the names in it, and the chains of backups taken along its
history, each with a filter of its own. Of the names a chain follows: every collection there
that each filter of it takes is among them, so a change it records is about a collection it
follows, but for a rename away or over one that it does not.
-/
namespace NxgtData.MongoBackup
open Bson

variable {σ : Type}

structure Names where
  collections : Finset Name := ∅
  views : Finset Name := ∅

/-- The names after what an event says, where the server can emit it. -/
def Names.after (db : Name) (s : Names) (event : Event σ) : Option Names :=
  match event.operationType, event.coll with
  | .dropDatabase, _ => some {}
  | .invalidate, _ => some s
  | .create, some coll =>
      if coll ∈ s.collections ∪ s.views then none
      else if event.nsType = some .view then some { s with views := insert coll s.views }
      else some { s with collections := insert coll s.collections }
  | .drop, some coll =>
      if coll ∈ s.collections then some { s with collections := s.collections.erase coll }
      else if coll ∈ s.views then some { s with views := s.views.erase coll }
      else none
  | .rename, some coll =>
      match event.to_ with
      | none => none
      | some (db', to_) =>
          if coll ∉ s.collections then none
          else if db' ≠ db then some { s with collections := s.collections.erase coll }
          else if coll = to_ ∨ to_ ∈ s.views then none
          else if (get (event.operationDescription.getD emptyObject) "dropTarget").isSome =
              decide (to_ ∈ s.collections) then
            some { s with collections := insert to_ (s.collections.erase coll) }
          else none
  | _, some coll => if coll ∈ s.collections ∪ s.views then some s else none
  | _, none => none

/-- The events a history emits, from the names it starts with. A view may also come and go
without an event. -/
inductive History (db : Name) : Names → List (Event σ) → Prop where
  | nil (s : Names) : History db s []
  | event {s s' : Names} {e : Event σ} {log : List (Event σ)} (after : s.after db e = some s')
      (more : History db s' log) : History db s (e :: log)
  | views {s s' : Names} {log : List (Event σ)} (same : s'.collections = s.collections)
      (more : History db s' log) : History db s log

/-- A collection renamed to another database. -/
def Event.RenamedOut (db : Name) (e : Event σ) : Prop :=
  e.operationType = .rename ∧ ∀ to_, e.to_ ≠ some (db, to_)

/-- A followed collection renamed in place of another one. -/
def Event.RenamedOver (db : Name) (held : Finset Name) (e : Event σ) (to_ : Name) : Prop :=
  e.operationType = .rename ∧ e.to_ = some (db, to_) ∧ (∃ coll ∈ held, e.coll = some coll) ∧
    (get (e.operationDescription.getD emptyObject) "dropTarget").isSome

inductive Kind where
  | collection | view
deriving DecidableEq

structure Metadata (σ : Type) where
  type : Kind
  options : JsValue σ
  indexes : List (JsValue σ)

/-- A collection or a view as the snapshot holds it. -/
structure Described (σ : Type) where
  name : Name
  metadata : Metadata σ
  documents : List (Value σ)

inductive Entry (σ : Type) where
  | metadata (coll : Name) (read : Metadata σ)
  | documents (coll : Name) (raws : List (Value σ))
  | changes (records : List (Value σ))

/-- A full backup's entries: each collection's metadata, then its documents. -/
def snapshotEntries (filter : Option CollectionFilter) (catalog : List (Described σ)) :
    List (Entry σ) :=
  (catalog.filter (takes filter ·.name)).flatMap fun d =>
    .metadata d.name d.metadata ::
      match d.metadata.type with
      | .collection => [.documents d.name d.documents]
      | .view => []

/-- The names there at the snapshot. -/
def namesOf (catalog : List (Described σ)) : Names where
  collections := ((catalog.filter (·.metadata.type = .collection)).map (·.name)).toFinset
  views := ((catalog.filter (·.metadata.type = .view)).map (·.name)).toFinset

/-- The names of a backup's metadata entries. -/
def heldByFull (entries : List (Entry σ)) : Finset Name :=
  (entries.filterMap fun
    | .metadata coll _ => some coll
    | _ => none).toFinset

/-- One incremental or differential backup: the filter it is given, what of the log its
stream reached, and the operation time it reads up to. -/
structure Reading where
  filter : Option CollectionFilter := none
  reached : Nat
  until_ : Nat

section Chain
variable (number : Int → σ) (db : Name) (full : Finset Name) (log : List (Event σ))

/-- The changes entries of a chain's backups after the full one, each from where the one it
builds on stopped. -/
def changesEntries (from_ : Position) : List Reading → Except Refusal (List (Entry σ))
  | [] => .ok []
  | reading :: later => do
      let (changes, held, read) ← changesOf reading.filter db reading.until_
        (followedFrom full from_) ((log.take reading.reached).drop from_.resume)
      let entries ← changesEntries (differenceOf full held (from_.resume + read)) later
      return .changes (changes.map (writeChange number)) :: entries

end Chain

/-- The entries a chain restores: those of its full backup, taken with this filter, then each
one's changes. -/
def chainEntries (number : Int → σ) (filter : Option CollectionFilter) (db : Name)
    (catalog : List (Described σ)) (log : List (Event σ)) (readings : List Reading) :
    Except Refusal (List (Entry σ)) := do
  let first := snapshotEntries filter catalog
  let changes ← changesEntries number db (heldByFull first) log { resume := 0 } readings
  return first ++ changes

/-- What a change does to names: a document's or a collection's own change, and those that
make, drop or move one. -/
inductive Scope where
  | within (coll : Name)
  | create (coll : Name)
  | drop (coll : Name)
  | rename (coll to_ : Name) (dropTarget : Bool)
  | dropDatabase
deriving DecidableEq

def Change.scope : Change σ → Scope
  | put _ coll _ _ | update coll _ _ _ _ | delete coll _ => .within coll
  | createIndexes coll _ | dropIndexes coll _ | modify coll _ => .within coll
  | create coll _ => .create coll
  | drop coll => .drop coll
  | rename coll to_ dropTarget => .rename coll to_ dropTarget
  | dropDatabase => .dropDatabase

namespace Scope

/-- A change about names that are followed. -/
def Allowed (held : Finset Name) : Scope → Prop
  | within coll | drop coll => coll ∈ held
  | create _ | dropDatabase => True
  | rename coll to_ dropTarget => coll ∈ held ∧ (dropTarget = true → to_ ∈ held)

/-- The names followed after a change. -/
def after (held : Finset Name) : Scope → Finset Name
  | within _ => held
  | create coll => insert coll held
  | drop coll => held.erase coll
  | rename coll to_ _ => insert to_ (held.erase coll)
  | dropDatabase => ∅

/-- Changes each about names followed when it applies. -/
def AllAllowed (held : Finset Name) : List Scope → Prop
  | [] => True
  | s :: rest => s.Allowed held ∧ AllAllowed (s.after held) rest

theorem allAllowed_append {held : Finset Name} {first second : List Scope}
    (h : AllAllowed held first) (h' : AllAllowed (first.foldl after held) second) :
    AllAllowed held (first ++ second) := by
  induction first generalizing held with
  | nil => exact h'
  | cons s rest ih => exact ⟨h.1, ih h.2 h'⟩

theorem allAllowed_of_append {held : Finset Name} {first second : List Scope}
    (h : AllAllowed held (first ++ second)) :
    AllAllowed held first ∧ AllAllowed (first.foldl after held) second := by
  induction first generalizing held with
  | nil => exact ⟨trivial, h⟩
  | cons s rest ih =>
      obtain ⟨front, back⟩ := ih h.2
      exact ⟨⟨h.1, front⟩, back⟩

end Scope

/-- Every collection there that each of the chain's filters takes is followed. -/
def Follows (filters : List (Option CollectionFilter)) (s : Names) (held : Finset Name) : Prop :=
  ∀ name ∈ s.collections, (∀ filter ∈ filters, takes filter name = true) → name ∈ held

/-- An event takes no collection away that is not followed: it renames none to another
database, and none is replaced under a name that the backup's filter takes and an earlier one
left out. -/
structure Spares (filters : List (Option CollectionFilter)) (filter : Option CollectionFilter)
    (db : Name) (held : Finset Name) (e : Event σ) : Prop where
  out : e.RenamedOut db → ∀ coll, e.coll = some coll → coll ∈ held
  onto : ∀ to_, e.RenamedOver db held to_ → takes filter to_ = true →
    (∃ earlier ∈ filters, takes earlier to_ = false) → to_ ∈ held

/-- A change is kept of one that a backup translated, with the names followed after it. -/
def Keeps (held : Finset Name) (kept : Option (Change σ)) (held' : Finset Name) : Prop :=
  match kept with
  | none => held' = held
  | some change => change.scope.Allowed held ∧ held' = change.scope.after held

section Steps
variable {db : Name} {filters : List (Option CollectionFilter)} {filter : Option CollectionFilter}
  {s s' : Names} {held held' : Finset Name} {e : Event σ} {coll : Name} {change : Change σ}
  {kept : Option (Change σ)}

/-- An event about what one collection or view holds. -/
def OperationType.within : OperationType → Bool
  | insert | replace | update | delete | createIndexes | dropIndexes | modify => true
  | create | drop | rename | dropDatabase | invalidate => false

theorem changeOf_within (type : e.operationType.within) (named : e.coll = some coll)
    (eq : changeOf e db = .ok (some change)) : change.scope = .within coll := by
  unfold changeOf at eq
  simp only [named, Option.getD_some] at eq
  cases op : e.operationType <;> simp only [op, OperationType.within, Bool.false_eq_true] at type eq
  case insert | replace | delete =>
    cases eq
    rfl
  case update =>
    unfold updateOf at eq
    split at eq
    · cases eq
      rfl
    · dsimp only at eq
      split at eq
      · exact absurd eq nofun
      · cases eq
        rfl
  case modify =>
    simp only [ddlOf, op] at eq
    cases eq
    rfl
  case createIndexes | dropIndexes =>
    simp only [ddlOf, op] at eq
    cases items : itemsOf (e.operationDescription.getD emptyObject) "indexes" with
    | error refusal => simp [items, bind, Except.bind] at eq
    | ok list =>
        rw [items] at eq
        cases eq
        rfl

theorem followed_within (scope : change.scope = .within coll)
    (eq : followed filter held change = .ok (kept, held')) : kept = some change ∧ held' = held := by
  cases change with
  | put | update | delete | createIndexes | dropIndexes | modify =>
      cases eq
      exact ⟨rfl, rfl⟩
  | create | drop | rename | dropDatabase => exact absurd scope nofun

theorem keeps_within (type : e.operationType.within) (named : e.coll = some coll)
    (mem : coll ∈ held) (eq : changeOf e db = .ok (some change))
    (eq' : followed filter held change = .ok (kept, held')) : Keeps held kept held' := by
  have scope := changeOf_within type named eq
  obtain ⟨rfl, rfl⟩ := followed_within scope eq'
  simp only [Keeps, scope]
  exact ⟨mem, rfl⟩

theorem after_within (type : e.operationType.within) (after : s.after db e = some s') :
    ∃ coll, e.coll = some coll ∧ s' = s := by
  unfold Names.after at after
  cases op : e.operationType <;> simp only [op, OperationType.within, Bool.false_eq_true] at type
  all_goals
    cases named : e.coll with
    | none => simp [op, named] at after
    | some coll =>
        simp only [op, named] at after
        split at after
        · exact ⟨coll, rfl, (Option.some.inj after).symm⟩
        · exact absurd after nofun

theorem recorded_ok (eq : recorded filter held db e = .ok (kept, held')) :
    (changeOf e db = .ok none ∧ kept = none ∧ held' = held) ∨
      ∃ change, changeOf e db = .ok (some change) ∧
        followed filter held change = .ok (kept, held') := by
  unfold recorded at eq
  cases translated : changeOf e db with
  | error refusal => simp [translated, bind, Except.bind] at eq
  | ok found =>
      rw [translated] at eq
      cases found with
      | none =>
          cases eq
          exact .inl ⟨rfl, rfl, rfl⟩
      | some change => exact .inr ⟨change, rfl, eq⟩

theorem changeOf_ne_none (going : e.operationType ≠ .invalidate) :
    changeOf e db ≠ .ok none := by
  intro eq
  unfold changeOf at eq
  dsimp only at eq
  cases op : e.operationType <;> simp only [op] at eq going
  case insert | replace | delete | dropDatabase => exact absurd eq nofun
  case update =>
    cases up : updateOf e (e.coll.getD []) (e.documentKey.getD emptyObject) with
    | error _ => simp [up] at eq
    | ok _ => simp [up] at eq
  case invalidate => exact going rfl
  case create =>
    simp only [ddlOf, op] at eq
    split at eq <;> exact absurd eq nofun
  case createIndexes | dropIndexes =>
    simp only [ddlOf, op] at eq
    cases items : itemsOf (e.operationDescription.getD emptyObject) "indexes" with
    | error _ => simp [items, bind, Except.bind] at eq
    | ok _ => simp [items, bind, Except.bind, pure, Except.pure] at eq
  case modify | drop =>
    simp only [ddlOf, op] at eq
    exact absurd eq nofun
  case rename =>
    simp only [ddlOf, op] at eq
    split at eq
    · split at eq <;> exact absurd eq nofun
    · exact absurd eq nofun

/-- An event passed over leaves what is followed. -/
theorem follows_passed (mine : filter ∈ filters) (follows : Follows filters s held)
    (after : s.after db e = some s') (going : e.operationType ≠ .invalidate)
    (passed : passedOver filter held e = true) : Follows filters s' held := by
  unfold passedOver at passed
  cases named : e.coll with
  | none => simp [named] at passed
  | some coll =>
      simp only [named] at passed
      by_cases within : e.operationType.within
      · obtain ⟨_, _, rfl⟩ := after_within within after
        exact follows
      · unfold Names.after at after
        simp only [named] at after
        cases op : e.operationType <;> simp only [op, OperationType.within] at after passed within going
        case insert | replace | update | delete | createIndexes | dropIndexes | modify =>
          exact absurd trivial within
        case invalidate => exact absurd rfl going
        case create =>
          simp only [reduceCtorEq, if_false, if_true, Bool.not_eq_true'] at passed
          split at after
          · exact absurd after nofun
          · split at after
            · cases after
              exact follows
            · cases after
              intro name mem taken
              obtain rfl | mem := Finset.mem_insert.mp mem
              · exact absurd (passed.symm.trans (taken filter mine)) Bool.false_ne_true
              · exact follows name mem taken
        case drop =>
          split at after
          · cases after
            exact fun name mem taken => follows name (Finset.mem_of_mem_erase mem) taken
          · split at after
            · cases after
              exact follows
            · exact absurd after nofun
        case rename => simp at passed
        case dropDatabase =>
          cases after
          exact fun name mem => absurd mem (Finset.notMem_empty name)

theorem follows_renamed {to_ : Name} {dropTarget : Bool} (mine : filter ∈ filters)
    (follows : Follows filters s held)
    (onto : coll ∈ held → dropTarget = true → takes filter to_ = true → to_ ∈ held)
    (eq : renamed filter held coll to_ dropTarget = .ok (kept, held')) :
    Follows filters { s with collections := insert to_ (s.collections.erase coll) } held' ∧
      Keeps held kept held' := by
  have other : ∀ name ∈ insert to_ (s.collections.erase coll),
      (∀ filter ∈ filters, takes filter name = true) → name = to_ ∨ name ∈ held.erase coll := by
    intro name mem taken
    obtain rfl | mem := Finset.mem_insert.mp mem
    · exact .inl rfl
    · rw [Finset.mem_erase] at mem
      exact .inr (Finset.mem_erase.mpr ⟨mem.1, follows name mem.2 taken⟩)
  unfold renamed at eq
  split at eq
  next mem =>
    split at eq
    next taken =>
      cases eq
      exact ⟨fun name mem' taken' => Finset.mem_insert.mpr (other name mem' taken'),
        ⟨mem, fun yes => onto mem yes taken⟩, rfl⟩
    next untaken =>
      cases eq
      refine ⟨fun name mem' taken' => ?_, mem, rfl⟩
      obtain rfl | kept := other name mem' taken'
      · exact absurd (taken' filter mine) untaken
      · exact kept
  next =>
    split at eq
    · exact absurd eq nofun
    next untaken =>
      cases eq
      refine ⟨fun name mem' taken' => ?_, rfl⟩
      obtain rfl | kept := other name mem' taken'
      · exact absurd (taken' filter mine) untaken
      · exact Finset.mem_of_mem_erase kept

theorem follows_recorded (mine : filter ∈ filters) (follows : Follows filters s held)
    (after : s.after db e = some s') (going : e.operationType ≠ .invalidate)
    (passed : passedOver filter held e = false) (spares : Spares filters filter db held e)
    (eq : recorded filter held db e = .ok (kept, held')) :
    Follows filters s' held' ∧ Keeps held kept held' := by
  obtain ⟨none_, -⟩ | ⟨change, translated, eq⟩ := recorded_ok eq
  · exact absurd none_ (changeOf_ne_none going)
  by_cases within : e.operationType.within
  · obtain ⟨coll, named, rfl⟩ := after_within within after
    have mem : coll ∈ held := by
      unfold passedOver at passed
      rw [named] at passed
      cases op : e.operationType <;> simp_all [OperationType.within]
    have keeps := keeps_within within named mem translated eq
    have same := (followed_within (changeOf_within within named translated) eq).2
    exact ⟨same ▸ follows, keeps⟩
  · unfold Names.after at after
    unfold changeOf at translated
    dsimp only at translated
    cases op : e.operationType <;>
      simp only [op, OperationType.within] at after translated within going
    case insert | replace | update | delete | createIndexes | dropIndexes | modify =>
      exact absurd trivial within
    case invalidate => exact absurd rfl going
    case dropDatabase =>
      cases after
      cases translated
      cases eq
      exact ⟨fun name mem => absurd mem (Finset.notMem_empty name), trivial, rfl⟩
    case create =>
      cases named : e.coll with
      | none => simp [named] at after
      | some coll =>
        simp only [named, Option.getD_some, ddlOf, op] at after translated
        split at translated
        · exact absurd translated nofun
        cases translated
        cases eq
        refine ⟨?_, trivial, rfl⟩
        split at after
        · exact absurd after nofun
        split at after
        · cases after
          exact fun name mem taken => Finset.mem_insert_of_mem (follows name mem taken)
        · cases after
          intro name mem taken
          obtain rfl | mem := Finset.mem_insert.mp mem
          · exact Finset.mem_insert_self name held
          · exact Finset.mem_insert_of_mem (follows name mem taken)
    case drop =>
      cases named : e.coll with
      | none => simp [named] at after
      | some coll =>
        have mem : coll ∈ held := by simpa [passedOver, named, op] using passed
        simp only [named, Option.getD_some, ddlOf, op] at after translated
        cases translated
        cases eq
        refine ⟨?_, mem, rfl⟩
        split at after
        · cases after
          intro name mem taken
          rw [Finset.mem_erase] at mem
          exact Finset.mem_erase.mpr ⟨mem.1, follows name mem.2 taken⟩
        next gone =>
          have ne : ∀ name ∈ s.collections, name ≠ coll := fun name mem same => gone (same ▸ mem)
          split at after
          · cases after
            exact fun name mem taken => Finset.mem_erase.mpr ⟨ne name mem, follows name mem taken⟩
          · exact absurd after nofun
    case rename =>
      cases named : e.coll with
      | none => simp [named] at after
      | some coll =>
        simp only [named, Option.getD_some, ddlOf, op] at after translated
        cases goes : e.to_ with
        | none => simp [goes] at after
        | some target =>
          obtain ⟨db', to_⟩ := target
          simp only [goes] at after translated
          split at after
          · exact absurd after nofun
          next there =>
          have there : coll ∈ s.collections := not_not.mp there
          have erased : Follows filters { s with collections := s.collections.erase coll }
              (held.erase coll) := fun name mem taken => by
            rw [Finset.mem_erase] at mem
            exact Finset.mem_erase.mpr ⟨mem.1, follows name mem.2 taken⟩
          by_cases here : db' = db
          · rw [if_neg (not_not.mpr here)] at after
            rw [if_pos here] at translated
            cases translated
            split at after
            · exact absurd after nofun
            split at after
            next flag =>
              cases after
              refine follows_renamed mine follows (fun mem drops taken => ?_) eq
              by_cases left : ∃ earlier ∈ filters, takes earlier to_ = false
              · exact spares.onto to_ ⟨op, by rw [goes, here], ⟨coll, mem, named⟩, drops⟩ taken left
              · rw [flag] at drops
                refine follows to_ (of_decide_eq_true drops) fun earlier mem' => ?_
                by_contra gone
                exact left ⟨earlier, mem', Bool.not_eq_true _ ▸ gone⟩
            · exact absurd after nofun
          · rw [if_pos here] at after
            rw [if_neg here] at translated
            cases after
            cases translated
            cases eq
            have away : e.RenamedOut db := ⟨op, fun name same => here (by
              rw [goes] at same
              exact congrArg Prod.fst (Option.some.inj same))⟩
            exact ⟨erased, spares.out away coll named, rfl⟩

theorem History.cons {log : List (Event σ)} (h : History db s (e :: log)) :
    ∃ s₁ s' : Names, s₁.collections = s.collections ∧ s₁.after db e = some s' ∧ History db s' log := by
  generalize eq : e :: log = whole at h
  induction h with
  | nil => exact absurd eq nofun
  | event after more _ =>
      cases eq
      exact ⟨_, _, rfl, after, more⟩
  | views same _ ih =>
      obtain ⟨s₁, s', same', after, more⟩ := ih eq
      exact ⟨s₁, s', same'.trans same, after, more⟩

end Steps

section Chains
variable {number : Int → σ} {db : Name} {filters : List (Option CollectionFilter)}
  {filter : Option CollectionFilter} {s : Names} {full held held' : Finset Name}
  {log reached : List (Event σ)}

/-- The events a stream reads, each with the names followed then. -/
def readsOf (filter : Option CollectionFilter) (db : Name) (until_ : Nat) (held : Finset Name) :
    List (Event σ) → List (Event σ × Finset Name)
  | [] => []
  | event :: rest =>
      if event.operationType = .invalidate then []
      else if event.clusterTime > until_ then []
      else
        (event, held) ::
          if passedOver filter held event then readsOf filter db until_ held rest
          else
            match recorded filter held db event with
            | .ok (_, held) => readsOf filter db until_ held rest
            | .error _ => []

theorem mem_of_readsOf {filter : Option CollectionFilter} {db : Name} {until_ : Nat}
    {reached : List (Event σ)} {read : Event σ × Finset Name}
    (mem : read ∈ readsOf filter db until_ held reached) : read.1 ∈ reached := by
  induction reached generalizing held with
  | nil => cases mem
  | cons e rest ih =>
      rw [readsOf] at mem
      split at mem
      · cases mem
      split at mem
      · cases mem
      cases mem with
      | head => exact .head _
      | tail _ mem =>
          split at mem
          next => exact .tail _ (ih mem)
          next =>
            split at mem
            next => exact .tail _ (ih mem)
            next => cases mem

/-- No event read for a chain takes a collection away that it does not follow. -/
def Sparing (db : Name) (full : Finset Name) (log : List (Event σ))
    (filters : List (Option CollectionFilter)) (from_ : Position) : List Reading → Prop
  | [] => True
  | reading :: later =>
      let held := followedFrom full from_
      let reached := (log.take reading.reached).drop from_.resume
      (∀ read ∈ readsOf reading.filter db reading.until_ held reached,
        Spares filters reading.filter db read.2 read.1) ∧
      ∀ changes held' read,
        changesOf reading.filter db reading.until_ held reached = .ok (changes, held', read) →
          Sparing db full log (reading.filter :: filters)
            (differenceOf full held' (from_.resume + read)) later

/-- What a stream gives of a history, from names followed there: changes each about names
followed, and the names followed after the events read. -/
theorem changesOf_follows {until_ : Nat} {changes : List (Change σ)} {read : Nat}
    (mine : filter ∈ filters) (history : History db s log) (start : reached <+: log)
    (follows : Follows filters s held)
    (spares : ∀ read ∈ readsOf filter db until_ held reached,
      Spares filters filter db read.2 read.1)
    (eq : changesOf filter db until_ held reached = .ok (changes, held', read)) :
    Scope.AllAllowed held (changes.map Change.scope) ∧
      held' = (changes.map Change.scope).foldl Scope.after held ∧
      ∃ s', History db s' (log.drop read) ∧ Follows filters s' held' := by
  induction reached generalizing s held log changes read with
  | nil =>
      cases eq
      exact ⟨trivial, rfl, s, history, follows⟩
  | cons e rest ih =>
      obtain ⟨later, rfl⟩ := start
      obtain ⟨s₁, s', same, after, more⟩ := history.cons
      have follows' : Follows filters s₁ held := fun name mem => follows name (same ▸ mem)
      rw [changesOf] at eq
      rw [readsOf] at spares
      split at eq
      next ends =>
        cases eq
        refine ⟨trivial, rfl, s', more, fun name mem => follows' name ?_⟩
        simp only [Names.after, ends] at after
        cases after
        exact mem
      next going =>
      rw [if_neg going] at spares
      split at eq
      · cases eq
        exact ⟨trivial, rfl, s, history, follows⟩
      next within =>
      rw [if_neg within] at spares
      split at eq
      next passed =>
        rw [if_pos passed] at spares
        have next_ := follows_passed mine follows' after going passed
        cases tail : changesOf filter db until_ held rest with
        | error _ => simp [tail, bind, Except.bind] at eq
        | ok result =>
            obtain ⟨changes', held'', read'⟩ := result
            rw [tail] at eq
            cases eq
            have result := ih more (List.prefix_append rest later) next_
              (fun read mem => spares read (.tail _ mem)) tail
            exact result
      next passed =>
        rw [if_neg passed] at spares
        cases kept : recorded filter held db e with
        | error _ => simp [kept, bind, Except.bind] at eq
        | ok result =>
            obtain ⟨kept?, held₁⟩ := result
            rw [kept] at spares
            obtain ⟨next_, keeps⟩ := follows_recorded mine follows' after going
              (Bool.eq_false_iff.mpr passed) (spares _ (.head _)) kept
            cases tail : changesOf filter db until_ held₁ rest with
            | error _ => simp [kept, tail, bind, Except.bind] at eq
            | ok result =>
                obtain ⟨changes', held'', read'⟩ := result
                simp only [kept, tail, bind, Except.bind, pure, Except.pure] at eq
                cases eq
                obtain ⟨allowed, eq, s'', history'', follows''⟩ :=
                  ih more (List.prefix_append _ _) next_
                    (fun read mem => spares read (.tail _ mem)) tail
                cases kept? with
                | none =>
                    cases keeps
                    exact ⟨allowed, eq, s'', history'', follows''⟩
                | some change =>
                    obtain ⟨first, rfl⟩ := keeps
                    exact ⟨⟨first, allowed⟩, eq, s'', history'', follows''⟩

theorem mem_heldByFull {catalog : List (Described σ)} {name : Name} :
    name ∈ heldByFull (snapshotEntries filter catalog) ↔
      name ∈ (catalog.filter (takes filter ·.name)).map (·.name) := by
  unfold heldByFull snapshotEntries
  induction catalog.filter (takes filter ·.name) with
  | nil => simp
  | cons d rest ih =>
      rw [List.mem_toFinset] at ih ⊢
      rw [List.flatMap_cons, List.filterMap_append, List.mem_append, ih, List.map_cons,
        List.mem_cons]
      refine or_congr_left ?_
      cases d.metadata.type <;> simp

theorem follows_full (catalog : List (Described σ)) :
    Follows [filter] (namesOf catalog) (heldByFull (snapshotEntries filter catalog)) := by
  intro name mem taken
  rw [namesOf, List.mem_toFinset, List.mem_map] at mem
  obtain ⟨d, there, rfl⟩ := mem
  rw [mem_heldByFull, List.mem_map]
  exact ⟨d, List.mem_filter.mpr ⟨(List.mem_filter.mp there).1, taken filter (.head _)⟩, rfl⟩

theorem Follows.cons (follows : Follows filters s held) (filter : Option CollectionFilter) :
    Follows (filter :: filters) s held :=
  fun name mem taken => follows name mem fun earlier mem' => taken earlier (.tail _ mem')

theorem Spares.cons {e : Event σ} (spares : Spares filters filter db held e) :
    Spares (filter :: filters) filter db held e := by
  refine ⟨spares.out, fun to_ onto taken ⟨earlier, mem, left⟩ => ?_⟩
  cases mem with
  | head => exact absurd (taken.symm.trans left) (by decide)
  | tail _ mem => exact spares.onto to_ onto taken ⟨earlier, mem, left⟩

/-- The changes entries of a chain hold, one after the other, changes each about names
followed when it was recorded. -/
theorem changesEntries_allowed {readings : List Reading} {from_ : Position}
    {entries : List (Entry σ)} (history : History db s (log.drop from_.resume))
    (follows : Follows filters s (followedFrom full from_))
    (sparing : Sparing db full log filters from_ readings)
    (eq : changesEntries number db full log from_ readings = .ok entries) :
    ∃ groups : List (List (Change σ)),
      entries = groups.map (fun g => .changes (g.map (writeChange number))) ∧
        Scope.AllAllowed (followedFrom full from_) (groups.flatten.map Change.scope) := by
  induction readings generalizing filters s from_ entries with
  | nil =>
      cases eq
      exact ⟨[], rfl, trivial⟩
  | cons reading later ih =>
      obtain ⟨spares, sparing⟩ := sparing
      rw [changesEntries] at eq
      cases stream : changesOf reading.filter db reading.until_ (followedFrom full from_)
          ((log.take reading.reached).drop from_.resume) with
      | error _ => simp [stream, bind, Except.bind] at eq
      | ok result =>
          obtain ⟨changes, held, read⟩ := result
          have sparing := sparing changes held read stream
          rw [List.drop_take] at stream spares
          obtain ⟨allowed, held_, s', history', follows'⟩ := changesOf_follows (.head filters)
            history (List.take_prefix _ _) (follows.cons reading.filter)
            (fun read mem => (spares read mem).cons) stream
          rw [List.drop_drop] at history'
          cases tail : changesEntries number db full log
              (differenceOf full held (from_.resume + read)) later with
          | error _ =>
              rw [List.drop_take, stream] at eq
              simp [tail, bind, Except.bind] at eq
          | ok entries' =>
              have held_eq := followedFrom_differenceOf full held (from_.resume + read)
              obtain ⟨groups, entries_eq, more⟩ := ih history' (held_eq.symm ▸ follows') sparing tail
              rw [List.drop_take, stream] at eq
              simp only [tail, bind, Except.bind, pure, Except.pure] at eq
              refine ⟨changes :: groups, ?_, ?_⟩
              · rw [List.map_cons, ← entries_eq]
                exact (Except.ok.inj eq).symm
              · rw [List.flatten_cons, List.map_append]
                rw [held_eq, held_] at more
                exact Scope.allAllowed_append allowed more

end Chains

end NxgtData.MongoBackup
