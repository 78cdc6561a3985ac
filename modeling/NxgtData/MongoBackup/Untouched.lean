import NxgtData.MongoBackup.Intact
import Mathlib.Data.Finset.Basic
import Mathlib.Data.Finset.Lattice.Lemmas

/-!
A restore of a chain without `replace` touches nothing that was there. Every name the
changes are about is one the chain follows, and each of those the restore made.
-/
namespace NxgtData.MongoBackup
open Bson

variable {σ : Type} {server : Server σ} {defines : Bool} {size : Value σ → Nat}
  {number : Int → σ} {toNumber : Option (JsValue σ) → Option Int} {staging : Nat → Name}
  {before : Db σ} {held : Finset Name} {name : Name} {metadata : Metadata σ}

theorem HeldAnd.of_exists {t : Target σ} (h : Held before held t)
    (gone : false = (t.db name).isSome) : HeldNew before held name t :=
  fun live => ⟨h live, (h live).1.absent (Option.not_isSome_iff_eq_none.mp (by simp [← gone]))⟩

section Full

theorem restoreView_leaves :
    Leaves before (Held before held) (restoreView server false name metadata) fun _ =>
      Held before (insert name held) := by
  refine Leaves.bind _ (exists_leaves fun _ => Held.safe) fun there => ?_
  cases there with
  | true => exact Leaves.throw fun t h => Held.safe h.1
  | false =>
      exact Leaves.conseq createCollection_leaves (fun t h => HeldAnd.of_exists h.1 h.2)
        fun _ _ => HeldAnd.left

theorem flushBatch_leaves {q : Prop} {batch : List (JsValue σ)} (mem : name ∈ held) :
    Leaves before (HeldAnd before held q)
      (flushBatch (fun batch => write server name (.insertMany batch)) batch) fun _ =>
        HeldAnd before held q := by
  unfold flushBatch
  split
  · exact Leaves.pure fun _ => id
  · exact write_leaves mem

theorem insertFrom_leaves {q : Prop} (mem : name ∈ held) (raws : List (Value σ))
    (batch : List (JsValue σ)) (bytes : Nat) :
    Leaves before (HeldAnd before held q)
      (insertFrom defines size (fun batch => write server name (.insertMany batch)) read batch
        bytes raws) fun _ => HeldAnd before held q := by
  induction raws generalizing batch bytes with
  | nil =>
      exact Leaves.bind _ (read_leaves fun _ => HeldAnd.safe) fun _ => flushBatch_leaves mem
  | cons raw later ih =>
      refine Leaves.bind _ (read_leaves fun _ => HeldAnd.safe) fun _ => ?_
      dsimp only
      split
      · exact Leaves.bind _ (flushBatch_leaves mem) fun _ => ih [] 0
      · exact ih _ _

/-- The rename into place, without `replace`. -/
theorem landing_leaves {apart : Name} :
    Leaves before (HeldAnd before (insert apart held) (apart ∉ held))
      (tryCatch (rename apart name false) fun error =>
        throw (if error = .namespaceExists then .taken else error)) fun _ =>
      Held before (insert name held) := by
  refine Triple.tryCatch _ (Triple.conseq
    (rename_triple (Finset.mem_insert_self apart held) nofun) (fun _ => id) (fun _ w h live => ?_)
    fun _ _ => id) fun e => Triple.throw fun _ h => h.1
  obtain ⟨landed, new⟩ := h live
  rwa [Finset.erase_insert new] at landed

theorem landCollection_leaves {apart : Name} {raws : List (Value σ)} :
    Leaves before (HeldNew before held apart)
      (landCollection server defines size false apart name metadata raws) fun _ =>
        Held before (insert name held) := by
  have mem : apart ∈ insert apart held := Finset.mem_insert_self _ _
  refine Leaves.bind _ createCollection_leaves fun _ => ?_
  refine Leaves.bind (fun _ => HeldAnd before (insert apart held) (apart ∉ held))
    (insertFrom_leaves mem _ _ _) fun _ => ?_
  simp only [Bool.false_eq_true, if_false]
  split
  · exact Leaves.bind _ (write_leaves mem) fun _ => landing_leaves
  · exact landing_leaves

theorem restoreCollection_leaves {raws : List (Value σ)}
    (fresh : ∀ k, before (staging k) = none) :
    Leaves before (Held before held)
      (restoreCollection server defines size staging false name metadata raws) fun _ =>
        Held before (insert name held) := by
  have clean : ∀ apart (e : Error), before apart = none → Leaves before (Safe before)
      (do
        tryCatch (dropIfThere apart) fun _ => pure ()
        throw e : Restore σ Unit) fun _ => Held before (insert name held) := by
    intro apart e new
    refine Leaves.bind (fun _ => Safe before) ?_ fun _ => Leaves.throw fun _ => id
    have drop := Leaves.conseq (@dropIfThere_leaves _ before ∅ apart)
      (fun t (h : Safe before t) live => ⟨⟨h live, by simp⟩, new⟩) fun _ _ => Held.safe
    exact Triple.tryCatch _ drop fun _ => Triple.pure fun _ => id
  have land : ∀ apart, before apart = none → Leaves before (Held before held)
      (tryCatch (landCollection server defines size false apart name metadata raws)
        fun error => do
          tryCatch (dropIfThere apart) fun _ => pure ()
          throw error) fun _ => Held before (insert name held) := by
    intro apart new
    refine Triple.tryCatch _ (Leaves.conseq landCollection_leaves
      (fun t h live => ⟨h live, new⟩) fun _ _ => id) fun e => clean apart e new
  refine Leaves.bind _ (exists_leaves fun _ => Held.safe) fun there => ?_
  cases there with
  | true => exact Leaves.throw fun t h => Held.safe h.1
  | false =>
      refine Leaves.bind (fun apart t => Held before held t ∧ ∃ k, apart = staging k) ?_
        fun apart => ?_
      · exact Leaves.call (fun t h => Held.safe h.1) (fun t h => Held.safe h.1)
          fun t a h eq => ⟨h.1, t.staged, (Except.ok.inj eq).symm⟩
      · by_cases drawn : ∃ k, apart = staging k
        · obtain ⟨k, rfl⟩ := drawn
          exact Leaves.conseq (land _ (fresh k)) (fun t h => h.1) fun _ _ => id
        · exact fun w h => absurd h.2 drawn

end Full

section Changes
variable {change : Change σ} {coll : Name} {pending : List (Operation σ)}

theorem applyToCollection_leaves (allowed : change.scope.Allowed held) :
    Leaves before (Held before held) (applyToCollection server false change) fun _ =>
      Held before (change.scope.after held) := by
  cases change with
  | put | update | delete => exact Leaves.pure fun _ => id
  | create coll options =>
      refine Leaves.bind _ (exists_leaves fun _ => Held.safe) fun there => ?_
      cases there with
      | true => exact Leaves.throw fun t h => Held.safe h.1
      | false =>
          exact Leaves.conseq createCollection_leaves (fun t h => HeldAnd.of_exists h.1 h.2)
            fun _ _ => HeldAnd.left
  | createIndexes coll indexes =>
      exact Leaves.conseq (write_leaves allowed) (fun _ => Held.and) fun _ _ => HeldAnd.left
  | dropIndexes coll names =>
      show Leaves before (Held before held) (names.forM fun name =>
        ignoring [.indexNotFound, .namespaceNotFound] (write server coll (.dropIndex name)))
        fun _ => Held before held
      induction names with
      | nil => exact Leaves.pure fun _ => id
      | cons name names ih => exact Leaves.bind _ (ignoring_write allowed) fun _ => ih allowed
  | modify coll changes => exact ignoring_write allowed
  | drop coll =>
      exact Leaves.conseq dropIfThere_leaves
        (fun t h live => ⟨h live, ((h live).2 coll allowed).1⟩) fun _ _ => id
  | rename coll to_ dropTarget =>
      have moves := @rename_triple σ before held coll to_ (dropTarget || false) True allowed.1
        fun yes => allowed.2 (by simpa using yes)
      refine Triple.tryCatch _ (Triple.conseq moves (fun _ => Held.and)
        (fun _ _ => HeldAnd.left) fun _ _ => id) fun e => ?_
      split
      · exact Triple.throw fun _ h => h.1
      split
      next missing =>
        exact Triple.pure fun w h live => absurd ((h.2 missing).symm.trans live) nofun
      · exact Triple.throw fun _ h => h.1
  | dropDatabase =>
      have gone : ∀ (P : Db σ → Prop) (t : Target σ),
          Until P { t with db := fun _ => none, dropped := true } :=
        fun _ _ live => Bool.noConfusion live
      show Leaves before (Held before held) dropDatabase fun _ => Held before ∅
      refine Leaves.call (fun _ => Held.safe) (fun t _ => gone _ t) fun t _ _ _ => ?_
      exact gone _ t

theorem flushWrites_leaves (mem : pending ≠ [] → coll ∈ held) :
    Leaves before (Held before held) (flushWrites server coll pending) fun _ =>
      Held before held := by
  unfold flushWrites
  split
  · exact Leaves.pure fun _ => id
  next some_ =>
    exact Leaves.conseq (write_leaves (mem fun empty => some_ (by rw [empty]; rfl)))
      (fun _ => Held.and) fun _ _ => HeldAnd.left

theorem scope_of_document {coll : Name} (h : change.document = some coll) :
    change.scope = .within coll := by
  cases change <;> cases h <;> rfl

theorem readChange_writeChange_scope {read : Change σ}
    (eq : readChange defines toNumber (writeChange number change) = some read) :
    read.scope = change.scope := by
  have same := readChange_scope eq
  rw [writeChange, scopeOf_toObject] at same
  exact (Option.some.inj same).symm

/-- The changes of an entry apply to the names followed when each was recorded. -/
theorem applyRecords_leaves (changes : List (Change σ))
    (allowed : Scope.AllAllowed held (changes.map Change.scope))
    (mem : pending ≠ [] → coll ∈ held) :
    Leaves before (Held before held)
      (applyRecords server defines number toNumber false coll pending
        (changes.map (writeChange number)))
      fun _ => Held before ((changes.map Change.scope).foldl Scope.after held) := by
  induction changes generalizing held coll pending with
  | nil => exact Leaves.bind _ (read_leaves fun _ => Held.safe) fun _ => flushWrites_leaves mem
  | cons change later ih =>
      obtain ⟨first, rest⟩ := allowed
      refine Leaves.bind _ (read_leaves fun _ => Held.safe) fun _ => ?_
      split
      · exact Leaves.throw fun _ => Held.safe
      next read eq =>
        have scope := readChange_writeChange_scope eq
        split
        next whole =>
          refine Leaves.bind _ (flushWrites_leaves mem) fun _ => ?_
          refine Leaves.bind _ (applyToCollection_leaves (scope ▸ first)) fun _ => ?_
          rw [scope]
          exact ih rest (absurd rfl)
        next coll' document =>
          have within := scope.symm.trans (scope_of_document document)
          rw [within] at first rest
          have after : ((change :: later).map Change.scope).foldl Scope.after held =
              (later.map Change.scope).foldl Scope.after held := by
            rw [List.map_cons, List.foldl_cons, within]
            rfl
          rw [after]
          split
          · exact Leaves.bind _ (flushWrites_leaves mem) fun _ => ih rest fun _ => first
          · exact ih rest fun _ => first

end Changes

section Chains

theorem forM_append {α : Type} {pre : Target σ → Prop} {mid post : Target σ → Prop}
    {f : α → Restore σ Unit} {first second : List α}
    (h : Leaves before pre (first.forM f) fun _ => mid)
    (h' : Leaves before mid (second.forM f) fun _ => post) :
    Leaves before pre ((first ++ second).forM f) fun _ => post := by
  have split : (first ++ second).forM f = first.forM f >>= fun _ => second.forM f :=
    List.forM_append
  rw [split]
  exact Leaves.bind _ h fun _ => h'

theorem writeEntry_metadata (coll : Name) (metadata : Metadata σ) :
    Leaves before (Held before held)
      (writeEntry server defines size number toNumber staging false (.metadata coll metadata))
      fun _ => Held before (if metadata.type = .view then insert coll held else held) := by
  refine Leaves.bind _ (read_leaves fun _ => Held.safe) fun _ => ?_
  refine Leaves.bind (fun _ => Held before held)
    (Leaves.call (fun _ => Held.safe) (fun _ => Held.safe) fun _ _ h _ => h) fun _ => ?_
  split
  · exact restoreView_leaves
  · exact Leaves.pure fun _ => id

theorem writeEntry_documents (fresh : ∀ k, before (staging k) = none) (coll : Name)
    (raws : List (Value σ)) :
    Leaves before (Held before held)
      (writeEntry server defines size number toNumber staging false (.documents coll raws))
      fun _ => Held before (insert coll held) := by
  refine Leaves.bind (fun _ => Held before held)
    (Leaves.call (fun _ => Held.safe) (fun _ => Held.safe) fun _ _ h _ => h) fun known => ?_
  cases known with
  | none => exact Leaves.throw fun _ => Held.safe
  | some known => exact restoreCollection_leaves fresh

/-- A full backup's entries make every name they hold. -/
theorem snapshot_leaves (fresh : ∀ k, before (staging k) = none)
    (filter : Option CollectionFilter) (catalog : List (Described σ)) :
    Leaves before (Held before ∅)
      ((snapshotEntries filter catalog).forM
        (writeEntry server defines size number toNumber staging false))
      fun _ => Held before (heldByFull (snapshotEntries filter catalog)) := by
  have full : heldByFull (snapshotEntries filter catalog) =
      ∅ ∪ ((catalog.filter (takes filter ·.name)).map (·.name)).toFinset := by
    ext name
    rw [mem_heldByFull, Finset.empty_union, List.mem_toFinset]
  rw [full]
  unfold snapshotEntries
  generalize (∅ : Finset Name) = held
  induction catalog.filter (takes filter ·.name) generalizing held with
  | nil =>
      rw [List.map_nil, List.toFinset_nil, Finset.union_empty]
      exact Leaves.pure fun _ => id
  | cons d rest ih =>
      rw [List.flatMap_cons, List.map_cons, List.toFinset_cons, Finset.union_insert,
        ← Finset.insert_union]
      refine forM_append ?_ (ih (insert d.name held))
      refine Leaves.bind _ (writeEntry_metadata d.name d.metadata) fun _ => ?_
      cases kind : d.metadata.type with
      | collection =>
          exact Leaves.bind _ (writeEntry_documents fresh d.name d.documents) fun _ =>
            Leaves.pure fun _ => id
      | view => exact Leaves.pure fun _ => id

/-- Changes entries apply one after the other. -/
theorem changes_leaves (groups : List (List (Change σ)))
    (allowed : Scope.AllAllowed held (groups.flatten.map Change.scope)) :
    Leaves before (Held before held)
      ((groups.map fun g => Entry.changes (g.map (writeChange number))).forM
        (writeEntry server defines size number toNumber staging false))
      fun _ => Safe before := by
  induction groups generalizing held with
  | nil => exact Leaves.pure fun _ => Held.safe
  | cons g later ih =>
      rw [List.flatten_cons, List.map_append] at allowed
      obtain ⟨first, rest⟩ := Scope.allAllowed_of_append allowed
      refine Leaves.bind _ ?_ fun _ => ih rest
      exact Leaves.bind _ (read_leaves fun _ => Held.safe) fun _ =>
        applyRecords_leaves g first (absurd rfl)

end Chains

/-- A restore without `replace` of a chain taken along any history, whatever fails and
wherever it stops, leaves every collection and view that was there as it was, unless it has
dropped the database as a recorded `dropDatabase` says. -/
theorem restore_untouched {db : Name} {filter : Option CollectionFilter}
    {catalog : List (Described σ)} {log : List (Event σ)} {readings : List Reading}
    {entries : List (Entry σ)} (history : History db (namesOf catalog) log)
    (sparing : Sparing db (heldByFull (snapshotEntries filter catalog)) log [filter]
      { resume := 0 } readings)
    (chain : chainEntries number filter db catalog log readings = .ok entries)
    (fresh : ∀ k, before (staging k) = none) (faults : List Fault) :
    let final := ((restore server defines size number toNumber staging false entries).exec
      { target := { db := before }, faults }).2.target
    final.dropped = false → ∀ name item, before name = some item → final.db name = some item := by
  intro final
  have start : followedFrom (heldByFull (snapshotEntries filter catalog)) { resume := 0 } =
      heldByFull (snapshotEntries filter catalog) := by
    simp [followedFrom]
  simp only [chainEntries] at chain
  cases changes : changesEntries number db (heldByFull (snapshotEntries filter catalog)) log
      { resume := 0 } readings with
  | error _ => simp [changes, bind, Except.bind] at chain
  | ok later =>
      rw [changes] at chain
      obtain ⟨groups, rfl, allowed⟩ := changesEntries_allowed (by exact history)
        (start.symm ▸ follows_full catalog) sparing changes
      rw [start] at allowed
      cases chain
      have whole : Leaves before (Held before ∅) (restore server defines size number toNumber
          staging false (snapshotEntries filter catalog ++
            groups.map fun g => Entry.changes (g.map (writeChange number)))) fun _ => Safe before :=
        forM_append (snapshot_leaves fresh filter catalog) (changes_leaves groups allowed)
      have started : Held before ∅ ({ db := before } : Target σ) := fun _ =>
        ⟨fun _ _ => id, by simp⟩
      exact whole.ends started

section Shop

/-- A server that inserts what it is given and makes the indexes it is asked for. -/
def plainServer : Server Nat where
  accepts _ := true
  write
    | .insertMany docs, some (.collection o i d) =>
        (.ok (), some (.collection o i (d ++ docs.map serialize)))
    | .createIndexes indexes, some (.collection o i d) =>
        (.ok (), some (.collection o (i ++ indexes) d))
    | _, item => (.error .other, item)
  keeps w item := by cases w <;> cases item <;> rfl

def uuidName (k : Nat) : Name := "nxgt-restore-".toList ++ Nat.toDigits 10 k

/-- `orders` and `customers`, without documents. -/
def catalog : List (Described Nat) :=
  ["orders".toList, "customers".toList].map fun name =>
    { name, documents := [],
      metadata := { type := .collection, options := emptyObject, indexes := [] } }

/-- The collection `customers` in the database restored into. -/
def customers : Item Nat := .collection emptyObject [] []

def shop : Db Nat := fun name => if name = "customers".toList then some customers else none

/-- The full backup takes `orders` alone. -/
def onlyOrders : Option CollectionFilter := some (.names ["orders".toList])

def restoreShop (log : List (Event Nat)) : Except Refusal (Except Error Unit × World Nat) := do
  let entries ← chainEntries Int.toNat onlyOrders "shop".toList catalog log
    [{ reached := log.length, until_ := 9 }]
  return (restore plainServer false (fun _ => 5) Int.toNat (fun _ => none) uuidName false
    entries).exec { target := { db := shop }, faults := [] }

/-- `orders` is renamed and another is made in its place. -/
def moving : List (Event Nat) :=
  [{ operationType := .rename, coll := some "orders".toList,
     to_ := some ("shop".toList, "archive".toList) },
   { operationType := .create, coll := some "orders".toList }]

theorem moving_history : History "shop".toList (namesOf catalog) moving :=
  .event (by rfl) (.event (by rfl) (.nil _))

/-- No event of these renames a collection to another database or over another one. -/
theorem moving_spares {filters : List (Option CollectionFilter)} {filter : Option CollectionFilter}
    {held : Finset Name} {e : Event Nat} (mem : e ∈ moving) :
    Spares filters filter "shop".toList held e := by
  cases mem with
  | head =>
      exact ⟨fun away => absurd rfl (away.2 "archive".toList), fun _ onto => nomatch onto.2.2.2⟩
  | tail _ mem =>
      cases mem with
      | head => exact ⟨fun away => absurd away.1 nofun, fun _ onto => absurd onto.1 nofun⟩
      | tail _ mem => exact absurd mem List.not_mem_nil

/-- The incremental backup takes every collection, and follows `orders` and what is made. -/
theorem restore_untouched_moving :
    (restoreShop moving).map (fun r => (r.2.target.db "archive".toList).isSome) = .ok true ∧
      (restoreShop moving).map (fun r => (r.2.target.db "customers".toList).isSome) = .ok true := by
  refine ⟨by decide +kernel, ?_⟩
  have live : (restoreShop moving).map (·.2.target.dropped) = .ok false := by decide +kernel
  have sparing : Sparing "shop".toList (heldByFull (snapshotEntries onlyOrders catalog)) moving
      [onlyOrders] { resume := 0 } [{ reached := moving.length, until_ := 9 }] := by
    refine ⟨fun read mem => moving_spares ?_, fun _ _ _ _ => trivial⟩
    exact List.mem_of_mem_take (List.mem_of_mem_drop (mem_of_readsOf mem))
  have fresh : ∀ k, shop (uuidName k) = none := fun k => if_neg fun same => by
    have first : some 'n' = some 'c' := congrArg List.head? same
    exact absurd first (by decide)
  unfold restoreShop at live ⊢
  cases chain : chainEntries Int.toNat onlyOrders "shop".toList catalog moving
      [{ reached := moving.length, until_ := 9 }] with
  | error _ => rw [chain] at live; exact absurd live nofun
  | ok entries =>
      rw [chain] at live
      have there := @restore_untouched Nat plainServer false (fun _ => 5) Int.toNat (fun _ => none)
        uuidName shop _ _ _ _ _ entries moving_history sparing chain fresh []
        (Except.ok.inj live) "customers".toList customers rfl
      exact congrArg (fun item => Except.ok (Option.isSome item)) there

/-- The database backed up is dropped. -/
def dropping : List (Event Nat) :=
  [{ operationType := .drop, coll := some "orders".toList },
   { operationType := .drop, coll := some "customers".toList },
   { operationType := .dropDatabase }]

theorem restore_untouched_dropping :
    History "shop".toList (namesOf catalog) dropping ∧
      (restoreShop dropping).map (fun r => r.1 matches .ok _) = .ok true ∧
      (shop "customers".toList).isSome ∧
      (restoreShop dropping).map (fun r => (r.2.target.db "customers".toList).isSome) = .ok false :=
  ⟨.event (by rfl) (.event (by rfl) (.event (by rfl) (.nil _))), by decide +kernel⟩

end Shop

end NxgtData.MongoBackup
