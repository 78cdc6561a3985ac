import NxgtData.MongoBackup.Change

/-!
What becomes of a document on its way through a backup. A restore inserts what one pass
makes of it, and a replay writes what two make of it: the change stream's reading and the
record's. Both give the document back exactly if it is orderly.
-/
namespace NxgtData.MongoBackup
open Bson

variable {σ : Type} {defines : Bool} {number : Int → σ}
  {toNumber : Option (JsValue σ) → Option Int} {size : Value σ → Nat}

section Inserted

/-- The batches written after some, from a batch being filled. -/
def insertedFrom (defines : Bool) (size : Value σ → Nat) (written : List (List (JsValue σ)))
    (batch : List (JsValue σ)) (bytes : Nat) (entry : List (Value σ)) : List (List (JsValue σ)) :=
  (StateT.run (insertFrom defines size (fun batch => modify (· ++ [batch])) (pure ()) batch bytes
    entry : StateM (List (List (JsValue σ))) Unit) written).2

theorem flushBatch_run (written : List (List (JsValue σ))) (batch : List (JsValue σ)) :
    (StateT.run (flushBatch (fun batch => modify (· ++ [batch])) batch :
      StateM (List (List (JsValue σ))) Unit) written).2.flatten = written.flatten ++ batch := by
  cases batch with
  | nil => exact (List.append_nil _).symm
  | cons doc more =>
      show (written ++ [doc :: more]).flatten = _
      rw [List.flatten_append, List.flatten_singleton]

theorem insertedFrom_flatten (entry : List (Value σ)) (written : List (List (JsValue σ)))
    (batch : List (JsValue σ)) (bytes : Nat) :
    (insertedFrom defines size written batch bytes entry).flatten =
      written.flatten ++ batch ++ entry.map (deserialize defines) := by
  induction entry generalizing written batch bytes with
  | nil =>
      rw [List.map_nil, List.append_nil, ← flushBatch_run written batch]
      rfl
  | cons raw later ih =>
      let batch' := batch ++ [deserialize defines raw]
      have next_ : insertedFrom defines size written batch bytes (raw :: later) =
          if batch'.length ≥ BATCH_DOCUMENTS ∨ bytes + size raw ≥ BATCH_BYTES then
            insertedFrom defines size (StateT.run (flushBatch
              (fun batch => modify (· ++ [batch])) batch' :
                StateM (List (List (JsValue σ))) Unit) written).2 [] 0 later
          else insertedFrom defines size written batch' (bytes + size raw) later := by
        unfold insertedFrom
        rw [insertFrom]
        split
        · rw [if_pos ‹_›]
          rfl
        · rw [if_neg ‹_›]
          rfl
      rw [next_]
      split
      · rw [ih, flushBatch_run]
        simp [batch']
      · rw [ih]
        simp [batch']

/-- However the batches are cut, the documents inserted are those of the entry. -/
theorem inserted_flatten (entry : List (Value σ)) :
    (inserted defines size entry).flatten = entry.map (deserialize defines) :=
  insertedFrom_flatten entry [] [] 0

theorem inserted_iff (docs : List (Document σ)) :
    (inserted defines size (docs.map .document)).flatten.map serialize =
        docs.map .document ↔
      ∀ doc ∈ docs, Orderly defines (.document doc) := by
  rw [inserted_flatten, List.map_map, List.map_map, List.map_inj_left]
  exact forall₂_congr fun doc _ => passes_iff 0 (.document doc)

end Inserted

section Replayed

theorem kept_put :
    Kept defines ["op".toList, "coll".toList, "key".toList, "doc".toList] :=
  ⟨by decide, by decide, .inr (by decide)⟩

/-- The record of a document written, key and document passed once. -/
theorem writeChange_put (op : Put) (coll : Name) (key doc : Document σ) :
    writeChange number (.put op coll (deserialize defines (.document key))
        (deserialize defines (.document doc))) =
      .document [("op".toList, .scalar (.string op.text.toList)),
        ("coll".toList, .scalar (.string coll)),
        ("key".toList, pass defines (.document key)),
        ("doc".toList, pass defines (.document doc))] := by
  simp only [writeChange, Change.toObject, Change.fields, object, List.map_cons, List.map_nil]
  rw [serialize_sorted (by simp only [List.map_cons, List.map_nil]; exact (@kept_put false).2.1)]
  simp only [List.map_cons, List.map_nil, text, serialize, Bson.pass]

/-- What is read back of that record: the key and the document, if both pass for one. -/
theorem readChange_put (op : Put) (coll : Name) (key doc : Value σ) :
    readChange defines toNumber (.document [("op".toList, .scalar (.string op.text.toList)),
        ("coll".toList, .scalar (.string coll)), ("key".toList, key), ("doc".toList, doc)]) =
      if coll ≠ [] ∧ isDocument (deserialize defines key) ∧ isDocument (deserialize defines doc)
      then some (.put op coll (deserialize defines key) (deserialize defines doc))
      else none := by
  let fields : List (Name × Value σ) := [("op".toList, .scalar (.string op.text.toList)),
    ("coll".toList, .scalar (.string coll)), ("key".toList, key), ("doc".toList, doc)]
  let value := deserialize defines (.document fields)
  have eq : value = .object (fields.map fun f => (f.1, deserialize defines f.2)) [] .plain :=
    deserialize_kept (by simp only [fields, List.map_cons, List.map_nil]; exact kept_put)
  have op_ : text? (get value "op") = some op.text.toList := by
    rw [eq]; rfl
  have coll_ : text? (get value "coll") = some coll := by
    rw [eq]; rfl
  have key_ : get value "key" = some (deserialize defines key) := by
    rw [eq]; rfl
  have doc_ : get value "doc" = some (deserialize defines doc) := by
    rw [eq]; rfl
  have put : readPut op coll value =
      if isDocument (deserialize defines key) ∧ isDocument (deserialize defines doc) then
        some (.put op coll (deserialize defines key) (deserialize defines doc)) else none := by
    simp only [readPut, key_, doc_, document?, Option.filter]
    cases isDocument (deserialize defines key) <;> cases isDocument (deserialize defines doc) <;>
      rfl
  show readChange defines toNumber (.document fields) = _
  have read : readChange defines toNumber (.document fields) =
      if coll = [] then none else readPut op coll value := by
    show readObject toNumber value = _
    rw [readObject, op_, coll_]
    cases op <;> rfl
  rw [read, put]
  by_cases empty : coll = [] <;> simp [empty]

theorem isDocument_kept {doc : Document σ} (kept : Kept defines (doc.map Prod.fst)) :
    isDocument (deserialize defines (.document doc)) ↔ bsontype ∉ doc.map Prod.fst := by
  have names : (doc.map fun f => (f.1, deserialize defines f.2)).map Prod.fst =
      doc.map Prod.fst := by
    rw [List.map_map]
    rfl
  rw [deserialize_kept kept, isDocument, List.append_nil, names]
  simp

/-- A replay writes back the document of a change exactly if its record is read as one and
the document is orderly. -/
theorem replayed_iff (op : Put) (coll : Name) (key doc : Document σ) :
    replayed defines number toNumber (writeChange number
        (.put op coll (deserialize defines (.document key))
          (deserialize defines (.document doc)))) = some [.document doc] ↔
      coll ≠ [] ∧ isDocument (deserialize defines (pass defines (.document key))) ∧
        bsontype ∉ doc.map Prod.fst ∧ Orderly defines (.document doc) := by
  rw [writeChange_put, replayed, readChange_put]
  constructor
  · intro same
    split at same
    next read =>
      obtain ⟨named, readable, whole⟩ := read
      have twice : (pass defines)^[2] (.document doc) = .document doc :=
        (List.cons.inj (Option.some.inj same)).1
      have orderly := (passes_iff 1 _).mp twice
      rw [show pass defines (.document doc) = .document doc from (passes_iff 0 _).mpr orderly]
        at whole
      rw [Orderly] at orderly
      exact ⟨named, readable, (isDocument_kept orderly.1).mp whole, by rwa [Orderly]⟩
    next => exact absurd same nofun
  · rintro ⟨named, readable, clean, orderly⟩
    have once : pass defines (.document doc) = .document doc := (passes_iff 0 _).mpr orderly
    have kept : Kept defines (doc.map Prod.fst) := by
      rw [Orderly] at orderly
      exact orderly.1
    have whole := (isDocument_kept kept).mpr clean
    rw [once, if_pos ⟨named, readable, whole⟩]
    exact congrArg (fun v => some [v]) once

theorem isDocument_key {key : Document σ} (kept : Kept defines (key.map Prod.fst)) :
    isDocument (deserialize defines (pass defines (.document key))) ↔
      bsontype ∉ key.map Prod.fst := by
  have names : (key.map fun f => (f.1, pass defines f.2)).map Prod.fst = key.map Prod.fst := by
    rw [List.map_map]
    rfl
  rw [pass_kept kept, isDocument_kept (by rwa [names]), names]

end Replayed

/-- A document comes through a backup as it was exactly if, at every depth, its names are
distinct, array indices come first among them and ascend, and each makes a property. A
replay must also take the record for a change: the collection has a name, the document has
no `_bsontype`, and nor has the key as the record gives it, which for a key that keeps its
names is as the key itself. -/
theorem backup_unchanged (defines : Bool) (size : Value σ → Nat) (number : Int → σ)
    (toNumber : Option (JsValue σ) → Option Int) :
    (∀ docs : List (Document σ),
      (inserted defines size (docs.map .document)).flatten.map serialize =
          docs.map .document ↔
        ∀ doc ∈ docs, Orderly defines (.document doc)) ∧
    (∀ (op : Put) (coll : Name) (key doc : Document σ),
      replayed defines number toNumber (writeChange number
          (.put op coll (deserialize defines (.document key))
            (deserialize defines (.document doc)))) = some [.document doc] ↔
        coll ≠ [] ∧ isDocument (deserialize defines (pass defines (.document key))) ∧
          bsontype ∉ doc.map Prod.fst ∧ Orderly defines (.document doc)) ∧
    ∀ key : Document σ, Kept defines (key.map Prod.fst) →
      (isDocument (deserialize defines (pass defines (.document key))) ↔
        bsontype ∉ key.map Prod.fst) :=
  ⟨inserted_iff, replayed_iff, fun _ => isDocument_key⟩

/-- A document `{ _id: 1, b: 2, "1": 3 }`: `"1"` comes first on the way out. -/
def numbered : Document Nat :=
  [("_id".toList, .scalar (.bson 1)), ("b".toList, .scalar (.bson 2)),
    ("1".toList, .scalar (.bson 3))]

theorem numbered_changes :
    (inserted false (fun _ => 30) [.document numbered]).flatten.map serialize =
        [.document [("1".toList, .scalar (.bson 3)), ("_id".toList, .scalar (.bson 1)),
          ("b".toList, .scalar (.bson 2))]] ∧
      (inserted false (fun _ => 30) [.document numbered]).flatten.map serialize ≠
        [.document numbered] ∧
      replayed false Int.toNat (fun _ => none) (writeChange Int.toNat
        (.put .insert "notes".toList
          (deserialize false (.document [("_id".toList, .scalar (.bson 1))]))
          (deserialize false (.document numbered)))) ≠ some [.document numbered] := by
  have disorderly : ¬ Orderly false (.document numbered) := by
    rw [Orderly]
    rintro ⟨⟨-, sorted, -⟩, -⟩
    exact absurd sorted (by decide)
  refine ⟨rfl, fun same => disorderly ?_, fun same => disorderly ?_⟩
  · exact (inserted_iff [numbered]).mp same numbered List.mem_cons_self
  · exact ((replayed_iff _ _ _ _).mp same).2.2.2

end NxgtData.MongoBackup
