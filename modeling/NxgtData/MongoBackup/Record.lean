import NxgtData.MongoBackup.Source

/-!
What a change record keeps of a change besides its documents: reading a record back, where
it is read as a change at all, gives one about the same names.
-/
namespace NxgtData.MongoBackup
open Bson

variable {σ : Type} {defines : Bool} {number : Int → σ} {toNumber : Option (JsValue σ) → Option Int}

/-- What a record on a collection says of names, by its `op`. -/
def scopeOfOp (op : Option Name) (coll : Name) (value : JsValue σ) : Option Scope :=
  if op = some "create".toList then some (.create coll)
  else if op = some "drop".toList then some (.drop coll)
  else if op = some "rename".toList then do
    let to_ ← text? (get value "to")
    let some (.scalar (.boolean dropTarget)) := get value "dropTarget" | none
    return .rename coll to_ dropTarget
  else some (.within coll)

/-- What a record says of names. -/
def scopeOf (value : JsValue σ) : Option Scope :=
  if text? (get value "op") = some "dropDatabase".toList then some .dropDatabase
  else do scopeOfOp (text? (get value "op")) (← text? (get value "coll")) value

/-- An object read back of what was written of it. -/
theorem reread_object {fields : List (String × JsValue σ)}
    (kept : Kept defines (fields.map fun f => f.1.toList)) :
    deserialize defines (serialize (object fields)) =
      object (fields.map fun f => (f.1, deserialize defines (serialize f.2))) := by
  have names : (fields.map fun f => (f.1.toList, f.2)).map Prod.fst =
      fields.map fun f => f.1.toList := by
    rw [List.map_map]
    rfl
  rw [object, serialize_sorted (by rw [names]; exact kept.2.1), deserialize_kept, object]
  · simp only [List.map_map]
    rfl
  · rw [List.map_map, List.map_map]
    exact kept

theorem reread_text (s : Name) : deserialize defines (serialize (text s : JsValue σ)) = text s := by
  rw [text, serialize, deserialize]

theorem reread_boolean (b : Bool) :
    deserialize defines (serialize (.scalar (.boolean b) : JsValue σ)) = .scalar (.boolean b) := by
  rw [serialize, deserialize]

theorem fields_kept (change : Change σ) :
    Kept defines ((change.fields number).map fun f => f.1.toList) := by
  cases change <;> simp only [Change.fields, List.map_cons, List.map_nil] <;>
    exact ⟨by decide, by decide, .inr (by decide)⟩

theorem get_cons (name other : String) (value : JsValue σ) (fields : List (String × JsValue σ)) :
    get (object ((name, value) :: fields)) other =
      if name = other then some value else get (object fields) other := by
  simp only [get, object, List.append_nil, List.map_cons, List.find?_cons, String.toList_inj]
  by_cases same : name = other <;> simp [same]

theorem scopeOf_toObject (change : Change σ) :
    scopeOf (deserialize defines (serialize (change.toObject number))) = some change.scope := by
  rw [Change.toObject, reread_object (fields_kept change)]
  cases change with
  | put op =>
      cases op <;>
        simp only [Change.fields, List.map_cons, List.map_nil, reread_text, scopeOf, scopeOfOp,
          get_cons, Put.text, reduceIte, String.reduceEq] <;>
        rfl
  | update | delete | create | createIndexes | dropIndexes | modify | drop | dropDatabase =>
      simp only [Change.fields, List.map_cons, List.map_nil, reread_text, scopeOf, scopeOfOp,
        get_cons, reduceIte, String.reduceEq]
      rfl
  | rename =>
      simp only [Change.fields, List.map_cons, List.map_nil, reread_text, reread_boolean, scopeOf,
        scopeOfOp, get_cons, reduceIte, String.reduceEq]
      rfl

theorem readUpdate_scope {coll : Name} {value : JsValue σ} {change : Change σ}
    (eq : readUpdate toNumber coll value = some change) : change.scope = .within coll := by
  unfold readUpdate at eq
  simp only [bind, Option.bind_eq_some_iff] at eq
  obtain ⟨key, -, set, -, unset, -, eq⟩ := eq
  split at eq
  · obtain ⟨truncated, -, eq⟩ := Option.bind_eq_some_iff.mp eq
    cases eq
    rfl
  · cases eq

theorem readPut_scope {op : Put} {coll : Name} {value : JsValue σ} {change : Change σ}
    (eq : readPut op coll value = some change) : change.scope = .within coll := by
  unfold readPut at eq
  obtain ⟨key, -, eq⟩ := Option.bind_eq_some_iff.mp eq
  obtain ⟨doc, -, eq⟩ := Option.bind_eq_some_iff.mp eq
  cases eq
  rfl

theorem readOp_scope {op : Option Name} {coll : Name} {value : JsValue σ} {change : Change σ}
    (eq : readOp toNumber op coll value = some change) :
    scopeOfOp op coll value = some change.scope := by
  unfold readOp at eq
  split at eq
  next is => subst is; rw [readPut_scope eq]; rfl
  split at eq
  next is => subst is; rw [readPut_scope eq]; rfl
  split at eq
  next is => subst is; rw [readUpdate_scope eq]; rfl
  split at eq
  next is =>
    subst is
    obtain ⟨key, -, eq⟩ := Option.bind_eq_some_iff.mp eq
    cases eq
    rfl
  split at eq
  next is =>
    subst is
    obtain ⟨options, -, eq⟩ := Option.bind_eq_some_iff.mp eq
    cases eq
    rfl
  split at eq
  next is =>
    subst is
    split at eq
    · split at eq
      · cases eq
        rfl
      · cases eq
    · cases eq
  split at eq
  next is =>
    subst is
    obtain ⟨names, -, eq⟩ := Option.bind_eq_some_iff.mp eq
    cases eq
    rfl
  split at eq
  next is =>
    subst is
    obtain ⟨changes, -, eq⟩ := Option.bind_eq_some_iff.mp eq
    cases eq
    rfl
  split at eq
  next is =>
    subst is
    cases eq
    rfl
  split at eq
  next is =>
    subst is
    obtain ⟨to_, target, eq⟩ := Option.bind_eq_some_iff.mp eq
    split at eq
    next dropTarget drops =>
      cases eq
      show scopeOfOp (some "rename".toList) coll value = some (.rename coll to_ dropTarget)
      unfold scopeOfOp
      rw [target, drops]
      rfl
    · cases eq
  · cases eq

theorem readChange_scope {bytes : Value σ} {change : Change σ}
    (eq : readChange defines toNumber bytes = some change) :
    scopeOf (deserialize defines bytes) = some change.scope := by
  rw [readChange, readObject] at eq
  rw [scopeOf]
  split at eq
  next whole =>
    cases eq
    rw [if_pos whole]
    rfl
  next part =>
    obtain ⟨coll, named, eq⟩ := Option.bind_eq_some_iff.mp eq
    rw [if_neg part, named]
    split at eq
    · cases eq
    · exact readOp_scope eq

end NxgtData.MongoBackup
