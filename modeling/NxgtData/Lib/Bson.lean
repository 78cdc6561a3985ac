import Mathlib.Data.List.Sort
import Mathlib.Logic.Function.Iterate

/-!
BSON documents and the JavaScript objects they are read as. `deserialize` assigns a
document's fields in their order; `serialize` writes an object's own properties in
JavaScript's order, in which array indices come first. A document survives any number
of passes exactly when it is orderly: its names distinct, in that order, and none of
them one that an assignment does not make a property of.
-/
namespace NxgtData.Bson

/-- A field name. -/
abbrev Name := List Char

/-- A value that is neither an array nor a document. -/
inductive Scalar (σ : Type) where
  | string (text : List Char)
  | boolean (b : Bool)
  | null
  | date (ms : Int)
  /-- Any other kind, each number kind among them, read as a BSON value of its own. -/
  | bson (value : σ)
deriving DecidableEq

inductive Value (σ : Type) where
  | scalar (s : Scalar σ)
  | array (items : List (Value σ))
  | document (fields : List (Name × Value σ))

/-- Where a chain of prototypes ends: at `Object.prototype`, at `null`, or at the class
of a BSON value, which is above `Object.prototype` and has `_bsontype`. -/
inductive Ends where
  | plain
  | null
  | bson
deriving DecidableEq

/-- A JavaScript value: of an object, its own properties in the order they were made, and
those of its prototypes, the nearest first. -/
inductive JsValue (σ : Type) where
  | scalar (s : Scalar σ)
  | array (items : List (JsValue σ))
  | object (own inherited : List (Name × JsValue σ)) (ends : Ends)

variable {σ α : Type}

def proto : Name := "__proto__".toList
def bsontype : Name := "_bsontype".toList

/-- 2^32 - 1, which no array index reaches. -/
def maxLength : Nat := 4294967295

/-- The array index that a name is: the canonical text of a number below `maxLength`. -/
def arrayIndex? (name : Name) : Option Nat :=
  let n := Nat.ofDigitChars 10 name 0
  if name = Nat.toDigits 10 n ∧ n < maxLength then some n else none

/-- Where a property stands in JavaScript's order: an array index at its number, every
other name behind them all, where it was made. -/
def rank (name : Name) : Nat := (arrayIndex? name).getD maxLength

/-- `a` may stand before `b`. -/
def Before (a b : Name × α) : Prop := rank a.1 ≤ rank b.1

instance : DecidableRel (Before (α := α)) := fun a b => inferInstanceAs (Decidable (rank a.1 ≤ rank b.1))
instance : Std.Total (Before (α := α)) := ⟨fun a b => Nat.le_total (rank a.1) (rank b.1)⟩
instance : IsTrans (Name × α) Before := ⟨fun _ _ _ => Nat.le_trans⟩

/-- The own property `name` with a value: in its place if there is one, else the last. -/
def setOwn (own : List (Name × α)) (name : Name) (value : α) : List (Name × α) :=
  if name ∈ own.map Prod.fst then own.map fun f => if f.1 = name then (name, value) else f
  else own ++ [(name, value)]

/-- What an object inherits with `value` as its prototype, if it can be one. -/
def prototype : JsValue σ → Option (List (Name × JsValue σ) × Ends)
  | .scalar .null => some ([], .null)
  | .scalar (.bson _) => some ([], .bson)
  | .scalar (.date _) => some ([], .plain)
  | .scalar _ => none
  | .array _ => some ([], .plain)
  | .object own inherited ends => some (own ++ inherited, ends)

section Codec

/-! A field `__proto__` is defined as a property like any other where `defines` says so.
Otherwise it is assigned, which sets the prototype as long as the setter is inherited. -/

variable (defines : Bool)

/-- The object with `fields` assigned to it, one after the other. -/
def assignAll (own inherited : List (Name × JsValue σ)) (ends : Ends) :
    List (Name × JsValue σ) → JsValue σ
  | [] => .object own inherited ends
  | (name, value) :: rest =>
      if name = proto ∧ defines = false ∧ proto ∉ (own ++ inherited).map Prod.fst ∧
          ends ≠ .null then
        let (inherited, ends) := (prototype value).getD (inherited, ends)
        assignAll own inherited ends rest
      else assignAll (setOwn own name value) inherited ends rest

mutual
def deserialize : Value σ → JsValue σ
  | .scalar s => .scalar s
  | .array items => .array (deserializeItems items)
  | .document fields => assignAll defines [] [] .plain (deserializeFields fields)

def deserializeItems : List (Value σ) → List (JsValue σ)
  | [] => []
  | v :: rest => deserialize v :: deserializeItems rest

def deserializeFields : List (Name × Value σ) → List (Name × JsValue σ)
  | [] => []
  | (name, v) :: rest => (name, deserialize v) :: deserializeFields rest
end

mutual
def serialize : JsValue σ → Value σ
  | .scalar s => .scalar s
  | .array items => .array (serializeItems items)
  | .object own _ _ => .document ((serializeFields own).insertionSort Before)

def serializeItems : List (JsValue σ) → List (Value σ)
  | [] => []
  | v :: rest => serialize v :: serializeItems rest

def serializeFields : List (Name × JsValue σ) → List (Name × Value σ)
  | [] => []
  | (name, v) :: rest => (name, serialize v) :: serializeFields rest
end

/-- A value read and written again. -/
def pass (v : Value σ) : Value σ := serialize (deserialize defines v)

/-- The names of a document that keeps its fields, and their order. -/
def Kept (names : List Name) : Prop :=
  names.Nodup ∧ names.Pairwise (rank · ≤ rank ·) ∧ (defines = true ∨ proto ∉ names)

mutual
/-- At every depth, the names of a document are kept. -/
def Orderly : Value σ → Prop
  | .scalar _ => True
  | .array items => OrderlyItems items
  | .document fields => Kept defines (fields.map Prod.fst) ∧ OrderlyFields fields

def OrderlyItems : List (Value σ) → Prop
  | [] => True
  | v :: rest => Orderly v ∧ OrderlyItems rest

def OrderlyFields : List (Name × Value σ) → Prop
  | [] => True
  | (_, v) :: rest => Orderly v ∧ OrderlyFields rest
end

end Codec

theorem deserializeFields_eq (defines : Bool) (fields : List (Name × Value σ)) :
    deserializeFields defines fields = fields.map fun f => (f.1, deserialize defines f.2) := by
  induction fields with
  | nil => rfl
  | cons f rest ih => rw [deserializeFields, ih, List.map_cons]

theorem deserializeItems_eq (defines : Bool) (items : List (Value σ)) :
    deserializeItems defines items = items.map (deserialize defines) := by
  induction items with
  | nil => rfl
  | cons v rest ih => rw [deserializeItems, ih, List.map_cons]

theorem serializeFields_eq (fields : List (Name × JsValue σ)) :
    serializeFields fields = fields.map fun f => (f.1, serialize f.2) := by
  induction fields with
  | nil => rfl
  | cons f rest ih => rw [serializeFields, ih, List.map_cons]

theorem serializeItems_eq (items : List (JsValue σ)) :
    serializeItems items = items.map serialize := by
  induction items with
  | nil => rfl
  | cons v rest ih => rw [serializeItems, ih, List.map_cons]

section Assigned
variable {defines : Bool} {own inherited : List (Name × JsValue σ)} {ends : Ends}

theorem length_setOwn_le (own : List (Name × α)) (name : Name) (value : α) :
    (setOwn own name value).length ≤ own.length + 1 := by
  unfold setOwn
  split
  · rw [List.length_map]
    exact Nat.le_succ _
  · rw [List.length_append, List.length_singleton]

theorem length_setOwn_lt {own : List (Name × α)} {name : Name} (value : α)
    (there : name ∈ own.map Prod.fst) : (setOwn own name value).length < own.length + 1 := by
  rw [setOwn, if_pos there, List.length_map]
  exact Nat.lt_succ_self _

/-- The own properties an object has once `fields` are assigned to it. -/
theorem assignAll_own (fields : List (Name × JsValue σ)) :
    ∃ own' inherited' ends',
      assignAll defines own inherited ends fields = .object own' inherited' ends' ∧
        own'.length ≤ own.length + fields.length := by
  induction fields generalizing own inherited ends with
  | nil => exact ⟨own, inherited, ends, rfl, Nat.le_refl _⟩
  | cons f rest ih =>
      obtain ⟨name, value⟩ := f
      rw [assignAll]
      split
      next sets =>
        obtain ⟨own', inherited', ends', eq, le⟩ :=
          @ih own ((prototype value).getD (inherited, ends)).1
            ((prototype value).getD (inherited, ends)).2
        exact ⟨own', inherited', ends', eq, by rw [List.length_cons]; omega⟩
      next makes =>
        obtain ⟨own', inherited', ends', eq, le⟩ := @ih (setOwn own name value) inherited ends
        have := length_setOwn_le own name value
        exact ⟨own', inherited', ends', eq, by rw [List.length_cons]; omega⟩

/-- Distinct names that all make properties are assigned without a loss. -/
theorem assignAll_kept (fields : List (Name × JsValue σ))
    (nodup : ((own ++ fields).map Prod.fst).Nodup)
    (clean : defines = true ∨ proto ∉ (own ++ fields).map Prod.fst) :
    assignAll defines own [] .plain fields = .object (own ++ fields) [] .plain := by
  induction fields generalizing own with
  | nil => rw [List.append_nil, assignAll]
  | cons f rest ih =>
      obtain ⟨name, value⟩ := f
      have more : own ++ (name, value) :: rest = (own ++ [(name, value)]) ++ rest := by simp
      have makes : ¬ (name = proto ∧ defines = false ∧
          proto ∉ (own ++ []).map Prod.fst ∧ Ends.plain ≠ .null) := by
        rintro ⟨rfl, assigns, -⟩
        cases clean with
        | inl yes => simp [yes] at assigns
        | inr absent => exact absent (by simp)
      have fresh : name ∉ own.map Prod.fst := by
        rw [List.map_append, List.map_cons] at nodup
        exact fun mem => (List.disjoint_of_nodup_append nodup) mem List.mem_cons_self
      rw [assignAll, if_neg makes, setOwn, if_neg fresh, more]
      rw [more] at nodup clean
      exact ih nodup clean

/-- Where no field is lost, the names are distinct and all make properties. -/
theorem kept_of_length (fields : List (Name × JsValue σ)) {own' inherited' : List (Name × JsValue σ)}
    {ends' : Ends} (eq : assignAll defines own [] .plain fields = .object own' inherited' ends')
    (whole : own.length + fields.length ≤ own'.length) (nodup : (own.map Prod.fst).Nodup)
    (clean : defines = true ∨ proto ∉ own.map Prod.fst) :
    ((own ++ fields).map Prod.fst).Nodup ∧
      (defines = true ∨ proto ∉ (own ++ fields).map Prod.fst) := by
  induction fields generalizing own with
  | nil => rw [List.append_nil]; exact ⟨nodup, clean⟩
  | cons f rest ih =>
      obtain ⟨name, value⟩ := f
      rw [List.length_cons] at whole
      rw [assignAll] at eq
      split at eq
      next sets =>
        obtain ⟨_, _, _, eq', le⟩ := @assignAll_own _ defines own
          ((prototype value).getD ([], .plain)).1 ((prototype value).getD ([], .plain)).2 rest
        obtain ⟨rfl, -, -⟩ := JsValue.object.inj (eq.symm.trans eq')
        omega
      next makes =>
        by_cases there : name ∈ own.map Prod.fst
        · have lost := length_setOwn_lt value there
          obtain ⟨_, _, _, eq', le⟩ := @assignAll_own _ defines (setOwn own name value) [] .plain
            rest
          obtain ⟨rfl, -, -⟩ := JsValue.object.inj (eq.symm.trans eq')
          omega
        · have more : own ++ (name, value) :: rest = (own ++ [(name, value)]) ++ rest := by simp
          rw [setOwn, if_neg there] at eq
          rw [more]
          refine ih eq (by simp; omega) ?_ ?_
          · rw [List.map_append]
            exact List.Nodup.append nodup (List.nodup_singleton _) (by simpa using there)
          · cases clean with
            | inl yes => exact .inl yes
            | inr absent =>
                cases assigns : defines with
                | true => exact .inl rfl
                | false =>
                    refine .inr fun mem => makes ⟨?_, assigns, by simpa using absent, nofun⟩
                    rw [List.map_append, List.mem_append] at mem
                    cases mem with
                    | inl old => exact absurd old absent
                    | inr new => exact (List.mem_singleton.mp new).symm

end Assigned

section Passes
variable {defines : Bool}

/-- A document as a pass leaves it: no longer than before, and in JavaScript's order. -/
theorem pass_document (fields : List (Name × Value σ)) :
    ∃ fields', pass defines (.document fields) = .document fields' ∧
      fields'.length ≤ fields.length ∧ fields'.Pairwise Before := by
  obtain ⟨own, inherited, ends, eq, le⟩ := @assignAll_own _ defines [] [] .plain
    (deserializeFields defines fields)
  refine ⟨(serializeFields own).insertionSort Before, ?_, ?_, List.pairwise_insertionSort _ _⟩
  · rw [pass, deserialize, eq, serialize]
  · rw [List.length_insertionSort, serializeFields_eq, List.length_map]
    simpa [deserializeFields_eq] using le

/-- A document whose names are kept is read as an object with just its fields. -/
theorem deserialize_kept {fields : List (Name × Value σ)}
    (kept : Kept defines (fields.map Prod.fst)) :
    deserialize defines (.document fields) =
      .object (fields.map fun f => (f.1, deserialize defines f.2)) [] .plain := by
  obtain ⟨nodup, -, clean⟩ := kept
  have names : (deserializeFields defines fields).map Prod.fst = fields.map Prod.fst := by
    rw [deserializeFields_eq, List.map_map]
    rfl
  rw [deserialize, assignAll_kept _ (by rwa [List.nil_append, names])
    (by rwa [List.nil_append, names]), List.nil_append, deserializeFields_eq]

/-- An object whose properties were made in JavaScript's order is written in that order. -/
theorem serialize_sorted {own inherited : List (Name × JsValue σ)} {ends : Ends}
    (sorted : (own.map Prod.fst).Pairwise (rank · ≤ rank ·)) :
    serialize (.object own inherited ends) =
      .document (own.map fun f => (f.1, serialize f.2)) := by
  have order : (own.map fun f => (f.1, serialize f.2)).Pairwise Before := by
    rw [List.pairwise_map]
    rwa [List.pairwise_map] at sorted
  rw [serialize, serializeFields_eq, List.Pairwise.insertionSort_eq order]

/-- A pass that keeps the names of a document passes its values. -/
theorem pass_kept {fields : List (Name × Value σ)}
    (kept : Kept defines (fields.map Prod.fst)) :
    pass defines (.document fields) =
      .document (fields.map fun f => (f.1, pass defines f.2)) := by
  rw [pass, deserialize_kept kept, serialize_sorted, List.map_map]
  · rfl
  · rw [List.map_map]
    exact kept.2.1

/-- Of a document no field of which is lost, the names are distinct and make properties. -/
theorem pass_lossless {fields fields' : List (Name × Value σ)}
    (eq : pass defines (.document fields) = .document fields')
    (whole : fields.length ≤ fields'.length) :
    (fields.map Prod.fst).Nodup ∧ (defines = true ∨ proto ∉ fields.map Prod.fst) := by
  obtain ⟨own, inherited, ends, assigned, -⟩ := @assignAll_own _ defines [] [] .plain
    (deserializeFields defines fields)
  have names : (deserializeFields defines fields).map Prod.fst = fields.map Prod.fst := by
    rw [deserializeFields_eq, List.map_map]
    rfl
  rw [pass, deserialize, assigned, serialize, Value.document.injEq] at eq
  have length : own.length = fields'.length := by
    rw [← eq, List.length_insertionSort, serializeFields_eq, List.length_map]
  have kept := kept_of_length (deserializeFields defines fields) assigned
    (by rw [deserializeFields_eq, List.length_map, List.length_nil]; omega) List.nodup_nil
    (.inr List.not_mem_nil)
  rwa [List.nil_append, names] at kept

theorem iterate_scalar (s : Scalar σ) (n : Nat) :
    (pass defines)^[n] (.scalar s) = .scalar s :=
  Function.iterate_fixed (by rw [pass, deserialize, serialize]) n

theorem iterate_array (items : List (Value σ)) (n : Nat) :
    (pass defines)^[n] (.array items) = .array (items.map (pass defines)^[n]) := by
  induction n with
  | zero => simp
  | succ n ih =>
      rw [Function.iterate_succ_apply', ih, pass, deserialize, serialize, deserializeItems_eq,
        serializeItems_eq, List.map_map, List.map_map]
      congr 2
      funext v
      exact (Function.iterate_succ_apply' _ n v).symm

theorem iterate_kept {fields : List (Name × Value σ)}
    (kept : Kept defines (fields.map Prod.fst)) (n : Nat) :
    (pass defines)^[n] (.document fields) =
      .document (fields.map fun f => (f.1, (pass defines)^[n] f.2)) := by
  induction n with
  | zero => simp
  | succ n ih =>
      have names : (fields.map fun f => (f.1, (pass defines)^[n] f.2)).map Prod.fst =
          fields.map Prod.fst := by
        rw [List.map_map]
        rfl
      rw [Function.iterate_succ_apply', ih, pass_kept (by rwa [names]), List.map_map]
      congr 2
      funext f
      exact congrArg _ (Function.iterate_succ_apply' _ n f.2).symm

/-- Passes make no document longer. -/
theorem iterate_length (fields : List (Name × Value σ)) (n : Nat) :
    ∃ fields', (pass defines)^[n] (.document fields) = .document fields' ∧
      fields'.length ≤ fields.length := by
  induction n with
  | zero => exact ⟨fields, rfl, Nat.le_refl _⟩
  | succ n ih =>
      obtain ⟨before, eq, le⟩ := ih
      obtain ⟨after, eq', le', -⟩ := @pass_document _ defines before
      exact ⟨after, by rw [Function.iterate_succ_apply', eq, eq'], le'.trans le⟩

/-- A document that passes give back has names that they keep: none was lost by the
first, and the last left them in JavaScript's order. -/
theorem kept_of_iterate {fields : List (Name × Value σ)} {n : Nat}
    (same : (pass defines)^[n + 1] (.document fields) = .document fields) :
    Kept defines (fields.map Prod.fst) := by
  obtain ⟨first, eq, -⟩ := @pass_document _ defines fields
  obtain ⟨last, eq', le⟩ := @iterate_length _ defines first n
  rw [Function.iterate_succ_apply, eq, eq', Value.document.injEq] at same
  obtain ⟨nodup, clean⟩ := pass_lossless eq (same ▸ le)
  refine ⟨nodup, ?_, clean⟩
  rw [← same, List.pairwise_map]
  cases n with
  | zero =>
      obtain ⟨fields', eq'', -, sorted⟩ := @pass_document _ defines fields
      rw [Function.iterate_zero, id_eq, Value.document.injEq] at eq'
      rw [eq, Value.document.injEq] at eq''
      rwa [← eq', eq'']
  | succ n =>
      obtain ⟨before, eq'', -⟩ := @iterate_length _ defines first n
      obtain ⟨fields', eq₃, -, sorted⟩ := @pass_document _ defines before
      rw [Function.iterate_succ_apply', eq'', eq₃, Value.document.injEq] at eq'
      rwa [← eq']

mutual
/-- A value comes back from any number of passes, at least one, exactly if it is orderly. -/
theorem passes_iff (n : Nat) :
    ∀ v : Value σ, (pass defines)^[n + 1] v = v ↔ Orderly defines v
  | .scalar s => by
      rw [iterate_scalar, Orderly]
      exact iff_of_true rfl trivial
  | .array items => by
      rw [iterate_array, Value.array.injEq, Orderly]
      exact passesItems_iff n items
  | .document fields => by
      rw [Orderly]
      constructor
      · intro same
        have kept := kept_of_iterate same
        rw [iterate_kept kept, Value.document.injEq] at same
        exact ⟨kept, (passesFields_iff n fields).mp same⟩
      · rintro ⟨kept, values⟩
        rw [iterate_kept kept, (passesFields_iff n fields).mpr values]

theorem passesItems_iff (n : Nat) :
    ∀ items : List (Value σ),
      items.map (pass defines)^[n + 1] = items ↔ OrderlyItems defines items
  | [] => iff_of_true rfl trivial
  | v :: rest => by
      rw [List.map_cons, List.cons.injEq, OrderlyItems, passes_iff n v, passesItems_iff n rest]

theorem passesFields_iff (n : Nat) :
    ∀ fields : List (Name × Value σ),
      (fields.map fun f => (f.1, (pass defines)^[n + 1] f.2)) = fields ↔
        OrderlyFields defines fields
  | [] => iff_of_true rfl trivial
  | (name, v) :: rest => by
      rw [List.map_cons, List.cons.injEq, Prod.mk.injEq, OrderlyFields, passes_iff n v,
        passesFields_iff n rest]
      exact ⟨fun ⟨⟨_, value⟩, values⟩ => ⟨value, values⟩, fun ⟨value, values⟩ =>
        ⟨⟨rfl, value⟩, values⟩⟩
end

end Passes

end NxgtData.Bson
