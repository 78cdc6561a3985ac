import Mathlib.Data.Set.Image
import NxgtData.Lib.Plain

/-!
What a plain value says: at each path, through lists by index and through objects by name,
which scalar, list or object stands there. Undefined fields and the order of fields do not
count.
-/
namespace NxgtData.Plain

inductive Step where
  | index (i : Nat)
  | key (name : String)

inductive Node where
  | scalar (s : Scalar)
  | arr (length : Nat)
  | obj

/-- `fields[name]`. -/
def get (fields : Fields) (name : String) : Option Value :=
  (fields.find? fun field => field.1 = name).bind Prod.snd

def node : Value → Node
  | .scalar s => .scalar s
  | .arr items => .arr items.length
  | .obj _ => .obj

def follow : Value → List Step → Option Value
  | v, [] => some v
  | .arr items, .index i :: path => items[i]?.bind fun v => follow v path
  | .obj fields, .key name :: path => (get fields name).bind fun v => follow v path
  | _, _ :: _ => none

abbrev Meaning := List Step → Option Node

def meaning (v : Value) : Meaning := fun path => (follow v path).map node

/-- The values a list holds, whatever their order and however often it holds them. -/
def entries (items : List Value) : Set Meaning := {m | ∃ v ∈ items, meaning v = m}

/-- No value twice. -/
def Once (items : List Value) : Prop := items.Pairwise fun v w => meaning v ≠ meaning w

mutual
/-- No object has two fields of a name. -/
def Distinct : Value → Prop
  | .scalar _ => True
  | .arr items => DistinctItems items
  | .obj fields => (fields.map Prod.fst).Nodup ∧ DistinctFields fields

def DistinctItems : List Value → Prop
  | [] => True
  | v :: rest => Distinct v ∧ DistinctItems rest

def DistinctFields : Fields → Prop
  | [] => True
  | (_, none) :: rest => DistinctFields rest
  | (_, some v) :: rest => Distinct v ∧ DistinctFields rest
end

theorem distinctItems_iff {items : List Value} : DistinctItems items ↔ ∀ v ∈ items, Distinct v := by
  induction items with
  | nil => simp [DistinctItems]
  | cons v rest ih => rw [DistinctItems, ih, List.forall_mem_cons]

theorem distinctFields_iff {fields : Fields} :
    DistinctFields fields ↔ ∀ name v, (name, some v) ∈ fields → Distinct v := by
  induction fields with
  | nil => simp [DistinctFields]
  | cons field rest ih =>
      obtain ⟨other, none | w⟩ := field
      next => simp [DistinctFields, ih]
      next =>
        rw [DistinctFields, ih]
        constructor
        · rintro ⟨first, later⟩ name v mem
          cases mem with
          | head => exact first
          | tail _ mem => exact later name v mem
        · intro all
          exact ⟨all other w (.head _), fun name v mem => all name v (.tail _ mem)⟩

theorem definedItems_iff {items : List Value} : DefinedItems items ↔ ∀ v ∈ items, Defined v := by
  induction items with
  | nil => simp [DefinedItems]
  | cons v rest ih => rw [DefinedItems, ih, List.forall_mem_cons]

/-! Fields by name. -/

theorem get_nil (name : String) : get [] name = none := rfl

theorem get_cons (field : String × Option Value) (rest : Fields) (name : String) :
    get (field :: rest) name = if field.1 = name then field.2 else get rest name := by
  rw [get, List.find?_cons]
  by_cases is : field.1 = name
  · rw [if_pos is]
    simp [is]
  · rw [if_neg is]
    simp [is, get]

theorem mem_of_get {fields : Fields} {name : String} {v : Value} (is : get fields name = some v) :
    (name, some v) ∈ fields := by
  induction fields with
  | nil => cases is
  | cons field rest ih =>
      rw [get_cons] at is
      split at is
      next named =>
        rw [← named, ← is]
        exact .head _
      next => exact .tail _ (ih is)

theorem get_of_mem {fields : Fields} (nodup : (fields.map Prod.fst).Nodup) {name : String}
    {value : Option Value} (mem : (name, value) ∈ fields) : get fields name = value := by
  induction fields with
  | nil => cases mem
  | cons field rest ih =>
      rw [List.map_cons, List.nodup_cons] at nodup
      rw [get_cons]
      cases mem with
      | head => exact if_pos rfl
      | tail _ mem =>
          rw [if_neg, ih nodup.2 mem]
          intro same
          exact nodup.1 (same ▸ List.mem_map_of_mem (f := Prod.fst) mem)

theorem get_kept (fields : Fields) (name : String) (nodup : (fields.map Prod.fst).Nodup) :
    get (keptFields fields) name = (get fields name).map kept := by
  induction fields with
  | nil => rfl
  | cons field rest ih =>
      rw [List.map_cons, List.nodup_cons] at nodup
      obtain ⟨other, none | v⟩ := field
      next =>
        rw [keptFields, get_cons, ih nodup.2]
        split
        next is =>
          rw [← is]
          cases found : get rest other with
          | none => rfl
          | some v =>
              exact absurd (List.mem_map_of_mem (f := Prod.fst) (mem_of_get found)) nodup.1
        next => rfl
      next =>
        rw [keptFields, get_cons, get_cons, ih nodup.2]
        split <;> rfl

theorem keptFields_nodup {fields : Fields} (nodup : (fields.map Prod.fst).Nodup) :
    ((keptFields fields).map Prod.fst).Nodup := by
  induction fields with
  | nil => exact nodup
  | cons field rest ih =>
      rw [List.map_cons, List.nodup_cons] at nodup
      obtain ⟨name, none | v⟩ := field
      next => exact ih nodup.2
      next =>
        rw [keptFields, List.map_cons, List.nodup_cons]
        refine ⟨fun mem => ?_, ih nodup.2⟩
        obtain ⟨⟨other, value⟩, there, same⟩ := List.mem_map.mp mem
        cases same
        obtain ⟨w, given, -⟩ := mem_keptFields.mp there
        have named : name ∈ rest.map Prod.fst := List.mem_map.mpr ⟨_, given, rfl⟩
        exact nodup.1 named

/-! Paths. -/

theorem follow_nil (v : Value) : follow v [] = some v := by rw [follow.eq_def]

theorem follow_kept {v : Value} (distinct : Distinct v) (path : List Step) :
    follow (kept v) path = (follow v path).map kept := by
  induction v using Value.cases_of generalizing path with
  | scalar s =>
      cases path with
      | nil => rw [follow_nil, follow_nil]; rfl
      | cons step path => rw [kept]; cases step <;> rfl
  | arr items ih =>
      rw [Distinct, distinctItems_iff] at distinct
      cases path with
      | nil => rw [follow_nil, follow_nil]; rfl
      | cons step path =>
          rw [kept]
          cases step with
          | key name => rfl
          | index i =>
              rw [follow, follow, keptItems_eq, List.getElem?_map]
              cases at_ : items[i]? with
              | none => rfl
              | some v =>
                  have mem := List.mem_of_getElem? at_
                  exact ih v mem (distinct v mem) path
  | obj fields ih =>
      rw [Distinct, distinctFields_iff] at distinct
      cases path with
      | nil => rw [follow_nil, follow_nil]; rfl
      | cons step path =>
          rw [kept]
          cases step with
          | index i => rfl
          | key name =>
              rw [follow, follow, get_kept fields name distinct.1]
              cases found : get fields name with
              | none => rfl
              | some v =>
                  have mem := mem_of_get found
                  exact ih name v mem (distinct.2 name v mem) path

theorem kept_distinct {v : Value} (distinct : Distinct v) : Distinct (kept v) := by
  induction v using Value.cases_of with
  | scalar s => exact distinct
  | arr items ih =>
      rw [Distinct, distinctItems_iff] at distinct
      rw [kept, Distinct, distinctItems_iff, keptItems_eq, List.forall_mem_map]
      exact fun v mem => ih v mem (distinct v mem)
  | obj fields ih =>
      rw [Distinct, distinctFields_iff] at distinct
      rw [kept, Distinct, distinctFields_iff]
      refine ⟨keptFields_nodup distinct.1, fun name v mem => ?_⟩
      obtain ⟨w, given, is⟩ := mem_keptFields.mp mem
      cases is
      exact ih name w given (distinct.2 name w given)

theorem node_kept (v : Value) : node (kept v) = node v := by
  cases v with
  | scalar s => rfl
  | arr items => rw [kept, node, node, keptItems_eq, List.length_map]
  | obj fields => rfl

/-- Undefined fields say nothing. -/
theorem meaning_kept {v : Value} (distinct : Distinct v) : meaning (kept v) = meaning v := by
  funext path
  rw [meaning, meaning, follow_kept distinct, Option.map_map]
  congr 1
  funext w
  exact node_kept w

end NxgtData.Plain
