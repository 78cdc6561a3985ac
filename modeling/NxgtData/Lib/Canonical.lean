import NxgtData.Lib.Bson

/-!
Values compared whatever the order of their fields: `canonical` puts the fields of every
document in one order, that of their names.
-/
namespace NxgtData.Bson

variable {σ : Type}

/-- The order of names, character by character. -/
def nameLe : Name → Name → Bool
  | [], _ => true
  | _ :: _, [] => false
  | a :: s, b :: t => if a.toNat < b.toNat then true else a = b && nameLe s t

/-- The order of fields by their names. -/
def ByName {α : Type} (a b : Name × α) : Prop := nameLe a.1 b.1 = true

variable {α : Type}

instance : DecidableRel (ByName (α := α)) := fun a b =>
  inferInstanceAs (Decidable (nameLe a.1 b.1 = true))

mutual
def canonical : Value σ → Value σ
  | .scalar s => .scalar s
  | .array items => .array (canonicalItems items)
  | .document fields => .document ((canonicalFields fields).insertionSort ByName)

def canonicalItems : List (Value σ) → List (Value σ)
  | [] => []
  | v :: rest => canonical v :: canonicalItems rest

def canonicalFields : List (Name × Value σ) → List (Name × Value σ)
  | [] => []
  | (name, v) :: rest => (name, canonical v) :: canonicalFields rest
end

theorem canonicalFields_eq (fields : List (Name × Value σ)) :
    canonicalFields fields = fields.map fun f => (f.1, canonical f.2) := by
  induction fields with
  | nil => rfl
  | cons f rest ih => rw [canonicalFields, ih, List.map_cons]

theorem canonicalFields_names (fields : List (Name × Value σ)) :
    (canonicalFields fields).map Prod.fst = fields.map Prod.fst := by
  rw [canonicalFields_eq, List.map_map]
  rfl

/-- Documents of one canonical form have the same names. -/
theorem names_of_canonical {a b : List (Name × Value σ)}
    (same : canonical (.document a) = canonical (.document b)) (name : Name) :
    name ∈ a.map Prod.fst ↔ name ∈ b.map Prod.fst := by
  rw [canonical, canonical, Value.document.injEq] at same
  rw [← canonicalFields_names, ← canonicalFields_names b]
  have perm : (canonicalFields a).Perm (canonicalFields b) :=
    (List.perm_insertionSort ByName _).symm.trans (same ▸ List.perm_insertionSort ByName _)
  exact (perm.map Prod.fst).mem_iff

section Equality
variable [DecidableEq σ]

mutual
def decEq : (a b : Value σ) → Decidable (a = b)
  | .scalar s, .scalar t => decidable_of_iff (s = t) (Value.scalar.injEq s t).symm.to_iff
  | .array items, .array items' =>
      match decEqItems items items' with
      | .isTrue same => .isTrue (congrArg _ same)
      | .isFalse differ => .isFalse fun same => differ (Value.array.inj same)
  | .document fields, .document fields' =>
      match decEqFields fields fields' with
      | .isTrue same => .isTrue (congrArg _ same)
      | .isFalse differ => .isFalse fun same => differ (Value.document.inj same)
  | .scalar _, .array _ | .scalar _, .document _ | .array _, .scalar _ | .array _, .document _
  | .document _, .scalar _ | .document _, .array _ => .isFalse nofun

def decEqItems : (a b : List (Value σ)) → Decidable (a = b)
  | [], [] => .isTrue rfl
  | [], _ :: _ | _ :: _, [] => .isFalse nofun
  | v :: rest, v' :: rest' =>
      match decEq v v', decEqItems rest rest' with
      | .isTrue same, .isTrue same' => .isTrue (congr (congrArg _ same) same')
      | .isFalse differ, _ => .isFalse fun same => differ (List.cons.inj same).1
      | _, .isFalse differ => .isFalse fun same => differ (List.cons.inj same).2

def decEqFields : (a b : List (Name × Value σ)) → Decidable (a = b)
  | [], [] => .isTrue rfl
  | [], _ :: _ | _ :: _, [] => .isFalse nofun
  | (name, v) :: rest, (name', v') :: rest' =>
      if names : name = name' then
        match decEq v v', decEqFields rest rest' with
        | .isTrue same, .isTrue same' => .isTrue (by rw [names, same, same'])
        | .isFalse differ, _ => .isFalse fun same => differ (Prod.mk.inj (List.cons.inj same).1).2
        | _, .isFalse differ => .isFalse fun same => differ (List.cons.inj same).2
      else .isFalse fun same => names (Prod.mk.inj (List.cons.inj same).1).1
end

instance : DecidableEq (Value σ) := decEq

end Equality

end NxgtData.Bson
