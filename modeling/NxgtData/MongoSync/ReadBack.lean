import NxgtData.MongoSync.IndexDiff

/-!
How the server reads an index back: with the key and the options it was given, less those
equal to their default, plus what it adds. The index it reads back is the one wanted for
exactly those descriptions to which it adds nothing that is compared, and drops nothing.
-/
namespace NxgtData.MongoSync
open Bson

/-- What the server knows of indexes: the defaults of their options, and what it fills in. -/
structure IndexServer where
  default_ : Name → Option Json
  collationVersion : Json
  sphereVersion : Json
  textVersion : Json
  language : Json
  override_ : Json

def sphereVersion : Name := "2dsphereIndexVersion".toList
def textVersion : Name := "textIndexVersion".toList
def weights : Name := "weights".toList
def defaultLanguage : Name := "default_language".toList
def languageOverride : Name := "language_override".toList

def isText (f : Name × Scalar String) : Bool := f.2 = .string "text".toList
def isSphere (f : Name × Scalar String) : Bool := f.2 = .string "2dsphere".toList

def fts : Name × Scalar String := ("_fts".toList, .string "text".toList)
def ftsx : Name × Scalar String := ("_ftsx".toList, .bson "1")

/-- The key as it is stored: the fields of a text index give way to `_fts` and `_ftsx`. -/
def storedKey (key : List (Name × Scalar String)) : List (Name × Scalar String) :=
  if key.any isText then
    let part := fun f => isText f || f = ftsx
    key.takeWhile (!part ·) ++ [fts, ftsx] ++ (key.dropWhile (!part ·)).filter (!part ·)
  else key

section ReadBack
variable (server : IndexServer) (default_ : Option Json) (index : Index)

/-- A collation filled in with its defaults and version. -/
def filled (server : IndexServer) : Json → Json
  | .document fields =>
      match canonicalCollation (.document fields) with
      | .document canonical_ => .document (canonical_ ++ [("version".toList, server.collationVersion)])
      | other => other
  | value => value

/-- What the key has the server store, given or not. -/
def kindOptions : List Field :=
  (if index.key.any isSphere then [(sphereVersion, server.sphereVersion)] else []) ++
    if index.key.any isText then
      [(textVersion, server.textVersion),
        (weights, .document ((index.key.filter isText).map fun f => (f.1, jsonNumber "1"))),
        (defaultLanguage, server.language), (languageOverride, server.override_)]
    else []

/-- An option given that is not read back: its value is its default. -/
def drops (f : Field) : Bool :=
  server.default_ f.1 = some f.2 && !((kindOptions server index).map Prod.fst).contains f.1

/-- An option given, as it is read back. -/
def readOption (f : Field) : Option Field :=
  if IGNORED.contains f.1 || drops server index f then none
  else if f.1 = collation then some (collation, filled server f.2)
  else some f

/-- What the server adds: the collection's default collation, and what the key needs. -/
def additions : List Field :=
  ((default_.map fun c => (collation, c)).toList ++ kindOptions server index).filter fun f =>
    !(index.options.map Prod.fst).contains f.1

def readOptions : List Field :=
  ("v".toList, jsonNumber "2") ::
    (index.options.filterMap (readOption server index) ++ additions server default_ index)

end ReadBack

theorem readOption_name {server : IndexServer} {index : Index} {f g : Field}
    (h : readOption server index f = some g) : g.1 = f.1 ∧ g.1 ∉ IGNORED := by
  unfold readOption at h
  split at h
  · exact absurd h nofun
  next kept =>
    simp only [Bool.or_eq_true, not_or, List.contains_iff_mem] at kept
    split at h
    next is =>
      cases h
      exact ⟨is.symm, is ▸ kept.1⟩
    · cases h
      exact ⟨rfl, kept.1⟩

theorem normalizeOption_name {f g : Field} (h : normalizeOption f = some g) :
    g.1 = f.1 ∧ f.1 ∉ IGNORED := by
  unfold normalizeOption at h
  split at h
  · exact absurd h nofun
  next kept =>
    rw [List.contains_iff_mem] at kept
    split at h
    next is =>
      cases h
      exact ⟨is.symm, kept⟩
    · split at h
      · exact absurd h nofun
      · cases h
        exact ⟨rfl, kept⟩

/-- Options got one by one from options of distinct names have distinct names. -/
theorem nodup_filterMap {options : List Field} {f : Field → Option Field}
    (same : ∀ a b, f a = some b → b.1 = a.1) (nodup : (options.map Prod.fst).Nodup) :
    ((options.filterMap f).map Prod.fst).Nodup := by
  refine nodup.sublist ?_
  induction options with
  | nil => exact List.Sublist.refl _
  | cons a rest ih =>
      have ih := ih (List.nodup_cons.mp nodup).2
      cases eq : f a with
      | none => simpa [eq] using ih.cons _
      | some b =>
          have name := same a b eq
          simpa [eq, name] using ih

theorem nodup_kindOptions (server : IndexServer) (index : Index) :
    ((kindOptions server index).map Prod.fst).Nodup := by
  unfold kindOptions
  split <;> split <;> simp only [List.map_cons, List.map_nil, List.append_nil, List.nil_append,
    List.cons_append] <;> decide

def KIND_OPTIONS : List Name :=
  [sphereVersion, textVersion, weights, defaultLanguage, languageOverride]

theorem mem_kindOptions {server : IndexServer} {index : Index} {f : Field}
    (mem : f ∈ kindOptions server index) : f.1 ∈ KIND_OPTIONS := by
  unfold kindOptions at mem
  rw [List.mem_append] at mem
  cases mem with
  | inl mem =>
      split at mem
      · obtain rfl := List.mem_singleton.mp mem
        exact List.mem_cons_self
      · exact absurd mem List.not_mem_nil
  | inr mem =>
      split at mem
      · exact List.mem_cons_of_mem _ (List.mem_map_of_mem (f := Prod.fst) mem)
      · exact absurd mem List.not_mem_nil

theorem KIND_OPTIONS_plain : ∀ name ∈ KIND_OPTIONS,
    name ∉ IGNORED ∧ name ≠ collation ∧ name ∉ OPTION_DEFAULTS := by decide

section Additions
variable {server : IndexServer} {default_ : Option Json} {index : Index}

theorem mem_additions {f : Field} : f ∈ additions server default_ index ↔
    ((f.1 = collation ∧ default_ = some f.2) ∨ f ∈ kindOptions server index) ∧
      f.1 ∉ index.options.map Prod.fst := by
  have of_default : f ∈ (default_.map fun c => (collation, c)).toList ↔
      f.1 = collation ∧ default_ = some f.2 := by
    obtain ⟨name, value⟩ := f
    cases default_ <;> simp [eq_comm]
  rw [additions, List.mem_filter, List.mem_append, of_default, Bool.not_eq_true',
    ← Bool.not_eq_true, List.contains_iff_mem]

/-- What is added is compared. -/
theorem additions_name {f : Field} (mem : f ∈ additions server default_ index) :
    f.1 ∉ IGNORED ∧ f.1 ∉ index.options.map Prod.fst ∧ (normalizeOption f).isSome := by
  obtain ⟨from_, unnamed⟩ := mem_additions.mp mem
  cases from_ with
  | inl is =>
      have kept : f.1 ∉ IGNORED := is.1 ▸ (by decide)
      rw [normalizeOption, if_neg (by rwa [List.contains_iff_mem]), if_pos is.1]
      exact ⟨kept, unnamed, rfl⟩
  | inr of_kind =>
      obtain ⟨kept, other, plain⟩ := KIND_OPTIONS_plain _ (mem_kindOptions of_kind)
      have compared : isDefault f.1 f.2 = false := by
        unfold isDefault
        split
        · rwa [← Bool.not_eq_true, List.contains_iff_mem]
        · rfl
      rw [normalizeOption, if_neg (by rwa [List.contains_iff_mem]), if_neg other, compared]
      exact ⟨kept, unnamed, rfl⟩

theorem nodup_additions : ((additions server default_ index).map Prod.fst).Nodup := by
  refine List.Nodup.sublist (List.filter_sublist.map _) ?_
  rw [List.map_append]
  refine List.Nodup.append ?_ (nodup_kindOptions server index) ?_
  · cases default_ with
    | none => exact List.nodup_nil
    | some c => exact List.nodup_singleton _
  · intro name given of_kind
    obtain ⟨f, mem, rfl⟩ := List.mem_map.mp of_kind
    have other := (KIND_OPTIONS_plain _ (mem_kindOptions mem)).2.1
    cases default_ with
    | none => exact List.not_mem_nil given
    | some c => exact other (List.mem_singleton.mp given)

theorem nodup_readOptions : ((readOptions server default_ index).map Prod.fst).Nodup := by
  rw [readOptions, List.map_cons, List.map_append, List.nodup_cons, List.mem_append, not_or]
  have own : ∀ a b, readOption server index a = some b → b.1 = a.1 := fun _ _ h =>
    (readOption_name h).1
  refine ⟨⟨fun given => ?_, fun added => ?_⟩,
    List.Nodup.append (nodup_filterMap own index.nodup) nodup_additions ?_⟩
  · obtain ⟨g, mem, name⟩ := List.mem_map.mp given
    obtain ⟨f, -, read⟩ := List.mem_filterMap.mp mem
    exact (readOption_name read).2 (name ▸ by decide)
  · obtain ⟨g, mem, name⟩ := List.mem_map.mp added
    exact (additions_name mem).1 (name ▸ by decide)
  · intro name given added
    obtain ⟨g, mem, rfl⟩ := List.mem_map.mp given
    obtain ⟨f, given, read⟩ := List.mem_filterMap.mp mem
    obtain ⟨a, mem, same⟩ := List.mem_map.mp added
    have unnamed := (additions_name mem).2.1
    rw [same, (readOption_name read).1] at unnamed
    exact unnamed (List.mem_map_of_mem given)

end Additions

/-- The index as it is read back once it was created. -/
def readBack (server : IndexServer) (default_ : Option Json) (index : Index) : Index where
  key := storedKey index.key
  name := some index.nameOf
  options := readOptions server default_ index
  nodup := nodup_readOptions

end NxgtData.MongoSync
