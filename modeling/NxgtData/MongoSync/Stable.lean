import NxgtData.MongoSync.ReadBack

/-!
The indexes that are read back as they are wanted. An index is compared by what it was given
and by what the server has of it, so it matches its own reading exactly when the server keeps
its key, drops no option but those compared against their default, and adds none.
-/
namespace NxgtData.MongoSync
open Bson

section Lookup
variable {fields rest : List Field} {name : Name}

theorem lookup_append (fields rest : List Field) (name : Name) :
    lookup (fields ++ rest) name = (lookup fields name).or (lookup rest name) := by
  unfold lookup
  rw [List.find?_append]
  cases fields.find? (·.1 = name) <;> rfl

theorem lookup_eq_none (h : name ∉ fields.map Prod.fst) : lookup fields name = none := by
  rw [lookup, Option.map_eq_none_iff, List.find?_eq_none]
  intro f mem is
  exact h (of_decide_eq_true is ▸ List.mem_map_of_mem mem)

/-- A table of fields filled in name by name holds for each name what it was filled in with. -/
theorem lookup_map {table : List Field} (nodup : (table.map Prod.fst).Nodup)
    (fill : Field → Json) {d : Field} (mem : d ∈ table) :
    lookup (table.map fun d => (d.1, fill d)) d.1 = some (fill d) := by
  induction table with
  | nil => exact absurd mem List.not_mem_nil
  | cons e table ih =>
      rw [List.map_cons, List.nodup_cons] at nodup
      rw [List.map_cons, lookup, List.find?_cons]
      rw [List.mem_cons] at mem
      cases mem with
      | inl is =>
          subst is
          simp only [decide_true, Option.map_some]
      | inr mem =>
          have other : e.1 ≠ d.1 := fun is => nodup.1 (is ▸ List.mem_map_of_mem mem)
          simp only [other, decide_false]
          exact ih nodup.2 mem

theorem lookupOr_ne_null (fields : List Field) (name : Name) {fallback : Json}
    (h : fallback ≠ .scalar .null) : lookupOr fields name fallback ≠ .scalar .null := by
  unfold lookupOr
  split
  · exact h
  · exact h
  next set _ => exact fun is => set is

theorem lookupOr_of_some {fallback value : Json} (found : lookup fields name = some value)
    (h : value ≠ .scalar .null) : lookupOr fields name fallback = value := by
  rw [lookupOr, found]
  split
  next none_ => exact absurd none_ nofun
  next null => exact absurd (Option.some.inj null) h
  next is => exact (Option.some.inj is).symm

end Lookup

theorem COLLATION_DEFAULTS_nodup : (COLLATION_DEFAULTS.map Prod.fst).Nodup := by decide
theorem COLLATION_DEFAULTS_set : ∀ d ∈ COLLATION_DEFAULTS, d.2 ≠ .scalar .null := by decide
theorem COLLATION_DEFAULTS_locale : locale ∉ COLLATION_DEFAULTS.map Prod.fst := by decide

/-- A collation and what the server fills it in to are compared alike. -/
theorem canonicalCollation_filled (server : IndexServer) (value : Json) :
    canonicalCollation (filled server value) = canonicalCollation value := by
  cases value with
  | scalar s => rfl
  | array items => rfl
  | document fields =>
      rw [filled, canonicalCollation, canonicalCollation]
      congr 2
      · refine List.map_congr_left fun d mem => congrArg _ (lookupOr_of_some ?_ ?_)
        · rw [lookup_append, lookup_append, lookup_map COLLATION_DEFAULTS_nodup _ mem]
          rfl
        · exact lookupOr_ne_null _ _ (COLLATION_DEFAULTS_set d mem)
      · congr 1
        rw [lookup_append, lookup_append, lookup_eq_none (by
          rw [List.map_map]
          exact COLLATION_DEFAULTS_locale)]
        cases lookup fields locale with
        | none => rfl
        | some v => rfl

section Stable
variable (server : IndexServer) (default_ : Option Json) (index : Index)

/-- The server drops no option given but those the sync compares against their default. -/
def KeepsOptions : Prop := ∀ f ∈ index.options, f.1 ∉ IGNORED → drops server index f = true →
  f.1 ≠ collation ∧ isDefault f.1 f.2 = true

/-- Every option the server would add is given. -/
def GivesAdditions : Prop :=
  (default_ ≠ none → collation ∈ index.options.map Prod.fst) ∧
    (index.key.any isSphere = true → sphereVersion ∈ index.options.map Prod.fst) ∧
    (index.key.any isText = true → ∀ name ∈ [textVersion, weights, defaultLanguage,
      languageOverride], name ∈ index.options.map Prod.fst)

/-- Read back as it is wanted. -/
structure Stable : Prop where
  keepsKey : storedKey index.key = index.key
  keepsOptions : KeepsOptions server index
  givesAdditions : GivesAdditions default_ index

end Stable

section ReadBack
variable {server : IndexServer} {default_ : Option Json} {index : Index}

theorem additions_eq_nil :
    additions server default_ index = [] ↔ GivesAdditions default_ index := by
  rw [List.eq_nil_iff_forall_not_mem]
  constructor
  · intro none_
    have given {f : Field} (from_ : (f.1 = collation ∧ default_ = some f.2) ∨
        f ∈ kindOptions server index) : f.1 ∈ index.options.map Prod.fst :=
      Decidable.byContradiction fun unnamed => none_ f (mem_additions.mpr ⟨from_, unnamed⟩)
    refine ⟨fun has => ?_, fun sphere => ?_, fun text name mem => ?_⟩
    · obtain ⟨c, is⟩ := Option.ne_none_iff_exists'.mp has
      exact given (f := (collation, c)) (.inl ⟨rfl, is⟩)
    · refine given (f := (sphereVersion, server.sphereVersion)) (.inr ?_)
      rw [kindOptions, if_pos sphere]
      exact List.mem_append_left _ List.mem_cons_self
    · have all : kindOptions server index = _ ++ _ := rfl
      rw [if_pos text] at all
      obtain ⟨f, of_kind, rfl⟩ := List.mem_map.mp (show name ∈ List.map Prod.fst
        [(textVersion, server.textVersion),
        (weights, .document ((index.key.filter isText).map fun f => (f.1, jsonNumber "1"))),
        (defaultLanguage, server.language), (languageOverride, server.override_)] from mem)
      exact given (.inr (all ▸ List.mem_append_right _ of_kind))
  · intro gives f mem
    obtain ⟨from_, unnamed⟩ := mem_additions.mp mem
    refine unnamed ?_
    cases from_ with
    | inl is => exact is.1 ▸ gives.1 (by rw [is.2]; exact Option.some_ne_none _)
    | inr of_kind =>
        unfold kindOptions at of_kind
        rw [List.mem_append] at of_kind
        cases of_kind with
        | inl of_kind =>
            split at of_kind
            next sphere =>
              obtain rfl := List.mem_singleton.mp of_kind
              exact gives.2.1 sphere
            · exact absurd of_kind List.not_mem_nil
        | inr of_kind =>
            split at of_kind
            next text => exact gives.2.2 text _ (List.mem_map_of_mem (f := Prod.fst) of_kind)
            · exact absurd of_kind List.not_mem_nil

theorem normalizeOptions_readOptions :
    normalizeOptions (readOptions server default_ index) =
      index.options.filterMap (fun f => (readOption server index f).bind normalizeOption) ++
        normalizeOptions (additions server default_ index) := by
  have ignored : normalizeOption ("v".toList, jsonNumber "2") = none := by
    rw [normalizeOption, if_pos (by decide)]
  rw [normalizeOptions, readOptions, List.filterMap_cons, ignored, List.filterMap_append,
    List.filterMap_filterMap]
  rfl

/-- An option given is compared as it was, unless it is one the server does not read back. -/
theorem normalizeOption_readOption {f : Field}
    (kept : f.1 ∉ IGNORED → drops server index f = true →
      f.1 ≠ collation ∧ isDefault f.1 f.2 = true) :
    (readOption server index f).bind normalizeOption = normalizeOption f := by
  unfold readOption
  by_cases ignored : IGNORED.contains f.1 = true
  · rw [normalizeOption, if_pos ignored, ignored, Bool.true_or, if_pos rfl]
    rfl
  by_cases dropped : drops server index f = true
  · obtain ⟨other, default_⟩ := kept (by rwa [List.contains_iff_mem] at ignored) dropped
    rw [dropped, Bool.or_true, if_pos rfl, normalizeOption, if_neg ignored, if_neg other,
      if_pos default_]
    rfl
  rw [if_neg (by rw [Bool.or_eq_true, not_or]; exact ⟨ignored, dropped⟩)]
  split
  next is =>
    rw [Option.bind_some, normalizeOption, normalizeOption, if_neg (is ▸ ignored), if_pos rfl,
      if_neg ignored, if_pos is, canonicalCollation_filled]
  · rfl

/-- An index is read back as it is wanted exactly if it is stable. -/
theorem indexMatches_readBack : indexMatches index (readBack server default_ index) ↔
    Stable server default_ index := by
  constructor
  · intro ⟨key, same⟩
    have names := names_of_canonical same
    rw [readBack, normalizeOptions_readOptions] at names
    refine ⟨key.symm, fun f mem kept dropped => ?_, (@additions_eq_nil server _ _).mp ?_⟩
    · refine Decidable.byContradiction fun compared => ?_
      obtain ⟨g, is⟩ : ∃ g, normalizeOption f = some g := by
        rw [normalizeOption, if_neg (by rwa [List.contains_iff_mem])]
        split
        · exact ⟨_, rfl⟩
        next other => exact ⟨f, if_neg fun default_ => compared ⟨other, default_⟩⟩
      have name := (normalizeOption_name is).1
      have wanted : f.1 ∈ (normalizeOptions index.options).map Prod.fst :=
        name ▸ List.mem_map_of_mem (List.mem_filterMap.mpr ⟨f, mem, is⟩)
      have read := (names f.1).mp wanted
      rw [List.map_append, List.mem_append] at read
      cases read with
      | inl read =>
          obtain ⟨h, from_, same⟩ := List.mem_map.mp read
          obtain ⟨f', mem', read⟩ := List.mem_filterMap.mp from_
          obtain ⟨r, read, compared⟩ := Option.bind_eq_some_iff.mp read
          have own : f' = f := List.inj_on_of_nodup_map index.nodup mem' mem <| by
            rw [← (readOption_name read).1, ← (normalizeOption_name compared).1, same]
          rw [own, readOption, dropped, Bool.or_true, if_pos rfl] at read
          cases read
      | inr read =>
          obtain ⟨h, from_, same⟩ := List.mem_map.mp read
          obtain ⟨a, added, compared⟩ := List.mem_filterMap.mp from_
          have unnamed := (additions_name added).2.1
          rw [← (normalizeOption_name compared).1, same] at unnamed
          exact unnamed (List.mem_map_of_mem mem)
    · refine List.eq_nil_iff_forall_not_mem.mpr fun a added => ?_
      obtain ⟨-, unnamed, compared⟩ := additions_name added
      obtain ⟨g, is⟩ := Option.isSome_iff_exists.mp compared
      have name := (normalizeOption_name is).1
      have read : a.1 ∈ ((index.options.filterMap (fun f => (readOption server index f).bind
          normalizeOption)) ++ normalizeOptions (additions server default_ index)).map
            Prod.fst := by
        rw [List.map_append, List.mem_append]
        exact .inr (name ▸ List.mem_map_of_mem (List.mem_filterMap.mpr ⟨a, added, is⟩))
      obtain ⟨h, from_, same⟩ := List.mem_map.mp ((names a.1).mpr read)
      obtain ⟨f, mem, compared⟩ := List.mem_filterMap.mp from_
      rw [← same, (normalizeOption_name compared).1] at unnamed
      exact unnamed (List.mem_map_of_mem mem)
  · intro stable
    refine ⟨stable.keepsKey.symm, congrArg canonical (congrArg _ ?_)⟩
    rw [readBack, normalizeOptions_readOptions, additions_eq_nil.mpr stable.givesAdditions,
      normalizeOptions, normalizeOptions, List.filterMap_nil, List.append_nil]
    exact List.filterMap_congr fun f mem =>
      (normalizeOption_readOption (stable.keepsOptions f mem)).symm

end ReadBack

end NxgtData.MongoSync
