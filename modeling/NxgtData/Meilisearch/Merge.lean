import NxgtData.Meilisearch.Server

/-!
A value merged into what the server holds: what stands at each place afterwards, that it can
be reported, and at which places the report changes.
-/
namespace NxgtData.Meilisearch

open Plain

/-! Places. -/

theorem under_nil (v : Value) : under v [] = some v := follow_nil v

theorem under_obj (fields : Fields) (key : String) (path : List String) :
    under (.obj fields) (key :: path) = (get fields key).bind fun v => under v path := rfl

theorem under_scalar (s : Scalar) (key : String) (path : List String) :
    under (.scalar s) (key :: path) = none := rfl

theorem under_arr (items : List Value) (key : String) (path : List String) :
    under (.arr items) (key :: path) = none := rfl

/-- The fields of what is no object are none. -/
theorem under_held (held : Option Value) (key : String) (path : List String) :
    (held.bind fun v => under v (key :: path)) =
      (get (fieldsOf held) key).bind fun v => under v path := by
  match held with
  | none => rfl
  | some (.scalar s) => exact under_scalar s key path
  | some (.arr items) => exact under_arr items key path
  | some (.obj fields) => exact under_obj fields key path

theorem under_kept {v : Value} (distinct : Distinct v) (path : List String) :
    under (kept v) path = (under v path).map kept := follow_kept distinct _

theorem under_distinct {v w : Value} (distinct : Distinct v) {path : List String}
    (is : under v path = some w) : Distinct w := by
  induction path generalizing v with
  | nil =>
      rw [under_nil] at is
      cases is
      exact distinct
  | cons key path ih =>
      cases v with
      | scalar s => rw [under_scalar] at is; cases is
      | arr items => rw [under_arr] at is; cases is
      | obj fields =>
          rw [under_obj] at is
          obtain ⟨u, found, is⟩ := Option.bind_eq_some_iff.mp is
          rw [Distinct, distinctFields_iff] at distinct
          exact ih (distinct.2 key u (mem_of_get found)) is

theorem owned_append {name : String} {base path : List String} (is : owned name base = true) :
    owned name (base ++ path) = true := by
  have deeper : ∀ {keys : List String}, ownedIn keys = true → ownedIn (keys ++ path) = true := by
    intro keys own
    induction keys with
    | nil => cases own
    | cons key keys ih =>
        rw [List.cons_append, ownedIn]
        rw [ownedIn] at own
        grind
  cases base with
  | nil => cases is
  | cons key base =>
      rw [List.cons_append, owned]
      rw [owned, Bool.and_eq_true] at is
      rw [is.1, deeper is.2]
      rfl

theorem mem_of_owned {name : String} {path : List String} (is : owned name path = true) :
    "apiKey" ∈ path := by
  have deeper : ∀ {keys : List String}, ownedIn keys = true → "apiKey" ∈ keys := by
    intro keys own
    induction keys with
    | nil => cases own
    | cons key keys ih =>
        rw [ownedIn] at own
        grind
  cases path with
  | nil => cases is
  | cons key path =>
      rw [owned, Bool.and_eq_true] at is
      exact .tail _ (deeper is.2)

/-! Fields put into an object. -/

theorem get_put (fields : Fields) (name : String) (value : Option Value) (other : String) :
    get (put fields name value) other = if other = name then value else get fields other := by
  induction fields with
  | nil =>
      cases value with
      | none =>
          rw [put]
          split <;> rfl
      | some v =>
          simp only [put, List.filter_nil, List.nil_append, Option.toList_some, List.map_cons,
            List.map_nil, get_cons, get_nil]
          grind
  | cons field rest ih =>
      rw [put, List.filter_cons] at *
      split
      next kept_ =>
        rw [List.cons_append, get_cons, get_cons]
        grind
      next gone =>
        rw [ih, get_cons]
        grind

theorem put_names {fields : Fields} (nodup : (fields.map Prod.fst).Nodup) (name : String)
    (value : Option Value) : ((put fields name value).map Prod.fst).Nodup := by
  rw [put, List.map_append, List.nodup_append]
  refine ⟨nodup.sublist (List.filter_sublist.map Prod.fst), ?_, fun a mem b mem' => ?_⟩
  · cases value <;> simp
  · obtain ⟨f, in_, rfl⟩ := List.mem_map.mp mem
    have other := (List.mem_filter.mp in_).2
    cases value with
    | none => cases mem'
    | some v =>
        simp only [Option.toList_some, List.map_cons, List.map_nil, List.mem_singleton] at mem'
        rw [mem']
        simpa using other

variable (server : Server)

theorem get_mergeFields (path : List String) {fields : Fields}
    (nodup : (fields.map Prod.fst).Nodup) (held : Fields) (key : String) :
    get (server.mergeFields path fields held) key =
      match get fields key with
      | some v => server.merge (path ++ [key]) v (get held key)
      | none => get held key := by
  induction fields generalizing held with
  | nil => rw [Server.mergeFields, get_nil]
  | cons field rest ih =>
      rw [List.map_cons, List.nodup_cons] at nodup
      have later {other : String} (is : other = key) (mem : other ∉ rest.map Prod.fst) :
          get rest key = none := by
        cases found : get rest key with
        | none => rfl
        | some v => exact absurd (List.mem_map.mpr ⟨_, mem_of_get found, is.symm⟩) mem
      obtain ⟨other, none | v⟩ := field
      next =>
        rw [Server.mergeFields, ih nodup.2, get_cons]
        by_cases is : other = key
        next => rw [if_pos is, later is nodup.1]
        next => rw [if_neg is]
      next =>
        rw [Server.mergeFields, ih nodup.2, get_cons, get_put]
        by_cases is : other = key
        next =>
          rw [if_pos is, later is nodup.1, if_pos is.symm, is]
        next =>
          rw [if_neg is, if_neg (Ne.symm is)]

theorem mergeFields_names (path : List String) (fields : Fields) {held : Fields}
    (nodup : (held.map Prod.fst).Nodup) :
    ((server.mergeFields path fields held).map Prod.fst).Nodup := by
  induction fields generalizing held with
  | nil =>
      rw [Server.mergeFields]
      exact nodup
  | cons field rest ih =>
      obtain ⟨name, none | v⟩ := field
      next =>
        rw [Server.mergeFields]
        exact ih nodup
      next =>
        rw [Server.mergeFields]
        exact ih (put_names nodup name _)

theorem merge_obj (path : List String) (fields : Fields) (held : Option Value) :
    server.merge path (.obj fields) held = some (.obj (server.mergeFields path fields
      (if server.merges path then fieldsOf held else []))) := by
  rw [Server.merge]

/-- Where an object replaces what is held, that does not matter. -/
theorem merge_replaced {path : List String} (replaces : server.merges path = false) (v : Value)
    (held held' : Option Value) : server.merge path v held = server.merge path v held' := by
  cases v with
  | scalar s => cases s <;> rfl
  | arr items => rfl
  | obj fields => simp only [merge_obj, replaces, Bool.false_eq_true, if_false]

/-- What is held of a field of an object afterwards. -/
theorem get_merged {name : String} {path : List String} {fields : Fields}
    (nodup : (fields.map Prod.fst).Nodup) (held : Option Value) (key : String) :
    get (server.mergeFields (name :: path) fields
        (if server.merges (name :: path) then fieldsOf held else [])) key =
      match get fields key with
      | some v => server.merge (name :: (path ++ [key])) v (get (fieldsOf held) key)
      | none => if server.merges (name :: path) then get (fieldsOf held) key else none := by
  rw [get_mergeFields server _ nodup, List.cons_append]
  cases merges : server.merges (name :: path) with
  | true => rfl
  | false =>
      have below : server.merges (name :: (path ++ [key])) = false := by
        cases deeper : server.merges (name :: (path ++ [key])) with
        | false => rfl
        | true => rw [server.merges_above name path key deeper] at merges; cases merges
      rw [if_neg (by simp), if_neg (by simp), get_nil]
      cases get fields key with
      | none => rfl
      | some v => exact merge_replaced server below v _ _

/-- What a merge leaves at a place is what is given there, merged into what stood there. -/
theorem merge_under {name : String} {path : List String} {v w : Value} (distinct : Distinct v)
    (is : under v path = some w) (base : List String) (held : Option Value) :
    ((server.merge (name :: base) v held).bind fun u => under u path) =
      server.merge (name :: (base ++ path)) w (held.bind fun u => under u path) := by
  induction path generalizing v base held with
  | nil =>
      rw [under_nil] at is
      cases is
      simp only [List.append_nil, under_nil, Option.bind_fun_some]
  | cons key path ih =>
      cases v with
      | scalar s => rw [under_scalar] at is; cases is
      | arr items => rw [under_arr] at is; cases is
      | obj fields =>
          rw [Distinct, distinctFields_iff] at distinct
          rw [under_obj] at is
          obtain ⟨u, found, is⟩ := Option.bind_eq_some_iff.mp is
          rw [merge_obj, Option.bind_some, under_obj, get_merged server distinct.1, found,
            under_held]
          rw [ih (distinct.2 key u (mem_of_get found)) is, List.append_assoc]
          rfl

/-! Reports. -/

theorem definedFields_iff {fields : Fields} :
    DefinedFields fields ↔ ∀ f ∈ fields, ∃ v, f.2 = some v ∧ Defined v := by
  induction fields with
  | nil => simp [DefinedFields]
  | cons field rest ih =>
      obtain ⟨other, none | v⟩ := field
      next => simp [DefinedFields]
      next => rw [DefinedFields, ih, List.forall_mem_cons]; simp

theorem mergeFields_given {path : List String} {fields held : Fields}
    (given : ∀ f ∈ held, ∃ v, f.2 = some v) :
    ∀ f ∈ server.mergeFields path fields held, ∃ v, f.2 = some v := by
  induction fields generalizing held with
  | nil =>
      rw [Server.mergeFields]
      exact given
  | cons field rest ih =>
      obtain ⟨name, none | v⟩ := field
      next =>
        rw [Server.mergeFields]
        exact ih given
      next =>
        rw [Server.mergeFields]
        refine ih fun f mem => ?_
        rw [put, List.mem_append] at mem
        rcases mem with mem | mem
        · exact given f (List.mem_filter.mp mem).1
        · obtain ⟨u, -, rfl⟩ := List.mem_map.mp mem
          exact ⟨u, rfl⟩

variable {rules : Rules} {name : String} {base : List String}

theorem Reported.field (merges : merged.contains name = true) {fields : Fields}
    (reported : Reported rules name base (.obj fields)) {key : String} {v : Value}
    (is : get fields key = some v) : Reported rules name (base ++ [key]) v := by
  have distinct := reported.distinct
  have defined := reported.defined
  rw [Distinct, distinctFields_iff] at distinct
  rw [Defined, definedFields_iff] at defined
  have below (path : List String) : under (.obj fields) (key :: path) = under v path := by
    rw [under_obj, is]
    rfl
  refine ⟨distinct.2 key v (mem_of_get is), ?_, fun path items _ there => ?_, fun path _ there => ?_⟩
  · obtain ⟨w, same, defined⟩ := defined _ (mem_of_get is)
    cases same
    exact defined
  · rw [List.append_assoc]
    exact reported.once (key :: path) items (.inl merges) (by rw [below, there])
  · rw [List.append_assoc]
    exact reported.null (key :: path) (.inl merges) (by rw [below, there])

theorem Reported.obj (merges : merged.contains name = true) {fields : Fields}
    (nodup : (fields.map Prod.fst).Nodup) (given : ∀ f ∈ fields, ∃ v, f.2 = some v)
    (all : ∀ key v, get fields key = some v → Reported rules name (base ++ [key]) v) :
    Reported rules name base (.obj fields) := by
  refine ⟨?_, ?_, fun path items _ there => ?_, fun path _ there => ?_⟩
  · rw [Distinct, distinctFields_iff]
    exact ⟨nodup, fun key v mem => (all key v (get_of_mem nodup mem)).distinct⟩
  · rw [Defined, definedFields_iff]
    rintro ⟨key, value⟩ mem
    obtain ⟨v, rfl⟩ := given _ mem
    exact ⟨v, rfl, (all key v (get_of_mem nodup mem)).defined⟩
  · cases path with
    | nil => cases there
    | cons key path =>
        rw [under_obj] at there
        obtain ⟨v, found, there⟩ := Option.bind_eq_some_iff.mp there
        rw [List.append_cons]
        exact (all key v found).once path items (.inl merges) there
  · cases path with
    | nil => cases there
    | cons key path =>
        rw [under_obj] at there
        obtain ⟨v, found, there⟩ := Option.bind_eq_some_iff.mp there
        rw [List.append_cons]
        exact (all key v found).null path (.inl merges) there

theorem Reported.scalar {s : Scalar} (given : s ≠ .null) :
    Reported rules name base (.scalar s) := by
  refine ⟨by rw [Distinct]; trivial, by rw [Defined]; trivial, fun path items _ there => ?_,
    fun path _ there => ?_⟩
  · cases path with
    | nil => cases there
    | cons key path => rw [under_scalar] at there; cases there
  · cases path with
    | nil =>
        cases there
        exact absurd rfl given
    | cons key path => rw [under_scalar] at there; cases there

theorem Reported.arr {items : List Value} (distinct : ∀ v ∈ items, Distinct v)
    (defined : ∀ v ∈ items, Defined v) (once : rules.isSet (name :: base) = true → Once items) :
    Reported rules name base (.arr items) := by
  refine ⟨by rwa [Distinct, distinctItems_iff], by rwa [Defined, definedItems_iff],
    fun path items' _ there => ?_, fun path _ there => ?_⟩
  · cases path with
    | nil =>
        cases there
        rw [List.append_nil]
        exact once
    | cons key path => rw [under_arr] at there; cases there
  · cases path with
    | nil => cases there
    | cons key path => rw [under_arr] at there; cases there

theorem Server.keep_reported {items : List Value} (distinct : ∀ v ∈ items, Distinct v)
    (defined : ∀ v ∈ items, Defined v) :
    Reported server.toRules name base (.arr (server.keep (name :: base) items)) := by
  rw [Server.keep]
  split
  next =>
    exact .arr (fun v mem => distinct v (server.arrange_subset items mem))
      (fun v mem => defined v (server.arrange_subset items mem)) fun _ => server.arrange_once items
  next inOrder => exact .arr distinct defined fun set => absurd set inOrder

/-- What is merged into a report can be reported. -/
theorem merge_reported (merges : merged.contains name = true) {v : Value} (distinct : Distinct v)
    (defined : Defined v) (base : List String) {held : Option Value}
    (reported : ∀ u, held = some u → Reported server.toRules name base u) {u : Value}
    (is : server.merge (name :: base) v held = some u) : Reported server.toRules name base u := by
  induction v using Value.cases_of generalizing base held u with
  | scalar s =>
      cases s with
      | null =>
          rw [Server.merge] at is
          exact server.reset_reported name base u is
      | bool _ | num _ | str _ =>
          cases is
          exact .scalar (by simp)
  | arr items ih =>
      rw [Distinct, distinctItems_iff] at distinct
      rw [Defined, definedItems_iff] at defined
      cases is
      exact server.keep_reported distinct defined
  | obj fields ih =>
      rw [Distinct, distinctFields_iff] at distinct
      rw [Defined, definedFields_iff] at defined
      have empty : Reported server.toRules name base (.obj []) :=
        .obj merges List.nodup_nil (fun f mem => by cases mem) fun key v is => by cases is
      have was : Reported server.toRules name base (.obj (fieldsOf held)) := by
        cases held with
        | none => exact empty
        | some u =>
            cases u with
            | scalar _ | arr _ => exact empty
            | obj fields => exact reported _ rfl
      have stands : Reported server.toRules name base
          (.obj (if server.merges (name :: base) then fieldsOf held else [])) := by
        split
        next => exact was
        next => exact empty
      have names := stands.distinct
      have given := stands.defined
      rw [Distinct] at names
      rw [Defined, definedFields_iff] at given
      rw [merge_obj] at is
      cases is
      refine .obj merges (mergeFields_names server _ _ names.1)
        (mergeFields_given server fun f mem => (given f mem).imp fun v => And.left) ?_
      intro key u is
      rw [get_merged server distinct.1] at is
      cases found : get fields key with
      | none =>
          rw [found] at is
          dsimp only at is
          split at is
          next => exact was.field merges is
          next => cases is
      | some v =>
          rw [found] at is
          have mem := mem_of_get found
          obtain ⟨w, same, defined⟩ := defined _ mem
          cases same
          exact ih key v mem (distinct.2 key v mem) defined (base ++ [key])
            (fun u is => was.field merges is) is

/-- What is stored of a setting can be reported. -/
theorem store_reported {v : Value} (distinct : Distinct v) (defined : Defined v)
    {held : Option Value} (reported : ∀ u, held = some u → Reported server.toRules name [] u)
    {u : Value} (is : server.store name held v = some u) : Reported server.toRules name [] u := by
  unfold Server.store at is
  split at is
  next merges => exact merge_reported server merges distinct defined [] reported is
  next whole =>
    cases v with
    | scalar s =>
        cases s with
        | null => exact server.reset_reported name [] u is
        | bool _ | num _ | str _ =>
            cases is
            exact .scalar (by simp)
    | arr items =>
        rw [Distinct, distinctItems_iff] at distinct
        rw [Defined, definedItems_iff] at defined
        cases is
        exact server.keep_reported distinct defined
    | obj fields =>
        cases is
        refine ⟨distinct, defined, fun path items within there => ?_, fun path within there => ?_⟩
        · obtain merges | rfl := within
          · exact absurd merges whole
          · cases there
        · obtain merges | rfl := within
          · exact absurd merges whole
          · cases there

end NxgtData.Meilisearch
