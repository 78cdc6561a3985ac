import NxgtData.Meilisearch.Canonical
import NxgtData.Meilisearch.Merge

/-!
A setting compared place by place: what the comparison asks of a place that is no key, what
an update leaves unchanged there, and what makes the two the same.
-/
namespace NxgtData.Meilisearch

open Plain

/-- What the comparison asks of a place: a list is compared in order or with its repeated
entries, and an object of a merged setting has only to be one. -/
def Fits (name : String) (wanted : Value) (live : Option Value) : Prop :=
  match wanted with
  | .scalar s => live = some (.scalar s)
  | .arr items => ∃ items', live = some (.arr items') ∧
      if ordered.contains name = true then meaning (.arr items') = meaning (.arr items)
      else (items.map meaning).Perm (items'.map meaning)
  | .obj fields => ∃ fields', live = some (.obj fields') ∧
      (merged.contains name = false → meaning (.obj fields') = meaning (.obj fields))

/-- An object given at a place of a merged setting replaces what is held. -/
def Replaced (rules : Rules) (name : String) (path : List String) : Prop :=
  merged.contains name = true ∧ rules.merges (name :: path) = false

/-- Sending the value of a place leaves it as it is. -/
def Settled (rules : Rules) (name : String) (path : List String) (wanted : Value)
    (live : Option Value) : Prop :=
  match wanted with
  | .scalar .null => Agree rules name path (rules.reset (name :: path)) live
  | .obj fields =>
      (owned name path = false →
        live.map (shown rules name path) = some (shown rules name path (.obj fields))) ∧
      (Replaced rules name path → ∀ key, get fields key = none →
        Agree rules name (path ++ [key]) none (get (fieldsOf live) key))
  | wanted => owned name path = false →
      live.map (shown rules name path) = some (shown rules name path wanted)

/-- The value of a place is reported as it is given: no set repeats an entry, and a null is
given only where null is the default. -/
def Lasting (rules : Rules) (name : String) (path : List String) : Value → Prop
  | .scalar .null => rules.reset (name :: path) = some .null
  | .arr items => rules.isSet (name :: path) = true → Once items
  | _ => True

/-! The server. -/

section Server

variable (server : Server) {name : String}

theorem not_ordered (merges : merged.contains name = true) : ordered.contains name = false := by
  simp only [merged, List.contains_iff_mem, List.mem_cons, List.not_mem_nil, or_false] at merges
  obtain rfl | rfl | rfl | rfl := merges <;> rfl

theorem shown_obj (rules : Rules) (merges : merged.contains name = true) (path : List String)
    (fields : Fields) : shown rules name path (.obj fields) = .fields := by
  rw [shown, if_pos merges]

theorem shown_arr_ne (rules : Rules) (path : List String) (items : List Value) :
    shown rules name path (.arr items) ≠ .fields := by
  rw [shown]
  split <;> simp

theorem shown_keep (path : List String) (items : List Value) :
    shown server.toRules name path (.arr (server.keep (name :: path) items)) =
      shown server.toRules name path (.arr items) := by
  rw [Server.keep, shown, shown]
  split
  next => rw [server.arrange_entries]
  next => rfl

/-- Below what is shown as no object there is nothing. -/
theorem below_of_shown {rules : Rules} (merges : merged.contains name = true)
    {base : List String} {w : Value} (leaf : shown rules name base w ≠ .fields) {l : Option Value}
    (same : l.map (shown rules name base) = some (shown rules name base w)) (key : String)
    (path : List String) : (l.bind fun u => under u (key :: path)) = none := by
  match l with
  | none => rfl
  | some (.scalar s) => exact under_scalar s key path
  | some (.arr items) => exact under_arr items key path
  | some (.obj fields) =>
      rw [Option.map_some, Option.some.injEq, shown_obj rules merges] at same
      exact absurd same.symm leaf

theorem agree_leaf {rules : Rules} (merges : merged.contains name = true) {base : List String}
    {u w : Value} (leaf : shown rules name base w ≠ .fields)
    (same : shown rules name base u = shown rules name base w) (l : Option Value) :
    Agree rules name base (some u) l ↔
      (owned name base = false →
        l.map (shown rules name base) = some (shown rules name base w)) := by
  constructor
  · intro agree free
    have root := agree [] (.inl merges) (by rwa [List.append_nil])
    simp only [under_nil, Option.bind_fun_some, Option.map_some, List.append_nil] at root
    rw [← root, same]
  · intro shows path _ free
    have here : owned name base = false := by
      cases own : owned name base with
      | false => rfl
      | true => rw [owned_append own] at free; cases free
    cases path with
    | nil =>
        simp only [under_nil, Option.bind_fun_some, Option.map_some, List.append_nil]
        rw [shows here, same]
    | cons key path =>
        rw [below_of_shown merges leaf (shows here), below_of_shown merges leaf
          (show (some u).map (shown rules name base) = _ by rw [← same]; rfl)]

theorem agree_obj (rules : Rules) (merges : merged.contains name = true) (fields : Fields)
    (base : List String) (l : Option Value) : Agree rules name base (some (.obj fields)) l ↔
      (owned name base = false → l.map (shown rules name base) = some .fields) ∧
        ∀ key, Agree rules name (base ++ [key]) (get fields key) (get (fieldsOf l) key) := by
  constructor
  · intro agree
    constructor
    · intro free
      have root := agree [] (.inl merges) (by rwa [List.append_nil])
      simp only [under_nil, Option.bind_fun_some, Option.map_some, List.append_nil] at root
      rw [← root, shown_obj rules merges]
    · intro key path _ free
      rw [List.append_assoc] at free ⊢
      have below := agree (key :: path) (.inl merges) free
      rwa [Option.bind_some, under_obj, under_held] at below
  · rintro ⟨root, below⟩ path _ free
    cases path with
    | nil =>
        rw [List.append_nil] at free
        simp only [under_nil, Option.bind_fun_some, Option.map_some, List.append_nil]
        rw [root free, shown_obj rules merges]
    | cons key path =>
        rw [Option.bind_some, under_obj, under_held, List.append_cons]
        exact below key path (.inl merges) (by rwa [List.append_assoc])

/-- A value with nothing below it is one place. -/
theorem settled_leaf {rules : Rules} {v : Value}
    (below : ∀ key path, under v (key :: path) = none) (base : List String)
    (held : Option Value) :
    (∀ path w, under v path = some w →
      Settled rules name (base ++ path) w (held.bind fun u => under u path)) ↔
        Settled rules name base v held := by
  constructor
  · intro all
    have root := all [] v (under_nil v)
    simp only [List.append_nil, under_nil, Option.bind_fun_some] at root
    exact root
  · intro root path w is
    cases path with
    | cons key path => rw [below] at is; cases is
    | nil =>
        rw [under_nil] at is
        cases is
        simp only [List.append_nil, under_nil, Option.bind_fun_some]
        exact root

/-- A merge changes nothing exactly when it leaves every place given as it is. -/
theorem agree_merge_iff (merges : merged.contains name = true) {v : Value} (distinct : Distinct v)
    (base : List String) (held : Option Value) :
    Agree server.toRules name base (server.merge (name :: base) v held) held ↔
      ∀ path w, under v path = some w →
        Settled server.toRules name (base ++ path) w (held.bind fun u => under u path) := by
  induction v using Value.cases_of generalizing base held with
  | scalar s =>
      rw [settled_leaf (under_scalar s)]
      cases s with
      | null =>
          rw [Server.merge]
          rfl
      | bool _ | num _ | str _ =>
          rw [Server.merge]
          · exact agree_leaf merges (by rw [shown]; simp) rfl held
          · simp
  | arr items ih =>
      rw [settled_leaf (under_arr items), Server.merge]
      exact agree_leaf merges (shown_arr_ne _ base items) (shown_keep server base items) held
  | obj fields ih =>
      rw [Distinct, distinctFields_iff] at distinct
      rw [merge_obj, agree_obj _ merges]
      constructor
      · rintro ⟨root, fieldwise⟩ path w is
        cases path with
        | nil =>
            rw [under_nil] at is
            cases is
            simp only [List.append_nil, under_nil, Option.bind_fun_some]
            refine ⟨fun free => ?_, fun replaced key absent => ?_⟩
            · rw [root free, shown_obj _ merges]
            · have below := fieldwise key
              rw [get_merged server distinct.1, absent] at below
              dsimp only at below
              rwa [replaced.2, if_neg (by simp)] at below
        | cons key path =>
            rw [under_obj] at is
            obtain ⟨v, found, is⟩ := Option.bind_eq_some_iff.mp is
            have mem := mem_of_get found
            have below := fieldwise key
            rw [get_merged server distinct.1, found] at below
            rw [under_held, List.append_cons]
            exact (ih key v mem (distinct.2 key v mem) _ _).mp below path w is
      · intro all
        have root := all [] _ (under_nil _)
        simp only [List.append_nil, under_nil, Option.bind_fun_some] at root
        constructor
        · intro free
          rw [root.1 free, shown_obj _ merges]
        · intro key
          rw [get_merged server distinct.1]
          cases found : get fields key with
          | none =>
              dsimp only
              split
              next => exact fun path _ _ => rfl
              next replaces => exact root.2 ⟨merges, Bool.not_eq_true _ ▸ replaces⟩ key found
          | some v =>
              have mem := mem_of_get found
              refine (ih key v mem (distinct.2 key v mem) _ _).mpr fun path w is => ?_
              have below := all (key :: path) w (by rw [under_obj, found, Option.bind_some, is])
              rwa [under_held, List.append_cons] at below

theorem agree_whole {rules : Rules} (whole : ¬ merged.contains name = true)
    (a b : Option Value) : Agree rules name [] a b ↔
      a.map (shown rules name []) = b.map (shown rules name []) := by
  constructor
  · intro agree
    have root := agree [] (.inr rfl) rfl
    simpa only [under_nil, Option.bind_fun_some, List.append_nil] using root
  · rintro same path (merges | rfl) _
    · exact absurd merges whole
    · simpa only [under_nil, Option.bind_fun_some, List.append_nil] using same

/-- Storing a setting changes nothing exactly when it leaves every place given as it is. -/
theorem agree_store_iff {v : Value} (distinct : Distinct v) (held : Option Value) :
    Agree server.toRules name [] (server.store name held v) held ↔
      ∀ path w, Within name path → under v path = some w →
        Settled server.toRules name path w (held.bind fun u => under u path) := by
  unfold Server.store
  split
  next merges =>
    rw [agree_merge_iff server merges distinct]
    exact ⟨fun all path w _ => all path w, fun all path w => all path w (.inl merges)⟩
  next whole =>
    have root : (∀ path w, Within name path → under v path = some w →
        Settled server.toRules name path w (held.bind fun u => under u path)) ↔
          Settled server.toRules name [] v held := by
      constructor
      · intro all
        simpa only [under_nil, Option.bind_fun_some] using all [] v (.inr rfl) (under_nil v)
      · rintro settled path w (merges | rfl) is
        · exact absurd merges whole
        · rw [under_nil] at is
          cases is
          simpa only [under_nil, Option.bind_fun_some] using settled
    rw [root]
    cases v with
    | scalar s =>
        cases s with
        | null => rfl
        | bool _ | num _ | str _ =>
            rw [agree_whole whole]
            exact ⟨fun same _ => same.symm, fun settled => (settled rfl).symm⟩
    | arr items =>
        dsimp only
        rw [agree_whole whole, Option.map_some, shown_keep]
        exact ⟨fun same _ => same.symm, fun settled => (settled rfl).symm⟩
    | obj fields =>
        rw [agree_whole whole]
        exact ⟨fun same => ⟨fun _ => same.symm, fun replaced => absurd replaced.1 whole⟩,
          fun settled => (settled.1 rfl).symm⟩

end Server

/-! The comparison. -/

section Comparison

variable {name : String}

theorem asSet_arr_iff {items : List Value} {l : Value} (distinct : Distinct (.arr items))
    (distinct' : Distinct l) : canonical (asSet (.arr items)) = canonical (asSet l) ↔
      ∃ items', l = .arr items' ∧ (items.map meaning).Perm (items'.map meaning) := by
  rw [Distinct, distinctItems_iff] at distinct
  cases l with
  | arr items' =>
      rw [Distinct, distinctItems_iff] at distinct'
      rw [asSet_eq_iff distinct distinct']
      constructor
      · exact fun perm => ⟨items', rfl, perm⟩
      · rintro ⟨_, is, perm⟩
        cases is
        exact perm
  | scalar _ | obj _ =>
      constructor
      · intro same
        rw [asSet, asSet, canonical_eq_iff (stringsDistinct _) distinct'] at same
        · have root := congrFun same []
          rw [meaning_nil, meaning_nil] at root
          cases root
        · simp
      · rintro ⟨_, is, -⟩
        cases is

theorem contains_arr_iff (merges : merged.contains name = true) {items : List Value}
    {live : Option Value} (distinct : Distinct (.arr items))
    (distinct' : ∀ l, live = some l → Distinct l) :
    contains (.arr items) live = true ↔ Fits name (.arr items) live := by
  rw [contains, decide_eq_true_eq, Fits, not_ordered merges]
  cases live with
  | none => simp
  | some l =>
      rw [Option.map_some, Option.some.injEq, asSet_arr_iff distinct (distinct' l rfl)]
      simp

theorem contains_scalar_iff (s : Scalar) (live : Option Value) :
    contains (.scalar s) live = true ↔ Fits name (.scalar s) live := by
  rw [Fits]
  cases live with
  | none => simp [contains]
  | some v =>
      cases v with
      | scalar t => simp [contains, eq_comm]
      | arr items => simp [contains]
      | obj fields => simp [contains]

theorem containsFields_iff {wanted live : Fields} : containsFields wanted live = true ↔
    ∀ key v, (key, some v) ∈ wanted → key = "apiKey" ∨ contains v (get live key) = true := by
  induction wanted with
  | nil => simp [containsFields]
  | cons field rest ih =>
      obtain ⟨other, none | w⟩ := field
      next => simp [containsFields, ih]
      next =>
        rw [containsFields, Bool.and_eq_true, Bool.or_eq_true, decide_eq_true_eq, ih]
        constructor
        · rintro ⟨first, later⟩ key v mem
          cases mem with
          | head => exact first
          | tail _ mem => exact later key v mem
        · intro all
          exact ⟨all other w (.head _), fun key v mem => all key v (.tail _ mem)⟩

/-- A value with nothing below it is one place of the comparison. -/
theorem fits_leaf {v : Value} (below : ∀ key path, under v (key :: path) = none)
    (live : Option Value) :
    (∀ path w, "apiKey" ∉ path → under v path = some w →
      Fits name w (live.bind fun u => under u path)) ↔ Fits name v live := by
  constructor
  · intro all
    have root := all [] v (by simp) (under_nil v)
    simp only [under_nil, Option.bind_fun_some] at root
    exact root
  · intro root path w _ is
    cases path with
    | cons key path => rw [below] at is; cases is
    | nil =>
        rw [under_nil] at is
        cases is
        simp only [under_nil, Option.bind_fun_some]
        exact root

/-- A merged setting matches where what it gives outside of keys fits. -/
theorem contains_iff (merges : merged.contains name = true) {v : Value} (distinct : Distinct v)
    {live : Option Value} (distinct' : ∀ l, live = some l → Distinct l) :
    contains v live = true ↔ ∀ path w, "apiKey" ∉ path → under v path = some w →
      Fits name w (live.bind fun u => under u path) := by
  induction v using Value.cases_of generalizing live with
  | scalar s => rw [fits_leaf (under_scalar s), contains_scalar_iff]
  | arr items ih => rw [fits_leaf (under_arr items), contains_arr_iff merges distinct distinct']
  | obj fields ih =>
      rw [Distinct, distinctFields_iff] at distinct
      constructor
      · intro matches_ path w plain is
        cases live with
        | none => cases matches_
        | some l =>
            cases l with
            | scalar _ | arr _ => cases matches_
            | obj live =>
                rw [contains, containsFields_iff] at matches_
                have names := distinct' _ rfl
                rw [Distinct, distinctFields_iff] at names
                cases path with
                | nil =>
                    cases is
                    exact ⟨live, rfl, fun whole => absurd (merges.symm.trans whole) (by decide)⟩
                | cons key path =>
                    rw [under_obj] at is
                    obtain ⟨v, found, is⟩ := Option.bind_eq_some_iff.mp is
                    have mem := mem_of_get found
                    rw [List.mem_cons, not_or] at plain
                    have below := (matches_ key v mem).resolve_left (Ne.symm plain.1)
                    rw [Option.bind_some, under_obj]
                    exact (ih key v mem (distinct.2 key v mem)
                      fun l at_ => names.2 key l (mem_of_get at_)).mp below path w plain.2 is
      · intro all
        obtain ⟨live, held, -⟩ := all [] _ (by simp) (under_nil _)
        simp only [under_nil, Option.bind_fun_some] at held
        subst held
        have names := distinct' _ rfl
        rw [Distinct, distinctFields_iff] at names
        rw [contains, containsFields_iff]
        intro key v mem
        by_cases skipped : key = "apiKey"
        next => exact .inl skipped
        next =>
          have found := get_of_mem distinct.1 mem
          refine .inr ((ih key v mem (distinct.2 key v mem)
            fun l at_ => names.2 key l (mem_of_get at_)).mpr fun path w plain is => ?_)
          have below := all (key :: path) w
            (by rw [List.mem_cons, not_or]; exact ⟨Ne.symm skipped, plain⟩)
            (by rw [under_obj, found, Option.bind_some, is])
          rwa [Option.bind_some, under_obj] at below

theorem node_of_meaning {v w : Value} (same : meaning v = meaning w) : node v = node w := by
  have root := congrFun same []
  rwa [meaning_nil, meaning_nil, Option.some.injEq] at root

theorem meaning_scalar_iff {s : Scalar} {l : Value} :
    meaning (.scalar s) = meaning l ↔ l = .scalar s := by
  constructor
  · intro same
    have root := node_of_meaning same
    cases l <;> cases root
    rfl
  · rintro rfl
    rfl

/-- Where a setting is compared neither as a set nor by its fields, it is by what it says. -/
theorem fits_iff_meaning (whole : merged.contains name = false) {v : Value}
    (inOrder : (∀ items, v ≠ .arr items) ∨ ordered.contains name = true) (live : Option Value) :
    Fits name v live ↔ ∃ l, live = some l ∧ meaning v = meaning l := by
  cases v with
  | scalar s => simp only [Fits, meaning_scalar_iff, exists_eq_right]
  | arr items =>
      simp only [Fits, if_pos (inOrder.resolve_left fun other => other items rfl)]
      constructor
      · rintro ⟨items', is, same⟩
        exact ⟨_, is, same.symm⟩
      · rintro ⟨l, is, same⟩
        cases l with
        | arr items' => exact ⟨items', is, same.symm⟩
        | scalar _ | obj _ => cases node_of_meaning same
  | obj fields =>
      rw [Fits]
      constructor
      · rintro ⟨fields', is, same⟩
        exact ⟨_, is, (same whole).symm⟩
      · rintro ⟨l, is, same⟩
        cases l with
        | obj fields' => exact ⟨fields', is, fun _ => same.symm⟩
        | scalar _ | arr _ => cases node_of_meaning same

theorem fits_whole (whole : ¬ merged.contains name = true) (v : Value) (live : Option Value) :
    (∀ path w, Within name path → "apiKey" ∉ path → under v path = some w →
      Fits name w (live.bind fun u => under u path)) ↔ Fits name v live := by
  constructor
  · intro all
    have root := all [] v (.inr rfl) (by simp) (under_nil v)
    simp only [under_nil, Option.bind_fun_some] at root
    exact root
  · rintro root path w (merges | rfl) _ is
    · exact absurd merges whole
    · rw [under_nil] at is
      cases is
      simp only [under_nil, Option.bind_fun_some]
      exact root

theorem asSet_other_iff {v l : Value} (other : ∀ items, v ≠ .arr items) (distinct : Distinct v)
    (distinct' : Distinct l) : canonical (asSet v) = canonical (asSet l) ↔ meaning v = meaning l := by
  have itself : asSet v = v := by
    cases v with
    | arr items => exact absurd rfl (other items)
    | scalar _ | obj _ => rfl
  rw [itself]
  cases l with
  | scalar _ | obj _ => exact canonical_eq_iff distinct distinct'
  | arr items =>
      rw [asSet, canonical_eq_iff distinct (stringsDistinct _)]
      cases v with
      | arr items => exact absurd rfl (other items)
      | scalar _ | obj _ =>
          constructor <;> intro same <;> cases node_of_meaning same

theorem some_eq_map {α β : Type} {f : α → β} {b : β} {l : Option α} :
    some b = l.map f ↔ ∃ a, l = some a ∧ b = f a := by
  rw [eq_comm, Option.map_eq_some_iff]
  exact exists_congr fun a => and_congr_right fun _ => eq_comm

/-- A setting matches where what it gives outside of keys fits. -/
theorem settingMatches_iff {v : Value} (distinct : Distinct v) {live : Option Value}
    (distinct' : ∀ l, live = some l → Distinct l) :
    settingMatches name v live = true ↔ ∀ path w, Within name path → "apiKey" ∉ path →
      under v path = some w → Fits name w (live.bind fun u => under u path) := by
  unfold settingMatches
  split
  next inOrder =>
    have whole : merged.contains name = false := by
      cases merges : merged.contains name with
      | false => rfl
      | true => rw [not_ordered merges] at inOrder; cases inOrder
    rw [fits_whole (by rw [whole]; decide), fits_iff_meaning whole (.inr inOrder),
      decide_eq_true_eq, some_eq_map]
    exact exists_congr fun l => and_congr_right fun is =>
      canonical_eq_iff distinct (distinct' l is)
  next unordered =>
    split
    next merges =>
      rw [contains_iff merges distinct distinct']
      exact ⟨fun all path w _ => all path w, fun all path w => all path w (.inl merges)⟩
    next whole =>
      rw [fits_whole whole, decide_eq_true_eq, some_eq_map]
      cases v with
      | arr items =>
          simp only [Fits, if_neg unordered]
          constructor
          · rintro ⟨l, is, same⟩
            obtain ⟨items', rfl, perm⟩ := (asSet_arr_iff distinct (distinct' l is)).mp same
            exact ⟨items', is, perm⟩
          · rintro ⟨items', is, perm⟩
            exact ⟨_, is, (asSet_arr_iff distinct (distinct' _ is)).mpr ⟨items', rfl, perm⟩⟩
      | scalar _ | obj _ =>
          rw [fits_iff_meaning (Bool.not_eq_true _ ▸ whole) (.inl (by simp))]
          exact exists_congr fun l => and_congr_right fun is =>
            asSet_other_iff (by simp) distinct (distinct' l is)

end Comparison

/-! The comparison and what sending a value changes. -/

section Places

variable {rules : Rules} {name : String} {path : List String}

theorem meaning_of_shown {u : Value} {m : Meaning} (is : shown rules name path u = .value m) :
    meaning u = m := by
  cases u with
  | scalar s => exact Shown.value.inj is
  | arr items =>
      rw [shown] at is
      split at is
      next => cases is
      next => exact Shown.value.inj is
  | obj fields =>
      rw [shown] at is
      split at is
      next => cases is
      next => exact Shown.value.inj is

theorem obj_of_shown {u : Value} (is : shown rules name path u = .fields) :
    ∃ fields, u = .obj fields := by
  cases u with
  | scalar s => cases is
  | arr items => exact absurd is (shown_arr_ne rules path items)
  | obj fields => exact ⟨fields, rfl⟩

theorem arr_of_shown {u : Value} {s : Set Meaning} (is : shown rules name path u = .set s) :
    ∃ items, u = .arr items ∧ entries items = s := by
  cases u with
  | scalar s => cases is
  | arr items =>
      rw [shown] at is
      split at is
      next => exact ⟨items, rfl, Shown.set.inj is⟩
      next => cases is
  | obj fields =>
      rw [shown] at is
      split at is <;> cases is

theorem meaning_items {items items' : List Value} (same : meaning (.arr items) = meaning (.arr items')) :
    items.map meaning = items'.map meaning := by
  have length : items.length = items'.length := Node.arr.inj (node_of_meaning same)
  refine List.ext_getElem (by simpa using length) fun i lt lt' => ?_
  rw [List.getElem_map, List.getElem_map]
  funext path
  have here := congrFun same (.index i :: path)
  rw [List.length_map] at lt lt'
  rwa [meaning_index, meaning_index, List.getElem?_eq_getElem lt,
    List.getElem?_eq_getElem lt'] at here

theorem once_iff {items : List Value} : Once items ↔ (items.map meaning).Nodup :=
  List.pairwise_map.symm

theorem entries_eq_iff {items items' : List Value} :
    entries items = entries items' ↔ ∀ m, m ∈ items.map meaning ↔ m ∈ items'.map meaning := by
  simp only [List.mem_map]
  exact Set.ext_iff

theorem free_of_plain (plain : "apiKey" ∉ path) : owned name path = false := by
  cases own : owned name path with
  | false => rfl
  | true => exact absurd (mem_of_owned own) plain

/-- What is kept as a set is not compared in order. -/
theorem unordered_of_isSet (within : Within name path) (set : rules.isSet (name :: path) = true) :
    ordered.contains name = false := by
  cases inOrder : ordered.contains name with
  | false => rfl
  | true =>
      rcases within with merges | rfl
      · rw [not_ordered merges] at inOrder
        cases inOrder
      · rw [rules.isSet_ordered name inOrder] at set
        cases set

variable {w : Value} {live : Option Value}
  (reported : ∀ u, live = some u → Reported rules name path u)

include reported

/-- What fits is reported as it is given. -/
theorem Fits.lasting (within : Within name path) (fits : Fits name w live) :
    Lasting rules name path w := by
  cases w with
  | obj fields => trivial
  | scalar s =>
      cases s with
      | bool _ | num _ | str _ => trivial
      | null =>
          have default := (reported _ fits).null [] (.inr rfl) rfl
          rwa [List.append_nil] at default
  | arr items =>
      intro set
      obtain ⟨items', is, perm⟩ := fits
      rw [if_neg (by rw [unordered_of_isSet within set]; decide)] at perm
      have once := (reported _ is).once [] items' (.inr rfl) rfl (by rwa [List.append_nil])
      rw [once_iff] at once ⊢
      exact perm.nodup_iff.mpr once

/-- What fits stays as it is, where a list that is kept in order is held in the order given,
and an object that replaces what is held gives every field of it. -/
theorem Fits.settled (within : Within name path) (fits : Fits name w live)
    (inOrder : ∀ items, w = .arr items → rules.isSet (name :: path) = false →
      live.map meaning = some (meaning w))
    (whole : ∀ fields, w = .obj fields → Replaced rules name path → ∀ key, get fields key = none →
      Agree rules name (path ++ [key]) none (get (fieldsOf live) key)) :
    Settled rules name path w live := by
  cases w with
  | scalar s =>
      rw [Fits] at fits
      cases s with
      | bool _ | num _ | str _ => exact fun _ => by rw [fits]; rfl
      | null =>
          have default := (reported _ fits).null [] (.inr rfl) rfl
          rw [List.append_nil] at default
          rw [Settled, default, fits]
          exact fun _ _ _ => rfl
  | arr items =>
      intro _
      obtain ⟨items', is, same⟩ := fits
      rw [is, Option.map_some, shown, shown]
      split
      next set =>
        rw [if_neg (by rw [unordered_of_isSet within set]; decide)] at same
        rw [entries_eq_iff.mpr fun m => same.symm.mem_iff]
      next list =>
        have equal := inOrder items rfl (Bool.not_eq_true _ ▸ list)
        rw [is, Option.map_some, Option.some.injEq] at equal
        rw [equal]
  | obj fields =>
      refine ⟨fun _ => ?_, whole fields rfl⟩
      obtain ⟨fields', is, same⟩ := fits
      rw [is, Option.map_some, shown, shown]
      split
      next => rfl
      next other => rw [same (Bool.not_eq_true _ ▸ other)]

/-- What stays as it is and is reported as it is given fits. -/
theorem Settled.fits (plain : "apiKey" ∉ path) (within : Within name path)
    (settled : Settled rules name path w live) (lasting : Lasting rules name path w) :
    Fits name w live := by
  have free : owned name path = false := free_of_plain plain
  have scalar {s : Scalar} (same : live.map (shown rules name path) =
      some (shown rules name path (.scalar s))) : Fits name (.scalar s) live := by
    obtain ⟨u, is, equal⟩ := Option.map_eq_some_iff.mp same
    rw [Fits, is, meaning_scalar_iff.mp (meaning_of_shown equal).symm]
  cases w with
  | scalar s =>
      cases s with
      | bool _ | num _ | str _ => exact scalar (settled free)
      | null =>
          rw [Settled, show rules.reset (name :: path) = some .null from lasting] at settled
          have root := settled [] (.inr rfl) (by rwa [List.append_nil])
          simp only [under_nil, Option.bind_fun_some, List.append_nil] at root
          exact scalar root.symm
  | arr items =>
      obtain ⟨u, is, equal⟩ := Option.map_eq_some_iff.mp (settled free)
      rw [shown] at equal
      split at equal
      next set =>
        obtain ⟨items', rfl, same⟩ := arr_of_shown equal
        have once := (reported _ is).once [] items' (.inr rfl) rfl (by rwa [List.append_nil])
        rw [entries_eq_iff] at same
        refine ⟨items', is, ?_⟩
        rw [if_neg (by rw [unordered_of_isSet within set]; decide),
          List.perm_ext_iff_of_nodup (once_iff.mp (lasting set)) (once_iff.mp once)]
        exact fun m => (same m).symm
      next =>
        have same := meaning_of_shown equal
        cases u with
        | scalar _ | obj _ => cases node_of_meaning same
        | arr items' =>
            refine ⟨items', is, ?_⟩
            split
            next => exact same
            next => exact .of_eq (meaning_items same).symm
  | obj fields =>
      obtain ⟨u, is, equal⟩ := Option.map_eq_some_iff.mp (settled.1 free)
      rw [shown] at equal
      split at equal
      next merges =>
        obtain ⟨fields', rfl⟩ := obj_of_shown equal
        exact ⟨fields', is, fun whole => absurd (merges.symm.trans whole) (by decide)⟩
      next =>
        have same := meaning_of_shown equal
        cases u with
        | scalar _ | arr _ => cases node_of_meaning same
        | obj fields' => exact ⟨fields', is, fun _ => same⟩

end Places

end NxgtData.Meilisearch
