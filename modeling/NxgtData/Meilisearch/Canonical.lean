import NxgtData.Meilisearch.SettingsDiff

/-!
Canonical texts are equal exactly when the values say the same, and the texts of two arrays
as sets when the arrays hold the same values equally often.
-/
namespace NxgtData.Meilisearch

open Plain CodeUnits

/-! Sorting keeps the fields. -/

theorem sortedItems_eq (items : List Value) : sortedItems items = items.map sorted := by
  induction items with
  | nil => rfl
  | cons v rest ih => rw [sortedItems, ih, List.map_cons]

theorem sortedFields_eq (fields : Fields) :
    sortedFields fields = fields.map fun f => (f.1, f.2.map sorted) := by
  induction fields with
  | nil => rfl
  | cons field rest ih =>
      obtain ⟨name, none | v⟩ := field <;> rw [sortedFields, ih] <;> rfl

theorem sortedFields_names (fields : Fields) :
    (sortedFields fields).map Prod.fst = fields.map Prod.fst := by
  rw [sortedFields_eq, List.map_map]
  rfl

theorem fromEntries_perm (fields : Fields) : (fromEntries fields).Perm fields := by
  have split := List.filter_append_perm (fun f => (arrayIndex f.1).isSome) fields
  refine List.Perm.trans ?_ split
  refine (List.perm_insertionSort _ _).append (List.Perm.of_eq (List.filter_congr fun f _ => ?_))
  cases arrayIndex f.1 <;> rfl

/-- The fields of an object in the order `canonical` gives them. -/
def arranged (fields : Fields) : Fields := fromEntries ((sortedFields fields).insertionSort ByName)

theorem arranged_perm (fields : Fields) : (arranged fields).Perm (sortedFields fields) :=
  (fromEntries_perm _).trans (List.perm_insertionSort _ _)

theorem arranged_nodup {fields : Fields} (nodup : (fields.map Prod.fst).Nodup) :
    ((arranged fields).map Prod.fst).Nodup := by
  rw [((arranged_perm fields).map Prod.fst).nodup_iff, sortedFields_names]
  exact nodup

theorem mem_arranged {fields : Fields} {name : String} {value : Option Value} :
    (name, value) ∈ arranged fields ↔ ∃ v, (name, v) ∈ fields ∧ value = v.map sorted := by
  rw [(arranged_perm fields).mem_iff, sortedFields_eq, List.mem_map]
  constructor
  · rintro ⟨⟨other, v⟩, mem, is⟩
    cases is
    exact ⟨v, mem, rfl⟩
  · rintro ⟨v, mem, rfl⟩
    exact ⟨_, mem, rfl⟩

theorem get_arranged {fields : Fields} (nodup : (fields.map Prod.fst).Nodup) (name : String) :
    get (arranged fields) name = (get fields name).map sorted := by
  cases found : get fields name with
  | some v => exact get_of_mem (arranged_nodup nodup) (mem_arranged.mpr ⟨_, mem_of_get found, rfl⟩)
  | none =>
      cases there : get (arranged fields) name with
      | none => rfl
      | some w =>
          obtain ⟨v, mem, is⟩ := mem_arranged.mp (mem_of_get there)
          rw [get_of_mem nodup mem] at found
          rw [found] at is
          cases is

theorem sorted_distinct {v : Value} (distinct : Distinct v) : Distinct (sorted v) := by
  induction v using Value.cases_of with
  | scalar s => exact distinct
  | arr items ih =>
      rw [Distinct, distinctItems_iff] at distinct
      rw [sorted, Distinct, distinctItems_iff, sortedItems_eq, List.forall_mem_map]
      exact fun v mem => ih v mem (distinct v mem)
  | obj fields ih =>
      rw [Distinct, distinctFields_iff] at distinct
      rw [sorted, Distinct, distinctFields_iff]
      refine ⟨arranged_nodup distinct.1, fun name v mem => ?_⟩
      obtain ⟨w, given, is⟩ := mem_arranged.mp mem
      obtain ⟨u, rfl, rfl⟩ := Option.map_eq_some_iff.mp is.symm
      exact ih name u given (distinct.2 name u given)

theorem follow_sorted {v : Value} (distinct : Distinct v) (path : List Step) :
    follow (sorted v) path = (follow v path).map sorted := by
  induction v using Value.cases_of generalizing path with
  | scalar s =>
      cases path with
      | nil => rw [follow_nil, follow_nil]; rfl
      | cons step path => rw [sorted]; cases step <;> rfl
  | arr items ih =>
      rw [Distinct, distinctItems_iff] at distinct
      cases path with
      | nil => rw [follow_nil, follow_nil]; rfl
      | cons step path =>
          rw [sorted]
          cases step with
          | key name => rfl
          | index i =>
              rw [follow, follow, sortedItems_eq, List.getElem?_map]
              cases at_ : items[i]? with
              | none => rfl
              | some v =>
                  have mem := List.mem_of_getElem? at_
                  exact ih v mem (distinct v mem) path
  | obj fields ih =>
      rw [Distinct, distinctFields_iff] at distinct
      cases path with
      | nil => rw [follow_nil, follow_nil]; rfl
      | cons step path =>
          rw [sorted]
          cases step with
          | index i => rfl
          | key name =>
              rw [follow, follow]
              have there := get_arranged distinct.1 name
              rw [arranged] at there
              rw [there]
              cases found : get fields name with
              | none => rfl
              | some v =>
                  have mem := mem_of_get found
                  exact ih name v mem (distinct.2 name v mem) path

theorem meaning_sorted {v : Value} (distinct : Distinct v) : meaning (sorted v) = meaning v := by
  funext path
  rw [meaning, meaning, follow_sorted distinct, Option.map_map]
  congr 1
  funext w
  cases w with
  | scalar s => rfl
  | arr items => simp [sorted, node, sortedItems_eq]
  | obj fields => rfl

/-! The order is one. -/

/-- A field goes before another: array indexes first. -/
def Before (f g : String × Option Value) : Prop :=
  match arrayIndex f.1, arrayIndex g.1 with
  | some i, some j => i < j
  | some _, none => True
  | none, some _ => False
  | none, none => codeUnits f.1 < codeUnits g.1

instance : Std.Irrefl Before := ⟨fun f before => by
  unfold Before at before
  cases index : arrayIndex f.1 with
  | none =>
      rw [index] at before
      exact lt_irrefl _ before
  | some i =>
      rw [index] at before
      exact lt_irrefl _ before⟩

instance : Std.Antisymm Before := ⟨fun f g before after => by
  unfold Before at before after
  cases index : arrayIndex f.1 <;> cases index' : arrayIndex g.1 <;>
    rw [index, index'] at before after
  · exact absurd after (lt_asymm before)
  · exact before.elim
  · exact after.elim
  · exact absurd after (lt_asymm before)⟩

theorem arrayIndex_inj {s t : String} {i : Nat} (is : arrayIndex s = some i)
    (is' : arrayIndex t = some i) : s = t := by
  obtain ⟨-, named⟩ := Option.filter_eq_some_iff.mp is
  obtain ⟨-, named'⟩ := Option.filter_eq_some_iff.mp is'
  simp only [decide_eq_true_eq] at named named'
  rw [← named.1, named'.1]

instance : Std.Total ByName := ⟨fun _ _ => le_total _ _⟩

instance : IsTrans (String × Option Value) ByName := ⟨fun _ _ _ => le_trans⟩

instance : Std.Total ByIndex := ⟨fun _ _ => Nat.le_total _ _⟩

instance : IsTrans (String × Option Value) ByIndex := ⟨fun _ _ _ => Nat.le_trans⟩

theorem pairwise_names {fields : Fields} (nodup : (fields.map Prod.fst).Nodup) :
    fields.Pairwise fun f g => f.1 ≠ g.1 := List.pairwise_map.mp nodup

theorem fromEntries_pairwise {fields : Fields} (byName : fields.Pairwise ByName)
    (nodup : (fields.map Prod.fst).Nodup) : (fromEntries fields).Pairwise Before := by
  have perm := List.perm_insertionSort ByIndex
    (fields.filter fun f => (arrayIndex f.1).isSome)
  have names : (fromEntries fields).Pairwise fun f g => f.1 ≠ g.1 :=
    pairwise_names (((fromEntries_perm fields).map Prod.fst).nodup_iff.mpr nodup)
  rw [fromEntries] at names ⊢
  obtain ⟨indexes, others, -⟩ := List.pairwise_append.mp names
  refine List.pairwise_append.mpr ⟨?_, ?_, fun f mem g mem' => ?_⟩
  · refine (List.Pairwise.and indexes (List.pairwise_insertionSort ByIndex _)).imp_of_mem ?_
    intro f g mem mem' both
    obtain ⟨i, is⟩ := Option.isSome_iff_exists.mp (List.mem_filter.mp (perm.mem_iff.mp mem)).2
    obtain ⟨j, is'⟩ := Option.isSome_iff_exists.mp (List.mem_filter.mp (perm.mem_iff.mp mem')).2
    have le : i ≤ j := by simpa [ByIndex, is, is'] using both.2
    unfold Before
    rw [is, is']
    refine lt_of_le_of_ne le ?_
    rintro rfl
    exact both.1 (arrayIndex_inj is is')
  · refine (List.Pairwise.and others (byName.filter _)).imp_of_mem ?_
    intro f g mem mem' both
    have is := Option.isNone_iff_eq_none.mp (List.mem_filter.mp mem).2
    have is' := Option.isNone_iff_eq_none.mp (List.mem_filter.mp mem').2
    unfold Before
    rw [is, is']
    exact lt_of_le_of_ne both.2 fun same => both.1 (codeUnits_inj same)
  · obtain ⟨i, is⟩ := Option.isSome_iff_exists.mp (List.mem_filter.mp (perm.mem_iff.mp mem)).2
    have is' := Option.isNone_iff_eq_none.mp (List.mem_filter.mp mem').2
    unfold Before
    rw [is, is']
    trivial

theorem arranged_pairwise {fields : Fields} (nodup : (fields.map Prod.fst).Nodup) :
    (arranged fields).Pairwise Before := by
  refine fromEntries_pairwise (List.pairwise_insertionSort ByName _) ?_
  rw [((List.perm_insertionSort ByName _).map Prod.fst).nodup_iff, sortedFields_names]
  exact nodup

theorem keptFields_pairwise {fields : Fields} (pairwise : fields.Pairwise Before) :
    (keptFields fields).Pairwise Before := by
  induction fields with
  | nil => exact .nil
  | cons field rest ih =>
      obtain ⟨first, later⟩ := List.pairwise_cons.mp pairwise
      obtain ⟨name, none | v⟩ := field
      next => exact ih later
      next =>
        rw [keptFields, List.pairwise_cons]
        refine ⟨fun g mem => ?_, ih later⟩
        obtain ⟨other, value⟩ := g
        obtain ⟨w, given, -⟩ := mem_keptFields.mp mem
        exact first (other, some w) given

/-! What two values say. -/

theorem meaning_index (items : List Value) (i : Nat) (path : List Step) :
    meaning (.arr items) (.index i :: path) = items[i]?.bind fun v => meaning v path := by
  rw [meaning, follow, Option.map_bind]
  rfl

theorem meaning_key (fields : Fields) (name : String) (path : List Step) :
    meaning (.obj fields) (.key name :: path) = (get fields name).bind fun v => meaning v path := by
  rw [meaning, follow, Option.map_bind]
  rfl

theorem meaning_nil (v : Value) : meaning v [] = some (node v) := by
  rw [meaning, follow_nil]
  rfl

/-- Equal objects have a field's value under the same name. -/
theorem get_of_meaning {fields fields' : Fields}
    (same : meaning (.obj fields) = meaning (.obj fields')) {name : String} {v : Value}
    (is : get fields name = some v) : ∃ w, get fields' name = some w ∧ meaning v = meaning w := by
  have here (path : List Step) : (get fields' name).bind (fun w => meaning w path) = meaning v path := by
    rw [← meaning_key, ← same, meaning_key, is]
    rfl
  cases found : get fields' name with
  | none =>
      have root := here []
      rw [found, meaning_nil] at root
      cases root
  | some w =>
      refine ⟨w, rfl, funext fun path => ?_⟩
      rw [← here path, found]
      rfl

theorem sorted_of_meaning {v w : Value} (distinct : Distinct v) (distinct' : Distinct w)
    (same : meaning v = meaning w) : kept (sorted v) = kept (sorted w) := by
  induction v using Value.cases_of generalizing w with
  | scalar s =>
      have root := congrFun same []
      rw [meaning_nil, meaning_nil, Option.some.injEq] at root
      cases w <;> cases root
      rfl
  | arr items ih =>
      have root := congrFun same []
      rw [meaning_nil, meaning_nil, Option.some.injEq] at root
      cases w with
      | scalar s => cases root
      | obj fields => cases root
      | arr items' =>
          rw [Distinct, distinctItems_iff] at distinct distinct'
          rw [sorted, sorted, kept, kept, keptItems_eq, keptItems_eq, sortedItems_eq, sortedItems_eq,
            List.map_map, List.map_map, Value.arr.injEq]
          have length : items.length = items'.length := by simpa [node] using root
          refine List.ext_getElem (by simpa using length) fun i lt lt' => ?_
          rw [List.length_map] at lt lt'
          rw [List.getElem_map, List.getElem_map]
          refine ih _ (List.getElem_mem lt) (distinct _ (List.getElem_mem lt))
            (distinct' _ (List.getElem_mem lt')) (funext fun path => ?_)
          have here := congrFun same (.index i :: path)
          rw [meaning_index, meaning_index, List.getElem?_eq_getElem lt,
            List.getElem?_eq_getElem lt'] at here
          exact here
  | obj fields ih =>
      have root := congrFun same []
      rw [meaning_nil, meaning_nil, Option.some.injEq] at root
      cases w with
      | scalar s => cases root
      | arr items => cases root
      | obj fields' =>
          rw [Distinct, distinctFields_iff] at distinct distinct'
          rw [sorted, sorted, kept, kept, Value.obj.injEq]
          refine List.Pairwise.eq_of_mem_iff (keptFields_pairwise (arranged_pairwise distinct.1))
            (keptFields_pairwise (arranged_pairwise distinct'.1)) ?_
          have fieldOf (name : String) {v w : Value} (mem : (name, some v) ∈ fields)
              (mem' : (name, some w) ∈ fields') (same : meaning v = meaning w) :
              kept (sorted v) = kept (sorted w) :=
            ih name v mem (distinct.2 name v mem) (distinct'.2 name w mem') same
          rintro ⟨name, value⟩
          rw [mem_keptFields, mem_keptFields]
          constructor
          · rintro ⟨u, mem, rfl⟩
            obtain ⟨v, given, is⟩ := mem_arranged.mp mem
            obtain ⟨v, rfl, rfl⟩ := Option.map_eq_some_iff.mp is.symm
            obtain ⟨w, there, equal⟩ := get_of_meaning same (get_of_mem distinct.1 given)
            have given' := mem_of_get there
            exact ⟨sorted w, mem_arranged.mpr ⟨_, given', rfl⟩,
              congrArg some (fieldOf name given given' equal)⟩
          · rintro ⟨u, mem, rfl⟩
            obtain ⟨w, given', is⟩ := mem_arranged.mp mem
            obtain ⟨w, rfl, rfl⟩ := Option.map_eq_some_iff.mp is.symm
            obtain ⟨v, there, equal⟩ := get_of_meaning same.symm (get_of_mem distinct'.1 given')
            have given := mem_of_get there
            exact ⟨sorted v, mem_arranged.mpr ⟨_, given, rfl⟩,
              congrArg some (fieldOf name given given' equal.symm).symm⟩

/-- One text, one meaning: neither the order of fields nor undefined fields count. -/
theorem canonical_eq_iff {v w : Value} (distinct : Distinct v) (distinct' : Distinct w) :
    canonical v = canonical w ↔ meaning v = meaning w := by
  rw [canonical, canonical, stringify_eq_iff]
  constructor
  · intro same
    rw [← meaning_sorted distinct, ← meaning_sorted distinct', ← meaning_kept (sorted_distinct distinct),
      ← meaning_kept (sorted_distinct distinct'), same]
  · exact sorted_of_meaning distinct distinct'

/-! Arrays as sets. -/

theorem stringsDistinct (texts : List String) : Distinct (.arr (texts.map Value.str)) := by
  rw [Distinct, distinctItems_iff, List.forall_mem_map]
  intro text _
  rw [Distinct]
  trivial

theorem meaning_arr_inj {texts texts' : List String}
    (same : meaning (.arr (texts.map Value.str)) = meaning (.arr (texts'.map Value.str))) :
    texts = texts' := by
  have root := congrFun same []
  rw [meaning_nil, meaning_nil, Option.some.injEq] at root
  have length : texts.length = texts'.length := by simpa [node] using root
  refine List.ext_getElem length fun i lt lt' => ?_
  have here := congrFun same [.index i]
  rw [meaning_index, meaning_index, List.getElem?_eq_getElem (by simpa using lt),
    List.getElem?_eq_getElem (by simpa using lt')] at here
  simpa [meaning_nil, node] using here

/-- The canonical elements, sorted, are those of a list of the same elements. -/
theorem sortedTexts_iff {texts texts' : List String} :
    texts.insertionSort AtMost = texts'.insertionSort AtMost ↔ texts.Perm texts' := by
  constructor
  · intro same
    exact (List.perm_insertionSort AtMost texts).symm.trans
      (same ▸ List.perm_insertionSort AtMost texts')
  · intro perm
    refine List.Perm.eq_of_pairwise' (List.pairwise_insertionSort AtMost _)
      (List.pairwise_insertionSort AtMost _) ?_
    exact (List.perm_insertionSort _ _).trans (perm.trans (List.perm_insertionSort _ _).symm)

/-- Two labels of values that agree on which values are equal. -/
theorem perm_relabel {α β γ : Type} {f : α → β} {g : α → γ} {xs ys : List α}
    (agree : ∀ x ∈ xs, ∀ y ∈ ys, f x = f y → g x = g y) (perm : (xs.map f).Perm (ys.map f)) :
    (xs.map g).Perm (ys.map g) := by
  induction xs generalizing ys with
  | nil =>
      have none : ys = [] := List.map_eq_nil_iff.mp perm.symm.eq_nil
      rw [none]
  | cons x xs ih =>
      have there : f x ∈ ys.map f := perm.subset (.head _)
      obtain ⟨y, mem, same⟩ := List.mem_map.mp there
      obtain ⟨before, after, rfl⟩ := List.append_of_mem mem
      have front : (before ++ y :: after).Perm (y :: (before ++ after)) := List.perm_middle
      have rest : (xs.map f).Perm ((before ++ after).map f) := by
        have all := perm.trans (front.map f)
        rw [List.map_cons, List.map_cons, same] at all
        exact all.cons_inv
      refine List.Perm.trans ?_ (front.map g).symm
      rw [List.map_cons, List.map_cons, agree x (.head _) y mem same.symm]
      refine (ih (fun v here w there => ?_) rest).cons _
      exact agree v (.tail _ here) w (front.mem_iff.mpr (.tail _ there))

theorem canonical_perm {items items' : List Value} (distinct : ∀ v ∈ items, Distinct v)
    (distinct' : ∀ v ∈ items', Distinct v) :
    (items.map canonical).Perm (items'.map canonical) ↔
      (items.map meaning).Perm (items'.map meaning) := by
  constructor
  · exact perm_relabel fun v mem w mem' =>
      (canonical_eq_iff (distinct v mem) (distinct' w mem')).mp
  · exact perm_relabel fun v mem w mem' =>
      (canonical_eq_iff (distinct v mem) (distinct' w mem')).mpr

/-- As sets, two arrays are compared with their repeated entries. -/
theorem asSet_eq_iff {items items' : List Value} (distinct : ∀ v ∈ items, Distinct v)
    (distinct' : ∀ v ∈ items', Distinct v) :
    canonical (asSet (.arr items)) = canonical (asSet (.arr items')) ↔
      (items.map meaning).Perm (items'.map meaning) := by
  rw [asSet, asSet, canonical_eq_iff (stringsDistinct _) (stringsDistinct _),
    ← canonical_perm distinct distinct', ← sortedTexts_iff]
  constructor
  · exact meaning_arr_inj
  · intro same
    rw [same]

end NxgtData.Meilisearch
