import Mathlib.Logic.Function.Basic
import NxgtData.Meilisearch.Compared

/-!
A sync of an index's settings: it sends what differs. What is sent is exactly what would
change, and a second sync sends nothing, where no set repeats an entry, no null stands for
another default, and no change is hidden by a field that is named like an embedder's key.
-/
namespace NxgtData.Meilisearch

open Plain

/-- The settings of a definition. -/
structure Wanted where
  entries : Fields
  names : (entries.map Prod.fst).Nodup
  distinct : ∀ name v, (name, some v) ∈ entries → Distinct v

namespace Server

variable (server : Server)

/-- A report of the settings by name. -/
structure Report where
  get : String → Option Value
  reported : ∀ name v, get name = some v → Reported server.toRules name [] v

/-- What is reported after `updateSettings(update)`. -/
def updateSettings (live : String → Option Value) (update : List (String × Value)) :
    String → Option Value :=
  update.foldl
    (fun live setting =>
      Function.update live setting.1 (server.store setting.1 (live setting.1) setting.2))
    live

/-- The settings of `syncIndexFor`: the update sent, and what is reported then. -/
def syncSettings (wanted : Wanted) (live : String → Option Value) :
    List (String × Value) × (String → Option Value) :=
  let update := diffSettings wanted.entries live
  (update, if update.length > 0 then server.updateSettings live update else live)

end Server

/-- A sync names the settings that sending would change and no other, sends no undefined
field, and sends nothing once more. -/
structure Exact (server : Server) (wanted : Wanted) (live : server.Report) : Prop where
  names : ∀ name v, (name, some v) ∈ wanted.entries →
    (name ∈ (diffSettings wanted.entries live.get).map Prod.fst ↔
      Changes server.toRules name (live.get name)
        (server.store name (live.get name) (withoutUndefined v)))
  defined : ∀ name v, (name, v) ∈ diffSettings wanted.entries live.get → Defined v
  again : (server.syncSettings wanted (server.syncSettings wanted live.get).2).1 = []

/-- Outside of fields named `apiKey` the comparison finds what is given. -/
def Fitting (name : String) (wanted : Value) (live : Option Value) : Prop :=
  ∀ path w, Within name path → "apiKey" ∉ path → under wanted path = some w →
    Fits name w (live.bind fun u => under u path)

/-- A setting the comparison is right about: outside of fields named `apiKey` no set repeats
an entry and no null stands for another default; and where what is given is found there, a
list that is kept in order is held in that order, an object that is replaced is held with no
other field, and nothing given below such a field would change the report. -/
structure Clear (server : Server) (name : String) (wanted : Value) (live : Option Value) :
    Prop where
  lasting : ∀ path w, Within name path → "apiKey" ∉ path → under wanted path = some w →
    Lasting server.toRules name path w
  inOrder : Fitting name wanted live → ∀ path items, Within name path → "apiKey" ∉ path →
    under wanted path = some (.arr items) → server.isSet (name :: path) = false →
      (live.bind fun u => under u path).map meaning = some (meaning (.arr items))
  whole : Fitting name wanted live → ∀ path fields, Within name path → "apiKey" ∉ path →
    under wanted path = some (.obj fields) → Replaced server.toRules name path →
      ∀ key, get fields key = none → Agree server.toRules name (path ++ [key]) none
        (get (fieldsOf (live.bind fun u => under u path)) key)
  keys : Fitting name wanted live → ∀ path w, Within name path → "apiKey" ∈ path →
    under wanted path = some w →
      Settled server.toRules name path w (live.bind fun u => under u path)

/-! What is sent. -/

theorem mem_diffSettings {wanted : Fields} {live : String → Option Value} {name : String}
    {u : Value} : (name, u) ∈ diffSettings wanted live ↔
      ∃ v, (name, some v) ∈ wanted ∧ settingMatches name v (live name) = false ∧ u = kept v := by
  rw [diffSettings, List.mem_filterMap]
  constructor
  · rintro ⟨⟨other, none | v⟩, mem, is⟩
    · cases is
    · dsimp only at is
      split at is
      next => cases is
      next differs =>
        cases is
        exact ⟨v, mem, Bool.not_eq_true _ ▸ differs, rfl⟩
  · rintro ⟨v, mem, differs, rfl⟩
    refine ⟨(name, some v), mem, ?_⟩
    dsimp only
    rw [if_neg (by rw [differs]; decide)]

theorem diffSettings_names {wanted : Fields} (nodup : (wanted.map Prod.fst).Nodup)
    (live : String → Option Value) : ((diffSettings wanted live).map Prod.fst).Nodup := by
  induction wanted with
  | nil => exact List.nodup_nil
  | cons setting rest ih =>
      rw [List.map_cons, List.nodup_cons] at nodup
      have later := ih nodup.2
      rw [diffSettings, List.filterMap_cons]
      split
      next => exact later
      next u sent =>
        rw [List.map_cons, List.nodup_cons]
        refine ⟨fun mem => ?_, later⟩
        have first : u.1 = setting.1 := by
          obtain ⟨name, none | v⟩ := setting
          next => cases sent
          next =>
            dsimp only at sent
            split at sent <;> cases sent
            rfl
        obtain ⟨⟨name, w⟩, there, same⟩ := List.mem_map.mp mem
        obtain ⟨v, given, -, -⟩ := mem_diffSettings.mp there
        refine nodup.1 (List.mem_map.mpr ⟨_, given, ?_⟩)
        rw [← first, ← same]

variable {server : Server}

theorem updateSettings_other {live : String → Option Value} {update : List (String × Value)}
    {name : String} (absent : name ∉ update.map Prod.fst) :
    server.updateSettings live update name = live name := by
  induction update generalizing live with
  | nil => rfl
  | cons setting rest ih =>
      rw [List.map_cons, List.mem_cons, not_or] at absent
      rw [Server.updateSettings, List.foldl_cons]
      exact (ih absent.2).trans (Function.update_of_ne absent.1 _ _)

theorem updateSettings_sent {live : String → Option Value} {update : List (String × Value)}
    (nodup : (update.map Prod.fst).Nodup) {name : String} {v : Value} (mem : (name, v) ∈ update) :
    server.updateSettings live update name = server.store name (live name) v := by
  induction update generalizing live with
  | nil => cases mem
  | cons setting rest ih =>
      rw [List.map_cons, List.nodup_cons] at nodup
      rw [Server.updateSettings, List.foldl_cons]
      cases mem with
      | head => exact (updateSettings_other nodup.1).trans (Function.update_self _ _ _)
      | tail _ mem =>
          have other : name ≠ setting.1 := by
            rintro rfl
            exact nodup.1 (List.mem_map.mpr ⟨_, mem, rfl⟩)
          refine (ih nodup.2 mem).trans ?_
          rw [Function.update_of_ne other]

theorem syncSettings_after (wanted : Wanted) (live : String → Option Value) :
    (server.syncSettings wanted live).2 =
      server.updateSettings live (diffSettings wanted.entries live) := by
  simp only [Server.syncSettings]
  split
  next => rfl
  next none =>
    rw [List.length_eq_zero_iff.mp (Nat.eq_zero_of_not_pos none)]
    rfl

theorem syncSettings_matching {wanted : Wanted} {live : String → Option Value} {name : String}
    {v : Value} (given : (name, some v) ∈ wanted.entries)
    (same : settingMatches name v (live name) = true) :
    (server.syncSettings wanted live).2 name = live name := by
  rw [syncSettings_after]
  refine updateSettings_other fun mem => ?_
  obtain ⟨⟨other, u⟩, there, rfl⟩ := List.mem_map.mp mem
  obtain ⟨w, given', differs, -⟩ := mem_diffSettings.mp there
  have twice : some v = some w :=
    (get_of_mem wanted.names given).symm.trans (get_of_mem wanted.names given')
  cases twice
  rw [same] at differs
  cases differs

theorem syncSettings_differing {wanted : Wanted} {live : String → Option Value} {name : String}
    {v : Value} (given : (name, some v) ∈ wanted.entries)
    (differs : settingMatches name v (live name) = false) :
    (server.syncSettings wanted live).2 name = server.store name (live name) (kept v) := by
  rw [syncSettings_after]
  exact updateSettings_sent (diffSettings_names wanted.names live)
    (mem_diffSettings.mpr ⟨v, given, differs, rfl⟩)

/-! What is stored of the value sent. -/

theorem shown_kept (rules : Rules) (name : String) (path : List String) {w : Value}
    (distinct : Distinct w) : shown rules name path (kept w) = shown rules name path w := by
  have equal : meaning (kept w) = meaning w := meaning_kept distinct
  cases w with
  | scalar s => rfl
  | obj fields =>
      rw [kept] at equal ⊢
      rw [shown, shown, equal]
  | arr items =>
      rw [Distinct, distinctItems_iff] at distinct
      rw [kept] at equal ⊢
      have each : (items.map kept).map meaning = items.map meaning := by
        rw [List.map_map]
        exact List.map_congr_left fun v mem => meaning_kept (distinct v mem)
      have sets : entries (keptItems items) = entries items :=
        entries_eq_iff.mpr fun m => by rw [keptItems_eq, each]
      rw [shown, shown, equal, sets]

theorem settled_kept {rules : Rules} {name : String} {path : List String} {w : Value}
    (distinct : Distinct w) (live : Option Value) :
    Settled rules name path (kept w) live ↔ Settled rules name path w live := by
  have same := shown_kept rules name path distinct
  cases w with
  | scalar s => rfl
  | arr items =>
      rw [kept] at same ⊢
      rw [Settled, Settled, same] <;> simp
  | obj fields =>
      rw [Distinct] at distinct
      rw [kept] at same ⊢
      rw [Settled, Settled, same]
      simp only [get_kept fields _ distinct.1, Option.map_eq_none_iff]

/-- Sending a value leaves the report as it is where it leaves every place so. -/
theorem not_changes_iff {name : String} {v : Value} (distinct : Distinct v) (live : Option Value) :
    ¬ Changes server.toRules name live (server.store name live (kept v)) ↔
      ∀ path w, Within name path → under v path = some w →
        Settled server.toRules name path w (live.bind fun u => under u path) := by
  rw [Changes, not_not, agree_store_iff server (kept_distinct distinct)]
  constructor
  · intro all path w within is
    rw [← settled_kept (under_distinct distinct is)]
    exact all path (kept w) within (by rw [under_kept distinct, is]; rfl)
  · intro all path w within is
    rw [under_kept distinct] at is
    obtain ⟨u, there, rfl⟩ := Option.map_eq_some_iff.mp is
    rw [settled_kept (under_distinct distinct there)]
    exact all path u within there

/-- What is stored at a place leaves nothing to change there. -/
theorem settled_merge {name : String} {path : List String} {w : Value} (distinct : Distinct w)
    (merges : merged.contains name = true) (held : Option Value) :
    Settled server.toRules name path w (server.merge (name :: path) (kept w) held) := by
  have same := shown_kept server.toRules name path distinct
  cases w with
  | scalar s =>
      cases s with
      | null => exact fun _ _ _ => rfl
      | bool _ | num _ | str _ => exact fun _ => rfl
  | arr items =>
      rw [kept] at same ⊢
      intro _
      rw [Server.merge, Option.map_some, shown_keep, same]
  | obj fields =>
      rw [Distinct] at distinct
      rw [kept, merge_obj]
      refine ⟨fun _ => ?_, fun replaced key absent => ?_⟩
      · rw [Option.map_some, shown_obj _ merges, shown_obj _ merges]
      · rw [fieldsOf, get_merged server (keptFields_nodup distinct.1), get_kept fields _ distinct.1,
          absent]
        dsimp only [Option.map_none]
        rw [replaced.2]
        exact fun _ _ _ => rfl

theorem settled_store {name : String} {v : Value} (distinct : Distinct v) (held : Option Value)
    {path : List String} {w : Value} (within : Within name path) (is : under v path = some w) :
    Settled server.toRules name path w
      ((server.store name held (kept v)).bind fun u => under u path) := by
  unfold Server.store
  split
  next merges =>
    have sent : under (kept v) path = some (kept w) := by
      rw [under_kept distinct, is]
      rfl
    rw [merge_under server (kept_distinct distinct) sent []]
    exact settled_merge (under_distinct distinct is) merges _
  next whole =>
    obtain rfl := within.resolve_left whole
    rw [under_nil] at is
    cases is
    simp only [under_nil, Option.bind_fun_some]
    have same := shown_kept server.toRules name [] distinct
    cases v with
    | scalar s =>
        cases s with
        | null => exact fun _ _ _ => rfl
        | bool _ | num _ | str _ => exact fun _ => rfl
    | obj fields =>
        rw [kept] at same ⊢
        exact ⟨fun _ => congrArg some same, fun replaced => absurd replaced.1 whole⟩
    | arr items =>
        rw [kept] at same ⊢
        intro _
        rw [Option.map_some, shown_keep, same]

/-! The comparison of a report. -/

theorem Reported.below {rules : Rules} {name : String}
    (merges : merged.contains name = true) {path base : List String} {v w : Value}
    (reported : Reported rules name base v) (is : under v path = some w) :
    Reported rules name (base ++ path) w := by
  induction path generalizing base v with
  | nil =>
      cases is
      rwa [List.append_nil]
  | cons key path ih =>
      cases v with
      | scalar s => cases is
      | arr items => cases is
      | obj fields =>
          rw [under_obj] at is
          obtain ⟨u, found, is⟩ := Option.bind_eq_some_iff.mp is
          rw [List.append_cons]
          exact ih (reported.field merges found) is

theorem Reported.place {rules : Rules} {name : String} {v : Value}
    (reported : Reported rules name [] v) {path : List String} (within : Within name path)
    {w : Value} (is : under v path = some w) : Reported rules name path w := by
  rcases within with merges | rfl
  · exact reported.below merges is
  · cases is
    exact reported

theorem Reported.held {rules : Rules} {name : String} {live : Option Value}
    (reported : ∀ u, live = some u → Reported rules name [] u) {path : List String}
    (within : Within name path) (u : Value)
    (is : (live.bind fun u => under u path) = some u) : Reported rules name path u := by
  obtain ⟨root, at_, is⟩ := Option.bind_eq_some_iff.mp is
  exact (reported root at_).place within is

/-- A reported setting matches where what it gives outside of keys is found. -/
theorem matches_iff {name : String} {v : Value} (distinct : Distinct v) {live : Option Value}
    (reported : ∀ u, live = some u → Reported server.toRules name [] u) :
    settingMatches name v live = true ↔ Fitting name v live :=
  settingMatches_iff distinct fun l is => (reported l is).distinct

/-- A setting that was sent matches then exactly when it is reported as it was given. -/
theorem matches_stored_iff {name : String} {v : Value} (distinct : Distinct v)
    {live : Option Value} (reported : ∀ u, live = some u → Reported server.toRules name [] u) :
    settingMatches name v (server.store name live (kept v)) = true ↔
      ∀ path w, Within name path → "apiKey" ∉ path → under v path = some w →
        Lasting server.toRules name path w := by
  have stored : ∀ u, server.store name live (kept v) = some u →
      Reported server.toRules name [] u := fun u is =>
    store_reported server (kept_distinct distinct) (kept_defined v) reported is
  rw [matches_iff distinct stored]
  constructor
  · intro fitting path w within plain is
    exact (fitting path w within plain is).lasting (Reported.held stored within) within
  · intro lasting path w within plain is
    exact (settled_store distinct live within is).fits (Reported.held stored within) plain within
      (lasting path w within plain is)

/-- The second sync sends nothing exactly when every setting is reported as it is given. -/
theorem again_iff (wanted : Wanted) (live : server.Report) :
    (server.syncSettings wanted (server.syncSettings wanted live.get).2).1 = [] ↔
      ∀ name v, (name, some v) ∈ wanted.entries →
        ∀ path w, Within name path → "apiKey" ∉ path → under v path = some w →
          Lasting server.toRules name path w := by
  have empty : (server.syncSettings wanted (server.syncSettings wanted live.get).2).1 = [] ↔
      ∀ name v, (name, some v) ∈ wanted.entries →
        settingMatches name v ((server.syncSettings wanted live.get).2 name) = true := by
    rw [List.eq_nil_iff_forall_not_mem]
    constructor
    · intro none name v given
      cases same : settingMatches name v ((server.syncSettings wanted live.get).2 name) with
      | true => rfl
      | false => exact absurd (mem_diffSettings.mpr ⟨v, given, same, rfl⟩) (none _)
    · rintro all ⟨name, u⟩ mem
      obtain ⟨v, given, differs, -⟩ := mem_diffSettings.mp mem
      rw [all name v given] at differs
      cases differs
  rw [empty]
  refine forall_congr' fun name => forall_congr' fun v => forall_congr' fun given => ?_
  have distinct := wanted.distinct name v given
  cases differs : settingMatches name v (live.get name) with
  | false =>
      rw [syncSettings_differing given differs]
      exact matches_stored_iff distinct (live.reported name)
  | true =>
      rw [syncSettings_matching given differs, differs]
      refine iff_of_true rfl fun path w within plain is => ?_
      exact ((matches_iff distinct (live.reported name)).mp differs path w within plain is).lasting
        (Reported.held (live.reported name) within) within

theorem named_iff {wanted : Wanted} {live : String → Option Value} {name : String} {v : Value}
    (given : (name, some v) ∈ wanted.entries) :
    name ∈ (diffSettings wanted.entries live).map Prod.fst ↔
      ¬ settingMatches name v (live name) = true := by
  rw [Bool.not_eq_true]
  constructor
  · intro mem
    obtain ⟨⟨other, u⟩, there, rfl⟩ := List.mem_map.mp mem
    obtain ⟨w, given', differs, -⟩ := mem_diffSettings.mp there
    have twice : some v = some w :=
      (get_of_mem wanted.names given).symm.trans (get_of_mem wanted.names given')
    cases twice
    exact differs
  · intro differs
    exact List.mem_map.mpr ⟨_, mem_diffSettings.mpr ⟨v, given, differs, rfl⟩, rfl⟩

/-- Of a setting that is found as it is given, sending it changes nothing exactly when the
comparison is right about it. -/
theorem clear_iff {name : String} {v : Value} {live : Option Value}
    (reported : ∀ u, live = some u → Reported server.toRules name [] u) :
    Clear server name v live ↔
      (∀ path w, Within name path → "apiKey" ∉ path → under v path = some w →
        Lasting server.toRules name path w) ∧
      (Fitting name v live → ∀ path w, Within name path → under v path = some w →
        Settled server.toRules name path w (live.bind fun u => under u path)) := by
  constructor
  · intro clear
    refine ⟨clear.lasting, fun fitting path w within is => ?_⟩
    by_cases keyed : "apiKey" ∈ path
    · exact clear.keys fitting path w within keyed is
    · refine (fitting path w within keyed is).settled (Reported.held reported within) within ?_ ?_
      · rintro items rfl list
        exact clear.inOrder fitting path items within keyed is list
      · rintro fields rfl replaced
        exact clear.whole fitting path fields within keyed is replaced
  · rintro ⟨lasting, settled⟩
    refine ⟨lasting, fun fitting path items within plain is list => ?_,
      fun fitting path fields within plain is => ?_,
      fun fitting path w within _ is => settled fitting path w within is⟩
    · have shows := settled fitting path _ within is (free_of_plain plain)
      obtain ⟨u, held, equal⟩ := Option.map_eq_some_iff.mp shows
      rw [shown, if_neg (by rw [list]; decide)] at equal
      rw [held, Option.map_some, meaning_of_shown equal]
    · exact (settled fitting path _ within is).2

/-- A sync is exact exactly when the comparison is right about every setting. -/
theorem exact_iff (wanted : Wanted) (live : server.Report) :
    Exact server wanted live ↔ ∀ name v, (name, some v) ∈ wanted.entries →
      Clear server name v (live.get name) := by
  have unchanged {name : String} {v : Value} (given : (name, some v) ∈ wanted.entries) :=
    @not_changes_iff server name v (wanted.distinct name v given) (live.get name)
  have same {name : String} {v : Value} (given : (name, some v) ∈ wanted.entries) :=
    matches_iff (wanted.distinct name v given) (live.reported name)
  constructor
  · intro exact_ name v given
    rw [clear_iff (live.reported name)]
    refine ⟨(again_iff wanted live).mp exact_.again name v given, fun fitting => ?_⟩
    have unnamed : ¬ name ∈ (diffSettings wanted.entries live.get).map Prod.fst := by
      rw [named_iff given, not_not]
      exact (same given).mpr fitting
    rw [exact_.names name v given] at unnamed
    exact (unchanged given).mp unnamed
  · intro clear
    refine ⟨fun name v given => ?_, fun name u mem => ?_, ?_⟩
    · have clear := (clear_iff (live.reported name)).mp (clear name v given)
      rw [named_iff given, same given, ← not_not (a := Changes _ _ _ _), unchanged given]
      refine not_congr ⟨clear.2, fun settled path w within plain is => ?_⟩
      exact (settled path w within is).fits (Reported.held (live.reported name) within) plain within
        (clear.1 path w within plain is)
    · obtain ⟨v, -, -, rfl⟩ := mem_diffSettings.mp mem
      exact kept_defined v
    · exact (again_iff wanted live).mpr fun name v given => (clear name v given).lasting

open Classical in
/-- A server that merges at every depth and keeps every list but the three as a set, of equal
entries the last, and has no field at its default. -/
noncomputable def bareServer : Server where
  reset _ := none
  merges _ := true
  merges_merged _ _ := rfl
  merges_embedder _ := rfl
  merges_above _ _ _ _ := rfl
  isSet
    | [name] => !ordered.contains name
    | _ => true
  isSet_ordered name inOrder := by simp only [inOrder, Bool.not_true]
  isSet_other name inOrder _ := by simp only [inOrder, Bool.not_false]
  isSet_typos _ _ := rfl
  reset_reported _ _ _ is := by cases is
  arrange := List.pwFilter fun v w => meaning v ≠ meaning w
  arrange_subset := List.pwFilter_subset
  arrange_entries items := by
    refine Set.ext fun m => ⟨fun ⟨v, mem, is⟩ => ⟨v, List.pwFilter_subset _ mem, is⟩, ?_⟩
    rintro ⟨v, mem, rfl⟩
    by_contra absent
    have other : ∀ w ∈ items, meaning v ≠ meaning w := by
      rw [← List.forall_mem_pwFilter (R := fun v w => meaning v ≠ meaning w) (fun apart => ?_) v items]
      · exact fun w kept_ same => absent ⟨w, kept_, same.symm⟩
      · by_contra both
        rw [not_or, not_not, not_not] at both
        exact apart (both.1.trans both.2)
    exact other v mem rfl
  arrange_once := List.pairwise_pwFilter

/-- Stop words with an entry twice are sent again at every sync. -/
theorem stopWords_again :
    ¬ ∀ (server : Server) (wanted : Wanted) (live : server.Report), Exact server wanted live := by
  intro all
  have strings (texts : List String) :
      ∀ v ∈ texts.map Value.str, Distinct v ∧ Defined v := by
    rw [List.forall_mem_map]
    intro text _
    rw [Distinct, Defined]
    exact ⟨trivial, trivial⟩
  let words : Value := .arr (["a", "a"].map Value.str)
  let wanted : Wanted :=
    ⟨[("stopWords", some words)], by simp, fun name v mem => by
      simp only [List.mem_singleton, Prod.mk.injEq, Option.some.injEq] at mem
      rw [mem.2]
      exact stringsDistinct _⟩
  let live : bareServer.Report :=
    ⟨fun name => if name = "stopWords" then some (.arr (["a"].map Value.str)) else none,
      fun name v is => by
        split at is <;> cases is
        exact .arr (fun v mem => (strings _ v mem).1) (fun v mem => (strings _ v mem).2)
          fun _ => List.pairwise_singleton _ _⟩
  have lasting := (again_iff wanted live).mp (all bareServer wanted live).again "stopWords" words
    (.head _) [] words (.inr rfl) (by simp) rfl rfl
  exact (List.pairwise_cons.mp lasting).1 (.str "a") (.head _) rfl

end NxgtData.Meilisearch
