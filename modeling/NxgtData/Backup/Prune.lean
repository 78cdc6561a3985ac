import NxgtData.Backup.Restore
import NxgtData.Backup.Retained

/-!
`prune`: every manifest is read, the plan says which backups go, and what is under their ids is
deleted key by key, the manifest first, with every old backup that never got one. Wherever it is
cut, a backup that is left has all its files, and what it builds on.
-/
namespace NxgtData.Backup
open Checked CodeUnits JsonText Retention

structure PruneOptions where
  keep : KeepPolicy
  dryRun : Bool
  incompleteAfter : Option Nat
  now : Option Int

structure Pruned where
  repository : String
  dryRun : Bool
  kept : List Decision
  removed : List Decision
  incomplete : List String
  unreadable : List String
  overSize : Bool
deriving DecidableEq

def DAY : Nat := 86400000

/-- What a prune meets, but for its repository. -/
structure Conditions where
  lease : Nat
  /-- `new Date()` when it starts, and `Date.now()` once it holds the lock. -/
  start : Int
  clock : Int
  /-- What `delete` rejected with. -/
  delete : Nat → Option Failure
  /-- Whether the stream of a manifest that did not read breaks when it is read again. -/
  torn : String → Bool
  /-- Whether `Date` takes 30 February for 2 March. -/
  rolls : Bool
  /-- The order that `sort` leaves where a time is none, which the runtime decides. -/
  unordered : List Candidate → List Candidate
  unordered_perm : ∀ candidates, (unordered candidates).Perm candidates

/-- What a prune is to do. -/
structure Decided where
  keys : List (String × String)
  unreadable : List String
  incomplete : List String
  kept : List Decision
  removed : List Decision
  overSize : Bool

section Pruning
variable (sys : System) (settings : Settings) (repository : Repository) (met : Conditions)

/-- The backup ids of these keys, in order. -/
def scan (keys : List (String × String)) : List String :=
  ((keys.map Prod.fst).filter fun id => isBackupId id).dedup.insertionSort AtMost

/-- The `parent` in a manifest's raw bytes, if it is an older id. -/
def rawParent (id : String) (bytes : Bytes) : Option String :=
  let value := parse (Utf8.decode (bytes.take MANIFEST_MAX_BYTES))
  (asText (value.bind fun value => value.field "parent")).filter fun parent =>
    isBackupId parent && Less parent id

def parentOfUnreadable (id : String) : Except Failure (Option String) := do
  match ← repository.get id MANIFEST with
  | none => pure none
  | some bytes => pure (if met.torn id then none else rawParent id bytes)

/-- What the plan sees of a backup whose manifest was read. -/
def candidate (id : String) (held : List String) (manifest : Manifest) : Candidate where
  id := id
  createdAt := manifest.createdAt
  storedSize := storedSize (manifest.catalog :: manifest.objects)
  parent := manifest.parent
  held := id ∈ held
  standIn := false

/-- What stands in for one whose manifest was not; where its id says no time, that decides the
order of the plan's sort, and nothing else. -/
def standIn (id : String) (parent : Option String) : Candidate where
  id := id
  createdAt := (timeOfId met.rolls id).getD 0
  storedSize := 0
  parent := parent
  held := true
  standIn := true

/-- The loop of `candidatesOf`: the candidates, and the ids that do not read. -/
def candidatesOf (held : List String) : List String →
    Except Failure (List Candidate × List String)
  | [] => .ok ([], [])
  | id :: rest =>
      match fetchManifest sys settings ⟨"prune", id, repository⟩ with
      | .ok manifest => (candidatesOf held rest).map fun others =>
          (candidate id held manifest :: others.1, others.2)
      | .error (.backup .notFound _) => candidatesOf held rest
      | .error (.backup .integrity _) | .error (.backup .signature _) => do
          let parent ← parentOfUnreadable repository met id
          (candidatesOf held rest).map fun others =>
            (standIn met id parent :: others.1, id :: others.2)
      | .error error => .error error

/-- A candidate whose time is one. -/
def Dated (c : Candidate) : Prop := c.standIn = true → (timeOfId met.rolls c.id).isSome

instance : DecidablePred (Dated met) := fun c =>
  inferInstanceAs (Decidable (c.standIn = true → (timeOfId met.rolls c.id).isSome))

/-- The candidates as the plan sorts them. -/
def sortedOf (candidates : List Candidate) : List Candidate :=
  if ∀ c ∈ candidates, Dated met c then sortNewest candidates else met.unordered candidates

/-- `checkOptions`: what `incompleteAfter` is. -/
def checkPruneOptions (options : PruneOptions) : Except Failure Nat := do
  match checkPolicy options.keep s!"prune on \"{sys.backup}\"" with
  | .error why => .error (.typeError why)
  | .ok _ => do
      let after := options.incompleteAfter.getD DAY
      require (after < 2 ^ 53 ∧ 2 * met.lease ≤ after) (Failure.typeError
        (s!"prune on \"{sys.backup}\": incompleteAfter must be a whole number of " ++
          "milliseconds, two lock leases at least"))
      pure after

def decidePrune (options : PruneOptions) (after : Nat) : Except Failure Decided := do
  let keys ← repository.list
  let complete := (scan keys).filter fun id => (id, MANIFEST) ∈ keys
  let held ← heldIds repository
  let (candidates, unreadable) ← candidatesOf sys settings repository met held complete
  let incomplete := (scan keys).filter fun id => (id, MANIFEST) ∉ keys ∧
    (timeOfId met.rolls id).any fun t => after ≤ met.clock - t
  let planned := planOf (sortedOf met candidates) options.keep (options.now.getD met.start)
  pure { keys, unreadable, incomplete
         kept := planned.kept.filter fun d => d.id ∉ unreadable
         removed := planned.removed.filter fun d => d.id ∉ unreadable
         overSize := planned.overSize }

/-- The keys under an id, its manifest first. -/
def ordered (keys : List (String × String)) (id : String) : List (String × String) :=
  let own := keys.filter fun key => key.1 = id
  (own.filter fun key => key.2 = MANIFEST) ++ own.filter fun key => key.2 ≠ MANIFEST

/-- All that is to be deleted, in this order. -/
def Decided.doomed (decided : Decided) : List (String × String) :=
  (decided.removed.map Decision.id ++ decided.incomplete).flatMap (ordered decided.keys)

/-- The deletes, from this one on, and what stopped them. -/
def removeAll : Nat → List (String × String) → List (String × String) × Except Failure Unit
  | _, [] => ([], .ok ())
  | n, key :: rest =>
      if repository.held n then
        match met.delete n with
        | some error => ([key], .error error)
        | none =>
            let (deleted, outcome) := removeAll (n + 1) rest
            (key :: deleted, outcome)
      else ([], .error (failure sys ⟨"prune", key.1, repository⟩ .leaseLost
        "the lock's lease ran out before it was done"))

def Decided.result (decided : Decided) (dryRun : Bool) : Pruned :=
  ⟨repository.name, dryRun, decided.kept, decided.removed, decided.incomplete, decided.unreadable,
    decided.overSize⟩

/-- The keys it deleted, or was deleting, and what came of it. -/
def pruneBackups (options : PruneOptions) :
    List (String × String) × Except Failure Pruned :=
  match checkPruneOptions sys met options with
  | .error error => ([], .error error)
  | .ok after =>
      let decide := decidePrune sys settings repository met options after
      if options.dryRun then ([], decide.map fun decided => decided.result repository true)
      else
        match repository.locked with
        | some error => ([], .error error)
        | none =>
            match decide with
            | .error error => ([], .error error)
            | .ok decided =>
                let (deleted, outcome) := removeAll sys repository met 0 decided.doomed
                (deleted, outcome.map fun _ => decided.result repository false)

end Pruning

section Going
variable {newest : List Candidate} {policy : KeepPolicy} {now : Int}

/-- What a plan removes, in the order of the sort. -/
def goes (newest : List Candidate) (policy : KeepPolicy) (now : Int) : List Candidate :=
  newest.filter fun c => ((settled newest policy now).1.why c.id).isEmpty

theorem removed_ids (newest : List Candidate) (policy : KeepPolicy) (now : Int) :
    (planOf newest policy now).removed.map Decision.id =
      (goes newest policy now).map Candidate.id := by
  change ((goes newest policy now).map _).map _ = _
  rw [List.map_map]
  rfl

theorem mem_goes (distinct : (newest.map Candidate.id).Nodup) {c : Candidate} :
    c ∈ goes newest policy now ↔ c ∈ newest ∧ ¬(planOf newest policy now).Keeps c := by
  rw [goes, List.mem_filter]
  refine and_congr_right fun mem => ?_
  rw [planOf_keeps_iff_kept policy now distinct mem, keptOf, List.mem_filter]
  simp [mem]

/-- What goes is built on only by what goes. -/
theorem goes_child (distinct : (newest.map Candidate.id).Nodup) {c p : Candidate}
    (hc : c ∈ newest) (is : c.parent = some p.id) (gone : p ∈ goes newest policy now) :
    c ∈ goes newest policy now := by
  obtain ⟨hp, out⟩ := (mem_goes distinct).mp gone
  refine (mem_goes distinct).mpr ⟨hc, fun kept => out ?_⟩
  refine (planOf_keeps_iff policy now distinct hp).mpr ?_
  exact ((planOf_keeps_iff policy now distinct hc).mp kept).step
    ⟨c, hc, rfl, is, List.mem_map_of_mem hp⟩

theorem held_why {c : Candidate} (mem : c ∈ newest)
    (held : c.held = true) :
    Reasons.why (byRules newest policy now) c.id ≠ [] := by
  have why := Reasons.why_map (fun id => ((byLast policy (pastOf newest now) ++
    byCalendar policy (pastOf newest now) ++ newest.flatMap (byAge policy now)).filter
      fun add => add.1 = id).map Prod.snd) newest c.id
  rw [if_pos (List.mem_map_of_mem mem)] at why
  rw [byRules, why]
  have there : (c.id, "held") ∈ byAge policy now c := by
    unfold byAge
    dsimp only
    rw [if_pos held]
    simp
  have added := List.mem_append_right (byLast policy (pastOf newest now) ++
    byCalendar policy (pastOf newest now)) (List.mem_flatMap.mpr ⟨c, mem, there⟩)
  exact List.ne_nil_of_mem (List.mem_map_of_mem
    (List.mem_filter.mpr ⟨added, decide_eq_true rfl⟩))

theorem goes_unheld (distinct : (newest.map Candidate.id).Nodup) {c : Candidate}
    (gone : c ∈ goes newest policy now) : c.held = false := by
  obtain ⟨mem, out⟩ := (mem_goes distinct).mp gone
  by_contra held
  have held : c.held = true := Bool.not_eq_false _ ▸ held
  refine out ((planOf_keeps_iff policy now distinct mem).mpr (Worklist.Reach.seed ?_))
  refine ⟨List.mem_map_of_mem mem, fun dropped => ?_, held_why mem held⟩
  exact (settled_spec distinct policy now).2.1.unsafe_ c mem dropped (.inr (.inr held))

end Going

section Doomed

/-- What a list puts after all that it needs keeps so wherever the list is cut. -/
theorem needed_first {α : Type} {needs : α → α → Prop} {all done : List α}
    (sorted : all.Pairwise fun x y => ¬needs x y) (inside : ∀ x ∈ all, ∀ y, needs x y → y ∈ all)
    (cut : done <+: all) {x y : α} (mem : x ∈ done) (need : needs x y) : y ∈ done := by
  obtain ⟨rest, rfl⟩ := cut
  rcases List.mem_append.mp (inside x (List.mem_append_left _ mem) y need) with here | later
  · exact here
  · exact absurd need ((List.pairwise_append.mp sorted).2.2 x mem y later)

theorem mem_ordered {keys : List (String × String)} {id : String} {key : String × String} :
    key ∈ ordered keys id ↔ key ∈ keys ∧ key.1 = id := by
  simp only [ordered, List.mem_append, List.mem_filter, decide_eq_true_eq]
  tauto

/-- How a candidate came about: its manifest was read, or it stands in for one that was not. -/
def Seen (sys : System) (settings : Settings) (repository : Repository) (met : Conditions)
    (held : List String) (c : Candidate) : Prop :=
  (∃ m, Fetches sys settings repository c.id m ∧ c = candidate c.id held m) ∨
    (∀ m, ¬Fetches sys settings repository c.id m) ∧
      (∀ why, fetchManifest sys settings ⟨"prune", c.id, repository⟩ ≠
        .error (.backup .notFound why)) ∧
      ∃ parent, parentOfUnreadable repository met c.id = .ok parent ∧ c = standIn met c.id parent

/-- The plan's sort loses and adds none. -/
theorem sortedOf_perm (met : Conditions) (candidates : List Candidate) :
    (sortedOf met candidates).Perm candidates := by
  unfold sortedOf
  split
  · exact sortNewest_perm candidates
  · exact met.unordered_perm candidates

/-- What a decision rests on: what was listed, and how each candidate came about, in the order of
the plan's sort. -/
structure Decided.Of (sys : System) (settings : Settings) (repository : Repository)
    (met : Conditions) (options : PruneOptions) (newest : List Candidate) (held : List String)
    (decided : Decided) : Prop where
  listed : repository.list = .ok decided.keys
  holds : heldIds repository = .ok held
  seen : ∀ c ∈ newest, Seen sys settings repository met held c
  distinct : (newest.map Candidate.id).Nodup
  complete : ∀ c ∈ newest, isBackupId c.id ∧ (c.id, MANIFEST) ∈ decided.keys
  all : ∀ id, isBackupId id → (id, MANIFEST) ∈ decided.keys → id ∈ newest.map Candidate.id ∨
    ∃ why, fetchManifest sys settings ⟨"prune", id, repository⟩ = .error (.backup .notFound why)
  removed : decided.removed.map Decision.id =
    (goes newest options.keep (options.now.getD met.start)).map Candidate.id
  incomplete : ∀ id ∈ decided.incomplete, isBackupId id ∧ (id, MANIFEST) ∉ decided.keys
  sorted : (∀ c ∈ newest, Dated met c) → newest.Pairwise SortsBefore

variable {sys : System} {settings : Settings} {repository : Repository} {met : Conditions}
  {options : PruneOptions}

theorem scan_nodup (keys : List (String × String)) : (scan keys).Nodup :=
  (List.perm_insertionSort AtMost _).nodup_iff.mpr (List.nodup_dedup _)

theorem mem_scan {keys : List (String × String)} {id : String} :
    id ∈ scan keys ↔ isBackupId id ∧ ∃ key, (id, key) ∈ keys := by
  rw [scan, (List.perm_insertionSort AtMost _).mem_iff, List.mem_dedup, List.mem_filter, and_comm]
  refine and_congr_right fun _ => ?_
  simp

/-- What the loop over these ids gives. -/
structure Found (sys : System) (settings : Settings) (repository : Repository) (met : Conditions)
    (held ids : List String) (candidates : List Candidate) (unreadable : List String) : Prop where
  sub : (candidates.map Candidate.id).Sublist ids
  seen : ∀ c ∈ candidates, Seen sys settings repository met held c
  unread : unreadable = (candidates.filter Candidate.standIn).map Candidate.id
  all : ∀ id ∈ ids, id ∈ candidates.map Candidate.id ∨
    ∃ why, fetchManifest sys settings ⟨"prune", id, repository⟩ = .error (.backup .notFound why)

theorem Found.cons {held ids unreadable : List String} {candidates : List Candidate}
    (h : Found sys settings repository met held ids candidates unreadable) (c : Candidate)
    (seen : Seen sys settings repository met held c) :
    Found sys settings repository met held (c.id :: ids) (c :: candidates)
      (if c.standIn then c.id :: unreadable else unreadable) where
  sub := h.sub.cons_cons _
  seen := List.forall_mem_cons.mpr ⟨seen, h.seen⟩
  unread := by
    rw [List.filter_cons, h.unread]
    split <;> rfl
  all := List.forall_mem_cons.mpr ⟨.inl List.mem_cons_self, fun i mem =>
    (h.all i mem).imp_left fun there => List.mem_cons_of_mem _ there⟩

theorem candidatesOf_ok {held ids : List String} {candidates : List Candidate}
    {unreadable : List String}
    (ok : candidatesOf sys settings repository met held ids = .ok (candidates, unreadable)) :
    Found sys settings repository met held ids candidates unreadable := by
  induction ids generalizing candidates unreadable with
  | nil =>
      cases ok
      exact ⟨.slnil, by simp, rfl, by simp⟩
  | cons id rest ih =>
      have unread {why : Failure} {parent : Option String}
          (fails : fetchManifest sys settings ⟨"prune", id, repository⟩ = .error why)
          (there : ∀ text, why ≠ .backup .notFound text)
          (raw : parentOfUnreadable repository met id = .ok parent)
          (ok : (candidatesOf sys settings repository met held rest).map (fun others =>
            (standIn met id parent :: others.1, id :: others.2)) = .ok (candidates, unreadable)) :
          Found sys settings repository met held (id :: rest) candidates unreadable := by
        obtain ⟨others, later, same⟩ := map_ok.mp ok
        obtain ⟨rfl, rfl⟩ := Prod.mk.inj same
        refine (ih later).cons (standIn met id parent)
          (.inr ⟨unread_of_error fails, fun text missing => ?_, parent, raw, rfl⟩)
        exact there text (Except.error.inj (fails.symm.trans missing))
      unfold candidatesOf at ok
      split at ok
      next manifest fetched =>
        obtain ⟨others, later, same⟩ := map_ok.mp ok
        obtain ⟨rfl, rfl⟩ := Prod.mk.inj same
        exact (ih later).cons (candidate id held manifest)
          (.inl ⟨manifest, fetchManifest_ok.mp fetched, rfl⟩)
      next why missing =>
        have h := ih ok
        exact ⟨h.sub.cons id, h.seen, h.unread,
          List.forall_mem_cons.mpr ⟨.inr ⟨why, missing⟩, h.all⟩⟩
      next why fails =>
        obtain ⟨parent, raw, ok⟩ := Checked.bind_ok.mp ok
        exact unread fails (fun _ => by simp) raw ok
      next why fails =>
        obtain ⟨parent, raw, ok⟩ := Checked.bind_ok.mp ok
        exact unread fails (fun _ => by simp) raw ok
      next => cases ok

theorem decidePrune_ok {after : Nat} {decided : Decided}
    (ok : decidePrune sys settings repository met options after = .ok decided) :
    ∃ newest held, decided.Of sys settings repository met options newest held := by
  obtain ⟨keys, listed, ok⟩ := Checked.bind_ok.mp ok
  obtain ⟨held, holds, ok⟩ := Checked.bind_ok.mp ok
  obtain ⟨⟨candidates, unreadable⟩, found, ok⟩ := Checked.bind_ok.mp ok
  cases ok
  obtain ⟨sub, seen, rfl, all⟩ := candidatesOf_ok found
  have perm := sortedOf_perm met candidates
  have distinct : ((sortedOf met candidates).map Candidate.id).Nodup :=
    (perm.map Candidate.id).nodup_iff.mpr (((scan_nodup keys).filter _).sublist sub)
  refine ⟨sortedOf met candidates, held, listed, holds, fun c mem => seen c (perm.subset mem),
    distinct, fun c mem => ?_, fun id form there => ?_, ?_, fun id mem => ?_, fun dated => ?_⟩
  · obtain ⟨there, has⟩ :=
      List.mem_filter.mp (sub.subset (List.mem_map_of_mem (perm.subset mem)))
    exact ⟨(mem_scan.mp there).1, of_decide_eq_true has⟩
  · rw [(perm.map Candidate.id).mem_iff]
    exact all id (List.mem_filter.mpr ⟨mem_scan.mpr ⟨form, MANIFEST, there⟩, decide_eq_true there⟩)
  · rw [← removed_ids]
    congr 1
    refine List.filter_eq_self.mpr fun d mem => decide_eq_true fun apart => ?_
    have gone := List.mem_map_of_mem (f := Decision.id) mem
    rw [removed_ids] at gone
    obtain ⟨c, gone, same⟩ := List.mem_map.mp gone
    obtain ⟨c', stands, same'⟩ := List.mem_map.mp apart
    obtain ⟨mem', stands⟩ := List.mem_filter.mp stands
    have mem := ((mem_goes distinct).mp gone).1
    obtain rfl := eq_of_id distinct (perm.mem_iff.mpr mem') mem (same'.trans same.symm)
    have unheld := goes_unheld distinct gone
    rcases seen _ mem' with ⟨m, -, is⟩ | ⟨-, -, parent, -, is⟩
    · rw [is] at stands
      cases stands
    · rw [is] at unheld
      cases unheld
  · obtain ⟨there, old⟩ := List.mem_filter.mp mem
    exact ⟨(mem_scan.mp there).1, (of_decide_eq_true old).1⟩
  · rw [sortedOf, if_pos fun c mem => dated c (perm.mem_iff.mpr mem)]
    exact List.pairwise_insertionSort SortsBefore candidates

variable {newest kin : List Candidate} {held : List String} {decided : Decided}

theorem mem_doomed {key : String × String} : key ∈ decided.doomed ↔ key ∈ decided.keys ∧
    (key.1 ∈ decided.removed.map Decision.id ∨ key.1 ∈ decided.incomplete) := by
  rw [Decided.doomed, List.mem_flatMap]
  constructor
  · rintro ⟨id, mem, here⟩
    obtain ⟨there, rfl⟩ := mem_ordered.mp here
    exact ⟨there, List.mem_append.mp mem⟩
  · rintro ⟨there, mem⟩
    exact ⟨key.1, List.mem_append.mpr mem, mem_ordered.mpr ⟨there, rfl⟩⟩

/-- What is to be deleted before a key: the manifest of its backup, and if it is a manifest, those
of these that build on that backup. -/
def Needs (keys : List (String × String)) (kin : List Candidate) (x y : String × String) : Prop :=
  y ∈ keys ∧ y.2 = MANIFEST ∧ x ≠ y ∧
    (y.1 = x.1 ∨ x.2 = MANIFEST ∧ ∃ c ∈ kin, c.id = y.1 ∧ c.parent = some x.1)

theorem ordered_first (keys : List (String × String)) (id : String) :
    (ordered keys id).Pairwise fun x y => ¬Needs keys kin x y := by
  have same : ∀ x ∈ (keys.filter fun key => key.1 = id).filter (fun key => key.2 = MANIFEST),
      x = (id, MANIFEST) := by
    rintro ⟨a, b⟩ mem
    obtain ⟨mem, rfl⟩ := List.mem_filter.mp mem |>.imp_right of_decide_eq_true
    obtain ⟨-, rfl⟩ := List.mem_filter.mp mem |>.imp_right of_decide_eq_true
    rfl
  have other {x y : String × String}
      (mem : y ∈ (keys.filter fun key => key.1 = id).filter fun key => key.2 ≠ MANIFEST) :
      ¬Needs keys kin x y := fun needs =>
    of_decide_eq_true (List.mem_filter.mp mem).2 needs.2.1
  unfold ordered
  refine List.pairwise_append.mpr ⟨?_, ?_, fun x _ y mem => other mem⟩
  · refine List.pairwise_of_forall_mem_list fun x hx y hy needs => needs.2.2.1 ?_
    rw [same x hx, same y hy]
  · exact List.pairwise_of_forall_mem_list fun x _ y mem => other mem

/-- An id that goes is one of a candidate that goes. -/
theorem Decided.Of.mem_removed (h : decided.Of sys settings repository met options newest held)
    {c : Candidate} (mem : c ∈ newest) : c.id ∈ decided.removed.map Decision.id ↔
      c ∈ goes newest options.keep (options.now.getD met.start) := by
  rw [h.removed]
  refine ⟨fun gone => ?_, List.mem_map_of_mem⟩
  obtain ⟨d, gone, same⟩ := List.mem_map.mp gone
  rwa [← eq_of_id h.distinct ((mem_goes h.distinct).mp gone).1 mem same]

/-- Of what goes, nothing of these comes after what it builds on. -/
def InOrder (kin gone : List Candidate) : Prop :=
  gone.Pairwise fun p c => c ∈ kin → c.parent ≠ some p.id

theorem Decided.Of.doomed_sorted
    (h : decided.Of sys settings repository met options newest held) (sub : kin ⊆ newest)
    (inOrder : InOrder kin (goes newest options.keep (options.now.getD met.start))) :
    decided.doomed.Pairwise fun x y => ¬Needs decided.keys kin x y := by
  have none {x y : String × String} {id : String} (mem : id ∈ decided.incomplete)
      (here : y ∈ ordered decided.keys id) : ¬Needs decided.keys kin x y := by
    rintro ⟨there, is, -, -⟩
    obtain ⟨-, rfl⟩ := mem_ordered.mp here
    exact (h.incomplete _ mem).2 (is ▸ there)
  refine List.pairwise_flatMap.mpr ⟨fun id _ => ordered_first _ id, ?_⟩
  refine List.pairwise_append.mpr ⟨?_, ?_, fun a _ b mem x _ y here => none mem here⟩
  · rw [h.removed]
    refine List.pairwise_map.mpr ?_
    have apart : (goes newest options.keep (options.now.getD met.start)).Pairwise
        fun a b => a.id ≠ b.id :=
      List.pairwise_map.mp (h.distinct.sublist (List.filter_sublist.map _))
    refine (inOrder.and apart).imp_of_mem ?_
    rintro a b _ hc ⟨before, other⟩ x hx y hy ⟨-, -, -, own | ⟨-, c, mem, is, parent⟩⟩
    · exact other ((mem_ordered.mp hx).2.symm.trans (own.symm.trans (mem_ordered.mp hy).2))
    · rw [(mem_ordered.mp hy).2] at is
      rw [(mem_ordered.mp hx).2] at parent
      obtain rfl := eq_of_id h.distinct (sub mem) ((mem_goes h.distinct).mp hc).1 is
      exact before mem parent
  · exact List.pairwise_of_forall_mem_list fun a _ b mem x _ y here => none mem here

/-- Wherever the deletes are cut, what a deleted key needs is deleted too. -/
theorem Decided.Of.needed (h : decided.Of sys settings repository met options newest held)
    (sub : kin ⊆ newest)
    (inOrder : InOrder kin (goes newest options.keep (options.now.getD met.start)))
    {deleted : List (String × String)} (cut : deleted <+: decided.doomed)
    {x y : String × String} (mem : x ∈ deleted) (needs : Needs decided.keys kin x y) :
    y ∈ deleted := by
  refine needed_first (h.doomed_sorted sub inOrder) ?_ cut mem needs
  rintro x mem y ⟨there, is, other, own | ⟨manifest, c, hc, same, parent⟩⟩
  · exact mem_doomed.mpr ⟨there, own ▸ (mem_doomed.mp mem).2⟩
  · obtain ⟨listed, removed | incomplete⟩ := mem_doomed.mp mem
    · have gone := removed
      rw [h.removed] at gone
      obtain ⟨p, gone, eq⟩ := List.mem_map.mp gone
      rw [← eq] at parent
      have out := goes_child h.distinct (sub hc) parent gone
      refine mem_doomed.mpr ⟨there, .inl ?_⟩
      rw [← same]
      exact (h.mem_removed (sub hc)).mpr out
    · exact absurd (manifest ▸ listed) (h.incomplete _ incomplete).2

/-- Wherever the deletes are cut, a manifest is deleted before the other files of its backup. -/
theorem Decided.Of.first (h : decided.Of sys settings repository met options newest held)
    {deleted : List (String × String)} (cut : deleted <+: decided.doomed) {key : String × String}
    (mem : key ∈ deleted) (listed : (key.1, MANIFEST) ∈ decided.keys) :
    (key.1, MANIFEST) ∈ deleted := by
  by_cases same : key = (key.1, MANIFEST)
  · rwa [← same]
  · have none : ([] : List Candidate) ⊆ newest := List.nil_subset _
    have inOrder : InOrder [] (goes newest options.keep (options.now.getD met.start)) :=
      List.pairwise_of_forall fun _ _ mem => absurd mem List.not_mem_nil
    exact h.needed none inOrder cut mem ⟨listed, rfl, same, .inl rfl⟩

theorem Decided.Of.held_stays
    (h : decided.Of sys settings repository met options newest held) {c : Candidate}
    (mem : c ∈ newest) (is : c.held = true) (key : String) : (c.id, key) ∉ decided.doomed := by
  intro doomed
  rcases (mem_doomed.mp doomed).2 with removed | incomplete
  · rw [goes_unheld h.distinct ((h.mem_removed mem).mp removed)] at is
    cases is
  · exact (h.incomplete _ incomplete).2 (h.complete c mem).2

theorem removeAll_cut (n : Nat) (keys : List (String × String)) :
    (removeAll sys repository met n keys).1 <+: keys := by
  induction keys generalizing n with
  | nil => exact List.prefix_refl _
  | cons key rest ih =>
      unfold removeAll
      split
      next =>
        split
        next => exact (List.prefix_cons_inj key).mpr List.nil_prefix
        next => exact (List.prefix_cons_inj key).mpr (ih (n + 1))
      next => exact List.nil_prefix

/-- What a prune deletes is what it decided to, as far as it came. -/
theorem pruneBackups_deletes (sys : System) (settings : Settings) (repository : Repository)
    (met : Conditions) (options : PruneOptions) :
    (pruneBackups sys settings repository met options).1 = [] ∨
      ∃ (newest : List Candidate) (held : List String) (decided : Decided),
        decided.Of sys settings repository met options newest held ∧
        (pruneBackups sys settings repository met options).1 <+: decided.doomed := by
  unfold pruneBackups
  split
  next => exact .inl rfl
  next after ok =>
    dsimp only
    split
    next => exact .inl rfl
    next =>
      split
      next => exact .inl rfl
      next =>
        split
        next => exact .inl rfl
        next decided is =>
          obtain ⟨newest, held, h⟩ := decidePrune_ok is
          exact .inr ⟨newest, held, decided, h, removeAll_cut 0 decided.doomed⟩

end Doomed

section Leaves
variable {sys : System} {settings : Settings} {repository : Repository} {met : Conditions}
  {options : PruneOptions} {newest : List Candidate} {held : List String} {decided : Decided}

/-- A backup that is listed, and does not read. -/
structure Unreadable (sys : System) (settings : Settings) (repository : Repository)
    (id : String) : Prop where
  form : isBackupId id
  listed : Listed repository (id, MANIFEST)
  unread : ∀ manifest, ¬Fetches sys settings repository id manifest
  there : ∀ why, fetchManifest sys settings ⟨"prune", id, repository⟩ ≠
    .error (.backup .notFound why)

/-- What a backup builds on is not of a later time. -/
def InTime (sys : System) (settings : Settings) (repository : Repository) : Prop :=
  ∀ id manifest p parent, Fetches sys settings repository id manifest →
    manifest.parent = some p → Fetches sys settings repository p parent →
    parent.createdAt ≤ manifest.createdAt

theorem Decided.Of.listed_keys
    (h : decided.Of sys settings repository met options newest held) {key : String × String} :
    Listed repository key ↔ key ∈ decided.keys := by
  constructor
  · rintro ⟨keys, listed, mem⟩
    rw [h.listed] at listed
    cases listed
    exact mem
  · exact fun mem => ⟨decided.keys, h.listed, mem⟩

/-- A backup that reads is a candidate, as its manifest says. -/
theorem Decided.Of.fetched
    (h : decided.Of sys settings repository met options newest held) {id : String}
    {manifest : Manifest} (listed : Listed repository (id, MANIFEST))
    (fetches : Fetches sys settings repository id manifest) :
    candidate id held manifest ∈ newest := by
  rcases h.all id fetches.1 (h.listed_keys.mp listed) with there | ⟨why, missing⟩
  · obtain ⟨c, mem, rfl⟩ := List.mem_map.mp there
    rcases h.seen c mem with ⟨m, same, is⟩ | ⟨none, -⟩
    · rw [fetches.unique same, ← is]
      exact mem
    · exact absurd fetches (none manifest)
  · exact absurd fetches (unread_of_error missing manifest)

/-- A stand-in takes the place of one that does not. -/
theorem Decided.Of.stands
    (h : decided.Of sys settings repository met options newest held) {id : String}
    (unreadable : Unreadable sys settings repository id) : ∃ parent,
      parentOfUnreadable repository met id = .ok parent ∧ standIn met id parent ∈ newest := by
  rcases h.all id unreadable.form (h.listed_keys.mp unreadable.listed) with there | ⟨why, missing⟩
  · obtain ⟨c, mem, rfl⟩ := List.mem_map.mp there
    rcases h.seen c mem with ⟨m, fetches, -⟩ | ⟨-, -, parent, raw, is⟩
    · exact absurd fetches (unreadable.unread m)
    · exact ⟨parent, raw, is ▸ mem⟩
  · exact absurd missing (unreadable.there why)

/-- The id of every backup that is listed, and does not read, says a time. -/
def AllDated (sys : System) (settings : Settings) (repository : Repository) (met : Conditions) :
    Prop :=
  ∀ id, Unreadable sys settings repository id → (timeOfId met.rolls id).isSome

/-- The newest go first, and with them what builds on the others. -/
theorem Decided.Of.in_order (h : decided.Of sys settings repository met options newest held)
    (dated : AllDated sys settings repository met) (inTime : InTime sys settings repository) :
    InOrder newest (goes newest options.keep (options.now.getD met.start)) := by
  have all : ∀ c ∈ newest, Dated met c := by
    intro c mem stands
    obtain ⟨form, listed⟩ := h.complete c mem
    rcases h.seen c mem with ⟨m, -, eq⟩ | ⟨unread, there, -⟩
    · rw [eq] at stands
      cases stands
    · exact dated c.id ⟨form, h.listed_keys.mpr listed, unread, there⟩
  have sorted := (h.sorted all).sublist (List.filter_sublist (p := fun c =>
    ((settled newest options.keep (options.now.getD met.start)).1.why c.id).isEmpty))
  refine sorted.imp_of_mem fun {p c} gone gone' before hc is => ?_
  have hp := ((mem_goes h.distinct).mp gone).1
  have unheld := goes_unheld h.distinct gone'
  have unheld' := goes_unheld h.distinct gone
  rcases h.seen c hc with ⟨m, fetches, eq⟩ | ⟨-, -, parent, -, eq⟩
  · rcases h.seen p hp with ⟨m', fetches', eq'⟩ | ⟨-, -, parent, -, eq'⟩
    · have parent : m.parent = some p.id := by
        rw [eq] at is
        exact is
      have le := inTime _ _ _ _ fetches parent fetches'
      have less := (fetches.sound.parent_less parent).1
      rw [fetches.id] at less
      have time : c.createdAt = m.createdAt := by rw [eq]; rfl
      have time' : p.createdAt = m'.createdAt := by rw [eq']; rfl
      rcases before with later | ⟨-, atMost⟩
      · omega
      · exact absurd less (not_lt.mpr atMost)
    · rw [eq'] at unheld'
      cases unheld'
  · rw [eq] at unheld
    cases unheld

theorem prune_first {done : List (String × String)}
    (begins : done <+: (pruneBackups sys settings repository met options).1)
    {key : String × String} (mem : key ∈ done) : isBackupId key.1 ∧ Listed repository key ∧
      (Listed repository (key.1, MANIFEST) → (key.1, MANIFEST) ∈ done) := by
  rcases pruneBackups_deletes sys settings repository met options with
    none | ⟨newest, held, decided, h, cut⟩
  · rw [none] at begins
    rw [List.prefix_nil.mp begins] at mem
    cases mem
  · obtain ⟨listed, gone⟩ := mem_doomed.mp ((begins.trans cut).subset mem)
    refine ⟨?_, h.listed_keys.mpr listed, fun manifest => ?_⟩
    · rcases gone with removed | incomplete
      · rw [h.removed] at removed
        obtain ⟨c, goes, eq⟩ := List.mem_map.mp removed
        rw [← eq]
        exact (h.complete c ((mem_goes h.distinct).mp goes).1).1
      · exact (h.incomplete _ incomplete).1
    · exact h.first (begins.trans cut) mem (h.listed_keys.mp manifest)

theorem prune_held {ids : List String} {id : String} {manifest : Manifest}
    (holds : heldIds repository = .ok ids) (there : id ∈ ids)
    (listed : Listed repository (id, MANIFEST))
    (fetches : Fetches sys settings repository id manifest) (key : String) :
    (id, key) ∉ (pruneBackups sys settings repository met options).1 := by
  intro mem
  rcases pruneBackups_deletes sys settings repository met options with
    none | ⟨newest, held, decided, h, cut⟩
  · rw [none] at mem
    cases mem
  · rw [h.holds] at holds
    cases holds
    exact h.held_stays (h.fetched listed fetches) (decide_eq_true there) key (cut.subset mem)

theorem prune_unreadable {id : String} (unreadable : Unreadable sys settings repository id)
    (key : String) : (id, key) ∉ (pruneBackups sys settings repository met options).1 := by
  intro mem
  rcases pruneBackups_deletes sys settings repository met options with
    none | ⟨newest, held, decided, h, cut⟩
  · rw [none] at mem
    cases mem
  · obtain ⟨parent, raw, stands⟩ := h.stands unreadable
    exact h.held_stays stands rfl key (cut.subset mem)

theorem prune_raw {id p : String} {parent : Manifest}
    (unreadable : Unreadable sys settings repository id)
    (raw : ∀ read, parentOfUnreadable repository met id = .ok read → read = some p)
    (listed : Listed repository (p, MANIFEST))
    (fetches : Fetches sys settings repository p parent) (key : String) :
    (p, key) ∉ (pruneBackups sys settings repository met options).1 := by
  intro mem
  rcases pruneBackups_deletes sys settings repository met options with
    none | ⟨newest, held, decided, h, cut⟩
  · rw [none] at mem
    cases mem
  · obtain ⟨parent', raw', stands⟩ := h.stands unreadable
    obtain rfl := raw parent' raw'
    have own := h.fetched listed fetches
    rcases (mem_doomed.mp (cut.subset mem)).2 with removed | incomplete
    · have out := goes_child h.distinct (p := candidate p held parent) stands rfl
        ((h.mem_removed own).mp removed)
      cases goes_unheld h.distinct out
    · exact (h.incomplete _ incomplete).2 (h.listed_keys.mp listed)

theorem prune_child (dated : AllDated sys settings repository met)
    (inTime : InTime sys settings repository) {done : List (String × String)}
    (begins : done <+: (pruneBackups sys settings repository met options).1) {id p : String}
    {manifest : Manifest} (listed : Listed repository (id, MANIFEST))
    (fetches : Fetches sys settings repository id manifest) (is : manifest.parent = some p)
    (mem : (p, MANIFEST) ∈ done) : (id, MANIFEST) ∈ done := by
  rcases pruneBackups_deletes sys settings repository met options with
    none | ⟨newest, held, decided, h, cut⟩
  · rw [none] at begins
    rw [List.prefix_nil.mp begins] at mem
    cases mem
  · have own := h.fetched listed fetches
    have less := (fetches.sound.parent_less is).1
    refine h.needed (List.Subset.refl _) (h.in_order dated inTime) (begins.trans cut) mem
      ⟨h.listed_keys.mp listed, rfl, ?_, .inr ⟨rfl, _, own, rfl, is⟩⟩
    intro same
    cases same
    rw [fetches.id] at less
    exact lt_irrefl _ less

/-- Whatever a repository holds, and wherever the deletes stop: a backup loses its manifest before
any other file; one that is held, or that does not read, loses nothing, nor does what the latter
says it builds on; and, where the id of each that does not read says a time, none is left without
what it builds on. -/
theorem pruneBackups_leaves (sys : System) (settings : Settings) (repository : Repository)
    (met : Conditions) (options : PruneOptions) :
    let deleted := (pruneBackups sys settings repository met options).1
    (∀ done, done <+: deleted → ∀ key ∈ done, isBackupId key.1 ∧ Listed repository key ∧
      (Listed repository (key.1, MANIFEST) → (key.1, MANIFEST) ∈ done)) ∧
    (∀ ids id manifest, heldIds repository = .ok ids → id ∈ ids →
      Listed repository (id, MANIFEST) → Fetches sys settings repository id manifest →
      ∀ key, (id, key) ∉ deleted) ∧
    (∀ id, Unreadable sys settings repository id → (∀ key, (id, key) ∉ deleted) ∧
      ∀ p parent, parentOfUnreadable repository met id = .ok (some p) →
        Listed repository (p, MANIFEST) → Fetches sys settings repository p parent →
        ∀ key, (p, key) ∉ deleted) ∧
    (AllDated sys settings repository met → InTime sys settings repository →
      ∀ done, done <+: deleted → ∀ id manifest p,
      Listed repository (id, MANIFEST) → Fetches sys settings repository id manifest →
      manifest.parent = some p → (p, MANIFEST) ∈ done → (id, MANIFEST) ∈ done) :=
  ⟨fun _ begins _ mem => prune_first begins mem,
    fun _ _ _ holds there listed fetches key => prune_held holds there listed fetches key,
    fun _ unreadable => ⟨prune_unreadable unreadable,
      fun _ _ raw listed fetches key => prune_raw unreadable
        (fun _ read => Except.ok.inj (read.symm.trans raw)) listed fetches key⟩,
    fun dated inTime _ begins _ _ _ listed fetches is mem =>
      prune_child dated inTime begins listed fetches is mem⟩

end Leaves

end NxgtData.Backup
