import Mathlib.Data.List.Sort
import Mathlib.Data.Prod.Lex
import Mathlib.Data.List.Nodup

/-!
Sorted sets: finite maps from members to scores, listed by score and then by
member, as a Redis `ZSET` lists them. A plain set is the case of a trivial score.
The order and the uniqueness of the members are fields, so no operation can lose
them; every other fact is read off `score`, which determines the whole set.
-/
namespace NxgtData

structure SortedSet (σ α : Type) [LinearOrder σ] [LinearOrder α] where
  entries : List (σ ×ₗ α)
  sorted : entries.Pairwise (· ≤ ·)
  unique : (entries.map fun e => (ofLex e).2).Nodup

namespace SortedSet
variable {σ α : Type} [LinearOrder σ] [LinearOrder α]

def members (z : SortedSet σ α) : List α := z.entries.map fun e => (ofLex e).2

instance : Membership α (SortedSet σ α) := ⟨fun z a => a ∈ z.members⟩

instance (a : α) (z : SortedSet σ α) : Decidable (a ∈ z) :=
  inferInstanceAs (Decidable (a ∈ z.members))

instance : EmptyCollection (SortedSet σ α) := ⟨⟨[], .nil, .nil⟩⟩

/-- `ZSCORE`. -/
def score (z : SortedSet σ α) (a : α) : Option σ :=
  (z.entries.find? fun e => (ofLex e).2 = a).map fun e => (ofLex e).1

/-- `ZCARD`. -/
def card (z : SortedSet σ α) : Nat := z.entries.length

/-- `ZREM`; the reply is membership. -/
def rem (a : α) (z : SortedSet σ α) : SortedSet σ α where
  entries := z.entries.filter fun e => (ofLex e).2 ≠ a
  sorted := z.sorted.filter _
  unique := z.unique.sublist (List.filter_sublist.map _)

/-- `ZADD`: a member already there takes the new score. -/
def add (s : σ) (a : α) (z : SortedSet σ α) : SortedSet σ α where
  entries := (z.rem a).entries.orderedInsert (· ≤ ·) (toLex (s, a))
  sorted := (z.rem a).sorted.orderedInsert _ _
  unique := by
    have perm := (List.perm_orderedInsert (· ≤ ·) (toLex (s, a)) (z.rem a).entries).map
      fun e => (ofLex e).2
    rw [perm.nodup_iff, List.map_cons, List.nodup_cons]
    refine ⟨?_, (z.rem a).unique⟩
    intro h
    obtain ⟨e, he, eq⟩ := List.mem_map.mp h
    have ne := (List.mem_filter.mp he).2
    simp only [decide_not, Bool.not_eq_eq_eq_not, Bool.not_true, decide_eq_false_iff_not] at ne
    exact ne eq

/-- The first entry, as `ZRANGE 0 0 WITHSCORES` answers it. -/
def first (z : SortedSet σ α) : Option (σ × α) := z.entries.head?.map fun e => ofLex e

/-- The first `limit` entries whose score passes, as `ZRANGEBYSCORE` with a
`LIMIT` answers them. -/
def range (z : SortedSet σ α) (p : σ → Bool) (limit : Nat) : List (σ × α) :=
  ((z.entries.filter fun e => p (ofLex e).1).take limit).map fun e => ofLex e

/-- `ZPOPMIN`: the members of the lowest entries, and what stays. -/
def popMin (n : Nat) (z : SortedSet σ α) : List α × SortedSet σ α :=
  ((z.entries.take n).map fun e => (ofLex e).2,
    { entries := z.entries.drop n
      sorted := z.sorted.sublist (List.drop_sublist _ _)
      unique := z.unique.sublist ((List.drop_sublist _ _).map _) })

theorem mem_def {a : α} {z : SortedSet σ α} : a ∈ z ↔ a ∈ z.members := Iff.rfl

@[simp] theorem notMem_empty (a : α) : a ∉ (∅ : SortedSet σ α) := List.not_mem_nil

theorem nodup_members (z : SortedSet σ α) : z.members.Nodup := z.unique

theorem entries_nodup (z : SortedSet σ α) : z.entries.Nodup := .of_map _ z.unique

theorem mem_iff_entry {a : α} {z : SortedSet σ α} :
    a ∈ z ↔ ∃ s, toLex (s, a) ∈ z.entries := by
  rw [mem_def, members, List.mem_map]
  constructor
  · rintro ⟨e, he, rfl⟩
    exact ⟨(ofLex e).1, he⟩
  · rintro ⟨s, h⟩
    exact ⟨_, h, rfl⟩

/-- A member has one entry, so its score is the one listed with it. -/
theorem score_eq_some {z : SortedSet σ α} {a : α} {s : σ} :
    z.score a = some s ↔ toLex (s, a) ∈ z.entries := by
  constructor
  · intro h
    obtain ⟨e, he, rfl⟩ := Option.map_eq_some_iff.mp h
    have mem := List.mem_of_find?_eq_some he
    have eq := List.find?_some he
    simp only [decide_eq_true_eq] at eq
    rwa [← eq]
  · intro h
    cases hf : z.entries.find? fun e => (ofLex e).2 = a with
    | none =>
        have := List.find?_eq_none.mp hf _ h
        simp at this
    | some e =>
        have mem := List.mem_of_find?_eq_some hf
        have eq := List.find?_some hf
        simp only [decide_eq_true_eq] at eq
        have same := List.inj_on_of_nodup_map z.unique mem h eq
        simp [score, hf, same]

theorem score_eq_none {z : SortedSet σ α} {a : α} : z.score a = none ↔ a ∉ z := by
  rw [mem_iff_entry]
  constructor
  · rintro h ⟨s, hs⟩
    rw [score_eq_some.mpr hs] at h
    exact absurd h (by simp)
  · intro h
    cases hs : z.score a with
    | none => rfl
    | some s => exact absurd ⟨s, score_eq_some.mp hs⟩ h

theorem mem_iff_score {z : SortedSet σ α} {a : α} : a ∈ z ↔ ∃ s, z.score a = some s := by
  simp only [mem_iff_entry, score_eq_some]

theorem score_isSome {z : SortedSet σ α} {a : α} : (z.score a).isSome ↔ a ∈ z := by
  rw [Option.isSome_iff_exists, mem_iff_score]

theorem ext_score {z w : SortedSet σ α} (h : ∀ a, z.score a = w.score a) : z = w := by
  have mem : ∀ e, e ∈ z.entries ↔ e ∈ w.entries := by
    intro e
    change toLex ((ofLex e).1, (ofLex e).2) ∈ z.entries ↔ toLex ((ofLex e).1, (ofLex e).2) ∈ w.entries
    rw [← score_eq_some, ← score_eq_some, h]
  have perm : z.entries.Perm w.entries :=
    (List.perm_ext_iff_of_nodup z.entries_nodup w.entries_nodup).mpr mem
  have entries : z.entries = w.entries := perm.eq_of_pairwise' z.sorted w.sorted
  cases z; cases w
  simp_all

@[simp] theorem score_empty (a : α) : (∅ : SortedSet σ α).score a = none := rfl

theorem score_rem (z : SortedSet σ α) (a b : α) :
    (z.rem a).score b = if b = a then none else z.score b := by
  apply Option.ext
  intro s
  rw [score_eq_some, rem, List.mem_filter]
  by_cases h : b = a
  · simp [h]
  · simp [h, score_eq_some]

theorem score_add (z : SortedSet σ α) (s : σ) (a b : α) :
    (z.add s a).score b = if b = a then some s else z.score b := by
  apply Option.ext
  intro t
  rw [score_eq_some, add, List.mem_orderedInsert, ← score_eq_some, score_rem]
  by_cases h : b = a
  · subst h
    simp [eq_comm]
  · simp [h]

@[simp] theorem mem_rem {z : SortedSet σ α} {a b : α} : b ∈ z.rem a ↔ b ∈ z ∧ b ≠ a := by
  rw [← score_isSome, score_rem, ← score_isSome]
  by_cases h : b = a <;> simp [h]

@[simp] theorem mem_add {z : SortedSet σ α} {s : σ} {a b : α} :
    b ∈ z.add s a ↔ b = a ∨ b ∈ z := by
  rw [← score_isSome, score_add, ← score_isSome]
  by_cases h : b = a <;> simp [h]

theorem rem_of_notMem {z : SortedSet σ α} {a : α} (h : a ∉ z) : z.rem a = z := by
  apply ext_score
  intro b
  rw [score_rem]
  split
  next eq => rw [eq, score_eq_none.mpr h]
  next => rfl

@[simp] theorem add_rem (z : SortedSet σ α) (s : σ) (a : α) : (z.rem a).add s a = z.add s a := by
  apply ext_score
  intro b
  simp only [score_add, score_rem]
  split <;> rfl

/-- `ZADD` of the score a member has. -/
theorem add_of_score {z : SortedSet σ α} {s : σ} {a : α} (h : z.score a = some s) :
    z.add s a = z := by
  apply ext_score
  intro b
  rw [score_add]
  split
  next eq => rw [eq, h]
  next => rfl

theorem card_pos_iff {z : SortedSet σ α} : 0 < z.card ↔ ∃ a, a ∈ z := by
  rw [card, List.length_pos_iff_exists_mem]
  constructor
  · rintro ⟨e, he⟩
    exact ⟨(ofLex e).2, mem_iff_entry.mpr ⟨(ofLex e).1, he⟩⟩
  · rintro ⟨a, ha⟩
    obtain ⟨s, hs⟩ := mem_iff_entry.mp ha
    exact ⟨_, hs⟩

theorem mem_range {z : SortedSet σ α} {p : σ → Bool} {n : Nat} {s : σ} {a : α}
    (h : (s, a) ∈ z.range p n) : z.score a = some s ∧ p s = true := by
  obtain ⟨e, he, eq⟩ := List.mem_map.mp h
  obtain ⟨mem, hp⟩ := List.mem_filter.mp (List.mem_of_mem_take he)
  have same : e = toLex (s, a) := by rw [← eq]; rfl
  subst same
  exact ⟨score_eq_some.mpr mem, hp⟩

theorem nodup_range (z : SortedSet σ α) (p : σ → Bool) (n : Nat) :
    ((z.range p n).map Prod.snd).Nodup := by
  rw [range, List.map_map]
  exact z.unique.sublist (((List.take_sublist _ _).trans List.filter_sublist).map _)

theorem first_eq_none {z : SortedSet σ α} : z.first = none ↔ ∀ a, a ∉ z := by
  rw [first, Option.map_eq_none_iff, List.head?_eq_none_iff]
  constructor
  · intro h a ha
    obtain ⟨s, hs⟩ := mem_iff_entry.mp ha
    simp [h] at hs
  · intro h
    by_contra ne
    obtain ⟨a, ha⟩ := card_pos_iff.mp (List.length_pos_of_ne_nil ne)
    exact h a ha

/-- No score lies below the first. -/
theorem first_le {z : SortedSet σ α} {s t : σ} {a b : α} (h : z.first = some (s, a))
    (hb : z.score b = some t) : s ≤ t := by
  obtain ⟨e, he, eq⟩ := Option.map_eq_some_iff.mp h
  obtain ⟨rest, entries⟩ := List.head?_eq_some_iff.mp he
  have sorted := z.sorted
  have mem := score_eq_some.mp hb
  rw [entries] at sorted mem
  have score : (ofLex e).1 = s := congrArg Prod.fst eq
  rcases List.mem_cons.mp mem with same | later
  · rw [← score, ← same]
    rfl
  · have le := (Prod.Lex.le_iff.mp ((List.pairwise_cons.mp sorted).1 _ later))
    rcases le with lt | ⟨same, -⟩
    · exact score ▸ lt.le
    · exact (score ▸ same).le

/-- A member that is the only one whose score passes is within any range. -/
theorem mem_range_of_only {z : SortedSet σ α} {p : σ → Bool} {n : Nat} {s : σ} {a : α}
    (h : z.score a = some s) (passes : p s = true)
    (only : ∀ b t, z.score b = some t → p t = true → b = a) :
    a ∈ (z.range p (n + 1)).map Prod.snd := by
  have mem : toLex (s, a) ∈ z.entries.filter fun e => p (ofLex e).1 :=
    List.mem_filter.mpr ⟨score_eq_some.mp h, passes⟩
  cases passing : z.entries.filter fun e => p (ofLex e).1 with
  | nil => exact absurd (passing ▸ mem) List.not_mem_nil
  | cons e rest =>
      have first : e ∈ z.entries.filter fun e => p (ofLex e).1 := passing ▸ List.mem_cons_self
      obtain ⟨there, pass⟩ := List.mem_filter.mp first
      have is := only (ofLex e).2 (ofLex e).1 (score_eq_some.mpr there) pass
      rw [range, passing, List.take_succ_cons, List.map_cons, List.map_cons, ← is]
      exact List.mem_cons_self

/-! Counting members, as a set gains or loses one. -/

theorem perm_members_add (z : SortedSet σ α) (s : σ) {a : α} (h : a ∉ z) :
    (z.add s a).members.Perm (a :: z.members) := by
  have perm := (List.perm_orderedInsert (· ≤ ·) (toLex (s, a)) (z.rem a).entries).map
    fun e => (ofLex e).2
  rw [rem_of_notMem h, List.map_cons] at perm
  simpa only [members, add, rem_of_notMem h, ofLex_toLex] using perm

theorem perm_members_rem {z : SortedSet σ α} {a : α} (h : a ∈ z) :
    z.members.Perm (a :: (z.rem a).members) := by
  obtain ⟨s, hs⟩ := mem_iff_score.mp h
  have eq : (z.rem a).add s a = z := by
    apply ext_score
    intro b
    rw [score_add, score_rem]
    split
    next hb => rw [hb, hs]
    next => rfl
  have perm := perm_members_add (z.rem a) s (a := a) (by simp)
  rwa [eq] at perm

theorem countP_add (z : SortedSet σ α) (s : σ) {a : α} (h : a ∉ z) (p : α → Bool) :
    (z.add s a).members.countP p = z.members.countP p + if p a then 1 else 0 := by
  rw [(perm_members_add z s h).countP_eq, List.countP_cons]

theorem countP_rem {z : SortedSet σ α} {a : α} (h : a ∈ z) (p : α → Bool) :
    z.members.countP p = (z.rem a).members.countP p + if p a then 1 else 0 := by
  rw [(perm_members_rem h).countP_eq, List.countP_cons]

theorem countP_add_of_mem {z : SortedSet σ α} (s : σ) {a : α} (h : a ∈ z) (p : α → Bool) :
    (z.add s a).members.countP p = z.members.countP p := by
  rw [← add_rem, countP_add _ s (by simp), countP_rem h]

/-! Popping takes the front of the list, one member after another. -/

theorem members_popMin (n : Nat) (z : SortedSet σ α) :
    z.members = (z.popMin n).1 ++ (z.popMin n).2.members := by
  simp only [members, popMin, ← List.map_append, List.take_append_drop]

theorem length_popMin_le (n : Nat) (z : SortedSet σ α) : (z.popMin n).1.length ≤ n := by
  simp [popMin]

theorem mem_of_mem_popMin {n : Nat} {z : SortedSet σ α} {a : α} (h : a ∈ (z.popMin n).1) :
    a ∈ z := by
  rw [mem_def, members_popMin n z]
  exact List.mem_append_left _ h

theorem nodup_popMin (n : Nat) (z : SortedSet σ α) : (z.popMin n).1.Nodup :=
  (members_popMin n z ▸ z.nodup_members : ((z.popMin n).1 ++ _).Nodup).of_append_left

theorem score_foldl_rem (l : List α) (z : SortedSet σ α) (b : α) :
    (l.foldl (fun w a => w.rem a) z).score b = if b ∈ l then none else z.score b := by
  induction l generalizing z with
  | nil => simp
  | cons a l ih =>
      rw [List.foldl_cons, ih, score_rem]
      by_cases hb : b = a <;> simp [hb]

theorem mem_foldl_rem {l : List α} {z : SortedSet σ α} {b : α} :
    b ∈ l.foldl (fun w a => w.rem a) z ↔ b ∈ z ∧ b ∉ l := by
  rw [← score_isSome, score_foldl_rem, ← score_isSome]
  by_cases hb : b ∈ l <;> simp [hb]

/-- What a pop leaves is what removing the popped members one by one leaves. -/
theorem popMin_eq_foldl_rem (n : Nat) (z : SortedSet σ α) :
    (z.popMin n).2 = (z.popMin n).1.foldl (fun w a => w.rem a) z := by
  apply ext_score
  intro b
  rw [score_foldl_rem]
  have split := members_popMin n z
  have disjoint := List.disjoint_of_nodup_append (split ▸ z.nodup_members)
  by_cases hb : b ∈ (z.popMin n).1
  · rw [if_pos hb, score_eq_none]
    exact fun later => disjoint hb later
  · rw [if_neg hb]
    apply Option.ext
    intro s
    have entries : z.entries = z.entries.take n ++ z.entries.drop n :=
      (List.take_append_drop n z.entries).symm
    rw [score_eq_some, score_eq_some]
    constructor
    · exact List.mem_of_mem_drop
    · intro h
      rw [entries, List.mem_append] at h
      refine h.resolve_left fun front => hb ?_
      exact List.mem_map.mpr ⟨_, front, rfl⟩

/-- What is popped scores no more than what stays, or than what is popped later. -/
theorem popMin_pairwise (n : Nat) (z : SortedSet σ α) :
    (z.popMin n).1.Pairwise fun a b => ∀ s t, z.score a = some s → z.score b = some t → s ≤ t := by
  have sorted := z.sorted.sublist (List.take_sublist n z.entries)
  refine List.pairwise_map.mpr (sorted.imp_of_mem ?_)
  intro e e' mem mem' le s t is is'
  have first := score_eq_some.mpr (List.mem_of_mem_take mem : toLex ((ofLex e).1, (ofLex e).2) ∈ _)
  have second :=
    score_eq_some.mpr (List.mem_of_mem_take mem' : toLex ((ofLex e').1, (ofLex e').2) ∈ _)
  rw [← Option.some.inj (first.symm.trans is), ← Option.some.inj (second.symm.trans is')]
  rcases Prod.Lex.le_iff.mp le with lt | ⟨same, -⟩
  · exact lt.le
  · exact same.le

theorem popMin_le {n : Nat} {z : SortedSet σ α} {a b : α} {s t : σ} (h : a ∈ (z.popMin n).1)
    (out : b ∉ (z.popMin n).1) (ha : z.score a = some s) (hb : z.score b = some t) : s ≤ t := by
  obtain ⟨e, front, rfl⟩ := List.mem_map.mp h
  have entries : z.entries.take n ++ z.entries.drop n = z.entries := List.take_append_drop ..
  have later : toLex (t, b) ∈ z.entries.drop n := by
    refine (List.mem_append.mp (entries ▸ score_eq_some.mp hb)).resolve_left fun popped => out ?_
    exact List.mem_map.mpr ⟨_, popped, rfl⟩
  have le := (List.pairwise_append.mp (entries ▸ z.sorted)).2.2 e front _ later
  have score := score_eq_some.mpr (List.mem_of_mem_take front : toLex ((ofLex e).1, (ofLex e).2) ∈ _)
  rw [← Option.some.inj (score.symm.trans ha)]
  rcases Prod.Lex.le_iff.mp le with lt | ⟨same, -⟩
  · exact lt.le
  · exact same.le

theorem length_popMin (n : Nat) (z : SortedSet σ α) : (z.popMin n).1.length = min n z.card := by
  rw [popMin, List.length_map, List.length_take, card]

theorem popMin_one {z : SortedSet σ α} {a : α} {l : List α} (h : (z.popMin 1).1 = a :: l) :
    l = [] ∧ a ∈ z ∧ (z.popMin 1).2 = z.rem a := by
  have len := length_popMin_le 1 z
  rw [h] at len
  have nil : l = [] := by
    rw [List.length_cons] at len
    exact List.eq_nil_of_length_eq_zero (by omega)
  subst nil
  refine ⟨rfl, mem_of_mem_popMin (n := 1) (by simp [h]), ?_⟩
  rw [popMin_eq_foldl_rem, h]
  rfl

theorem popMin_nil {z : SortedSet σ α} {n : Nat} (hn : 0 < n) (h : (z.popMin n).1 = []) (a : α) :
    a ∉ z := by
  intro ha
  obtain ⟨s, hs⟩ := mem_iff_entry.mp ha
  cases hz : z.entries with
  | nil => simp [hz] at hs
  | cons e rest =>
      obtain ⟨k, rfl⟩ : ∃ k, n = k + 1 := ⟨n - 1, by omega⟩
      simp [popMin, hz] at h

end SortedSet
end NxgtData
