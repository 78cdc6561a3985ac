import NxgtData.Backup.Plan
import NxgtData.Lib.Grouped
import NxgtData.Lib.Worklist

/-!
What the plan keeps: without a size rule the least set that is closed under parents and holds
what the rules select; under one, a set of that size, unless what is left may not be dropped.
-/
namespace NxgtData.Retention
open Worklist Grouped

/-! The reasons, as a map. -/

namespace Reasons

/-- The ids that have a reason. -/
def marked (reasons : Reasons) : Set String := {id | reasons.why id ≠ []}

/-- The ids that have none, as often as they are listed. -/
def empties (reasons : Reasons) : Nat := reasons.countP fun entry => entry.2.isEmpty

theorem why_cons (entry : String × List String) (reasons : Reasons) (id : String) :
    why (entry :: reasons) id = if id = entry.1 then entry.2 else why reasons id := by
  unfold why
  rw [List.lookup_cons]
  by_cases same : id = entry.1
  · rw [if_pos same, beq_iff_eq.mpr same]
    rfl
  · rw [if_neg same, beq_eq_false_iff_ne.mpr same]

theorem keys_push (reasons : Reasons) (id w : String) :
    (reasons.push id w).map Prod.fst = reasons.map Prod.fst := by
  unfold push
  rw [List.map_map]
  refine List.map_congr_left fun entry _ => ?_
  dsimp only [Function.comp_apply]
  split <;> rfl

theorem why_push (reasons : Reasons) (id w : String) (id' : String) :
    (reasons.push id w).why id' = if id' = id ∧ id ∈ reasons.map Prod.fst then
      reasons.why id' ++ [w] else reasons.why id' := by
  induction reasons with
  | nil => simp [push]
  | cons entry reasons ih =>
      change why ((if entry.1 = id then (entry.1, entry.2 ++ [w]) else entry) ::
        push reasons id w) id' = _
      rw [why_cons, why_cons, ih, List.map_cons]
      by_cases here : entry.1 = id
      · rw [if_pos here]
        by_cases same : id' = id
        · simp [same, here]
        · simp [same, here]
      · rw [if_neg here]
        by_cases same : id' = entry.1
        · have ne : id' ≠ id := fun eq => here (same.symm.trans eq)
          simp [same, here]
        · have ne : id ≠ entry.1 := fun eq => here eq.symm
          simp only [if_neg same, List.mem_cons, ne, false_or]

theorem empties_push_le (reasons : Reasons) (id w : String) :
    (reasons.push id w).empties ≤ reasons.empties := by
  unfold empties push
  rw [List.countP_map]
  refine List.countP_mono_left fun entry _ empty => ?_
  dsimp only [Function.comp_apply] at empty
  split at empty
  · simp at empty
  · exact empty

theorem empties_push_lt {reasons : Reasons} {id : String} (listed : id ∈ reasons.map Prod.fst)
    (none : reasons.why id = []) (w : String) :
    (reasons.push id w).empties < reasons.empties := by
  induction reasons with
  | nil => exact absurd listed List.not_mem_nil
  | cons entry reasons ih =>
      rw [why_cons] at none
      by_cases here : entry.1 = id
      · rw [if_pos here.symm] at none
        have le := empties_push_le reasons id w
        unfold empties push at le ⊢
        rw [List.map_cons, if_pos here, List.countP_cons, List.countP_cons, none]
        simpa using Nat.lt_succ_of_le le
      · rw [if_neg (fun eq => here eq.symm)] at none
        have later := (List.mem_cons.mp listed).resolve_left fun eq => here eq.symm
        have less := ih later none
        unfold empties push at less ⊢
        rw [List.map_cons, if_neg here, List.countP_cons, List.countP_cons]
        omega

/-- The reasons of a list of candidates by their ids. -/
theorem why_map (f : String → List String) (candidates : List Candidate) (id : String) :
    why (candidates.map fun c => (c.id, f c.id)) id =
      if id ∈ candidates.map Candidate.id then f id else [] := by
  induction candidates with
  | nil => rfl
  | cons c candidates ih =>
      rw [List.map_cons, why_cons, ih, List.map_cons]
      by_cases same : id = c.id
      · simp [same]
      · simp [same]

end Reasons

/-! Parents. -/

/-- A backup builds on another, both of them candidates. -/
def ParentIn (candidates : List Candidate) (child parent : String) : Prop :=
  ∃ c ∈ candidates, c.id = child ∧ c.parent = some parent ∧ parent ∈ candidates.map Candidate.id

section Lemmas
variable {newest : List Candidate}

theorem eq_of_id (distinct : (newest.map Candidate.id).Nodup) {c d : Candidate} (hc : c ∈ newest)
    (hd : d ∈ newest) (same : c.id = d.id) : c = d :=
  List.inj_on_of_nodup_map distinct hc hd same

theorem parentOf_mem {c p : Candidate} (is : parentOf newest c = some p) :
    p ∈ newest ∧ c.parent = some p.id := by
  unfold parentOf at is
  obtain ⟨id, parent, found⟩ := Option.bind_eq_some_iff.mp is
  refine ⟨List.mem_of_find?_eq_some found, ?_⟩
  have same := List.find?_some found
  rw [parent, ← of_decide_eq_true same]

theorem parentIn_iff (distinct : (newest.map Candidate.id).Nodup) {c : Candidate}
    (mem : c ∈ newest) (id : String) :
    ParentIn newest c.id id ↔ ∃ p, parentOf newest c = some p ∧ p.id = id := by
  constructor
  · rintro ⟨d, has, same, parent, listed⟩
    have own := eq_of_id distinct has mem same
    subst own
    obtain ⟨p, found⟩ : ∃ p, newest.find? (fun c => c.id = id) = some p := by
      rw [← Option.isSome_iff_exists, List.find?_isSome]
      obtain ⟨p, has, is⟩ := List.mem_map.mp listed
      exact ⟨p, has, decide_eq_true is⟩
    have same := List.find?_some found
    refine ⟨p, ?_, of_decide_eq_true same⟩
    rw [parentOf, parent]
    exact found
  · rintro ⟨p, is, rfl⟩
    obtain ⟨has, parent⟩ := parentOf_mem is
    exact ⟨c, mem, rfl, parent, List.mem_map_of_mem has⟩

/-- The loop marks what the marked candidates build on. -/
theorem spread_marks (distinct : (newest.map Candidate.id).Nodup) {seeds : Set String}
    {pending : List Candidate} {reasons : Reasons} {fuel : Nat} (sub : pending ⊆ newest)
    (keys : reasons.map Prod.fst = newest.map Candidate.id)
    (h : Marks (ParentIn newest) seeds reasons.marked (pending.map Candidate.id))
    (enough : pending.length + reasons.empties ≤ fuel) :
    Marks (ParentIn newest) seeds (spread newest fuel pending reasons).marked [] := by
  induction fuel generalizing pending reasons with
  | zero =>
      have none : pending = [] := List.eq_nil_of_length_eq_zero (by omega)
      rw [none] at h
      exact h
  | succ fuel ih =>
      cases pending with
      | nil => exact h
      | cons child pending =>
          rw [List.length_cons] at enough
          have mem := sub List.mem_cons_self
          have rest : pending ⊆ newest := fun c has => sub (List.mem_cons_of_mem child has)
          unfold spread
          cases is : parentOf newest child with
          | none =>
              refine ih rest keys (h.pop fun id edge => ?_) (by omega)
              obtain ⟨p, found, -⟩ := (parentIn_iff distinct mem id).mp edge
              rw [is] at found
              cases found
          | some parent =>
              have listed : parent.id ∈ reasons.map Prod.fst := by
                rw [keys]
                exact List.mem_map_of_mem (parentOf_mem is).1
              have only (id : String) (edge : ParentIn newest child.id id) : id = parent.id := by
                obtain ⟨p, found, same⟩ := (parentIn_iff distinct mem id).mp edge
                rw [is] at found
                cases found
                exact same.symm
              have edge : ParentIn newest child.id parent.id :=
                (parentIn_iff distinct mem parent.id).mpr ⟨parent, is, rfl⟩
              generalize text : s!"parent of {child.id}" = w
              have insert : (reasons.push parent.id w).marked =
                  Insert.insert parent.id reasons.marked := by
                ext id
                rw [Set.mem_insert_iff]
                change (reasons.push parent.id w).why id ≠ [] ↔ _
                rw [Reasons.why_push]
                by_cases same : id = parent.id
                · simp [same, listed]
                · simp [same, Reasons.marked]
              have keys' := (Reasons.keys_push reasons parent.id w).trans keys
              dsimp only
              by_cases first : reasons.why parent.id = []
              · rw [first]
                refine ih ?_ keys' ?_ ?_
                · exact List.cons_subset.mpr ⟨(parentOf_mem is).1, rest⟩
                · rw [insert]
                  exact h.push edge only
                · have less := Reasons.empties_push_lt listed first w
                  rw [List.isEmpty_nil, if_pos rfl, List.length_cons]
                  omega
              · have later : (reasons.why parent.id).isEmpty = false := by simpa using first
                rw [later]
                refine ih rest keys' ?_ ?_
                · rw [insert, Set.insert_eq_of_mem first]
                  exact h.pop fun id edge => by
                    rw [only id edge]
                    exact first
                · have le := Reasons.empties_push_le reasons parent.id w
                  simp only [Bool.false_eq_true, if_false]
                  omega

/-- What the rules keep of what was not dropped. -/
def seedsOf (newest : List Candidate) (byRule : Reasons) (dropped : List String) : Set String :=
  {id | id ∈ newest.map Candidate.id ∧ id ∉ dropped ∧ byRule.why id ≠ []}

/-- `withParents` keeps what the rules keep and all that it builds on. -/
theorem withParents_iff (distinct : (newest.map Candidate.id).Nodup) (byRule : Reasons)
    (dropped : List String) (id : String) :
    (withParents newest byRule dropped).why id ≠ [] ↔
      Reach (ParentIn newest) (seedsOf newest byRule dropped) id := by
  have why (id : String) : (undropped newest byRule dropped).why id =
      if id ∈ newest.map Candidate.id then (if id ∈ dropped then [] else byRule.why id) else [] :=
    Reasons.why_map (fun id => if id ∈ dropped then [] else byRule.why id) newest id
  have marked : (undropped newest byRule dropped).marked = seedsOf newest byRule dropped := by
    ext id
    change (undropped newest byRule dropped).why id ≠ [] ↔ _ ∧ _ ∧ _
    rw [why]
    by_cases listed : id ∈ newest.map Candidate.id
    · by_cases gone : id ∈ dropped
      · simp [gone]
      · simp [listed, gone]
    · simp [listed]
  have keys : (undropped newest byRule dropped).map Prod.fst = newest.map Candidate.id := by
    rw [undropped, List.map_map]
    rfl
  have all (id : String) :
      id ∈ ((keptOf newest (undropped newest byRule dropped)).reverse).map Candidate.id ↔
        id ∈ (undropped newest byRule dropped).marked := by
    simp only [List.mem_map, List.mem_reverse, keptOf, List.mem_filter]
    constructor
    · rintro ⟨c, ⟨-, some⟩, rfl⟩
      simpa [Reasons.marked] using some
    · intro some
      have listed : id ∈ newest.map Candidate.id := by
        rw [marked] at some
        exact some.1
      obtain ⟨c, has, is⟩ := List.mem_map.mp listed
      refine ⟨c, ⟨has, ?_⟩, is⟩
      rw [is]
      simpa [Reasons.marked] using some
  have visits : (keptOf newest (undropped newest byRule dropped)).reverse.length ≤
      newest.length := by
    rw [List.length_reverse]
    exact List.length_filter_le _ _
  have empties : (undropped newest byRule dropped).empties ≤ newest.length := by
    refine List.countP_le_length.trans ?_
    rw [undropped, List.length_map]
  have sub : (keptOf newest (undropped newest byRule dropped)).reverse ⊆ newest :=
    fun c has => (List.mem_filter.mp (List.mem_reverse.mp has)).1
  have ends := spread_marks distinct sub keys (Marks.start all)
    (show _ ≤ 2 * newest.length + 1 by omega)
  rw [marked] at ends
  exact ends.finish

theorem mem_keptOf {byRule : Reasons} {dropped : List String}
    (distinct : (newest.map Candidate.id).Nodup) {c : Candidate} :
    c ∈ keptOf newest (withParents newest byRule dropped) ↔ c ∈ newest ∧
      Reach (ParentIn newest) (seedsOf newest byRule dropped) c.id := by
  rw [keptOf, List.mem_filter, ← withParents_iff distinct]
  simp

/-! What the rules select. -/

/-- The newest of its period, which is one of the `n` most recent that have a backup. -/
def Rule.Picks (rule : Rule) (n : Nat) (past : List Candidate) (c : Candidate) : Prop :=
  past.find? (fun d => rule.number d.createdAt = rule.number c.createdAt) = some c ∧
    ((past.map fun d => rule.number d.createdAt).toFinset.filter
      fun period => rule.number c.createdAt < period).card < n

/-- What the rules keep without a size rule. -/
def Selects (policy : KeepPolicy) (now : Int) (newest : List Candidate) (c : Candidate) : Prop :=
  c ∈ (pastOf newest now).take (policy.last.getD 0) ∨
    (∃ rule : Rule, rule.Picks (policy.count rule) (pastOf newest now) c) ∨
    (∃ within, policy.within = some within ∧ c.createdAt ≤ now ∧ now - c.createdAt ≤ within) ∨
    now < c.createdAt ∨ c.held = true

/-- What the size rule never drops. -/
def Safe (policy : KeepPolicy) (now : Int) (newest : List Candidate) (c : Candidate) : Prop :=
  c ∈ floorOf newest policy now ∨ now < c.createdAt ∨ c.held = true

theorem counted_firsts (rule : Rule) (left : Nat) (previous : Option String)
    (past : List Candidate) : (counted rule left previous past).map Prod.fst =
      firsts (fun c => periodOf rule c.createdAt) left previous past := by
  induction past generalizing left previous with
  | nil => cases left <;> rfl
  | cons c past ih =>
      cases left with
      | zero => rfl
      | succ left =>
          unfold counted firsts
          dsimp only
          split
          · exact ih (left + 1) previous
          · rw [List.map_cons, ih]

/-- A calendar rule counts the newest of each of the most recent periods that have one. -/
theorem mem_counted {rule : Rule} {past : List Candidate} (sorted : NewestFirst past)
    (reads : ∀ c ∈ past, rule.Reads c.createdAt) (left : Nat) (c : Candidate) :
    c ∈ (counted rule left none past).map Prod.fst ↔ rule.Picks left past c := by
  have periods : firsts (fun c : Candidate => periodOf rule c.createdAt) left none past =
      firsts (fun c => rule.number c.createdAt) left none past :=
    firsts_congr none
      (fun x hx y hy => periodOf_iff rule (reads x hx) (reads y hy)) left
  rw [counted_firsts, periods]
  exact mem_firsts (sorted.imp fun le => rule.number_mono le) left c

theorem past_sub (newest : List Candidate) (now : Int) : pastOf newest now ⊆ newest :=
  List.filter_subset_self newest

theorem byLast_ids (policy : KeepPolicy) (past : List Candidate) (id : String) :
    id ∈ (byLast policy past).map Prod.fst ↔
      id ∈ (past.take (policy.last.getD 0)).map Candidate.id ∨
        (policy.maxTotalSize.isSome ∧ policy.last.isNone) ∧
          id ∈ (past.take 1).map Candidate.id := by
  unfold byLast
  dsimp only
  rw [List.map_append, List.mem_append]
  refine or_congr ?_ ?_
  · simp only [List.mem_map, List.mem_mapIdx]
    constructor
    · rintro ⟨add, ⟨i, lt, rfl⟩, is⟩
      exact ⟨_, List.getElem_mem lt, is⟩
    · rintro ⟨d, has, is⟩
      obtain ⟨i, lt, rfl⟩ := List.getElem_of_mem has
      exact ⟨_, ⟨i, lt, rfl⟩, is⟩
  · split
    next only =>
      rw [List.map_map, and_iff_right only]
      exact Iff.rfl
    next other =>
      exact ⟨fun mem => absurd mem List.not_mem_nil, fun both => absurd both.1 other⟩

theorem byCalendar_ids (policy : KeepPolicy) (past : List Candidate) (id : String) :
    id ∈ (byCalendar policy past).map Prod.fst ↔ ∃ rule : Rule,
      id ∈ ((counted rule (policy.count rule) none past).map Prod.fst).map Candidate.id := by
  have every (rule : Rule) : rule ∈ calendar := by cases rule <;> decide
  simp only [byCalendar, List.mem_map, List.mem_flatMap]
  constructor
  · rintro ⟨add, ⟨rule, -, found, counts, rfl⟩, is⟩
    exact ⟨rule, found.1, ⟨found, counts, rfl⟩, is⟩
  · rintro ⟨rule, -, ⟨found, counts, rfl⟩, is⟩
    exact ⟨_, ⟨rule, every rule, found, counts, rfl⟩, is⟩

theorem byAge_ids (policy : KeepPolicy) (now : Int) (d : Candidate) (id : String) :
    id ∈ (byAge policy now d).map Prod.fst ↔ d.id = id ∧
      ((∃ within, policy.within = some within ∧ d.createdAt ≤ now ∧ now - d.createdAt ≤ within) ∨
        now < d.createdAt ∨ d.held = true) := by
  have single (p : Prop) [Decidable p] (why : String) :
      id ∈ (if p then [(d.id, why)] else []).map Prod.fst ↔ d.id = id ∧ p := by
    split
    next yes => simp [yes, eq_comm]
    next no => simp [no]
  have within : (policy.within.any fun within => 0 ≤ now - d.createdAt ∧
      now - d.createdAt ≤ within) = true ↔ ∃ within, policy.within = some within ∧
        d.createdAt ≤ now ∧ now - d.createdAt ≤ within := by
    cases policy.within with
    | none => simp
    | some within => simp
  have newer : now - d.createdAt < 0 ↔ now < d.createdAt := by omega
  unfold byAge
  dsimp only
  rw [List.map_append, List.map_append, List.mem_append, List.mem_append, single, single, single,
    within, newer, ← and_or_left, ← and_or_left, or_assoc]

/-- The reasons that the rules give. -/
theorem byRules_iff (now : Int) (distinct : (newest.map Candidate.id).Nodup) {policy : KeepPolicy}
    (sorted : NewestFirst newest)
    (reads : ∀ rule : Rule, 0 < policy.count rule → ∀ c ∈ newest, rule.Reads c.createdAt)
    {c : Candidate} (mem : c ∈ newest) :
    Reasons.why (byRules newest policy now) c.id ≠ [] ↔ Selects policy now newest c ∨
      (policy.maxTotalSize.isSome ∧ policy.last.isNone) ∧ c ∈ (pastOf newest now).take 1 := by
  have why := Reasons.why_map (fun id => ((byLast policy (pastOf newest now) ++
    byCalendar policy (pastOf newest now) ++ newest.flatMap (byAge policy now)).filter
      fun add => add.1 = id).map Prod.snd) newest c.id
  rw [if_pos (List.mem_map_of_mem mem)] at why
  change Reasons.why (byRules newest policy now) c.id = _ at why
  have some : Reasons.why (byRules newest policy now) c.id ≠ [] ↔
      c.id ∈ (byLast policy (pastOf newest now) ++ byCalendar policy (pastOf newest now) ++
        newest.flatMap (byAge policy now)).map Prod.fst := by
    rw [why, ne_eq, List.map_eq_nil_iff, List.filter_eq_nil_iff]
    generalize byLast policy (pastOf newest now) ++ byCalendar policy (pastOf newest now) ++
      newest.flatMap (byAge policy now) = added
    simp
  have listed {cs : List Candidate} (sub : cs ⊆ newest) :
      c.id ∈ cs.map Candidate.id ↔ c ∈ cs := by
    refine ⟨fun has => ?_, List.mem_map_of_mem⟩
    obtain ⟨d, has, same⟩ := List.mem_map.mp has
    rw [← eq_of_id distinct (sub has) mem same]
    exact has
  have taken (n : Nat) : (pastOf newest now).take n ⊆ newest :=
    fun d has => past_sub newest now (List.take_subset n _ has)
  have calendars (rule : Rule) : c.id ∈ ((counted rule (policy.count rule) none
      (pastOf newest now)).map Prod.fst).map Candidate.id ↔
        rule.Picks (policy.count rule) (pastOf newest now) c := by
    rcases Nat.eq_zero_or_pos (policy.count rule) with zero | pos
    · rw [zero, counted_firsts]
      cases pastOf newest now <;> simp [firsts, Rule.Picks]
    · have picks := fun d => mem_counted (sorted.past now)
        (fun d has => reads rule pos d (past_sub newest now has)) (policy.count rule) d
      rw [listed fun d has => past_sub newest now
        (List.mem_of_find?_eq_some ((picks d).mp has).1)]
      exact picks c
  have ages : c.id ∈ (newest.flatMap (byAge policy now)).map Prod.fst ↔
      c.id ∈ (byAge policy now c).map Prod.fst := by
    rw [List.map_flatMap, List.mem_flatMap]
    constructor
    · rintro ⟨d, has, is⟩
      have same := eq_of_id distinct has mem ((byAge_ids policy now d c.id).mp is).1
      rw [same] at is
      exact is
    · exact fun is => ⟨c, mem, is⟩
  rw [some, List.map_append, List.map_append, List.mem_append, List.mem_append, byLast_ids,
    byCalendar_ids, ages, byAge_ids, listed (taken _), listed (taken 1)]
  simp only [calendars, true_and]
  constructor
  · rintro (((last | floor) | counted) | age)
    · exact .inl (.inl last)
    · exact .inr floor
    · exact .inl (.inr (.inl counted))
    · exact .inl (.inr (.inr age))
  · rintro ((last | counted | age) | floor)
    · exact .inl (.inl (.inl last))
    · exact .inl (.inr counted)
    · exact .inr age
    · exact .inl (.inl (.inr floor))

/-! The size rule. -/

/-- What is dropped before a round of the size rule. -/
structure Dropped (newest : List Candidate) (policy : KeepPolicy) (now : Int)
    (dropped : List String) : Prop where
  nodup : dropped.Nodup
  listed : dropped ⊆ newest.map Candidate.id
  unsafe_ : ∀ c ∈ newest, c.id ∈ dropped → ¬Safe policy now newest c

theorem floor_sub (newest : List Candidate) (policy : KeepPolicy) (now : Int) :
    floorOf newest policy now ⊆ newest :=
  fun _ has => past_sub newest now (List.take_subset _ _ has)

theorem droppable_iff (distinct : (newest.map Candidate.id).Nodup) {reasons : Reasons}
    {policy : KeepPolicy} {now : Int} {c : Candidate} (mem : c ∈ newest) :
    (c.id ∉ (floorOf newest policy now).map Candidate.id ∧ !c.held ∧ c.createdAt ≤ now ∧
      ∀ k ∈ keptOf newest reasons, k.parent ≠ some c.id) ↔
    ¬Safe policy now newest c ∧ ∀ k ∈ keptOf newest reasons, k.parent ≠ some c.id := by
  have floor : c.id ∈ (floorOf newest policy now).map Candidate.id ↔
      c ∈ floorOf newest policy now := by
    refine ⟨fun has => ?_, List.mem_map_of_mem⟩
    obtain ⟨d, has, same⟩ := List.mem_map.mp has
    rw [← eq_of_id distinct (floor_sub newest policy now has) mem same]
    exact has
  have held : (!c.held) = true ↔ ¬c.held = true := by simp
  rw [floor, held, ← not_lt, Safe, not_or, not_or, and_assoc, and_assoc,
    and_left_comm (a := ¬c.held = true)]

theorem shrink_spec (distinct : (newest.map Candidate.id).Nodup) (byRule : Reasons)
    {policy : KeepPolicy} {now : Int} (max : Nat) {fuel : Nat} {dropped : List String}
    (h : Dropped newest policy now dropped) (enough : newest.length < dropped.length + fuel) :
    let r := shrink newest byRule policy now max fuel dropped
    r.1 = withParents newest byRule r.2.1 ∧ Dropped newest policy now r.2.1 ∧
      (r.2.2 = false → total newest r.1 ≤ (max : Binary64)) ∧
      (r.2.2 = true → ∀ c ∈ keptOf newest r.1, Safe policy now newest c ∨
        ∃ k ∈ keptOf newest r.1, k.parent = some c.id) := by
  induction fuel generalizing dropped with
  | zero =>
      have few := (h.nodup.subperm h.listed).length_le
      rw [List.length_map] at few
      omega
  | succ fuel ih =>
      unfold shrink
      dsimp only
      split
      next fits => exact ⟨rfl, h, fun _ => fits, fun tooLarge => by cases tooLarge⟩
      next =>
        split
        next none =>
          refine ⟨rfl, h, fun tooLarge => (by cases tooLarge), fun _ c has => ?_⟩
          have mem := (List.mem_filter.mp has).1
          have refused := List.find?_eq_none.mp none c (List.mem_reverse.mpr has)
          rw [decide_eq_true_iff, droppable_iff distinct mem, not_and_or, not_not] at refused
          exact refused.imp_right fun some => by simpa using some
        next c some =>
          have has := List.mem_reverse.mp (List.mem_of_find?_eq_some some)
          obtain ⟨mem, reached⟩ := (mem_keptOf distinct).mp has
          have may := List.find?_some some
          rw [decide_eq_true_iff, droppable_iff distinct mem] at may
          have fresh : c.id ∉ dropped := by
            rcases reached.last with seed | ⟨y, from_, child, has, rfl, parent, -⟩
            · exact seed.2.1
            · exact absurd parent (may.2 child ((mem_keptOf distinct).mpr ⟨has, from_⟩))
          refine ih ⟨?_, ?_, ?_⟩ (by rw [List.length_append, List.length_singleton]; omega)
          · refine List.nodup_append.mpr ⟨h.nodup, List.nodup_singleton _, fun a hin b hb => ?_⟩
            rw [List.mem_singleton] at hb
            rw [hb]
            exact fun same => fresh (same ▸ hin)
          · refine List.append_subset.mpr ⟨h.listed, List.cons_subset.mpr ⟨?_, List.nil_subset _⟩⟩
            exact List.mem_map_of_mem mem
          · intro d has gone
            rcases List.mem_append.mp gone with before | now_
            · exact h.unsafe_ d has before
            · rw [eq_of_id distinct has mem (List.mem_singleton.mp now_)]
              exact may.1

/-! The plan. -/

theorem sortNewest_perm (candidates : List Candidate) : (sortNewest candidates).Perm candidates :=
  List.perm_insertionSort SortsBefore candidates

theorem sortNewest_first (candidates : List Candidate) : NewestFirst (sortNewest candidates) := by
  refine (List.pairwise_insertionSort SortsBefore candidates).imp fun before => ?_
  rcases before with later | ⟨same, -⟩
  · exact later.le
  · exact same.le

/-- What is kept in the end is what the rules keep of what was not dropped, and its parents. -/
theorem settled_spec (distinct : (newest.map Candidate.id).Nodup) (policy : KeepPolicy)
    (now : Int) :
    let r := settled newest policy now
    r.1 = withParents newest (byRules newest policy now) r.2.1 ∧
      Dropped newest policy now r.2.1 ∧
      (policy.maxTotalSize = none → r.2.1 = []) ∧
      (∀ max, policy.maxTotalSize = some max → r.2.2 = false →
        total newest r.1 ≤ (max : Binary64)) ∧
      (r.2.2 = true → ∀ c ∈ keptOf newest r.1, Safe policy now newest c ∨
        ∃ k ∈ keptOf newest r.1, k.parent = some c.id) := by
  have start : Dropped newest policy now [] :=
    ⟨List.nodup_nil, List.nil_subset _, fun _ _ gone => absurd gone List.not_mem_nil⟩
  unfold settled
  cases size : policy.maxTotalSize with
  | none =>
      exact ⟨rfl, start, fun _ => rfl, fun max is => (by cases is), fun tooLarge => by cases tooLarge⟩
  | some max =>
      obtain ⟨is, dropped, fits, tooLarge⟩ := shrink_spec distinct (byRules newest policy now) max
        start
        (show newest.length < ([] : List String).length + (newest.length + 1) by simp)
      refine ⟨is, dropped, fun none => (by cases none), fun max' same => ?_, tooLarge⟩
      cases same
      exact fits

end Lemmas

section Plans
variable {candidates : List Candidate} {policy : KeepPolicy} {now : Int}

/-- The plan keeps the candidate. -/
def Plan.Keeps (result : Plan) (c : Candidate) : Prop := c.id ∈ result.kept.map Decision.id

instance (result : Plan) (c : Candidate) : Decidable (result.Keeps c) :=
  inferInstanceAs (Decidable (c.id ∈ result.kept.map Decision.id))

/-- What a decision says of its backup. -/
def Decision.facts (d : Decision) : String × Int × Nat := (d.id, d.createdAt, d.storedSize)

theorem planOf_keeps_iff_kept {newest : List Candidate} (policy : KeepPolicy) (now : Int)
    (distinct : (newest.map Candidate.id).Nodup) {c : Candidate} (mem : c ∈ newest) :
    (planOf newest policy now).Keeps c ↔ c ∈ keptOf newest (settled newest policy now).1 := by
  have ids : (planOf newest policy now).kept.map Decision.id =
      (keptOf newest (settled newest policy now).1).map Candidate.id := by
    change ((keptOf _ _).map _).map _ = _
    rw [List.map_map]
    rfl
  rw [Plan.Keeps, ids]
  refine ⟨fun has => ?_, List.mem_map_of_mem⟩
  obtain ⟨d, kept, same⟩ := List.mem_map.mp has
  have own := eq_of_id distinct (List.mem_filter.mp kept).1 mem same
  exact own ▸ kept

theorem planOf_keeps_iff {newest : List Candidate} (policy : KeepPolicy) (now : Int)
    (distinct : (newest.map Candidate.id).Nodup) {c : Candidate} (mem : c ∈ newest) :
    (planOf newest policy now).Keeps c ↔ Reach (ParentIn newest)
      (seedsOf newest (byRules newest policy now) (settled newest policy now).2.1) c.id := by
  rw [planOf_keeps_iff_kept policy now distinct mem, (settled_spec distinct policy now).1,
    mem_keptOf distinct]
  exact and_iff_right mem

theorem keeps_iff_kept (policy : KeepPolicy) (now : Int)
    (distinct : (candidates.map Candidate.id).Nodup) {c : Candidate} (mem : c ∈ candidates) :
    (plan candidates policy now).Keeps c ↔
      c ∈ keptOf (sortNewest candidates) (settled (sortNewest candidates) policy now).1 := by
  have perm := sortNewest_perm candidates
  exact planOf_keeps_iff_kept policy now ((perm.map Candidate.id).nodup_iff.mpr distinct)
    (perm.mem_iff.mpr mem)

theorem keeps_iff (policy : KeepPolicy) (now : Int)
    (distinct : (candidates.map Candidate.id).Nodup) {c : Candidate} (mem : c ∈ candidates) :
    (plan candidates policy now).Keeps c ↔
      Reach (ParentIn candidates) (seedsOf (sortNewest candidates)
        (byRules (sortNewest candidates) policy now)
        (settled (sortNewest candidates) policy now).2.1) c.id := by
  have perm := sortNewest_perm candidates
  have parents : ParentIn (sortNewest candidates) = ParentIn candidates := by
    funext child parent
    simp only [ParentIn, perm.mem_iff, (perm.map Candidate.id).mem_iff]
  rw [← parents]
  exact planOf_keeps_iff policy now ((perm.map Candidate.id).nodup_iff.mpr distinct)
    (perm.mem_iff.mpr mem)

/-- Each candidate is kept or removed, and once. -/
theorem plan_perm (candidates : List Candidate) (policy : KeepPolicy) (now : Int) :
    (((plan candidates policy now).kept ++ (plan candidates policy now).removed).map
      Decision.facts).Perm (candidates.map fun c => (c.id, c.createdAt, c.storedSize)) := by
  unfold plan planOf
  dsimp only
  generalize settled (sortNewest candidates) policy now = r
  have split : (keptOf (sortNewest candidates) r.1 ++
      (sortNewest candidates).filter fun c => (r.1.why c.id).isEmpty).Perm
        (sortNewest candidates) := by
    have parts := List.filter_append_perm (fun c => !(r.1.why c.id).isEmpty)
      (sortNewest candidates)
    simpa [keptOf] using parts
  have facts := (split.trans (sortNewest_perm candidates)).map
    fun c => (c.id, c.createdAt, c.storedSize)
  rw [List.map_append] at facts ⊢
  rw [List.map_map, List.map_map]
  exact facts

/-- The bytes of what is kept. -/
def Plan.bytes (result : Plan) : Nat := (result.kept.map Decision.storedSize).sum

theorem bytes_eq (candidates : List Candidate) (policy : KeepPolicy) (now : Int) :
    (plan candidates policy now).bytes = ((keptOf (sortNewest candidates)
      (settled (sortNewest candidates) policy now).1).map Candidate.storedSize).sum := by
  unfold Plan.bytes plan planOf
  dsimp only
  rw [List.map_map]
  rfl

theorem checkPolicy_bound {place : String} (accepted : checkPolicy policy place = .ok policy)
    {max : Nat} (size : policy.maxTotalSize = some max) : max < 2 ^ 53 := by
  unfold checkPolicy at accepted
  split at accepted
  next => cases accepted
  next none =>
    have all := List.find?_eq_none.mp none ("maxTotalSize", policy.maxTotalSize)
      (by simp [KeepPolicy.rules])
    rw [size] at all
    simp only [Option.any_some, decide_eq_true_iff, not_or, not_lt] at all
    omega

/-- The retention plan: every candidate is kept or removed, once; what is kept is closed under
parents; held backups, those newer than now and the floor are kept; without a size rule it is the
least such set that holds what the rules select; under one it is of that size, or nothing of it
may be dropped but for what builds on it. -/
theorem plan_keeps {candidates : List Candidate} {policy : KeepPolicy} {place : String} {now : Int}
    (distinct : (candidates.map Candidate.id).Nodup)
    (acyclic : ∀ id, ¬Relation.TransGen (ParentIn candidates) id id)
    (weeks : policy.weekly.isSome → ∀ c ∈ candidates, Weekly c.createdAt)
    (accepted : checkPolicy policy place = .ok policy) :
    let result := plan candidates policy now
    let newest := sortNewest candidates
    (((result.kept ++ result.removed).map Decision.facts).Perm
      (candidates.map fun c => (c.id, c.createdAt, c.storedSize))) ∧
    (∀ c ∈ candidates, ∀ p ∈ candidates, c.parent = some p.id → result.Keeps c →
      result.Keeps p) ∧
    (∀ c ∈ candidates, c.held = true ∨ now < c.createdAt → result.Keeps c) ∧
    (policy.last.isSome ∨ policy.maxTotalSize.isSome → ∀ c ∈ floorOf newest policy now,
      result.Keeps c) ∧
    (policy.maxTotalSize = none → ∀ c ∈ candidates, result.Keeps c ↔
      ∀ s : Set String, (∀ d ∈ candidates, Selects policy now newest d → d.id ∈ s) →
        (∀ d ∈ candidates, ∀ p ∈ candidates, d.parent = some p.id → d.id ∈ s → p.id ∈ s) →
        c.id ∈ s) ∧
    (∀ max, policy.maxTotalSize = some max → result.bytes ≤ max ∨ result.overSize = true) ∧
    (result.overSize = true → ∀ c ∈ candidates, result.Keeps c → ∃ d ∈ candidates,
      Safe policy now newest d ∧ result.Keeps d ∧
        Relation.ReflTransGen (ParentIn candidates) d.id c.id) := by
  intro result newest
  have perm := sortNewest_perm candidates
  have distinct' := (perm.map Candidate.id).nodup_iff.mpr distinct
  have edge {c p : Candidate} (hc : c ∈ candidates) (hp : p ∈ candidates)
      (parent : c.parent = some p.id) : ParentIn candidates c.id p.id :=
    ⟨c, hc, rfl, parent, List.mem_map_of_mem hp⟩
  have keeps {c : Candidate} (mem : c ∈ candidates) :=
    keeps_iff policy now distinct mem
  obtain ⟨is, gone, none_, fits, tooLarge⟩ := settled_spec distinct' policy now
  have reads (rule : Rule) (used : 0 < policy.count rule) (c : Candidate)
      (mem : c ∈ sortNewest candidates) : rule.Reads c.createdAt := by
    intro weekly
    refine weeks ?_ c (perm.mem_iff.mp mem)
    rw [weekly] at used
    cases given : policy.weekly with
    | none => simp [KeepPolicy.count, given] at used
    | some n => rfl
  have seeded {c : Candidate} (mem : c ∈ candidates)
      (listed : Selects policy now newest c ∨
        (policy.maxTotalSize.isSome ∧ policy.last.isNone) ∧ c ∈ (pastOf newest now).take 1)
      (safe : Safe policy now newest c) : result.Keeps c := by
    have mem' := perm.mem_iff.mpr mem
    refine (keeps mem).mpr (Reach.seed ⟨List.mem_map_of_mem mem', ?_, ?_⟩)
    · exact fun dropped => gone.unsafe_ c mem' dropped safe
    · exact (byRules_iff now distinct' (sortNewest_first candidates) reads mem').mpr listed
  refine ⟨plan_perm candidates policy now, ?_, ?_, ?_, ?_, ?_, ?_⟩
  · intro c hc p hp parent kept
    exact (keeps hp).mpr (((keeps hc).mp kept).step (edge hc hp parent))
  · intro c mem either
    have safe := either.symm
    exact seeded mem (.inl (.inr (.inr (.inr safe)))) (.inr safe)
  · intro either c has
    refine seeded (perm.mem_iff.mp (floor_sub _ policy now has)) ?_ (.inl has)
    unfold floorOf at has
    cases given : policy.last with
    | some n =>
        rw [given] at has
        refine .inl (.inl ?_)
        rw [given]
        exact has
    | none =>
        rw [given] at has either
        exact .inr ⟨⟨either.resolve_left (by simp), rfl⟩, has⟩
  · intro none c mem
    have seeds : seedsOf (sortNewest candidates) (byRules (sortNewest candidates) policy now)
        (settled (sortNewest candidates) policy now).2.1 =
        {id | ∃ d ∈ candidates, d.id = id ∧ Selects policy now newest d} := by
      have selects {d : Candidate} (has : d ∈ sortNewest candidates) :=
        byRules_iff now distinct' (sortNewest_first candidates) reads has
      rw [none] at selects
      simp only [Option.isSome_none, Bool.false_eq_true, false_and, or_false] at selects
      ext id
      rw [seedsOf, none_ none]
      constructor
      · rintro ⟨listed, -, why⟩
        obtain ⟨d, has, rfl⟩ := List.mem_map.mp listed
        exact ⟨d, perm.mem_iff.mp has, rfl, (selects has).mp why⟩
      · rintro ⟨d, has, rfl, chosen⟩
        have has' := perm.mem_iff.mpr has
        exact ⟨List.mem_map_of_mem has', List.not_mem_nil, (selects has').mpr chosen⟩
    rw [keeps mem, seeds]
    constructor
    · intro reached s sub closed
      refine reached.least ?_ ?_
      · rintro id ⟨d, has, rfl, chosen⟩
        exact sub d has chosen
      · rintro id inside id' ⟨d, has, rfl, parent, listed⟩
        obtain ⟨p, hp, rfl⟩ := List.mem_map.mp listed
        exact closed d has p hp parent inside
    · intro least
      refine least {id | Reach _ _ id} ?_ ?_
      · exact fun d has chosen => Reach.seed ⟨d, has, rfl, chosen⟩
      · exact fun d has p hp parent reached => Reach.step reached (edge has hp parent)
  · intro max size
    cases isOver : result.overSize with
    | true => exact .inr rfl
    | false =>
        have le := fits max size isOver
        have small := checkPolicy_bound accepted size
        refine .inl ?_
        have total := @Binary64.sum_le_iff 0 max (by decide) small
          ((keptOf newest (settled newest policy now).1).map Candidate.storedSize)
        rw [List.foldl_map, Nat.zero_add] at total
        rw [bytes_eq]
        exact total.mp le
  · intro isOver c mem kept
    have finite : {id | ∃ d ∈ candidates, d.id = id ∧ result.Keeps d}.Finite := by
      refine (List.finite_toSet (candidates.map Candidate.id)).subset ?_
      rintro id ⟨d, has, rfl, -⟩
      exact List.mem_map_of_mem has
    have back (id : String) (inside : id ∈ {id | ∃ d ∈ candidates, d.id = id ∧ result.Keeps d}) :
        (∃ d ∈ candidates, d.id = id ∧ Safe policy now newest d) ∨
          ∃ y ∈ {id | ∃ d ∈ candidates, d.id = id ∧ result.Keeps d}, ParentIn candidates y id := by
      obtain ⟨d, has, rfl, keptD⟩ := inside
      have kept' := (keeps_iff_kept policy now distinct has).mp keptD
      rcases tooLarge isOver d kept' with safe | ⟨k, hk, parent⟩
      · exact .inl ⟨d, has, rfl, safe⟩
      · have listed := perm.mem_iff.mp (List.mem_filter.mp hk).1
        exact .inr ⟨k.id, ⟨k, listed, rfl, (keeps_iff_kept policy now distinct listed).mpr hk⟩,
          edge listed has parent⟩
    obtain ⟨id, ⟨d, has, rfl, keptD⟩, ⟨d', has', same, safe⟩, path⟩ :=
      exists_source finite acyclic back ⟨c, mem, rfl, kept⟩
    rw [eq_of_id distinct has' has same] at safe
    exact ⟨d, has, safe, keptD, path⟩

end Plans

/-- A backup with no parent that nothing holds. -/
def lone (id : String) (createdAt : Int) : Candidate where
  id
  createdAt
  storedSize := 10
  parent := none
  held := false
  standIn := false

def onlyLast (n : Nat) : KeepPolicy where
  last := some n
  hourly := none
  daily := none
  weekly := none
  monthly := none
  yearly := none
  within := none
  maxTotalSize := none

/-- A full backup and one that builds on it, with a weekly rule. -/
theorem plan_keeps_chain :
    let chain := [{ lone "inc" 1790985600000 with parent := some "full" },
      lone "full" 1790380800000]
    let policy := { onlyLast 1 with weekly := some 1 }
    (plan chain policy 1791072000000).Keeps (lone "full" 1790380800000) := by
  intro chain policy
  have edges (a b : String) (edge : ParentIn chain a b) : a = "inc" ∧ b = "full" := by
    obtain ⟨c, has, rfl, parent, -⟩ := edge
    rcases List.mem_cons.mp has with rfl | has
    · exact ⟨rfl, (Option.some.inj parent).symm⟩
    · rw [List.mem_singleton.mp has] at parent
      cases parent
  have acyclic (id : String) : ¬Relation.TransGen (ParentIn chain) id id := by
    intro cycle
    obtain ⟨b, first, -⟩ := Relation.TransGen.head'_iff.mp cycle
    obtain ⟨c, -, last⟩ := Relation.TransGen.tail'_iff.mp cycle
    have same : "inc" = "full" := (edges _ _ first).1.symm.trans (edges _ _ last).2
    exact absurd same (by decide)
  have weeks : policy.weekly.isSome → ∀ c ∈ chain, Weekly c.createdAt := by
    intro _ c has
    refine FourDigit.weekly ?_
    rcases List.mem_cons.mp has with rfl | has
    · exact ⟨by decide, by decide⟩
    · rw [List.mem_singleton.mp has]
      exact ⟨by decide, by decide⟩
  have parts := @plan_keeps chain policy "prune" 1791072000000 (by decide) acyclic weeks rfl
  refine parts.2.1 _ List.mem_cons_self _ (List.mem_cons_of_mem _ List.mem_cons_self) rfl ?_
  exact parts.2.2.2.1 (.inl rfl) _ (by decide)

/-- A stand-in that is not held is removed; and in the years 0 to 99 `isoWeek` takes days of two
weeks, far from each other, for days of one, so that the newest backup of the earlier week is
removed where the newest of each of the last two weeks are to be kept. -/
theorem plan_drops_standIn :
    let standIn := { lone "a" 0 with standIn := true }
    let early := lone "early" (-60576249600000)
    let late := lone "late" (-618105600000)
    let policy := { onlyLast 1 with last := none, weekly := some 2 }
    ¬(plan [standIn] (onlyLast 1) 5).Keeps standIn ∧
      periodOf .weekly early.createdAt = periodOf .weekly late.createdAt ∧
      Rule.weekly.number early.createdAt ≠ Rule.weekly.number late.createdAt ∧
      ¬(plan [early, late] policy 5).Keeps early := by
  refine ⟨by decide, ?_, by decide, by decide +kernel⟩
  exact @isoWeek_early (-60576249600000) (-618105600000) (by decide) (by decide) (by decide)
    (by decide) (by decide)

end NxgtData.Retention
