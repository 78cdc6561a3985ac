import Mathlib.Data.Set.Finite.Basic
import Mathlib.Logic.Relation

/-!
Marking what a set of nodes reaches, with a list of the marked nodes that are yet to be visited.
Between two visits what is marked is reached, and a marked node that is not on the list has its
successors marked; once the list is empty, what is marked is what is reached.
-/
namespace NxgtData.Worklist

variable {α : Type*}

/-- What the nodes of `seeds` reach. -/
def Reach (next : α → α → Prop) (seeds : Set α) (x : α) : Prop :=
  ∃ b ∈ seeds, Relation.ReflTransGen next b x

section Reach
variable {next : α → α → Prop} {seeds : Set α} {x y : α}

theorem Reach.seed (mem : x ∈ seeds) : Reach next seeds x := ⟨x, mem, .refl⟩

theorem Reach.step (h : Reach next seeds x) (edge : next x y) : Reach next seeds y := by
  obtain ⟨b, mem, path⟩ := h
  exact ⟨b, mem, path.tail edge⟩

/-- It is the least set that holds `seeds` and is closed under the edges. -/
theorem Reach.least {s : Set α} (sub : seeds ⊆ s) (closed : ∀ x ∈ s, ∀ y, next x y → y ∈ s)
    (h : Reach next seeds x) : x ∈ s := by
  obtain ⟨b, mem, path⟩ := h
  induction path with
  | refl => exact sub mem
  | tail _ edge ih => exact closed _ ih _ edge

/-- What is reached is a seed, or the successor of what is reached. -/
theorem Reach.last (h : Reach next seeds x) : x ∈ seeds ∨ ∃ y, Reach next seeds y ∧ next y x := by
  obtain ⟨b, mem, path⟩ := h
  cases path with
  | refl => exact .inl mem
  | tail path edge => exact .inr ⟨_, ⟨b, mem, path⟩, edge⟩

end Reach

/-- Without cycles, what is no source of finitely many nodes is reached from one. -/
theorem exists_source {next : α → α → Prop} {s : Set α} (finite : s.Finite)
    (acyclic : ∀ x, ¬Relation.TransGen next x x) {source : α → Prop}
    (back : ∀ x ∈ s, source x ∨ ∃ y ∈ s, next y x) {x : α} (mem : x ∈ s) :
    ∃ d ∈ s, source d ∧ Relation.ReflTransGen next d x := by
  have : Finite s := finite
  let before (a b : s) : Prop := Relation.TransGen next a.1 b.1
  have : IsTrans s before := ⟨fun _ _ _ => Relation.TransGen.trans⟩
  have : Std.Irrefl before := ⟨fun a => acyclic a.1⟩
  have founded : WellFounded before := Finite.wellFounded_of_trans_of_irrefl before
  have reached (a : s) : ∃ d ∈ s, source d ∧ Relation.ReflTransGen next d a.1 := by
    induction a using founded.induction with
    | h a ih =>
        rcases back a.1 a.2 with first | ⟨y, has, edge⟩
        · exact ⟨a.1, a.2, first, .refl⟩
        · obtain ⟨d, own, first, path⟩ := ih ⟨y, has⟩ (.single edge)
          exact ⟨d, own, first, path.tail edge⟩
  exact reached ⟨x, mem⟩

/-- What holds between two visits. -/
structure Marks (next : α → α → Prop) (seeds marked : Set α) (pending : List α) : Prop where
  seeded : seeds ⊆ marked
  sound : ∀ x ∈ marked, Reach next seeds x
  listed : ∀ x ∈ pending, x ∈ marked
  done : ∀ x ∈ marked, x ∉ pending → ∀ y, next x y → y ∈ marked

section Marks
variable {next : α → α → Prop} {seeds marked : Set α} {pending : List α} {x y : α}

theorem Marks.start (all : ∀ x, x ∈ pending ↔ x ∈ seeds) : Marks next seeds seeds pending where
  seeded := subset_rfl
  sound _ mem := Reach.seed mem
  listed x mem := (all x).mp mem
  done x mem out := absurd ((all x).mpr mem) out

/-- A visit to a node whose successors are marked. -/
theorem Marks.pop (h : Marks next seeds marked (x :: pending)) (all : ∀ y, next x y → y ∈ marked) :
    Marks next seeds marked pending where
  seeded := h.seeded
  sound := h.sound
  listed y mem := h.listed y (List.mem_cons_of_mem x mem)
  done y mem out := by
    by_cases same : y = x
    · rw [same]
      exact all
    · exact h.done y mem (List.not_mem_cons_of_ne_of_not_mem same out)

/-- A visit to a node whose one successor is not. -/
theorem Marks.push (h : Marks next seeds marked (x :: pending)) (edge : next x y)
    (one : ∀ z, next x z → z = y) : Marks next seeds (insert y marked) (y :: pending) where
  seeded := h.seeded.trans (Set.subset_insert y marked)
  sound z mem := by
    rcases Set.mem_insert_iff.mp mem with same | before
    · rw [same]
      exact (h.sound x (h.listed x List.mem_cons_self)).step edge
    · exact h.sound z before
  listed z mem := by
    rcases List.mem_cons.mp mem with same | before
    · rw [same]
      exact Set.mem_insert y marked
    · exact Set.mem_insert_of_mem y (h.listed z (List.mem_cons_of_mem x before))
  done z mem out := by
    rw [List.mem_cons, not_or] at out
    have before := Set.mem_of_mem_insert_of_ne mem out.1
    intro t edge'
    by_cases same : z = x
    · rw [same] at edge'
      rw [one t edge']
      exact Set.mem_insert y marked
    · refine Set.mem_insert_of_mem y (h.done z before ?_ t edge')
      exact List.not_mem_cons_of_ne_of_not_mem same out.2

/-- With nothing left to visit, what is marked is what is reached. -/
theorem Marks.finish (h : Marks next seeds marked []) : x ∈ marked ↔ Reach next seeds x :=
  ⟨h.sound x, Reach.least h.seeded fun y mem => h.done y mem List.not_mem_nil⟩

end Marks

end NxgtData.Worklist
