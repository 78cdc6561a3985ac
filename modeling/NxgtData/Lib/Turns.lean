import Mathlib.Data.List.Infix
import Mathlib.Data.List.Nodup
import Mathlib.Data.Nat.Init
import NxgtData.Lib.Machine

/-!
Turns from a line. Whoever is ready stands in the line; a turn takes the head and
serves it, after which it may go to the end, or skips it when it is not ready, and
between turns the line only grows at its end. Between two turns of one client
everyone who stays ready is served.
-/
namespace NxgtData

variable {σ α : Type} {line : σ → List α} {Ready : α → σ → Prop}

/-- One moment: what it serves, if anyone, and the state it leaves. -/
inductive Turn (line : σ → List α) (Ready : α → σ → Prop) (s : σ) : Option α → σ → Prop where
  | wait {s'} (grows : line s <+: line s') : Turn line Ready s none s'
  | serve {a rest s'} (head : line s = a :: rest)
      (back : line s' = rest ∨ line s' = rest ++ [a]) : Turn line Ready s (some a) s'
  | skip {a rest s'} (head : line s = a :: rest) (idle : ¬ Ready a s) (rest : line s' = rest) :
      Turn line Ready s none s'

/-- A moment as a label: the state it finds and whom it serves. -/
def Serves (line : σ → List α) (Ready : α → σ → Prop) (s : σ) (x : σ × Option α) (s' : σ) : Prop :=
  x.1 = s ∧ Turn line Ready s x.2 s'

/-- `b` stands in the line, and `a` does not stand before it. -/
def Ahead (b a : α) (l : List α) : Prop := ∃ front back, l = front ++ b :: back ∧ a ∉ front

namespace Ahead
variable {a b c : α} {l l' : List α}

theorem grow (h : Ahead b a l) (grows : l <+: l') : Ahead b a l' := by
  obtain ⟨front, back, rfl, clear⟩ := h
  obtain ⟨more, rfl⟩ := grows
  exact ⟨front, back ++ more, by simp, clear⟩

theorem head_ne (h : Ahead b a (c :: l)) (ne : b ≠ a) : c ≠ a := by
  obtain ⟨front, back, eq, clear⟩ := h
  cases front with
  | nil =>
      cases eq
      exact ne
  | cons d front =>
      cases eq
      exact fun same => clear (same ▸ List.mem_cons_self)

theorem tail (h : Ahead b a (c :: l)) (other : c ≠ b) : Ahead b a l := by
  obtain ⟨front, back, eq, clear⟩ := h
  cases front with
  | nil =>
      cases eq
      exact absurd rfl other
  | cons d front =>
      cases eq
      exact ⟨front, back, rfl, fun mem => clear (List.mem_cons_of_mem _ mem)⟩

theorem of_mem (mem : b ∈ l) (clear : a ∉ l) : Ahead b a l := by
  obtain ⟨front, back, rfl⟩ := List.append_of_mem mem
  exact ⟨front, back, rfl, fun before => clear (List.mem_append_left _ before)⟩

end Ahead

namespace Turn
variable {s s' : σ} {served : Option α} {a b : α}

/-- Who is ready keeps its place before `a`, or is served. -/
theorem ahead (h : Turn line Ready s served s') (ready : Ready b s) (ahead : Ahead b a (line s)) :
    served = some b ∨ Ahead b a (line s') := by
  cases h with
  | wait grows => exact Or.inr (ahead.grow grows)
  | @serve c rest _ head back =>
      rw [head] at ahead
      by_cases own : c = b
      · exact Or.inl (congrArg some own)
      · refine Or.inr ((ahead.tail own).grow ?_)
        rcases back with back | back
        · rw [back]
        · rw [back]
          exact List.prefix_append rest [c]
  | @skip c rest _ head idle rests =>
      rw [head] at ahead
      rw [rests]
      refine Or.inr (ahead.tail ?_)
      rintro rfl
      exact idle ready

/-- Just after `a` was served, whoever else stands in the line is before it. -/
theorem ahead_of_served (h : Turn line Ready s (some a) s') (nodup : (line s).Nodup) (ne : b ≠ a)
    (listed : b ∈ line s') : Ahead b a (line s') := by
  cases h with
  | @serve _ rest _ head back =>
      rw [head, List.nodup_cons] at nodup
      have waits : b ∈ rest := by
        rcases back with back | back <;> rw [back] at listed
        · exact listed
        · exact (List.mem_append.mp listed).resolve_right fun last =>
            ne (List.mem_singleton.mp last)
      refine (Ahead.of_mem waits nodup.1).grow ?_
      rcases back with back | back
      · rw [back]
      · rw [back]
        exact List.prefix_append rest [a]

end Turn

/-- Each label is a step's. -/
theorem Path.step_of_label {τ ℓ : Type} {Step : τ → ℓ → τ → Prop} {s t : τ} {labels : List ℓ}
    (h : Path Step s labels t) {x : ℓ} (mem : x ∈ labels) : ∃ u v, Step u x v := by
  induction h with
  | nil => cases mem
  | cons step _ ih =>
      rcases List.mem_cons.mp mem with rfl | later
      · exact ⟨_, _, step⟩
      · exact ih later

/-- Two labels in a row meet in one state. -/
theorem Path.meet {τ ℓ : Type} {Step : τ → ℓ → τ → Prop} {s t : τ} {labels : List ℓ}
    (h : Path Step s labels t) {k : Nat} {x y : ℓ} (first : labels[k]? = some x)
    (next : labels[k + 1]? = some y) : ∃ u v w, Step u x v ∧ Step v y w := by
  induction h generalizing k with
  | nil => cases first
  | @cons s u _ c _ step path ih =>
      cases k with
      | zero =>
          cases first
          cases path with
          | nil => cases next
          | cons step' =>
              cases next
              exact ⟨_, _, _, step, step'⟩
      | succ k => exact ih first next

/-- Whom the `k`th moment serves. -/
def servedAt (moments : List (σ × Option α)) (k : Nat) : Option α := moments[k]?.bind Prod.snd

/-- Between two turns of `a` everyone else who stays ready is served. -/
theorem served_between {s t : σ} {moments : List (σ × Option α)}
    (path : Path (Serves line Ready) s moments t)
    (nodup : ∀ x ∈ moments, (line x.1).Nodup) {a b : α}
    (listed : ∀ x ∈ moments, Ready b x.1 → b ∈ line x.1) (ne : b ≠ a) {i j : Nat} (lt : i < j)
    (first : servedAt moments i = some a) (again : servedAt moments j = some a)
    (ready : ∀ k x, i < k → k ≤ j → moments[k]? = some x → Ready b x.1) :
    ∃ k, i < k ∧ k < j ∧ servedAt moments k = some b := by
  obtain ⟨x, atI, xs⟩ := Option.bind_eq_some_iff.mp first
  obtain ⟨y, atJ, ys⟩ := Option.bind_eq_some_iff.mp again
  -- Up to `j`, either `b` was served or it stands before `a`.
  have waits : ∀ k, i + 1 ≤ k → k ≤ j → ∀ z, moments[k]? = some z →
      (∃ k', i < k' ∧ k' < k ∧ servedAt moments k' = some b) ∨ Ahead b a (line z.1) := by
    intro k low
    induction k, low using Nat.le_induction with
    | base =>
        intro high z atK
        obtain ⟨u, v, w, ⟨rfl, turn⟩, ⟨rfl, -⟩⟩ := path.meet atI atK
        rw [xs] at turn
        exact Or.inr (turn.ahead_of_served (nodup x (List.mem_of_getElem? atI)) ne
          (listed z (List.mem_of_getElem? atK) (ready _ z (by omega) high atK)))
    | succ k low ih =>
        intro high z atK
        obtain ⟨z', atK'⟩ : ∃ z', moments[k]? = some z' := by
          obtain ⟨short, -⟩ := List.getElem?_eq_some_iff.mp atK
          exact ⟨_, List.getElem?_eq_getElem (by omega)⟩
        rcases ih (by omega) z' atK' with ⟨k', after, before, served⟩ | ahead
        · exact Or.inl ⟨k', after, by omega, served⟩
        · obtain ⟨u, v, w, ⟨rfl, turn⟩, ⟨rfl, -⟩⟩ := path.meet atK' atK
          rcases turn.ahead (ready k z' (by omega) (by omega) atK') ahead with served | ahead
          · exact Or.inl ⟨k, by omega, by omega, by simp [servedAt, atK', served]⟩
          · exact Or.inr ahead
  rcases waits j lt (Nat.le_refl j) y atJ with served | ahead
  · exact served
  · obtain ⟨u, v, rfl, turn⟩ := path.step_of_label (List.mem_of_getElem? atJ)
    rw [ys] at turn
    cases turn with
    | serve head =>
        rw [head] at ahead
        exact absurd rfl (ahead.head_ne ne)

end NxgtData
