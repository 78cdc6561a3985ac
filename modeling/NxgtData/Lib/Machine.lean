import Mathlib.Data.List.Induction

/-!
Runs of a machine and paths of a step relation. A machine answers each input and
moves to a new state; its log pairs the inputs with the answers. A path lists the
labels of its steps, so that a coarse step can be shown to be a path of fine ones
and facts about one fine step carry over to whole runs. `Along` is the condition
on a history that each of its items is allowed by those before it.
-/
namespace NxgtData

section Machine
variable {ι ρ σ : Type} (exec : ι → σ → ρ × σ)

/-- The state after a list of inputs. -/
def after : List ι → σ → σ
  | [], s => s
  | i :: is, s => after is (exec i s).2

/-- The inputs with the answers they got. -/
def served : List ι → σ → List (ι × ρ)
  | [], _ => []
  | i :: is, s => (i, (exec i s).1) :: served is (exec i s).2

theorem after_append (is js : List ι) (s : σ) :
    after exec (is ++ js) s = after exec js (after exec is s) := by
  induction is generalizing s with
  | nil => rfl
  | cons i is ih => exact ih _

theorem served_append (is js : List ι) (s : σ) :
    served exec (is ++ js) s = served exec is s ++ served exec js (after exec is s) := by
  induction is generalizing s with
  | nil => rfl
  | cons i is ih => simp only [List.cons_append, served, after, ih]

theorem after_invariant {I : σ → Prop} (step : ∀ i s, I s → I (exec i s).2)
    (is : List ι) {s : σ} (h : I s) : I (after exec is s) := by
  induction is generalizing s with
  | nil => exact h
  | cons i is ih => exact ih (step i s h)

/-- A log that splits comes from inputs that split. -/
theorem served_split {is : List ι} {s : σ} {pre post : List (ι × ρ)} {e : ι × ρ}
    (h : served exec is s = pre ++ e :: post) :
    ∃ js ks, is = js ++ e.1 :: ks ∧ served exec js s = pre ∧
      e.2 = (exec e.1 (after exec js s)).1 ∧
      served exec ks (exec e.1 (after exec js s)).2 = post := by
  induction is generalizing s pre with
  | nil => simp [served] at h
  | cons i is ih =>
      cases pre with
      | nil =>
          simp only [served, List.nil_append, List.cons.injEq] at h
          obtain ⟨rfl, rfl⟩ := h
          exact ⟨[], is, rfl, rfl, rfl, rfl⟩
      | cons p pre =>
          simp only [served, List.cons_append, List.cons.injEq] at h
          obtain ⟨rfl, rest⟩ := h
          obtain ⟨js, ks, rfl, hpre, hans, hpost⟩ := ih rest
          exact ⟨i :: js, ks, rfl, by rw [served, hpre], hans, hpost⟩

end Machine

/-- A path of a labelled step relation, with its labels in order. -/
inductive Path {σ α : Type} (Step : σ → α → σ → Prop) : σ → List α → σ → Prop where
  | nil (s : σ) : Path Step s [] s
  | cons {s t u : σ} {a : α} {as : List α} :
      Step s a t → Path Step t as u → Path Step s (a :: as) u

namespace Path
variable {σ α : Type} {Step : σ → α → σ → Prop}

theorem single {s t : σ} {a : α} (h : Step s a t) : Path Step s [a] t := .cons h (.nil t)

theorem append {s t u : σ} {as bs : List α} (h : Path Step s as t) (k : Path Step t bs u) :
    Path Step s (as ++ bs) u := by
  induction h with
  | nil => exact k
  | cons step _ ih => exact .cons step (ih k)

theorem invariant {I : σ → Prop} (step : ∀ {s a t}, I s → Step s a t → I t)
    {s t : σ} {as : List α} (h : Path Step s as t) (hs : I s) : I t := by
  induction h with
  | nil => exact hs
  | cons first _ ih => exact ih (step hs first)

end Path

/-- Each item of the list is one that the items before it allow. -/
def Along {α : Type} (ok : List α → α → Prop) (l : List α) : Prop :=
  ∀ before a later, l = before ++ a :: later → ok before a

section Along
variable {α : Type} {ok : List α → α → Prop} {l : List α}

theorem along_nil : Along ok [] := by
  intro before a later eq
  cases before <;> cases eq

theorem along_snoc {l : List α} {a : α} : Along ok (l ++ [a]) ↔ Along ok l ∧ ok l a := by
  constructor
  · intro h
    refine ⟨fun before b later eq => h before b (later ++ [a]) ?_, h l a [] rfl⟩
    rw [eq, List.append_assoc, List.cons_append]
  · rintro ⟨h, last⟩ before b later eq
    induction later using List.reverseRecOn with
    | nil =>
        obtain ⟨rfl, same⟩ := List.append_inj' eq rfl
        cases same
        exact last
    | append_singleton later c _ =>
        rw [← List.cons_append, ← List.append_assoc] at eq
        exact h before b later (List.append_inj' eq rfl).1

theorem Along.append {l ms : List α} (h : Along ok l)
    (each : ∀ before a later, ms = before ++ a :: later → ok (l ++ before) a) :
    Along ok (l ++ ms) := by
  induction ms using List.reverseRecOn with
  | nil => simpa using h
  | append_singleton ms a ih =>
      rw [← List.append_assoc, along_snoc]
      refine ⟨ih fun before b later eq => each before b (later ++ [a]) ?_, each ms a [] rfl⟩
      rw [eq, List.append_assoc, List.cons_append]

/-- One check for each place of the list. -/
theorem along_of_take (h : ∀ i : Fin l.length, ok (l.take i) l[i]) : Along ok l := by
  intro before a later eq
  subst eq
  have here := h ⟨before.length, by simp⟩
  simpa using here

end Along
end NxgtData
