import Mathlib.Data.Finset.Card
import Mathlib.Order.Interval.Finset.Basic
import Mathlib.Order.Max

/-!
The first item of each group of a list whose groups lie together, as many groups as are asked
for. Where the keys do not rise along the list, an item is chosen exactly if it is the first of
its key and fewer keys than asked for are above its own.
-/
namespace NxgtData.Grouped

variable {α κ : Type*} [DecidableEq κ]

/-- The first item of each group after the group of `previous`, for at most `left` groups. -/
def firsts (key : α → κ) : Nat → Option κ → List α → List α
  | _, _, [] => []
  | 0, _, _ :: _ => []
  | left + 1, previous, x :: xs =>
      if some (key x) = previous then firsts key (left + 1) previous xs
      else x :: firsts key left (some (key x)) xs

/-- Keys that tell the same items apart choose the same items. -/
theorem firsts_congr {κ' : Type*} [DecidableEq κ'] {key : α → κ} {key' : α → κ'} {xs : List α}
    (previous : Option α)
    (same : ∀ x ∈ previous.toList ++ xs, ∀ y ∈ previous.toList ++ xs, key x = key y ↔
      key' x = key' y) (left : Nat) :
    firsts key left (previous.map key) xs = firsts key' left (previous.map key') xs := by
  induction xs generalizing previous left with
  | nil => cases left <;> rfl
  | cons x xs ih =>
      cases left with
      | zero => rfl
      | succ left =>
          have here : x ∈ previous.toList ++ x :: xs :=
            List.mem_append_right _ List.mem_cons_self
          have again : some (key x) = previous.map key ↔ some (key' x) = previous.map key' := by
            cases previous with
            | none => simp
            | some y => simpa using same x here y List.mem_cons_self
          have rest (previous' : Option α) (sub : previous'.toList ⊆ previous.toList ++ [x])
              (left : Nat) : firsts key left (previous'.map key) xs =
              firsts key' left (previous'.map key') xs := by
            have part : previous'.toList ++ xs ⊆ previous.toList ++ x :: xs := by
              intro y mem
              rcases List.mem_append.mp mem with first | later
              · rcases List.mem_append.mp (sub first) with before | now
                · exact List.mem_append_left _ before
                · rw [List.mem_singleton.mp now]
                  exact here
              · exact List.mem_append_right _ (List.mem_cons_of_mem x later)
            exact ih previous' (fun y mem z mem' => same y (part mem) z (part mem')) left
          unfold firsts
          by_cases equal : some (key x) = previous.map key
          · rw [if_pos equal, if_pos (again.mp equal)]
            exact rest previous (List.subset_append_left _ _) (left + 1)
          · rw [if_neg equal, if_neg (mt again.mpr equal)]
            exact congrArg (x :: ·) (rest (some x) (by simp) left)

section Order
variable {κ : Type*} [LinearOrder κ] {key : α → κ} {xs : List α}

/-- The keys of a list between two others. -/
def between (key : α → κ) (xs : List α) (low high : κ) : Finset κ :=
  (xs.map key).toFinset.filter fun k => low < k ∧ k < high

theorem between_empty {low high : κ} (below : ∀ x ∈ xs, key x ≤ low) :
    between key xs low high = ∅ := by
  refine Finset.filter_eq_empty_iff.mpr fun k mem inside => ?_
  obtain ⟨x, has, rfl⟩ := List.mem_map.mp (List.mem_toFinset.mp mem)
  exact absurd inside.1 (not_lt_of_ge (below x has))

theorem between_skip {y : α} (low : κ) :
    between key (y :: xs) low (key y) = between key xs low (key y) := by
  rw [between, List.map_cons, List.toFinset_cons, Finset.filter_insert,
    if_neg fun inside => lt_irrefl _ inside.2]
  rfl

theorem card_between_cons {y : α} {low high : κ} (above : low < key y) (less : key y < high)
    (below : ∀ x ∈ xs, key x ≤ key y) :
    (between key (y :: xs) low high).card = (between key xs low (key y)).card + 1 := by
  have split : between key (y :: xs) low high = insert (key y) (between key xs low (key y)) := by
    ext k
    simp only [between, Finset.mem_filter, List.mem_toFinset, List.map_cons, List.mem_cons,
      Finset.mem_insert]
    constructor
    · rintro ⟨same | mem, inside⟩
      · exact .inl same
      · obtain ⟨x, has, rfl⟩ := List.mem_map.mp mem
        rcases (below x has).lt_or_eq with under | same
        · exact .inr ⟨mem, inside.1, under⟩
        · exact .inl same
    · rintro (same | ⟨mem, inside⟩)
      · rw [same]
        exact ⟨.inl rfl, above, less⟩
      · exact ⟨.inr mem, inside.1, inside.2.trans less⟩
  rw [split, Finset.card_insert_of_notMem]
  intro mem
  exact lt_irrefl _ (Finset.mem_filter.mp mem).2.2

theorem mem_firsts_some (sorted : xs.Pairwise fun x y => key y ≤ key x) {k : κ}
    (below : ∀ x ∈ xs, key x ≤ k) (left : Nat) (x : α) :
    x ∈ firsts key left (some k) xs ↔ key x < k ∧
      xs.find? (fun y => key y = key x) = some x ∧ (between key xs (key x) k).card < left := by
  induction xs generalizing left k with
  | nil => cases left <;> simp [firsts]
  | cons y xs ih =>
      obtain ⟨older, rest⟩ := List.pairwise_cons.mp sorted
      have le := below y List.mem_cons_self
      cases left with
      | zero => simp [firsts]
      | succ left =>
          unfold firsts
          by_cases same : key y = k
          · subst same
            rw [if_pos rfl, ih rest older, between_skip]
            refine and_congr_right fun less => ?_
            rw [List.find?_cons_of_neg (by simpa using (ne_of_lt less).symm)]
          · have less : key y < k := lt_of_le_of_ne le same
            rw [if_neg (by simpa using same), List.mem_cons, ih rest older]
            constructor
            · rintro (rfl | ⟨under, first, few⟩)
              · refine ⟨less, List.find?_cons_of_pos (by simp), ?_⟩
                have none : between key (x :: xs) (key x) k = ∅ := by
                  refine between_empty fun z mem => ?_
                  rcases List.mem_cons.mp mem with is | mem
                  · rw [is]
                  · exact older z mem
                rw [none, Finset.card_empty]
                exact Nat.succ_pos left
              · rw [List.find?_cons_of_neg (by simpa using (ne_of_lt under).symm),
                  card_between_cons under less older]
                exact ⟨under.trans less, first, Nat.succ_lt_succ few⟩
            · rintro ⟨under, first, few⟩
              by_cases equal : key y = key x
              · rw [List.find?_cons_of_pos (by simpa using equal)] at first
                exact .inl (Option.some.inj first).symm
              · rw [List.find?_cons_of_neg (by simpa using equal)] at first
                have lower : key x < key y :=
                  lt_of_le_of_ne (older x (List.mem_of_find?_eq_some first)) (Ne.symm equal)
                rw [card_between_cons lower less older] at few
                exact .inr ⟨lower, first, Nat.lt_of_succ_lt_succ few⟩

/-- An item is chosen exactly if it is the first of its key and fewer keys than asked for are
above its own. -/
theorem mem_firsts [NoMaxOrder κ] (sorted : xs.Pairwise fun x y => key y ≤ key x) (left : Nat)
    (x : α) : x ∈ firsts key left none xs ↔ xs.find? (fun y => key y = key x) = some x ∧
      ((xs.map key).toFinset.filter fun k => key x < k).card < left := by
  cases xs with
  | nil => cases left <;> simp [firsts]
  | cons y xs =>
      obtain ⟨older, -⟩ := List.pairwise_cons.mp sorted
      obtain ⟨k, less⟩ := exists_gt (key y)
      have below (z : α) (mem : z ∈ y :: xs) : key z < k := by
        rcases List.mem_cons.mp mem with is | mem
        · rw [is]
          exact less
        · exact lt_of_le_of_lt (older z mem) less
      have begins : firsts key left none (y :: xs) = firsts key left (some k) (y :: xs) := by
        cases left with
        | zero => rfl
        | succ left =>
            unfold firsts
            rw [if_neg (by simp), if_neg (by simpa using ne_of_lt less)]
      have keys : between key (y :: xs) (key x) k =
          ((y :: xs).map key).toFinset.filter fun k => key x < k := by
        refine Finset.filter_congr fun k' mem => ?_
        obtain ⟨z, has, rfl⟩ := List.mem_map.mp (List.mem_toFinset.mp mem)
        exact and_iff_left (below z has)
      rw [begins, mem_firsts_some sorted (fun z mem => (below z mem).le), keys]
      refine ⟨And.right, fun chosen => ⟨?_, chosen⟩⟩
      exact below x (List.mem_of_find?_eq_some chosen.1)

end Order

end NxgtData.Grouped
