import Mathlib.Data.List.Forall2
import NxgtData.Schedule.Grammar

/-!
The parser against the grammar, from a number up to a field: each function succeeds on the
texts of its shape and on no other, and answers what its item comes to in the loop of
`parseField`.
-/
namespace NxgtData.Schedule
open Calendar Utf16

variable {f : Field} {s t : Utf16} {vs vs' : Finset Nat}

theorem number_eq_ok {what : String} {n : Nat} :
    number s f what = .ok n ↔ Digits s n := by
  unfold number
  split
  next written =>
    simp only [ne_eq, decide_not, Bool.and_eq_true, Bool.not_eq_true', decide_eq_false_iff_not,
      List.all_eq_true] at written
    exact ⟨fun is => ⟨written.1, written.2, Except.ok.inj is⟩, fun h => congrArg _ h.value⟩
  next other =>
    refine iff_of_false (fun is => by cases is) fun h => other ?_
    simp only [ne_eq, decide_not, Bool.and_eq_true, Bool.not_eq_true', decide_eq_false_iff_not,
      List.all_eq_true]
    exact ⟨h.nonempty, h.all⟩

/-- The names of a field are small letters, and differ. -/
structure Field.Plain (f : Field) : Prop where
  nodup : ∀ names, f.names = some names → names.Nodup
  letters : ∀ names, f.names = some names → ∀ name ∈ names, name ≠ [] ∧
    ∀ u ∈ name, 97 ≤ u.toNat ∧ u.toNat ≤ 122

theorem Field.Plain.of_none (none : f.names = none) : f.Plain where
  nodup := fun _ is => absurd (none.symm.trans is) nofun
  letters := fun _ is => absurd (none.symm.trans is) nofun

theorem letters_of_all {names : List Utf16}
    (all : names.all (fun name => !name.isEmpty &&
      name.all fun u => 97 ≤ u.toNat && u.toNat ≤ 122) = true) :
    ∀ name ∈ names, name ≠ [] ∧ ∀ u ∈ name, 97 ≤ u.toNat ∧ u.toNat ≤ 122 := by
  intro name mem
  simpa using List.all_eq_true.mp all name mem

theorem Field.month_plain : Field.month.Plain where
  nodup := fun names is => by
    cases is
    decide
  letters := fun names is => by
    cases is
    exact letters_of_all (by decide)

theorem Field.dayOfWeek_plain : Field.dayOfWeek.Plain where
  nodup := fun names is => by
    cases is
    decide
  letters := fun names is => by
    cases is
    exact letters_of_all (by decide)

/-- A unit of a name is a letter. -/
theorem letter_of_lower {u : UInt16} (name : toLowerCase s ≠ [] ∧
    ∀ u ∈ toLowerCase s, 97 ≤ u.toNat ∧ u.toNat ≤ 122) (mem : u ∈ s) : 65 ≤ u.toNat := by
  have lower := name.2 _ (List.mem_map_of_mem mem)
  split at lower
  next letter => exact letter.1
  · omega

theorem idxOf?_eq_some_iff_of_nodup {names : List Utf16} (nodup : names.Nodup) {i : Nat} :
    names.idxOf? s = some i ↔ names[i]? = some s := by
  rw [List.idxOf?_eq_some_iff, List.getElem?_eq_some_iff]
  constructor
  · rintro ⟨lt, is, -⟩
    exact ⟨lt, is⟩
  · rintro ⟨lt, is⟩
    refine ⟨lt, is, fun j before same => ?_⟩
    have := (@List.Nodup.getElem_inj_iff _ _ nodup _ (before.trans lt) _ lt).mp
      (same.trans is.symm)
    omega

/-- No digits are a name. -/
theorem idxOf?_of_digits (plain : f.Plain) {names : List Utf16} (listed : f.names = some names)
    {n : Nat} (written : Digits s n) : names.idxOf? (toLowerCase s) = none := by
  rw [List.idxOf?_eq_none_iff]
  intro mem
  obtain ⟨u, rest, rfl⟩ := List.exists_cons_of_ne_nil written.nonempty
  have letter := letter_of_lower (plain.letters names listed _ mem) List.mem_cons_self
  have digit := written.all u List.mem_cons_self
  simp only [isDigit, Bool.and_eq_true, decide_eq_true_eq] at digit
  omega

theorem value_eq_ok (plain : f.Plain) {v : Nat} : value s f = .ok v ↔ Spells f s v := by
  have within : ∀ w, (if w < f.min || f.max < w then
      Except.error (refusal f [shown w, .text s!" is out of range {f.min}-{f.max}"])
      else Except.ok w) = Except.ok v ↔ w = v ∧ f.min ≤ v ∧ v ≤ f.max := by
    intro w
    split
    next out =>
      refine iff_of_false nofun ?_
      rintro ⟨rfl, low, high⟩
      simp only [Bool.or_eq_true, decide_eq_true_eq] at out
      omega
    next inside =>
      simp only [Bool.or_eq_true, decide_eq_true_eq] at inside
      constructor
      · intro is
        cases is
        exact ⟨rfl, by omega⟩
      · rintro ⟨rfl, -⟩
        rfl
  unfold value
  rw [bind_eq_ok_iff]
  simp only [within]
  constructor
  · rintro ⟨w, found, rfl, low, high⟩
    unfold nameOrNumber at found
    split at found
    next i is =>
      cases found
      obtain ⟨names, listed, at_⟩ := Option.bind_eq_some_iff.mp is
      rw [idxOf?_eq_some_iff_of_nodup (plain.nodup names listed)] at at_
      exact .name listed at_ rfl low high
    · exact .number (number_eq_ok.mp found) low high
  · intro spelled
    refine ⟨v, ?_, rfl, ?_⟩
    · unfold nameOrNumber
      cases spelled with
      | number written low high =>
          split
          next i is =>
            obtain ⟨names, listed, at_⟩ := Option.bind_eq_some_iff.mp is
            exact absurd (at_.symm.trans (idxOf?_of_digits plain listed written)) nofun
          · exact number_eq_ok.mpr written
      | @name names i listed at_ is low high =>
          have found : f.names.bind (·.idxOf? (toLowerCase s)) = some i := by
            rw [listed, Option.bind_some, idxOf?_eq_some_iff_of_nodup (plain.nodup names listed)]
            exact at_
          rw [found, is]
    · cases spelled with
      | number _ low high => exact ⟨low, high⟩
      | name _ _ _ low high => exact ⟨low, high⟩

/-- A value has digits or letters only. -/
theorem Spells.plain (plain : f.Plain) {v : Nat} (spelled : Spells f s v) :
    s ≠ [] ∧ ∀ u ∈ s, 48 ≤ u.toNat := by
  cases spelled with
  | number written =>
      refine ⟨written.nonempty, fun u mem => ?_⟩
      have digit := written.all u mem
      simp only [isDigit, Bool.and_eq_true, decide_eq_true_eq] at digit
      exact digit.1
  | @name names i listed at_ =>
      have letters := plain.letters names listed _ (List.mem_of_getElem? at_)
      refine ⟨fun none => letters.1 (by rw [none]; rfl), fun u mem => ?_⟩
      have := letter_of_lower letters mem
      omega

/-- Nothing of a value is a mark below the digits. -/
theorem Spells.notMem (plain : f.Plain) {v : Nat} (spelled : Spells f s v) {u : UInt16}
    (low : u.toNat < 48) : u ∉ s := fun mem => by
  have := (spelled.plain plain).2 u mem
  omega

/-- A split into one part, or two. -/
theorem splitOn_eq_one {mark : UInt16} {a : Utf16} : s.splitOn mark = [a] ↔ mark ∉ s ∧ s = a := by
  constructor
  · intro parts
    have whole : [mark].intercalate (s.splitOn mark) = s := List.intercalate_splitOn mark
    rw [parts, List.intercalate_singleton] at whole
    refine ⟨fun mem => ?_, whole.symm⟩
    obtain ⟨front, back, rfl⟩ := List.append_of_mem mem
    have length := congrArg List.length parts
    rw [List.splitOn_append_cons_self, List.length_append] at length
    have := List.length_pos_iff.mpr (List.splitOn_ne_nil mark front)
    have := List.length_pos_iff.mpr (List.splitOn_ne_nil mark back)
    simp only [List.length_singleton] at length
    omega
  · rintro ⟨free, rfl⟩
    exact List.splitOn_eq_singleton free

theorem splitOn_eq_two {mark : UInt16} {a b : Utf16} :
    s.splitOn mark = [a, b] ↔ mark ∉ a ∧ mark ∉ b ∧ s = a ++ mark :: b := by
  constructor
  · intro parts
    have whole : [mark].intercalate (s.splitOn mark) = s := List.intercalate_splitOn mark
    rw [parts, List.intercalate_cons_cons, List.intercalate_singleton, List.append_assoc,
      List.singleton_append] at whole
    rw [← whole, List.splitOn_append_cons_self] at parts
    have first := List.length_pos_iff.mpr (List.splitOn_ne_nil mark a)
    have second := List.length_pos_iff.mpr (List.splitOn_ne_nil mark b)
    have length := congrArg List.length parts
    rw [List.length_append, List.length_cons, List.length_singleton] at length
    obtain ⟨x, xs⟩ := List.length_eq_one_iff.mp (show (a.splitOn mark).length = 1 by omega)
    obtain ⟨y, ys⟩ := List.length_eq_one_iff.mp (show (b.splitOn mark).length = 1 by omega)
    exact ⟨(splitOn_eq_one.mp xs).1, (splitOn_eq_one.mp ys).1, whole.symm⟩
  · rintro ⟨freeA, freeB, rfl⟩
    rw [List.splitOn_append_cons_self_of_not_mem freeA, List.splitOn_eq_singleton freeB]

theorem bounds_eq_ok (plain : f.Plain) {stepped : Bool} {a b : Nat} :
    bounds s stepped f = .ok (a, b) ↔
      ∃ r, RangeText f s r ∧ a = r.first f ∧ b = r.last f stepped := by
  have unstarred : ∀ {v}, ¬ Spells f [star] v := fun spelled => by
    have := (spelled.plain plain).2 star (List.mem_singleton_self _)
    exact absurd this (by decide)
  unfold bounds
  by_cases starred : s = [star]
  · rw [if_pos starred]
    constructor
    · intro is
      cases is
      exact ⟨.star, starred ▸ .star, rfl, rfl⟩
    · rintro ⟨r, range, rfl, rfl⟩
      cases range with
      | star => rfl
      | one first => exact absurd (starred ▸ first) unstarred
      | span =>
          have mem : dash ∈ [star] := starred ▸ List.mem_append_right _ List.mem_cons_self
          exact absurd mem (by decide)
  · rw [if_neg starred]
    split
    next x parts =>
      obtain ⟨free, rfl⟩ := splitOn_eq_one.mp parts
      simp only [bind_eq_ok_iff, value_eq_ok plain]
      constructor
      · rintro ⟨v, first, is⟩
        cases is
        exact ⟨.one _, .one first, rfl, rfl⟩
      · rintro ⟨r, range, rfl, rfl⟩
        cases range with
        | star => exact absurd rfl starred
        | one first => exact ⟨_, first, rfl⟩
        | span => exact absurd (List.mem_append_right _ List.mem_cons_self) free
    next x y parts =>
      obtain ⟨freeX, freeY, rfl⟩ := splitOn_eq_two.mp parts
      simp only [bind_eq_ok_iff, value_eq_ok plain]
      constructor
      · rintro ⟨v, first, w, last, is⟩
        split at is
        · exact absurd is nofun
        next le =>
          cases is
          exact ⟨.span _ _, .span first last (by omega), rfl, rfl⟩
      · rintro ⟨r, range, rfl, rfl⟩
        generalize whole : x ++ dash :: y = s at range
        cases range with
        | star => exact absurd whole starred
        | one first =>
            have free := first.notMem plain (u := dash) (by decide)
            exact absurd (whole ▸ List.mem_append_right _ List.mem_cons_self) free
        | @span s t v w first last le =>
            have parts' := splitOn_eq_two.mpr ⟨first.notMem plain (u := dash) (by decide),
              last.notMem plain (u := dash) (by decide), rfl⟩
            rw [whole, parts'] at parts
            cases parts
            exact ⟨_, first, _, last, by rw [if_neg (by omega)]; rfl⟩
    next one two =>
      refine iff_of_false nofun ?_
      rintro ⟨r, range, -, -⟩
      cases range with
      | star => exact starred rfl
      | one first =>
          exact one s (splitOn_eq_one.mpr ⟨first.notMem plain (u := dash) (by decide), rfl⟩)
      | @span x y v w first last le =>
          exact two x y (splitOn_eq_two.mpr ⟨first.notMem plain (u := dash) (by decide),
            last.notMem plain (u := dash) (by decide), rfl⟩)

/-! The values a loop adds. -/

theorem mem_addSteps {last stride fuel x v : Nat} :
    v ∈ addSteps last stride fuel x vs ↔
      v ∈ vs ∨ v ≤ last ∧ ∃ k < fuel, v = x + k * stride := by
  induction fuel generalizing x vs with
  | zero => simp [addSteps]
  | succ fuel ih =>
      unfold addSteps
      split
      next le =>
        rw [ih, Finset.mem_insert, or_assoc]
        constructor
        · rintro (rfl | before | ⟨high, k, lt, rfl⟩)
          · exact .inr ⟨le, 0, by omega, by simp⟩
          · exact .inl before
          · exact .inr ⟨high, k + 1, by omega, by ring⟩
        · rintro (before | ⟨high, k, lt, rfl⟩)
          · exact .inr (.inl before)
          · cases k with
            | zero => exact .inl (by simp)
            | succ k => exact .inr (.inr ⟨high, k, by omega, by ring⟩)
      next past =>
        refine ⟨.inl, ?_⟩
        rintro (before | ⟨high, k, lt, rfl⟩)
        · exact before
        · exact absurd ((Nat.le_add_right x _).trans high) past

/-- What the loop adds for an item. -/
def Item.added (f : Field) (i : Item) : Set Nat :=
  {v | v ≤ i.last f ∧ ∃ k, v = i.first f + k * i.stride}

/-- The loop of `parseField` for an item. -/
def Item.add (f : Field) (i : Item) (vs : Finset Nat) : Finset Nat :=
  addSteps (i.last f) i.stride (i.last f + 1) (i.first f) vs

theorem Item.mem_add {i : Item} (pos : 1 ≤ i.stride) {v : Nat} :
    v ∈ i.add f vs ↔ v ∈ vs ∨ v ∈ i.added f := by
  refine mem_addSteps.trans (or_congr_right (and_congr_right fun high => ?_))
  constructor
  · rintro ⟨k, -, is⟩
    exact ⟨k, is⟩
  · rintro ⟨k, rfl⟩
    have := Nat.le_mul_of_pos_right k pos
    exact ⟨k, by omega, rfl⟩

theorem ItemText.stride_pos {i : Item} (text : ItemText f s i) : 1 ≤ i.stride := by
  cases text with
  | plain => exact le_rfl
  | stepped _ _ pos => exact pos

theorem RangeText.notMem (plain : f.Plain) {r : Range} (range : RangeText f s r) {mark : UInt16}
    (low : mark.toNat < 48) (other : mark ≠ Schedule.star) (joins : mark ≠ dash) : mark ∉ s := by
  cases range with
  | star => exact fun mem => other (List.mem_singleton.mp mem)
  | one first => exact first.notMem plain low
  | span first last =>
      intro mem
      rcases List.mem_append.mp mem with front | back
      · exact first.notMem plain low front
      · rcases List.mem_cons.mp back with same | back
        · exact joins same
        · exact last.notMem plain low back

theorem Digits.notMem {n : Nat} (written : Digits s n) {u : UInt16} (low : u.toNat < 48) :
    u ∉ s := fun mem => by
  have digit := written.all u mem
  simp only [isDigit, Bool.and_eq_true, decide_eq_true_eq] at digit
  omega

theorem parseItem_eq_ok (plain : f.Plain) :
    parseItem f s vs = .ok vs' ↔ ∃ i, ItemText f s i ∧ vs' = i.add f vs := by
  have noSlash : ∀ {s r}, RangeText f s r → slash ∉ s := fun range =>
    range.notMem plain (by decide) (by decide) (by decide)
  unfold parseItem
  split
  next x parts =>
    obtain ⟨free, rfl⟩ := splitOn_eq_one.mp parts
    simp only [bind_eq_ok_iff, Prod.exists, bounds_eq_ok plain]
    constructor
    · rintro ⟨a, b, ⟨r, range, rfl, rfl⟩, is⟩
      cases is
      exact ⟨⟨r, none⟩, .plain range, rfl⟩
    · rintro ⟨i, text, rfl⟩
      cases text with
      | plain range => exact ⟨_, _, ⟨_, range, rfl, rfl⟩, rfl⟩
      | stepped => exact absurd (List.mem_append_right _ List.mem_cons_self) free
  next x y parts =>
    obtain ⟨freeX, freeY, rfl⟩ := splitOn_eq_two.mp parts
    simp only [bind_eq_ok_iff, number_eq_ok]
    constructor
    · rintro ⟨n, step, is⟩
      split at is
      · exact absurd is nofun
      next pos =>
        obtain ⟨⟨a, b⟩, bound, is⟩ := bind_eq_ok_iff.mp is
        obtain ⟨r, range, rfl, rfl⟩ := (bounds_eq_ok plain).mp bound
        cases is
        exact ⟨⟨r, some n⟩, .stepped range step (by omega), rfl⟩
    · rintro ⟨i, text, rfl⟩
      generalize whole : x ++ slash :: y = s at text
      cases text with
      | plain range =>
          exact absurd (whole ▸ List.mem_append_right _ List.mem_cons_self) (noSlash range)
      | @stepped s t r n range step pos =>
          have parts' := splitOn_eq_two.mpr
            ⟨noSlash range, step.notMem (u := slash) (by decide), rfl⟩
          rw [whole, parts'] at parts
          cases parts
          refine ⟨n, step, ?_⟩
          rw [if_neg (by omega), bind_eq_ok_iff]
          exact ⟨_, (bounds_eq_ok plain).mpr ⟨r, range, rfl, rfl⟩, rfl⟩
  next one two =>
    refine iff_of_false nofun ?_
    rintro ⟨i, text, -⟩
    cases text with
    | plain range => exact one s (splitOn_eq_one.mpr ⟨noSlash range, rfl⟩)
    | @stepped x y r n range step =>
        exact two x y (splitOn_eq_two.mpr
          ⟨noSlash range, step.notMem (u := slash) (by decide), rfl⟩)

theorem parseItems_eq_ok (plain : f.Plain) {texts : List Utf16} :
    parseItems f texts vs = .ok vs' ↔
      ∃ items, List.Forall₂ (ItemText f) texts items ∧ vs' = items.foldl (fun vs i => i.add f vs) vs := by
  induction texts generalizing vs with
  | nil =>
      constructor
      · intro is
        cases is
        exact ⟨[], .nil, rfl⟩
      · rintro ⟨items, each, rfl⟩
        cases each
        rfl
  | cons text texts ih =>
      unfold parseItems
      simp only [bind_eq_ok_iff, parseItem_eq_ok plain, ih]
      constructor
      · rintro ⟨_, ⟨i, first, rfl⟩, items, rest, rfl⟩
        exact ⟨i :: items, .cons first rest, rfl⟩
      · rintro ⟨items, each, rfl⟩
        cases each with
        | cons first rest => exact ⟨_, ⟨_, first, rfl⟩, _, rest, rfl⟩

theorem ItemText.noComma (plain : f.Plain) {i : Item} (text : ItemText f s i) : comma ∉ s := by
  have free : ∀ {s r}, RangeText f s r → comma ∉ s := fun range =>
    range.notMem plain (by decide) (by decide) (by decide)
  cases text with
  | plain range => exact free range
  | stepped range step =>
      intro mem
      rcases List.mem_append.mp mem with front | back
      · exact free range front
      · rcases List.mem_cons.mp back with same | back
        · exact absurd same (by decide)
        · exact step.notMem (u := comma) (by decide) back

/-- What the loops of a field add. -/
def added (f : Field) (items : List Item) : Finset Nat := items.foldl (fun vs i => i.add f vs) ∅

theorem parseField_eq_ok (plain : f.Plain) :
    parseField s f = .ok vs ↔ ∃ items, FieldText f s items ∧ vs = added f items := by
  unfold parseField
  rw [parseItems_eq_ok plain]
  constructor
  · rintro ⟨items, each, rfl⟩
    exact ⟨items, ⟨_, List.splitOn_ne_nil comma s, (List.intercalate_splitOn comma).symm, each⟩, rfl⟩
  · rintro ⟨items, ⟨texts, some, rfl, each⟩, rfl⟩
    refine ⟨items, ?_, rfl⟩
    rw [List.splitOn_intercalate comma ?_ some]
    · exact each
    · intro text mem
      obtain ⟨k, lt, is⟩ := List.getElem_of_mem mem
      have own := List.forall₂_iff_get.mp each |>.2 k lt
        (List.forall₂_iff_get.mp each |>.1 ▸ lt)
      exact is ▸ own.noComma plain

end NxgtData.Schedule
