import NxgtData.Lib.JsonRead

/-!
Plain data as JavaScript holds it: scalars, lists and objects, a field of which may be
undefined. `write` is the text `JSON.stringify` gives a value, and two values of one text
are the same but for their undefined fields.
-/
namespace NxgtData.Plain

open JsonText (escape quote)

/-- The characters of a number's text. -/
def numeric (c : Char) : Bool := c.isDigit || c = '-' || c = '+' || c = '.' || c = 'e'

/-- A finite number, by the text JavaScript writes of it. -/
structure Numeral where
  text : List Char
  starts : text ≠ []
  numerals : ∀ c ∈ text, numeric c = true
deriving DecidableEq

inductive Scalar where
  | null
  | bool (b : Bool)
  | num (n : Numeral)
  | str (s : String)
deriving DecidableEq

inductive Value where
  | scalar (s : Scalar)
  | arr (items : List Value)
  /-- `none` is an undefined field. -/
  | obj (fields : List (String × Option Value))

abbrev Fields := List (String × Option Value)

namespace Value

abbrev null : Value := .scalar .null

abbrev str (s : String) : Value := .scalar (.str s)

/-- A property of a value is one of its scalars, and of lists and objects that hold it. -/
@[elab_as_elim]
theorem cases_of {P : Value → Prop} (scalar : ∀ s, P (.scalar s))
    (arr : ∀ items, (∀ v ∈ items, P v) → P (.arr items))
    (obj : ∀ fields : Fields, (∀ name v, (name, some v) ∈ fields → P v) → P (.obj fields))
    (v : Value) : P v :=
  v.rec (motive_1 := P) (motive_2 := fun items => ∀ v ∈ items, P v)
    (motive_3 := fun fields => ∀ name v, (name, some v) ∈ fields → P v)
    (motive_4 := fun field => ∀ v, field.2 = some v → P v)
    (motive_5 := fun value => ∀ v, value = some v → P v)
    scalar arr obj (fun v mem => by cases mem)
    (fun head tail first rest v mem => by
      cases mem with
      | head => exact first
      | tail _ mem => exact rest v mem)
    (fun name v mem => by cases mem)
    (fun head tail first rest name v mem => by
      cases mem with
      | head => exact first v rfl
      | tail _ mem => exact rest name v mem)
    (fun name value is v eq => is v eq) (fun v eq => by cases eq)
    (fun v is w eq => by cases eq; exact is)

end Value

/-! Undefined fields. -/

mutual
/-- No field is undefined, at any depth. -/
def Defined : Value → Prop
  | .scalar _ => True
  | .arr items => DefinedItems items
  | .obj fields => DefinedFields fields

def DefinedItems : List Value → Prop
  | [] => True
  | v :: rest => Defined v ∧ DefinedItems rest

def DefinedFields : Fields → Prop
  | [] => True
  | (_, none) :: _ => False
  | (_, some v) :: rest => Defined v ∧ DefinedFields rest
end

mutual
/-- The value without its undefined fields, at every depth. -/
def kept : Value → Value
  | .scalar s => .scalar s
  | .arr items => .arr (keptItems items)
  | .obj fields => .obj (keptFields fields)

def keptItems : List Value → List Value
  | [] => []
  | v :: rest => kept v :: keptItems rest

def keptFields : Fields → Fields
  | [] => []
  | (_, none) :: rest => keptFields rest
  | (name, some v) :: rest => (name, some (kept v)) :: keptFields rest
end

theorem keptItems_eq (items : List Value) : keptItems items = items.map kept := by
  induction items with
  | nil => rfl
  | cons v rest ih => rw [keptItems, ih, List.map_cons]

theorem mem_keptFields {fields : Fields} {name : String} {value : Option Value} :
    (name, value) ∈ keptFields fields ↔ ∃ v, (name, some v) ∈ fields ∧ value = some (kept v) := by
  induction fields with
  | nil => simp [keptFields]
  | cons field rest ih =>
      obtain ⟨other, none | v⟩ := field
      next => simp [keptFields, ih]
      next =>
        rw [keptFields, List.mem_cons, ih, Prod.mk.injEq]
        constructor
        · rintro (⟨rfl, rfl⟩ | ⟨w, mem, is⟩)
          · exact ⟨v, .head _, rfl⟩
          · exact ⟨w, .tail _ mem, is⟩
        · rintro ⟨w, mem, rfl⟩
          cases mem with
          | head => exact .inl ⟨rfl, rfl⟩
          | tail _ mem => exact .inr ⟨w, mem, rfl⟩

mutual
theorem kept_defined : ∀ v, Defined (kept v)
  | .scalar _ => by rw [kept, Defined]; trivial
  | .arr items => by rw [kept, Defined]; exact keptItems_defined items
  | .obj fields => by rw [kept, Defined]; exact keptFields_defined fields

theorem keptItems_defined : ∀ items, DefinedItems (keptItems items)
  | [] => by rw [keptItems, DefinedItems]; trivial
  | v :: rest => by rw [keptItems, DefinedItems]; exact ⟨kept_defined v, keptItems_defined rest⟩

theorem keptFields_defined : ∀ fields, DefinedFields (keptFields fields)
  | [] => by rw [keptFields, DefinedFields]; trivial
  | (_, none) :: rest => by rw [keptFields]; exact keptFields_defined rest
  | (_, some v) :: rest => by
      rw [keptFields, DefinedFields]
      exact ⟨kept_defined v, keptFields_defined rest⟩
end

/-! Texts. -/

namespace Scalar

def text : Scalar → List Char
  | null => ['n', 'u', 'l', 'l']
  | bool true => ['t', 'r', 'u', 'e']
  | bool false => ['f', 'a', 'l', 's', 'e']
  | num n => n.text
  | str s => quote s

end Scalar

/-- The comma before an item that is not the first. -/
def comma (first : Bool) : List Char := if first then [] else [',']

mutual
/-- The text of a value: an undefined field is left out. -/
def write : Value → List Char
  | .scalar s => s.text
  | .arr items => '[' :: writeItems true items
  | .obj fields => '\x7b' :: writeFields true fields

def writeItems (first : Bool) : List Value → List Char
  | [] => [']']
  | v :: rest => comma first ++ (write v ++ writeItems false rest)

def writeFields (first : Bool) : Fields → List Char
  | [] => ['\x7d']
  | (_, none) :: rest => writeFields first rest
  | (name, some v) :: rest =>
      comma first ++ (quote name ++ (':' :: (write v ++ writeFields false rest)))
end

def stringify (v : Value) : String := String.ofList (write v)

mutual
theorem write_kept : ∀ v, write (kept v) = write v
  | .scalar _ => by rw [kept]
  | .arr items => by rw [kept, write, write, writeItems_kept]
  | .obj fields => by rw [kept, write, write, writeFields_kept]

theorem writeItems_kept : ∀ first items, writeItems first (keptItems items) = writeItems first items
  | _, [] => by rw [keptItems]
  | _, v :: rest => by rw [keptItems, writeItems, writeItems, write_kept v, writeItems_kept]

theorem writeFields_kept :
    ∀ first fields, writeFields first (keptFields fields) = writeFields first fields
  | _, [] => by rw [keptFields]
  | _, (_, none) :: rest => by rw [keptFields, writeFields, writeFields_kept]
  | _, (_, some v) :: rest => by
      rw [keptFields, writeFields, writeFields, write_kept v, writeFields_kept]
end

/-! What is written is read in one way. -/

/-- What follows a value: not a character of a number. -/
def Ends (rest : List Char) : Prop := ∀ c, rest.head? = some c → numeric c = false

theorem ends_nil : Ends [] := fun c is => by cases is

theorem ends_cons {c : Char} {rest : List Char} (other : numeric c = false) : Ends (c :: rest) :=
  fun d is => by
    rw [List.head?_cons, Option.some.injEq] at is
    rwa [← is]

theorem quote_inj {s t : String} {r r' : List Char} (eq : quote s ++ r = quote t ++ r') :
    s = t ∧ r = r' := by
  rw [JsonText.quote_append, JsonText.quote_append, List.cons.injEq] at eq
  have read := congrArg JsonText.string eq.2
  rw [JsonText.string_quote, JsonText.string_quote, Option.some.injEq, Prod.mk.injEq] at read
  exact ⟨Utf16.ofString_injective read.1, read.2⟩

theorem takeWhile_numeral (n : Numeral) {r : List Char} (ends : Ends r) :
    (n.text ++ r).takeWhile numeric = n.text := by
  rw [List.takeWhile_append_of_pos n.numerals]
  cases r with
  | nil => simp
  | cons c r => simp [ends c rfl]

theorem numeral_inj {n m : Numeral} {r r' : List Char} (ends : Ends r) (ends' : Ends r')
    (eq : n.text ++ r = m.text ++ r') : n = m ∧ r = r' := by
  have same : n.text = m.text := by
    rw [← takeWhile_numeral n ends, eq, takeWhile_numeral m ends']
  rw [same] at eq
  cases n
  cases m
  cases same
  exact ⟨rfl, List.append_cancel_left eq⟩

/-- The character a scalar's text starts with says which kind it is. -/
def leads : Scalar → Char → Bool
  | .null, c => c = 'n'
  | .bool true, c => c = 't'
  | .bool false, c => c = 'f'
  | .num _, c => numeric c
  | .str _, c => c = '"'

theorem text_leads (s : Scalar) : ∃ c cs, s.text = c :: cs ∧ leads s c = true := by
  match s with
  | .null | .bool true | .bool false => exact ⟨_, _, rfl, by decide⟩
  | .str _ => exact ⟨'"', _, by rw [Scalar.text, quote, List.cons_append], rfl⟩
  | .num ⟨[], starts, _⟩ => exact absurd rfl starts
  | .num ⟨c :: cs, _, all⟩ => exact ⟨c, cs, rfl, all c (.head _)⟩

theorem text_inj {s t : Scalar} {r r' : List Char} (ends : Ends r) (ends' : Ends r')
    (eq : s.text ++ r = t.text ++ r') : s = t ∧ r = r' := by
  obtain ⟨c, cs, starts, lead⟩ := text_leads s
  obtain ⟨d, ds, starts', lead'⟩ := text_leads t
  have same : c = d := by
    rw [starts, starts', List.cons_append, List.cons_append, List.cons.injEq] at eq
    exact eq.1
  subst same
  match s, t with
  | .null, .null | .bool true, .bool true | .bool false, .bool false =>
      exact ⟨rfl, List.append_cancel_left eq⟩
  | .num n, .num m =>
      obtain ⟨rfl, rest⟩ := numeral_inj ends ends' eq
      exact ⟨rfl, rest⟩
  | .str s, .str t =>
      obtain ⟨rfl, rest⟩ := quote_inj eq
      exact ⟨rfl, rest⟩
  | .null, .bool true | .null, .bool false | .null, .str _ | .bool true, .null
  | .bool true, .bool false | .bool true, .str _ | .bool false, .null | .bool false, .bool true
  | .bool false, .str _ | .str _, .null | .str _, .bool true | .str _, .bool false
  | .null, .num _ | .bool true, .num _ | .bool false, .num _ | .str _, .num _
  | .num _, .null | .num _, .bool true | .num _, .bool false | .num _, .str _ =>
      simp only [leads, decide_eq_true_eq] at lead lead'
      subst_vars
      first
        | exact absurd lead (by decide)
        | exact absurd lead' (by decide)

/-- A value starts with no character that ends a list or goes between its items. -/
theorem write_starts (v : Value) : ∃ c cs, write v = c :: cs ∧ c ≠ ']' ∧ c ≠ ',' := by
  match v with
  | .arr _ | .obj _ => exact ⟨_, _, by rw [write], by decide, by decide⟩
  | .scalar s =>
      obtain ⟨c, cs, starts, lead⟩ := text_leads s
      refine ⟨c, cs, by rw [write, starts], ?_, ?_⟩ <;> rintro rfl <;>
        revert lead <;> cases s <;> simp [leads, numeric]
      all_goals
        rename_i b
        cases b <;> simp

/-- Where the items of a list end, no other item starts. -/
theorem item_starts (first : Bool) (v : Value) (text : List Char) :
    ∃ c cs, comma first ++ (write v ++ text) = c :: cs ∧ c ≠ ']' := by
  cases first with
  | false => exact ⟨',', _, rfl, by decide⟩
  | true =>
      obtain ⟨c, cs, starts, other, -⟩ := write_starts v
      exact ⟨c, _, by rw [comma, if_pos rfl, starts]; rfl, other⟩

theorem field_starts (first : Bool) (name : String) (text : List Char) :
    ∃ c cs, comma first ++ (quote name ++ text) = c :: cs ∧ c ≠ '\x7d' := by
  cases first with
  | false => exact ⟨',', _, rfl, by decide⟩
  | true => exact ⟨'"', _, by rw [comma, if_pos rfl, quote]; rfl, by decide⟩

theorem ends_items (items : List Value) (r : List Char) :
    Ends (writeItems false items ++ r) := by
  cases items with
  | nil => rw [writeItems]; exact ends_cons (by decide)
  | cons v rest => rw [writeItems]; exact ends_cons (by decide)

theorem ends_fields (fields : Fields) (r : List Char) :
    Ends (writeFields false fields ++ r) := by
  induction fields with
  | nil => rw [writeFields]; exact ends_cons (by decide)
  | cons field rest ih =>
      obtain ⟨name, none | v⟩ := field
      next => rw [writeFields]; exact ih
      next => rw [writeFields]; exact ends_cons (by decide)

/-- A scalar's text starts no list and no object. -/
theorem text_other (s : Scalar) {c : Char} {cs text r : List Char} (opens : c = '[' ∨ c = '\x7b')
    (eq : s.text ++ r = c :: cs ++ text) : False := by
  obtain ⟨d, ds, starts, lead⟩ := text_leads s
  rw [starts, List.cons_append, List.cons_append, List.cons.injEq] at eq
  obtain ⟨rfl, -⟩ := eq
  obtain rfl | rfl := opens <;> revert lead <;> cases s <;> simp [leads, numeric]
  all_goals
    rename_i b
    cases b <;> simp

mutual
/-- No text is one of two values, whatever follows it. -/
theorem write_inj : ∀ (v w : Value) {r r' : List Char}, Defined v → Defined w → Ends r → Ends r' →
    write v ++ r = write w ++ r' → v = w ∧ r = r'
  | .scalar s, .scalar t, _, _, _, _, ends, ends', eq => by
      rw [write, write] at eq
      obtain ⟨rfl, rest⟩ := text_inj ends ends' eq
      exact ⟨rfl, rest⟩
  | .arr items, .arr items', _, _, here, there, _, _, eq => by
      rw [Defined] at here there
      rw [write, write, List.cons_append, List.cons_append, List.cons.injEq] at eq
      obtain ⟨rfl, rest⟩ := writeItems_inj true items items' here there eq.2
      exact ⟨rfl, rest⟩
  | .obj fields, .obj fields', _, _, here, there, _, _, eq => by
      rw [Defined] at here there
      rw [write, write, List.cons_append, List.cons_append, List.cons.injEq] at eq
      obtain ⟨rfl, rest⟩ := writeFields_inj true fields fields' here there eq.2
      exact ⟨rfl, rest⟩
  | .scalar s, .arr _, _, _, _, _, _, _, eq => by
      rw [write, write] at eq
      exact (text_other s (.inl rfl) eq).elim
  | .scalar s, .obj _, _, _, _, _, _, _, eq => by
      rw [write, write] at eq
      exact (text_other s (.inr rfl) eq).elim
  | .arr _, .scalar s, _, _, _, _, _, _, eq => by
      rw [write, write] at eq
      exact (text_other s (.inl rfl) eq.symm).elim
  | .obj _, .scalar s, _, _, _, _, _, _, eq => by
      rw [write, write] at eq
      exact (text_other s (.inr rfl) eq.symm).elim
  | .arr _, .obj _, _, _, _, _, _, _, eq | .obj _, .arr _, _, _, _, _, _, _, eq => by
      rw [write, write, List.cons_append, List.cons_append, List.cons.injEq] at eq
      exact absurd eq.1 (by decide)

theorem writeItems_inj : ∀ (first : Bool) (vs ws : List Value) {r r' : List Char},
    DefinedItems vs → DefinedItems ws →
    writeItems first vs ++ r = writeItems first ws ++ r' → vs = ws ∧ r = r'
  | _, [], [], _, _, _, _, eq => by
      rw [writeItems] at eq
      exact ⟨rfl, List.append_cancel_left eq⟩
  | first, [], w :: ws, _, _, _, _, eq => by
      rw [writeItems, writeItems] at eq
      obtain ⟨c, cs, starts, other⟩ := item_starts first w (writeItems false ws)
      rw [starts, List.cons_append, List.cons_append, List.cons.injEq] at eq
      exact absurd eq.1.symm other
  | first, v :: vs, [], _, _, _, _, eq => by
      rw [writeItems, writeItems] at eq
      obtain ⟨c, cs, starts, other⟩ := item_starts first v (writeItems false vs)
      rw [starts, List.cons_append, List.cons_append, List.cons.injEq] at eq
      exact absurd eq.1 other
  | first, v :: vs, w :: ws, r, r', here, there, eq => by
      rw [DefinedItems] at here there
      rw [writeItems, writeItems] at eq
      simp only [List.append_assoc] at eq
      obtain ⟨rfl, rest⟩ := write_inj v w here.1 there.1 (ends_items vs r) (ends_items ws r')
        (List.append_cancel_left eq)
      obtain ⟨rfl, after⟩ := writeItems_inj false vs ws here.2 there.2 rest
      exact ⟨rfl, after⟩

theorem writeFields_inj : ∀ (first : Bool) (fs gs : Fields) {r r' : List Char},
    DefinedFields fs → DefinedFields gs →
    writeFields first fs ++ r = writeFields first gs ++ r' → fs = gs ∧ r = r'
  | _, [], [], _, _, _, _, eq => by
      rw [writeFields] at eq
      exact ⟨rfl, List.append_cancel_left eq⟩
  | first, [], (name, some w) :: gs, _, _, _, _, eq => by
      rw [writeFields, writeFields] at eq
      obtain ⟨c, cs, starts, other⟩ :=
        field_starts first name (':' :: (write w ++ writeFields false gs))
      rw [starts, List.cons_append, List.cons_append, List.cons.injEq] at eq
      exact absurd eq.1.symm other
  | first, (name, some v) :: fs, [], _, _, _, _, eq => by
      rw [writeFields, writeFields] at eq
      obtain ⟨c, cs, starts, other⟩ :=
        field_starts first name (':' :: (write v ++ writeFields false fs))
      rw [starts, List.cons_append, List.cons_append, List.cons.injEq] at eq
      exact absurd eq.1 other
  | first, (name, some v) :: fs, (other, some w) :: gs, r, r', here, there, eq => by
      rw [DefinedFields] at here there
      rw [writeFields, writeFields] at eq
      simp only [List.append_assoc, List.cons_append] at eq
      obtain ⟨rfl, values⟩ := quote_inj (List.append_cancel_left eq)
      rw [List.cons.injEq] at values
      obtain ⟨rfl, rest⟩ := write_inj v w here.1 there.1 (ends_fields fs r) (ends_fields gs r')
        values.2
      obtain ⟨rfl, after⟩ := writeFields_inj false fs gs here.2 there.2 rest
      exact ⟨rfl, after⟩
  | _, (_, none) :: _, _, _, _, here, _, _ => by rw [DefinedFields] at here; exact here.elim
  | _, [], (_, none) :: _, _, _, _, there, _
  | _, (_, some _) :: _, (_, none) :: _, _, _, _, there, _ => by
      rw [DefinedFields] at there
      exact there.elim
end

/-- `JSON.stringify` tells values apart, but for their undefined fields. -/
theorem stringify_eq_iff {v w : Value} : stringify v = stringify w ↔ kept v = kept w := by
  constructor
  · intro eq
    have texts : write (kept v) ++ [] = write (kept w) ++ [] := by
      rw [write_kept, write_kept, String.ofList_injective eq]
    exact (write_inj _ _ (kept_defined v) (kept_defined w) ends_nil ends_nil texts).1
  · intro eq
    rw [stringify, stringify, ← write_kept, eq, write_kept]

end NxgtData.Plain
