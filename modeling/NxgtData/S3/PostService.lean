import Mathlib.Data.List.Infix
import NxgtData.S3.PresignPost

/-!
What a service stores of a posted form, as S3 documents it: the conditions of the signed policy,
no field that they do not name, and the text `${filename}` of the posted key replaced by the
file's name, before the conditions are met or after.
-/
namespace NxgtData.S3

/-- Field names are the same in another case. -/
def fold (name : Utf16) : Utf16 :=
  name.map fun u => if 65 ≤ u.toNat ∧ u.toNat ≤ 90 then u + 32 else u

/-- `${filename}`. -/
def template : Utf16 := Utf16.ofText "$\x7bfilename\x7d"

/-- A text with every `${filename}` replaced, past the next `skip` units. -/
def replaceFrom (name : Utf16) : Nat → Utf16 → Utf16
  | _, [] => []
  | skip + 1, _ :: s => replaceFrom name skip s
  | 0, u :: s =>
      if template.isPrefixOf (u :: s) then name ++ replaceFrom name (template.length - 1) s
      else u :: replaceFrom name 0 s

def replace (name s : Utf16) : Utf16 := replaceFrom name 0 s

structure File where
  name : Utf16
  size : Nat

/-- A form as it is posted: to a bucket, at a time in milliseconds. -/
structure Post where
  bucket : Utf16
  fields : List (Utf16 × Utf16)
  file : File
  time : Int

/-- Whether the key is replaced before the conditions are met. -/
inductive Expands where
  | before
  | after
  deriving DecidableEq

/-- The value of a field. -/
def fieldOf (fields : List (Utf16 × Utf16)) (name : Utf16) : Option Utf16 :=
  (fields.find? fun f => fold f.1 = fold name).map Prod.snd

/-- The value that a condition is met with. -/
def matched (expands : Expands) (post : Post) (name : Utf16) : Option Utf16 :=
  let value := fieldOf post.fields name
  if expands = .before ∧ fold name = keyField then value.map (replace post.file.name) else value

/-- A field that is left out is empty to a `starts-with`. -/
def holds (expands : Expands) (post : Post) : PolicyCondition → Bool
  | .bucket name => post.bucket = name
  | .eq name value => matched expands post name = some value
  | .startsWith name start => start.isPrefixOf ((matched expands post name).getD [])
  | .contentLengthRange min max => min ≤ post.file.size && post.file.size ≤ max

def names (name : Utf16) : PolicyCondition → Bool
  | .eq field _ | .startsWith field _ => fold field = fold name
  | .bucket _ | .contentLengthRange _ _ => false

/-- The fields that no condition has to name. -/
def exempt (name : Utf16) : Bool :=
  fold name ∈ ["policy", "x-amz-signature", "file"].map Utf16.ofText ||
    (Utf16.ofText "x-ignore-").isPrefixOf (fold name)

/-- Whether a form satisfies a signed policy. -/
def admits (expands : Expands) (policy : PolicyDocument) (post : Post) : Bool :=
  post.time < policy.expiration && policy.conditions.all (holds expands post) &&
    post.fields.all fun f => exempt f.1 || policy.conditions.any (names f.1)

/-- What is stored of a form. -/
structure Stored where
  key : Option Utf16
  size : Nat
  contentType : Option Utf16
  acl : Option Utf16
  contentDisposition : Option Utf16

def stored (post : Post) : Stored where
  key := (fieldOf post.fields keyField).map (replace post.file.name)
  size := post.file.size
  contentType := fieldOf post.fields typeField
  acl := fieldOf post.fields aclField
  contentDisposition := fieldOf post.fields dispositionField

/-! A text is kept exactly when it has no template. -/

variable {name s : Utf16}

theorem replace_of_free (free : ¬ template <:+: s) : replace name s = s := by
  unfold replace
  induction s with
  | nil => rfl
  | cons u s ih =>
      have rest : ¬ template <:+: s := fun infix_ => free (infix_.trans (List.suffix_cons u s).isInfix)
      unfold replaceFrom
      rw [if_neg, ih rest]
      intro starts
      exact free (List.isPrefixOf_iff_prefix.mp starts).isInfix

theorem length_replaceFrom_le (short : name.length ≤ 1) (skip : Nat) :
    (replaceFrom name skip s).length ≤ s.length - skip := by
  induction s generalizing skip with
  | nil =>
      unfold replaceFrom
      exact Nat.zero_le _
  | cons u s ih =>
      cases skip with
      | succ skip =>
          unfold replaceFrom
          rw [List.length_cons, Nat.add_sub_add_right]
          exact ih skip
      | zero =>
          unfold replaceFrom
          split
          · have rest := ih (template.length - 1)
            rw [List.length_append, List.length_cons]
            omega
          · have rest := ih 0
            rw [List.length_cons, List.length_cons]
            omega

/-- A template gives way to a shorter name. -/
theorem length_replace_lt (short : name.length ≤ 1) (has : template <:+: s) :
    (replace name s).length < s.length := by
  unfold replace
  induction s with
  | nil => exact absurd (List.infix_nil.mp has) (by decide)
  | cons u s ih =>
      unfold replaceFrom
      split
      next starts =>
        have long := (List.isPrefixOf_iff_prefix.mp starts).length_le
        have rest := length_replaceFrom_le (s := s) short (template.length - 1)
        have size : template.length = 11 := rfl
        rw [List.length_cons] at long
        rw [List.length_append, List.length_cons]
        omega
      next other =>
        have later : template <:+: s := by
          rcases List.infix_cons_iff.mp has with first | later
          · exact absurd (List.isPrefixOf_iff_prefix.mpr first) other
          · exact later
        have := ih later
        rw [List.length_cons, List.length_cons]
        omega

theorem replace_ne (short : name.length ≤ 1) (has : template <:+: s) : replace name s ≠ s :=
  fun same => (length_replace_lt short has).ne (congrArg List.length same)

/-! Fields by their names. -/

theorem fieldOf_of_mem {fields : List (Utf16 × Utf16)} {value : Utf16}
    (distinct : (fields.map fun f => fold f.1).Nodup) (mem : (name, value) ∈ fields) :
    fieldOf fields name = some value := by
  induction fields with
  | nil => exact absurd mem List.not_mem_nil
  | cons f fields ih =>
      rw [List.map_cons, List.nodup_cons] at distinct
      unfold fieldOf
      rw [List.find?_cons]
      rcases List.mem_cons.mp mem with rfl | mem
      · rw [decide_eq_true rfl]
        rfl
      · have other : ¬ fold f.1 = fold name := fun same =>
          distinct.1 (same ▸ List.mem_map_of_mem (f := fun f => fold f.1) mem)
        rw [decide_eq_false other]
        exact ih distinct.2 mem

theorem fieldOf_eq_none {fields : List (Utf16 × Utf16)}
    (free : ∀ f ∈ fields, fold f.1 ≠ fold name) : fieldOf fields name = none := by
  unfold fieldOf
  rw [List.find?_eq_none.mpr fun f mem => by simpa using free f mem]
  rfl

end NxgtData.S3
