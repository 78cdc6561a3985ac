import Mathlib.Data.List.Nodup
import NxgtData.S3.PostService

/-!
A presigned POST stores what was asked for and nothing else, unless the key that the definition
builds has the text `${filename}`: the policy fixes the posted key, and the service replaces the
text in it by a name that whoever posts the file chooses.
-/
namespace NxgtData.S3

variable {P : Type} {definition : BucketDefinition P} {lower : Utf16 → Utf16}
  {encode : PolicyDocument → Utf16} {sign : Utf16 → Utf16} {signer : PostSigner} {params : P}
  {options : PresignPostOptions} {now : Int} {form : PresignedPost}

/-! What the checks let pass. -/

/-- The text of an option that is given. -/
def givenText : Js → Option Utf16
  | .string s => some s
  | _ => none

theorem checkExpiresIn_eq_ok {key : Utf16} {value : Js} {x : ℚ}
    (is : checkExpiresIn definition key value = .ok x) :
    value = .number (.finite x) ∧ x ≤ maxExpiresIn := by
  unfold checkExpiresIn at is
  dsimp only at is
  split at is
  · split at is
    · exact absurd is nofun
    split at is
    · exact absurd is nofun
    next high =>
      cases is
      exact ⟨rfl, not_lt.mp high⟩
  · exact absurd is nofun

theorem checkBytes_eq_ok {key : Utf16} {name : String} {value : Js} {least : Nat}
    {bytes : Count least} (is : checkBytes definition key name value least = .ok bytes) :
    value.count least = some bytes := by
  unfold checkBytes at is
  split at is
  next found =>
    cases is
    exact found
  · exact absurd is nofun

/-- The sizes asked for: a range within the bucket's own bound. -/
structure SizesAsked (definition : BucketDefinition P) (options : PresignPostOptions)
    (min : Count 0) (max : Count 1) : Prop where
  least : (options.minSize.orElse (.number (.ofNat 0))).count 0 = some min
  most : (options.maxSize.orElse (bound definition)).count 1 = some max
  le : min.1 ≤ max.1
  bounded : ∀ size, definition.maxSize = some size → (max.1 : ℚ) ≤ size

theorem sizeRange_eq_ok {key : Utf16} {min : Count 0} {max : Count 1}
    (is : sizeRange definition key options = .ok (min, max)) :
    SizesAsked definition options min max := by
  unfold sizeRange at is
  dsimp only at is
  split at is
  · exact absurd is nofun
  obtain ⟨max', most, is⟩ := bind_eq_ok_iff.mp is
  split at is
  · exact absurd is nofun
  next within =>
    obtain ⟨min', least, is⟩ := bind_eq_ok_iff.mp is
    split at is
    · exact absurd is nofun
    next le =>
      cases is
      refine ⟨checkBytes_eq_ok least, checkBytes_eq_ok most, not_lt.mp le, fun size own => ?_⟩
      rw [own, Option.filter_eq_none_iff] at within
      simpa using within size rfl

/-- The type that a rule fixes or starts, as the bucket and the option ask. -/
inductive TypeAsked (definition : BucketDefinition P) (lower : Utf16 → Utf16) (type : Js) :
    TypeRule → Prop
  | field {s : Utf16} (given : ∀ t, type = .string t → t = s)
      (unprefixed : ∀ start, type.get "startsWith" ≠ .string start)
      (accepted : ∀ list, definition.accepted = some list →
        ∃ one ∈ list, essenceOf lower one = essenceOf lower s) :
      TypeAsked definition lower type (.field s)
  | condition {start : Utf16} (free : definition.accepted = none) (unnamed : ∀ t, type ≠ .string t)
      (given : ∀ t, type.get "startsWith" = .string t → t = start)
      (none : (∀ t, type.get "startsWith" ≠ .string t) → start = []) :
      TypeAsked definition lower type (.condition start)

theorem checkType_eq_ok {key : Utf16} {type : Option Utf16} {u : Unit}
    (is : checkType definition lower key type = .ok u) {list : List Utf16}
    (accepted : definition.accepted = some list) :
    ∃ s, type = some s ∧ ∃ one ∈ list, essenceOf lower one = essenceOf lower s := by
  unfold checkType at is
  rw [accepted] at is
  dsimp only at is
  split at is
  · exact absurd is nofun
  · exact absurd is nofun
  next s _ =>
    split at is
    next found =>
      obtain ⟨one, mem, same⟩ := List.any_eq_true.mp found
      exact ⟨s, rfl, one, mem, of_decide_eq_true same⟩
    · exact absurd is nofun

theorem typeRule_eq_ok {key : Utf16} {type : Js} {rule : TypeRule}
    (is : typeRule definition lower key type = .ok rule) :
    TypeAsked definition lower type rule := by
  unfold typeRule at is
  dsimp only at is
  split at is
  · split at is
    next free =>
      cases is
      exact .condition free nofun nofun fun _ => rfl
    next one accepted =>
      cases is
      refine .field nofun nofun fun list own => ?_
      cases accepted.symm.trans own
      exact ⟨one, List.mem_singleton_self one, rfl⟩
    next several =>
      obtain ⟨-, -, wrong⟩ := bind_eq_ok_iff.mp is
      exact absurd wrong nofun
  · split at is
    · exact absurd is nofun
    obtain ⟨u, checked, is⟩ := bind_eq_ok_iff.mp is
    cases is
    refine .field (fun t same => ?_) nofun fun list own => ?_
    · cases same
      rfl
    · obtain ⟨t, same, found⟩ := checkType_eq_ok checked own
      cases same
      exact found
  next type notUndefined notString =>
    split at is
    next start given =>
      split at is
      · exact absurd is nofun
      next free =>
        cases is
        refine .condition free (fun t same => notString t same) (fun t same => ?_) fun none => ?_
        · cases given.symm.trans same
          rfl
        · exact absurd given (none start)
    · exact absurd is nofun

/-- The field of an option, when it is given. -/
theorem optionField_eq_ok {name : Utf16} {check : Js → Except Failure Utf16} {value : Js}
    {fields : List (Utf16 × Utf16)}
    (checks : ∀ value text, check value = .ok text → value = .string text)
    (is : optionField name check value = .ok fields) :
    fields = (givenText value).toList.map fun text => (name, text) := by
  unfold optionField at is
  cases value with
  | undefined =>
      cases is
      rfl
  | _ =>
      obtain ⟨text, checked, is⟩ := bind_eq_ok_iff.mp is
      have same := checks _ _ checked
      cases is
      first
      | (cases same; rfl)
      | exact absurd same nofun

theorem checkAcl_eq_ok {key : Utf16} (value : Js) (text : Utf16)
    (is : checkAcl definition key value = .ok text) : value = .string text := by
  unfold checkAcl at is
  dsimp only at is
  split at is
  · split at is
    · cases is
      rfl
    · exact absurd is nofun
  · exact absurd is nofun

theorem checkDisposition_eq_ok {key : Utf16} (value : Js) (text : Utf16)
    (is : checkDisposition definition key value = .ok text) : value = .string text := by
  unfold checkDisposition at is
  dsimp only at is
  split at is
  · split at is
    · exact absurd is nofun
    split at is
    · cases is
      rfl
    · exact absurd is nofun
  · exact absurd is nofun

/-! The signed policy. -/

/-- A form by what it was asked with. -/
structure Signs (definition : BucketDefinition P) (lower : Utf16 → Utf16)
    (encode : PolicyDocument → Utf16) (sign : Utf16 → Utf16) (signer : PostSigner) (params : P)
    (options : PresignPostOptions) (now : Int) (form : PresignedPost) (expiresIn : ℚ)
    (min : Count 0) (max : Count 1) (rule : TypeRule) (fields : List (Utf16 × Utf16)) : Prop where
  expires : options.expiresIn.orElse defaultExpiresIn = .number (.finite expiresIn)
  week : expiresIn ≤ maxExpiresIn
  sizes : SizesAsked definition options min max
  type : TypeAsked definition lower options.type rule
  isFields : fields = (keyField, definition.key params) :: rule.fields ++
    (givenText options.acl).toList.map (fun text => (aclField, text)) ++
    (givenText options.contentDisposition).toList.map (fun text => (dispositionField, text)) ++
    signing signer (amzDateOf now)
  expiration : expirationOf now expiresIn = .ok form.document.expiration
  conditions : form.document.conditions = .bucket definition.bucket ::
    fields.map (fun f => .eq f.1 f.2) ++ (.contentLengthRange min max :: rule.conditions)
  isForm : form.fields = fields ++ [(Utf16.ofText "policy", encode form.document),
    (Utf16.ofText "x-amz-signature", sign (encode form.document))]

theorem presignPostForm_eq_ok (is : presignPostForm definition lower encode sign signer params
    options now = .ok form) : ∃ expiresIn min max rule fields, Signs definition lower encode sign
      signer params options now form expiresIn min max rule fields := by
  unfold presignPostForm at is
  obtain ⟨expiresIn, expires, is⟩ := bind_eq_ok_iff.mp is
  obtain ⟨⟨min, max⟩, sizes, is⟩ := bind_eq_ok_iff.mp is
  obtain ⟨rule, type, is⟩ := bind_eq_ok_iff.mp is
  obtain ⟨acl, aclGiven, is⟩ := bind_eq_ok_iff.mp is
  obtain ⟨disposition, dispositionGiven, is⟩ := bind_eq_ok_iff.mp is
  obtain ⟨expiration, expirationIs, is⟩ := bind_eq_ok_iff.mp is
  obtain rfl := optionField_eq_ok checkAcl_eq_ok aclGiven
  obtain rfl := optionField_eq_ok checkDisposition_eq_ok dispositionGiven
  cases is
  obtain ⟨value, week⟩ := checkExpiresIn_eq_ok expires
  exact ⟨expiresIn, min, max, rule, _, value, week, sizeRange_eq_ok sizes, typeRule_eq_ok type,
    rfl, expirationIs, rfl, rfl⟩

/-- The fields of a signature. -/
def signingNames : List Utf16 :=
  ["x-amz-algorithm", "x-amz-credential", "x-amz-date", "x-amz-security-token"].map Utf16.ofText

theorem signing_names (signer : PostSigner) (date : Utf16) :
    ((signing signer date).map Prod.fst).Sublist signingNames := by
  unfold signing
  split
  · exact List.sublist_append_left _ [_]
  · exact List.sublist_append_left _ [_]
  · exact List.Sublist.refl _

/-- The names that the fields of a form are among, by the options that are given. -/
def fieldNames (acl disposition : Bool) : List Utf16 :=
  [keyField, typeField] ++ (if acl then [aclField] else []) ++
    (if disposition then [dispositionField] else []) ++ signingNames

theorem fieldNames_nodup (acl disposition : Bool) :
    ((fieldNames acl disposition).map fold).Nodup := by
  revert acl disposition
  decide

theorem givenText_names (name : Utf16) (value : Js) :
    ((givenText value).toList.map fun text => (name, text)).map Prod.fst =
      if (givenText value).isSome then [name] else [] := by
  cases givenText value <;> rfl

namespace Signs
variable {expiresIn : ℚ} {min : Count 0} {max : Count 1} {rule : TypeRule}
  {fields : List (Utf16 × Utf16)}

/-- Every field has one of the names, once. -/
theorem names (signs : Signs definition lower encode sign signer params options now form
    expiresIn min max rule fields) : (fields.map Prod.fst).Sublist
      (fieldNames (givenText options.acl).isSome (givenText options.contentDisposition).isSome) := by
  have type : (rule.fields.map Prod.fst).Sublist [typeField] := by
    cases rule with
    | field => exact List.Sublist.refl _
    | condition => exact List.nil_sublist _
  have front : ((keyField, definition.key params) :: rule.fields).map Prod.fst |>.Sublist
      [keyField, typeField] := type.cons_cons keyField
  rw [signs.isFields]
  rw [List.map_append, List.map_append, List.map_append, givenText_names, givenText_names]
  exact ((front.append (List.Sublist.refl _)).append (List.Sublist.refl _)).append
    (signing_names _ _)

theorem nodup (signs : Signs definition lower encode sign signer params options now form
    expiresIn min max rule fields) : (fields.map fun f => fold f.1).Nodup := by
  have sub := signs.names.map fold
  rw [List.map_map] at sub
  exact sub.nodup (fieldNames_nodup _ _)

theorem key_mem (signs : Signs definition lower encode sign signer params options now form
    expiresIn min max rule fields) : (keyField, definition.key params) ∈ fields := by
  rw [signs.isFields]
  exact List.mem_append_left _ (List.mem_append_left _ (List.mem_append_left _ List.mem_cons_self))

theorem acl_mem (signs : Signs definition lower encode sign signer params options now form
    expiresIn min max rule fields) {text : Utf16} (given : givenText options.acl = some text) :
    (aclField, text) ∈ fields := by
  rw [signs.isFields, given]
  exact List.mem_append_left _ (List.mem_append_left _ (List.mem_append_right _
    (List.mem_singleton_self _)))

theorem disposition_mem (signs : Signs definition lower encode sign signer params options now form
    expiresIn min max rule fields) {text : Utf16}
    (given : givenText options.contentDisposition = some text) :
    (dispositionField, text) ∈ fields := by
  rw [signs.isFields, given]
  exact List.mem_append_left _ (List.mem_append_right _ (List.mem_singleton_self _))

theorem type_mem {type : Utf16} (signs : Signs definition lower encode sign signer params options
    now form expiresIn min max (.field type) fields) : (typeField, type) ∈ fields := by
  rw [signs.isFields]
  exact List.mem_append_left _ (List.mem_append_left _ (List.mem_append_left _
    (List.mem_cons_of_mem _ (List.mem_singleton_self _))))

/-- A field named by a condition is in the list, or is the type that a rule starts. -/
theorem named (signs : Signs definition lower encode sign signer params options now form
    expiresIn min max rule fields) {c : PolicyCondition} (mem : c ∈ form.document.conditions)
    {name : Utf16} (is : S3.names name c = true) :
    (∃ f ∈ fields, fold f.1 = fold name) ∨
      (∃ start, rule = .condition start) ∧ fold typeField = fold name := by
  rw [signs.conditions] at mem
  rcases List.mem_append.mp mem with first | second
  · rcases List.mem_cons.mp first with rfl | first
    · exact absurd is nofun
    · obtain ⟨f, own, rfl⟩ := List.mem_map.mp first
      exact .inl ⟨f, own, of_decide_eq_true is⟩
  · rcases List.mem_cons.mp second with rfl | second
    · exact absurd is nofun
    · cases rule with
      | field => exact absurd second List.not_mem_nil
      | condition start =>
          obtain rfl := List.mem_singleton.mp second
          exact .inr ⟨⟨start, rfl⟩, of_decide_eq_true is⟩

theorem eq_mem (signs : Signs definition lower encode sign signer params options now form
    expiresIn min max rule fields) {f : Utf16 × Utf16} (mem : f ∈ fields) :
    .eq f.1 f.2 ∈ form.document.conditions := by
  rw [signs.conditions]
  exact List.mem_append_left _ (List.mem_cons_of_mem _
    (List.mem_map_of_mem (f := fun f => PolicyCondition.eq f.1 f.2) mem))

end Signs

/-! What a form that is admitted stores. -/

theorem admits_iff {expands : Expands} {policy : PolicyDocument} {post : Post} :
    admits expands policy post = true ↔ post.time < policy.expiration ∧
      (∀ c ∈ policy.conditions, holds expands post c = true) ∧
        ∀ f ∈ post.fields, exempt f.1 = true ∨ ∃ c ∈ policy.conditions, names f.1 c = true := by
  simp only [admits, Bool.and_eq_true, decide_eq_true_eq, List.all_eq_true, Bool.or_eq_true,
    List.any_eq_true, and_assoc]

theorem matched_of_ne {expands : Expands} {post : Post} {name : Utf16}
    (other : fold name ≠ keyField) : matched expands post name = fieldOf post.fields name := by
  unfold matched
  exact if_neg fun h => other h.2

/-- What was asked for, of an object stored at a time. -/
structure Asked (definition : BucketDefinition P) (lower : Utf16 → Utf16) (params : P)
    (options : PresignPostOptions) (now : Int) (object : Stored) (time : Int) : Prop where
  key : object.key = some (definition.key params)
  size : ∃ min max, SizesAsked definition options min max ∧ min.1 ≤ object.size ∧
    object.size ≤ max.1
  bounded : ∀ size, definition.maxSize = some size → (object.size : ℚ) ≤ size
  accepted : ∀ list, definition.accepted = some list → ∃ type, object.contentType = some type ∧
    ∃ one ∈ list, essenceOf lower one = essenceOf lower type
  type : ∀ t, options.type = .string t → object.contentType = some t
  start : ∀ t, options.type.get "startsWith" = .string t →
    t <+: object.contentType.getD []
  acl : object.acl = givenText options.acl
  contentDisposition : object.contentDisposition = givenText options.contentDisposition
  before : ∃ expiresIn, options.expiresIn.orElse defaultExpiresIn = .number (.finite expiresIn) ∧
    (time : ℚ) < now + expiresIn * 1000 ∧ expiresIn ≤ 7 * 86400

/-- The page's own field under a type prefix. -/
inductive Completes (type : Js) : List (Utf16 × Utf16) → Prop
  | asIs (unprefixed : ∀ start, type.get "startsWith" = .string start → start = []) :
      Completes type []
  | typed {start t : Utf16} (given : type.get "startsWith" = .string start) (has : start <+: t) :
      Completes type [(typeField, t)]

theorem lt_of_lt_expirationOf {expiresIn : ℚ} {expiration time : Int}
    (is : expirationOf now expiresIn = .ok expiration) (lt : time < expiration) :
    (time : ℚ) < now + expiresIn * 1000 := by
  unfold expirationOf at is
  dsimp only at is
  by_cases pos : 0 ≤ (now : ℚ) + expiresIn * 1000
  · rw [if_pos pos] at is
    split at is
    · cases is
      exact (Int.cast_lt.mpr lt).trans_le (Int.floor_le _)
    · exact absurd is nofun
  · rw [if_neg pos] at is
    split at is
    · cases is
      exact Int.lt_ceil.mp lt
    · exact absurd is nofun

section Admitted
variable {expiresIn : ℚ} {min : Count 0} {max : Count 1} {rule : TypeRule}
  {fields : List (Utf16 × Utf16)} {expands : Expands} {post : Post}

theorem Signs.matched_eq (signs : Signs definition lower encode sign signer params options now form
    expiresIn min max rule fields) (admitted : admits expands form.document post = true)
    {name value : Utf16} (mem : (name, value) ∈ fields) :
    matched expands post name = some value :=
  of_decide_eq_true ((admits_iff.mp admitted).2.1 _ (signs.eq_mem mem))

/-- A field that the form does not have is not posted either. -/
theorem Signs.fieldOf_none (signs : Signs definition lower encode sign signer params options now
    form expiresIn min max rule fields) (admitted : admits expands form.document post = true)
    {name : Utf16} (free : ∀ n ∈ fieldNames (givenText options.acl).isSome
      (givenText options.contentDisposition).isSome, fold n ≠ fold name)
    (notExempt : exempt name = false) : fieldOf post.fields name = none := by
  refine fieldOf_eq_none fun f mem same => ?_
  have sameExempt : exempt f.1 = exempt name := by
    unfold exempt
    rw [same]
  rcases (admits_iff.mp admitted).2.2 f mem with is | ⟨c, own, is⟩
  · rw [sameExempt, notExempt] at is
    exact absurd is nofun
  · rcases signs.named own is with ⟨g, among, sameName⟩ | ⟨-, sameName⟩
    · exact free g.1 (signs.names.subset (List.mem_map_of_mem among)) (sameName.trans same)
    · have type : typeField ∈ fieldNames (givenText options.acl).isSome
          (givenText options.contentDisposition).isSome :=
        List.mem_append_left _ (List.mem_append_left _ (List.mem_append_left _
          (List.mem_cons_of_mem _ (List.mem_singleton_self _))))
      exact free typeField type (sameName.trans same)

/-- The field of an option is posted as it was given, or not at all. -/
theorem Signs.fieldOf_given (signs : Signs definition lower encode sign signer params options now
    form expiresIn min max rule fields) (admitted : admits expands form.document post = true)
    {name : Utf16} {value : Js} (other : fold name ≠ keyField) (notExempt : exempt name = false)
    (mem : ∀ text, givenText value = some text → (name, text) ∈ fields)
    (free : givenText value = none → ∀ n ∈ fieldNames (givenText options.acl).isSome
      (givenText options.contentDisposition).isSome, fold n ≠ fold name) :
    fieldOf post.fields name = givenText value := by
  cases given : givenText value with
  | none => exact signs.fieldOf_none admitted (free given) notExempt
  | some text => exact (matched_of_ne other).symm.trans (signs.matched_eq admitted (mem text given))

theorem Signs.asked (signs : Signs definition lower encode sign signer params options now form
    expiresIn min max rule fields) (admitted : admits expands form.document post = true)
    (free : ¬ template <:+: definition.key params) :
    Asked definition lower params options now (stored post) post.time := by
  obtain ⟨inTime, held, -⟩ := admits_iff.mp admitted
  have range : holds expands post (.contentLengthRange min max) = true := by
    refine held _ ?_
    rw [signs.conditions]
    exact List.mem_append_right _ List.mem_cons_self
  have sizes : min.1 ≤ post.file.size ∧ post.file.size ≤ max.1 := by
    simpa only [holds, Bool.and_eq_true, decide_eq_true_eq] using range
  have key : (stored post).key = some (definition.key params) := by
    have is := signs.matched_eq admitted signs.key_mem
    unfold matched at is
    dsimp only at is
    split at is
    · exact is
    · change (fieldOf post.fields keyField).map (replace post.file.name) = _
      rw [is, Option.map_some, replace_of_free free]
  have typed : ∀ type, rule = .field type → fieldOf post.fields typeField = some type := by
    rintro type rfl
    exact (matched_of_ne (by decide)).symm.trans (signs.matched_eq admitted signs.type_mem)
  refine {
    key
    size := ⟨min, max, signs.sizes, sizes⟩
    bounded := fun size own => ?_
    accepted := fun list own => ?_
    type := fun t given => ?_
    start := fun t given => ?_
    acl := signs.fieldOf_given admitted (by decide) (by decide) (fun _ => signs.acl_mem) fun none => ?_
    contentDisposition := signs.fieldOf_given admitted (by decide) (by decide)
      (fun _ => signs.disposition_mem) fun none => ?_
    before := ⟨expiresIn, signs.expires, lt_of_lt_expirationOf signs.expiration inTime, ?_⟩ }
  · exact (Nat.cast_le.mpr sizes.2).trans (signs.sizes.bounded size own)
  · cases signs.type with
    | field given unprefixed accepted => exact ⟨_, typed _ rfl, accepted list own⟩
    | condition none => exact absurd (own.symm.trans none) nofun
  · cases signs.type with
    | field same =>
        cases same t given
        exact typed _ rfl
    | condition _ unnamed => exact absurd given (unnamed t)
  · cases signs.type with
    | field _ unprefixed => exact absurd given (unprefixed t)
    | @condition start _ _ same =>
        obtain rfl := same t given
        have starts : t.isPrefixOf ((matched expands post typeField).getD []) = true := by
          refine held (.startsWith typeField t) ?_
          rw [signs.conditions]
          exact List.mem_append_right _ (List.mem_cons_of_mem _ (List.mem_singleton_self _))
        rw [matched_of_ne (show fold typeField ≠ keyField by decide)] at starts
        exact List.isPrefixOf_iff_prefix.mp starts
  · rw [none]
    cases (givenText options.contentDisposition).isSome <;> decide
  · rw [none]
    cases (givenText options.acl).isSome <;> decide
  · exact signs.week.trans (by norm_num [maxExpiresIn])

/-- The posted fields hold the form's own, whatever follows them. -/
theorem Signs.fieldOf_own (signs : Signs definition lower encode sign signer params options now
    form expiresIn min max rule fields) {name value : Utf16} (mem : (name, value) ∈ fields)
    (extra : List (Utf16 × Utf16)) : fieldOf (form.fields ++ extra) name = some value := by
  have own := fieldOf_of_mem signs.nodup mem
  unfold fieldOf at own ⊢
  rw [signs.isForm, List.append_assoc, List.find?_append, Option.map_or, own]
  rfl

/-- The names of a form without a type. -/
def untypedNames : List Utf16 :=
  [keyField, aclField, dispositionField] ++ signingNames ++
    [Utf16.ofText "policy", Utf16.ofText "x-amz-signature"]

/-- The type that a page appends is the one posted, since the form has none. -/
theorem Signs.fieldOf_type {start : Utf16} (signs : Signs definition lower encode sign signer
    params options now form expiresIn min max (.condition start) fields)
    (extra : List (Utf16 × Utf16)) :
    fieldOf (form.fields ++ extra) typeField = fieldOf extra typeField := by
  have free : ∀ f ∈ form.fields, fold f.1 ≠ fold typeField := by
    intro f mem
    rw [signs.isForm, signs.isFields] at mem
    have name : f.1 ∈ untypedNames := by
      simp only [TypeRule.fields, List.append_assoc, List.cons_append, List.nil_append,
        List.mem_cons, List.mem_append, List.mem_map, List.not_mem_nil, or_false] at mem
      rcases mem with rfl | ⟨text, -, rfl⟩ | ⟨text, -, rfl⟩ | mem | rfl | rfl
      · exact (by decide : keyField ∈ untypedNames)
      · exact (by decide : aclField ∈ untypedNames)
      · exact (by decide : dispositionField ∈ untypedNames)
      · have own := (signing_names _ _).subset (List.mem_map_of_mem mem)
        exact List.mem_append_left _ (List.mem_append_right _ own)
      · exact (by decide : Utf16.ofText "policy" ∈ untypedNames)
      · exact (by decide : Utf16.ofText "x-amz-signature" ∈ untypedNames)
    have all : ∀ n ∈ untypedNames, fold n ≠ fold typeField := by decide
    exact all f.1 name
  have none := fieldOf_eq_none free
  unfold fieldOf at none ⊢
  rw [List.find?_append, Option.map_or, none]
  rfl

theorem Signs.admits (signs : Signs definition lower encode sign signer params options now form
    expiresIn min max rule fields) {file : File} {extra : List (Utf16 × Utf16)} {time : Int}
    (kept : expands = .after ∨ replace file.name (definition.key params) = definition.key params)
    (size : min.1 ≤ file.size ∧ file.size ≤ max.1) (completes : Completes options.type extra)
    (inTime : time < form.document.expiration) :
    admits expands form.document ⟨definition.bucket, form.fields ++ extra, file, time⟩ = true := by
  refine admits_iff.mpr ⟨inTime, fun c mem => ?_, fun f mem => ?_⟩
  · rw [signs.conditions] at mem
    rcases List.mem_append.mp mem with first | second
    · rcases List.mem_cons.mp first with rfl | first
      · exact decide_eq_true rfl
      · obtain ⟨⟨name, value⟩, own, rfl⟩ := List.mem_map.mp first
        refine decide_eq_true ?_
        unfold matched
        dsimp only
        rw [signs.fieldOf_own own]
        split
        next before =>
          -- the key is replaced first, and stays as it is
          have same : (name, value) = (keyField, definition.key params) := by
            refine List.inj_on_of_nodup_map signs.nodup own signs.key_mem ?_
            exact before.2.trans (show keyField = fold keyField by decide)
          cases same
          rcases kept with after | same
          · exact absurd (before.1.symm.trans after) nofun
          · rw [Option.map_some, same]
        · rfl
    · rcases List.mem_cons.mp second with rfl | second
      · simp [holds, size]
      · cases rule with
        | field => exact absurd second List.not_mem_nil
        | condition start =>
            obtain rfl := List.mem_singleton.mp second
            refine List.isPrefixOf_iff_prefix.mpr ?_
            rw [matched_of_ne (by decide), signs.fieldOf_type]
            cases signs.type with
            | condition _ _ given none =>
                cases completes with
                | asIs unprefixed =>
                    have empty : start = [] := by
                      by_cases some : ∃ t, options.type.get "startsWith" = .string t
                      · obtain ⟨t, is⟩ := some
                        rw [← given t is]
                        exact unprefixed t is
                      · exact none fun t is => some ⟨t, is⟩
                    rw [empty]
                    exact List.nil_prefix
                | typed own has =>
                    rw [← given _ own]
                    exact has
  · rcases List.mem_append.mp mem with own | appended
    · rw [signs.isForm] at own
      rcases List.mem_append.mp own with field | carried
      · exact .inr ⟨_, signs.eq_mem field, decide_eq_true rfl⟩
      · left
        simp only [List.mem_cons, List.not_mem_nil, or_false] at carried
        rcases carried with rfl | rfl
        · change exempt (Utf16.ofText "policy") = true
          decide
        · change exempt (Utf16.ofText "x-amz-signature") = true
          decide
    · cases completes with
      | asIs => exact absurd appended List.not_mem_nil
      | @typed start t given has =>
          obtain rfl := List.mem_singleton.mp appended
          cases rule with
          | field =>
              cases signs.type with
              | field _ unprefixed => exact absurd given (unprefixed start)
          | condition start' =>
              refine .inr ⟨.startsWith typeField start', ?_,
                decide_eq_true (rfl : fold typeField = fold typeField)⟩
              rw [signs.conditions]
              exact List.mem_append_right _ (List.mem_cons_of_mem _ (List.mem_singleton_self _))

end Admitted

/-- The fields that a page can always append. -/
theorem exists_completes (type : Js) : ∃ extra, Completes type extra := by
  by_cases some : ∃ start, type.get "startsWith" = .string start
  · obtain ⟨start, given⟩ := some
    exact ⟨_, .typed given (List.prefix_refl start)⟩
  · exact ⟨[], .asIs fun start given => absurd ⟨start, given⟩ some⟩

/-- A presigned POST admits what was asked for and nothing else, whether the service replaces
the key's template before the conditions are met or after, exactly when the key has none. -/
theorem presignPost_admits (signed : presignPostForm definition lower encode sign signer params
    options now = .ok form) (expands : Expands) :
    ((∀ post, admits expands form.document post = true →
        Asked definition lower params options now (stored post) post.time) ∧
      ∀ file extra time, (∃ min max, SizesAsked definition options min max ∧
          min.1 ≤ file.size ∧ file.size ≤ max.1) → Completes options.type extra →
        time < form.document.expiration →
          admits expands form.document ⟨definition.bucket, form.fields ++ extra, file, time⟩ = true)
    ↔ ¬ template <:+: definition.key params := by
  obtain ⟨expiresIn, min, max, rule, fields, signs⟩ := presignPostForm_eq_ok signed
  constructor
  · rintro ⟨sound, complete⟩ has
    obtain ⟨extra, completes⟩ := exists_completes options.type
    -- a file of one letter's name: what is stored has a shorter key
    have admitted := complete ⟨[120], min.1⟩ extra (form.document.expiration - 1)
      ⟨min, max, signs.sizes, le_rfl, signs.sizes.le⟩ completes (by omega)
    have key := (sound _ admitted).key
    change (fieldOf (form.fields ++ extra) keyField).map _ = _ at key
    rw [signs.fieldOf_own signs.key_mem, Option.map_some, Option.some_inj] at key
    exact replace_ne (le_refl 1) has key
  · intro free
    refine ⟨fun post admitted => signs.asked admitted free, ?_⟩
    rintro file extra time ⟨min', max', sizes, size⟩ completes inTime
    cases sizes.least.symm.trans signs.sizes.least
    cases sizes.most.symm.trans signs.sizes.most
    exact signs.admits (.inr (replace_of_free free)) size completes inTime

/-- A bucket of images of at most 1024 bytes, by their keys. -/
def avatars : BucketDefinition Utf16 where
  bucket := Utf16.ofText "avatars"
  key := id
  accepted := some [Utf16.ofText "image/png"]
  maxSize := some 1024
  named := by decide
  some := by decide
  positive := by
    rintro size same
    cases same
    norm_num

def avatarForm (key : String) : Except Failure PresignedPost :=
  presignPostForm avatars id (fun _ => []) (fun _ => []) ⟨[], [], [], none⟩ (Utf16.ofText key) {} 0

theorem avatarForm_isOk (key : String) (free : (avatarForm key).toOption.isSome = true) :
    ∃ form, avatarForm key = .ok form := by
  cases is : avatarForm key with
  | error e =>
      rw [is] at free
      exact absurd free nofun
  | ok form => exact ⟨form, rfl⟩

theorem avatars_sizes : SizesAsked avatars {} ⟨0, by decide⟩ ⟨1024, by decide⟩ where
  least := rfl
  most := rfl
  le := by decide
  bounded := by
    rintro size same
    cases same
    norm_num

theorem presignPost_admits_avatar : (avatarForm "u1.png").toOption.any (fun form =>
    admits .before form.document
      ⟨avatars.bucket, form.fields ++ [], ⟨Utf16.ofText "me.png", 64⟩, 0⟩) = true := by
  obtain ⟨form, signed⟩ := avatarForm_isOk "u1.png" (by decide +kernel)
  have time : (avatarForm "u1.png").toOption.any
      (fun form => 0 < form.document.expiration) = true := by
    decide +kernel
  rw [signed] at time ⊢
  have free : ¬ template <:+: avatars.key (Utf16.ofText "u1.png") := by decide
  obtain ⟨-, complete⟩ := (presignPost_admits signed .before).mpr free
  exact complete _ _ _ ⟨_, _, avatars_sizes, by decide, by decide⟩ (.asIs nofun)
    (of_decide_eq_true time)

/-- A key with the template: who posts the file names the object. -/
theorem template_admits_another : ¬ ∀ form, avatarForm "f/${filename}" = .ok form →
    ∀ post, admits .after form.document post = true →
      Asked avatars id (Utf16.ofText "f/${filename}") {} 0 (stored post) post.time := by
  intro every
  obtain ⟨form, signed⟩ := avatarForm_isOk "f/${filename}" (by decide +kernel)
  have run : (avatarForm "f/${filename}").toOption.any (fun form =>
      let post : Post := ⟨avatars.bucket, form.fields, ⟨Utf16.ofText "x", 64⟩, 0⟩
      admits .after form.document post && (stored post).key = some (Utf16.ofText "f/x")) = true := by
    decide +kernel
  rw [signed] at run
  obtain ⟨admitted, elsewhere⟩ := (Bool.and_eq_true _ _).mp run
  have key := (every form signed _ admitted).key
  rw [of_decide_eq_true elsewhere] at key
  exact absurd key (by decide)

end NxgtData.S3
