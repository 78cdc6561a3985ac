import NxgtData.Backup.Restore
import NxgtData.Backup.Whole

/-!
What a whole backup put: its manifest and its catalog are of the form that is read back, and each
object is where the catalog says that it is.
-/
namespace NxgtData.Backup
open Checked CodeUnits JsonText

section Keys

theorem toList_objectKey (n : Nat) : (objectKey n).toList = Nat.toDigits 10 n ++ ".age".toList := by
  rw [objectKey, String.toList_append, Decimal.toList_toString]

theorem takeWhile_objectKey (n : Nat) :
    (objectKey n).toList.takeWhile Char.isDigit = Nat.toDigits 10 n := by
  have all : ∀ c ∈ Nat.toDigits 10 n, c.isDigit = true :=
    fun c mem => Nat.isDigit_of_mem_toDigits (by decide) (by decide) mem
  have stop : ".age".toList.takeWhile Char.isDigit = [] := by decide
  rw [toList_objectKey, List.takeWhile_append_of_pos all, stop, List.append_nil]

theorem objectNumber_objectKey (n : Nat) : objectNumber (objectKey n) = some n := by
  unfold objectNumber
  rw [takeWhile_objectKey]
  dsimp only
  rw [if_neg Nat.toDigits_ne_nil, Nat.ofDigitChars_ten_toDigits]

theorem objectKey_injective {n k : Nat} (same : objectKey n = objectKey k) : n = k := by
  have number := objectNumber_objectKey n
  rw [same, objectNumber_objectKey] at number
  exact (Option.some.inj number).symm

theorem isNumberKey_objectKey {n : Nat} (small : n < 10 ^ 9) : isNumberKey (objectKey n) := by
  unfold isNumberKey
  rw [takeWhile_objectKey, toList_objectKey]
  dsimp only
  have few := (Nat.length_toDigits_le_iff (b := 10) (k := 9) (by decide) (by decide)).mpr small
  have some : 0 < (Nat.toDigits 10 n).length := Nat.length_toDigits_pos
  rw [List.drop_left, Bool.and_eq_true, Bool.and_eq_true]
  exact ⟨⟨decide_eq_true some, decide_eq_true few⟩, decide_eq_true rfl⟩

end Keys

section Texts

/-- A manifest takes a byte for each of its objects at least. -/
theorem length_objects (manifest : Manifest) :
    manifest.objects.length ≤ (Utf8.encode manifest.text).length := by
  refine le_trans ?_ (Utf8.length_le_encode _)
  rw [Manifest.text, String.toList_append, List.length_append, stringify, String.toList_ofList,
    Manifest.json]
  have items := length_write_arr true 1 (manifest.objects.map StoredObject.json)
  rw [List.length_map] at items
  refine le_trans (items.trans (length_write_obj true 0 (k := "objects") ?_)) (Nat.le_add_right _ _)
  simp

end Texts

/-- What `sealToFile` writes is of a size that a number tells exactly. -/
structure Fits (sys : System) (recipients : List Utf16) (source : BackupSource) : Prop where
  entries : ∀ since entry draw, .entry entry ∈ (source.entries since).steps →
    entry.sealed = .ok draw → entry.bytes.length < 2 ^ 53 ∧
      (sys.encrypt recipients draw entry.bytes).length < 2 ^ 53
  catalogs : ∀ catalog draw, source.catalog catalog = .ok draw →
    (sys.encrypt recipients draw (Utf8.encode catalog.text)).length < 2 ^ 53

section Made
variable {ctx : Context} {source : BackupSource} {options : CreateOptions} {at_ : Moment}
  {w : Writing}

theorem exists_left {α β : Type} {rel : α → β → Prop} {as : List α} {bs : List β}
    (h : List.Forall₂ rel as bs) {b : β} (mem : b ∈ bs) : ∃ a ∈ as, rel a b := by
  induction h with
  | nil => cases mem
  | cons first _ ih =>
      rcases List.mem_cons.mp mem with rfl | later
      · exact ⟨_, List.mem_cons_self, first⟩
      · obtain ⟨a, there, is⟩ := ih later
        exact ⟨a, List.mem_cons_of_mem _ there, is⟩

/-- Every object is an entry's, sealed. -/
theorem Writing.Of.made (of : w.Of ctx source options at_) {i : Nat} {m : Bytes × Nat}
    (there : w.made[i]? = some m) : ∃ s ∈ w.entries, s.bytes = m.1 ∧ s.sealed = .ok m.2 := by
  have lt : i < (ownOf w.catalog.entries).length := by
    have length := of.numbered.length
    have lt := (List.getElem?_eq_some_iff.mp there).1
    omega
  have own := of.numbered.object i _ (List.getElem?_eq_getElem lt)
  obtain ⟨mem, here⟩ := List.mem_filter.mp (List.getElem_mem lt)
  obtain ⟨s, given, record⟩ := exists_left of.records mem
  generalize (ownOf w.catalog.entries)[i] = e at own here record
  cases record with
  | own j draw drawn at_ =>
      have same : j = 0 + i := objectKey_injective own
      rw [Nat.zero_add] at same
      rw [same, there] at at_
      cases at_
      exact ⟨s, given, rfl, drawn⟩
  | known known _ _ => cases here

theorem Writing.Of.few (of : w.Of ctx source options at_) : w.made.length < 10 ^ 9 := by
  have le := length_objects (w.manifest ctx options at_)
  have small := of.small
  have number : (w.manifest ctx options at_).objects.length = w.made.length := by
    rw [Writing.manifest, objectsOf, List.length_mapIdx]
  unfold MANIFEST_MAX_BYTES at small
  omega

/-- What a backup builds on is older. -/
theorem Writing.Of.older (of : w.Of ctx source options at_) {b : Base} (is : w.base = some b) :
    isBackupId b.manifest.id ∧ Less b.manifest.id (newBackupId at_) := by
  have based := of.based
  rw [is] at based
  cases options with
  | full => cases based
  | chained kind identities refused from_ =>
      obtain ⟨b', same, founded⟩ := based
      cases same
      obtain ⟨r, -, catalog, newest, -⟩ := founded.found
      obtain ⟨fetched, less, -⟩ := newestFor_ok newest
      exact ⟨(fetchManifest_ok.mp fetched).1, less⟩

theorem Writing.Of.fitsKind (of : w.Of ctx source options at_) :
    FitsKind options.kind (w.base.map fun base => base.manifest.id) (newBackupId at_) := by
  have older := @Writing.Of.older ctx source options at_ w of
  have based := of.based
  cases options with
  | full =>
      rw [show w.base = none from based]
      rfl
  | chained kind identities refused from_ =>
      obtain ⟨b, is, -⟩ := based
      rw [is]
      cases kind with
      | incremental => exact ⟨b.manifest.id, rfl, older is⟩
      | differential => exact ⟨b.manifest.id, rfl, older is⟩

theorem measure_sound (sys : System) {bytes : Bytes} (small : bytes.length < 2 ^ 53) {key : String}
    (form : isObjectKey key) : StoredObject.Sound { sys.measure bytes with key } :=
  ⟨form, small, sys.hex bytes⟩

theorem mem_objectsOf {made : Made} {i : Nat} {object : StoredObject}
    (there : (objectsOf ctx made)[i]? = some object) : ∃ m, made[i]? = some m ∧
      object = { ctx.sys.measure (sealed ctx m.1 m.2) with key := objectKey i } := by
  rw [objectsOf, List.getElem?_mapIdx] at there
  obtain ⟨m, at_, rfl⟩ := Option.map_eq_some_iff.mp there
  exact ⟨m, at_, rfl⟩

/-- The manifest reads. -/
theorem Writing.Of.manifest_sound (of : w.Of ctx source options at_) (stamped : Stamped at_.time)
    (fits : Fits ctx.sys ctx.recipients source) : (w.manifest ctx options at_).Sound where
  backup := ctx.sys.named
  id := isBackupId_newBackupId stamped
  low := stamped.low
  high := stamped.high
  parent := of.fitsKind
  given := ctx.given
  recipients := ctx.ages
  catalog := ⟨measure_sound _ (fits.catalogs _ _ of.drawn) (by decide), rfl⟩
  objects o mem := by
    obtain ⟨i, lt, rfl⟩ := List.mem_iff_getElem.mp mem
    obtain ⟨m, there, is⟩ := mem_objectsOf (List.getElem?_eq_getElem lt)
    obtain ⟨s, given, bytes, drawn⟩ := of.made there
    have step : .entry s ∈ (source.entries (w.base.map Base.since)).steps := by
      rw [of.steps]
      exact List.mem_map_of_mem given
    have small := (fits.entries _ _ _ step drawn).2
    rw [bytes] at small
    have few := of.few
    have lt := (List.getElem?_eq_some_iff.mp there).1
    rw [is]
    refine measure_sound _ small ?_
    unfold isObjectKey
    rw [isNumberKey_objectKey (by omega), Bool.true_or]
  numbered i o there := by
    obtain ⟨m, -, rfl⟩ := mem_objectsOf there
    rfl

/-- What is known of an entry is what the catalog says of it. -/
theorem knownOf_lookup {manifest : Manifest} {catalog : Catalog} {name : Utf16} {known : Known}
    (there : (knownOf manifest catalog).lookup name = some known) : ∃ e ∈ catalog.entries,
      e.name = name ∧
        known = ⟨e.toMeasured, e.fingerprint, e.held.getD manifest.id, e.object⟩ := by
  have all (entries : List CatalogEntry) (start : AList fun _ : Utf16 => Known)
      (there : (entries.foldl (fun known entry => known.insert entry.name
        ⟨entry.toMeasured, entry.fingerprint, entry.held.getD manifest.id, entry.object⟩)
          start).lookup name = some known) : start.lookup name = some known ∨
        ∃ e ∈ entries, e.name = name ∧
          known = ⟨e.toMeasured, e.fingerprint, e.held.getD manifest.id, e.object⟩ := by
    induction entries generalizing start with
    | nil => exact .inl there
    | cons e rest ih =>
        rcases ih _ there with now | ⟨e', later, is⟩
        · by_cases same : name = e.name
          · rw [same, AList.lookup_insert] at now
            exact .inr ⟨e, List.mem_cons_self, same.symm, (Option.some.inj now).symm⟩
          · rw [AList.lookup_insert_ne same] at now
            exact .inl now
        · exact .inr ⟨e', List.mem_cons_of_mem _ later, is⟩
  exact (all catalog.entries ∅ there).resolve_left (by simp)

/-- The object of an entry of a catalog that was read. -/
theorem Catalog.Sound.number {manifest : Manifest} {catalog : Catalog} (sound : manifest.Sound)
    (h : catalog.Sound manifest.objects.length) {e : CatalogEntry} (mem : e ∈ catalog.entries) :
    isNumberKey e.object := by
  cases held : e.held with
  | some id => exact ((h.entries e mem).elsewhere id held).2
  | none =>
      have own : e ∈ ownOf catalog.entries := List.mem_filter.mpr ⟨mem, by rw [held]; rfl⟩
      obtain ⟨i, lt, is⟩ := List.mem_iff_getElem.mp own
      have object := h.numbered.object i e (by rw [List.getElem?_eq_getElem lt, is])
      have length := h.numbered.length
      have few : i < manifest.objects.length := by omega
      have at_ := List.getElem?_eq_getElem few
      have key := sound.numbered i _ at_
      have form := (sound.objects _ (List.getElem_mem few)).key
      rw [Nat.zero_add, ← key] at object
      unfold isObjectKey at form
      rw [object]
      refine (Bool.or_eq_true_iff.mp form).resolve_right fun catalog => ?_
      have number := objectNumber_objectKey i
      have none : objectNumber "catalog.age" = none := by decide
      rw [← key, of_decide_eq_true catalog, none] at number
      cases number

/-- The catalog reads. -/
theorem Writing.Of.catalog_sound (of : w.Of ctx source options at_)
    (fits : Fits ctx.sys ctx.recipients source) : w.catalog.Sound w.made.length where
  position := of.short
  entries e mem := by
    obtain ⟨s, given, record⟩ := exists_left of.records mem
    obtain ⟨named, printed⟩ := of.checked s given
    have step : .entry s ∈ (source.entries (w.base.map Base.since)).steps := by
      rw [of.steps]
      exact List.mem_map_of_mem given
    cases record with
    | own i draw drawn _ =>
        exact ⟨named, (fits.entries _ _ _ step drawn).1, ctx.sys.hex s.bytes, printed,
          fun _ is => by cases is⟩
    | known known there _ =>
        obtain ⟨b, is, there⟩ := Option.bind_eq_some_iff.mp there
        have based := of.based
        rw [is] at based
        cases options with
        | full => cases based
        | chained kind identities refused from_ =>
            obtain ⟨b', same, ⟨r, -, catalog, newest, -, read, -, -, knows⟩, -⟩ := based
            cases same
            obtain ⟨bytes, text, -, -, -, read⟩ := fetchCatalog_ok.mp read
            rw [knows] at there
            obtain ⟨e, listed, -, rfl⟩ := knownOf_lookup there
            have manifest := (fetchManifest_ok.mp (newestFor_ok newest).1).sound
            have sound := readCatalog_sound read
            have known := sound.entries e listed
            have number := sound.number manifest listed
            refine ⟨named, known.size, known.sha256, printed, fun id is => ?_⟩
            cases is
            refine ⟨?_, number⟩
            cases held : e.held with
            | none => exact manifest.id
            | some id => exact (known.elsewhere id held).1
  distinct := by
    rw [Records.names of.records]
    exact of.distinct
  numbered := of.numbered

end Made

end NxgtData.Backup
