import Mathlib.Data.List.Dedup
import NxgtData.Token.Tenant

/-!
A tenant token fails closed: what is signed is one rule for each index uid, each read once from
the caller's own properties, with a filter that filters, and a time that the clock has not
reached. But a `Date` is compared before its fraction of a second is dropped, so one within the
running second is signed as a time that has passed.
-/
namespace NxgtData.Token
open Realm Run

variable {Obj World Thrown : Type} {realm : Realm Obj World Thrown}

/-- An array nested `left` times at most, with strings at its leaves. -/
inductive Filter.Within : Nat → Filter → Prop
  | text {left : Nat} {s : Utf16} : Within left (.text s)
  | list {left : Nat} {fs : List Filter} (each : ∀ f ∈ fs, Within left f) :
      Within (left + 1) (.list fs)

/-- A string of a filter. -/
inductive Filter.Has (s : Utf16) : Filter → Prop
  | text : Has s (.text s)
  | list {fs : List Filter} {f : Filter} (mem : f ∈ fs) (own : Has s f) : Has s (.list fs)

/-- Whether a filter has a string that is not blank. -/
def Filter.Filters (f : Filter) : Prop := ∃ s, f.Has s ∧ ∃ u ∈ s, isBlank u = false

theorem Filter.allEmpty_eq_false {fs : List Filter} (some : Filter.allEmpty fs = false) :
    ∃ f ∈ fs, f.isEmpty = false := by
  induction fs with
  | nil => exact absurd some (by simp [Filter.allEmpty])
  | cons f fs ih =>
      rw [Filter.allEmpty, Bool.and_eq_false_iff] at some
      rcases some with first | rest
      · exact ⟨f, List.mem_cons_self, first⟩
      · obtain ⟨g, mem, other⟩ := ih rest
        exact ⟨g, List.mem_cons_of_mem _ mem, other⟩

theorem Filter.Within.filters {left : Nat} {f : Filter} (within : f.Within left)
    (some : f.isEmpty = false) : f.Filters := by
  induction within with
  | @text left s =>
      rw [Filter.isEmpty, List.all_eq_false] at some
      obtain ⟨u, mem, other⟩ := some
      exact ⟨s, .text, u, mem, Bool.eq_false_iff.mpr other⟩
  | list each ih =>
      rw [Filter.isEmpty] at some
      obtain ⟨g, mem, other⟩ := Filter.allEmpty_eq_false some
      obtain ⟨s, own, filters⟩ := ih g mem other
      exact ⟨s, .list mem own, filters⟩

/-! What the caller's objects hold, each property read once. -/

mutual

/-- A filter as it is read from one world to another: a string, or an array without a `toJSON`. -/
inductive ReadFilter (realm : Realm Obj World Thrown) :
    Value Obj → World → Filter → World → Prop
  | text {s : Utf16} {w : World} : ReadFilter realm (.string s) w (.text s) w
  | list {o : Obj} {w w₁ w₂ w₃ w' : World} {n : Nat} {fs : List Filter}
      (array : realm.isArray o w = .ok (true, w₁))
      (plain : realm.hasOwn o toJsonKey w₁ = .ok (false, w₂))
      (length : realm.length o w₂ = .ok (n, w₃)) (entries : ReadEntries realm o n 0 w₃ fs w') :
      ReadFilter realm (.object o) w (.list fs) w'

/-- The entries of an array, from the `i`th on. -/
inductive ReadEntries (realm : Realm Obj World Thrown) :
    Obj → Nat → Nat → World → List Filter → World → Prop
  | done {o : Obj} {i : Nat} {w : World} : ReadEntries realm o 0 i w [] w
  | next {o : Obj} {n i : Nat} {w w₁ w₂ w₃ : World} {v : Value Obj} {f : Filter} {fs : List Filter}
      (entry : realm.get o i w = .ok (v, w₁)) (first : ReadFilter realm v w₁ f w₂)
      (rest : ReadEntries realm o n (i + 1) w₂ fs w₃) :
      ReadEntries realm o (n + 1) i w (f :: fs) w₃

end

/-- A rule: `null`, or a plain object whose one property is an own, enumerable `filter`. -/
inductive ReadRule (realm : Realm Obj World Thrown) : Value Obj → World → Rule → World → Prop
  | null {w : World} : ReadRule realm .null w .null w
  | filter {o : Obj} {w w₁ w₂ w₃ w' : World} {proto : Prototype}
      {own : List (Key × Descriptor Obj)} {v : Value Obj} {f : Filter}
      (object : realm.isArray o w = .ok (false, w₁))
      (prototype : realm.getPrototypeOf o w₁ = .ok (proto, w₂)) (plain : proto ≠ .other)
      (read : realm.getOwnPropertyDescriptors o w₂ = .ok (own, w₃))
      (only : ∀ property ∈ own, property.1 = filterKey)
      (held : descriptorOf own filterKey = some (.data v true))
      (filter : ReadFilter realm v w₃ f w') : ReadRule realm (.object o) w (.filter f) w'

/-- The rules of a list, each an own, enumerable data property under its uid. -/
inductive ReadRules (realm : Realm Obj World Thrown) (own : List (Key × Descriptor Obj)) :
    World → List (Utf16 × Rule) → World → Prop
  | done {w : World} : ReadRules realm own w [] w
  | next {w w₁ w₂ : World} {uid : Utf16} {v : Value Obj} {rule : Rule}
      {rules : List (Utf16 × Rule)}
      (held : descriptorOf own (.string uid) = some (.data v true))
      (first : ReadRule realm v w rule w₁) (rest : ReadRules realm own w₁ rules w₂) :
      ReadRules realm own w ((uid, rule) :: rules) w₂

/-! The copies are what is held. -/

theorem read_eq_ok {α : Type} {run : Run World Thrown α} {out : α × World} {w : World} :
    (read run : Reading World Thrown α) w = .ok out ↔ run w = .ok out := trap_eq_ok

theorem copyEntries_reads {copy : Value Obj → Reading World Thrown Filter} {left : Nat} {o : Obj}
    (each : ∀ {v w f w'}, copy v w = .ok (f, w') → ReadFilter realm v w f w' ∧ f.Within left)
    {n i : Nat} {w w' : World} {fs : List Filter}
    (is : copyEntries realm copy o n i w = .ok (fs, w')) :
    ReadEntries realm o n i w fs w' ∧ ∀ f ∈ fs, f.Within left := by
  induction n generalizing i w fs with
  | zero =>
      obtain ⟨rfl, rfl⟩ := pure_eq_ok.mp is
      exact ⟨.done, fun f mem => absurd mem List.not_mem_nil⟩
  | succ n ih =>
      unfold copyEntries at is
      obtain ⟨v, w₁, entry, is⟩ := bind_eq_ok.mp is
      obtain ⟨f, w₂, first, is⟩ := bind_eq_ok.mp is
      obtain ⟨rest, w₃, others, is⟩ := bind_eq_ok.mp is
      obtain ⟨rfl, rfl⟩ := pure_eq_ok.mp is
      obtain ⟨reads, within⟩ := each first
      obtain ⟨readsRest, withinRest⟩ := ih others
      exact ⟨.next (read_eq_ok.mp entry) reads readsRest,
        List.forall_mem_cons.mpr ⟨within, withinRest⟩⟩

theorem copyFilter_reads {left : Nat} {v : Value Obj} {w w' : World} {f : Filter}
    (is : copyFilter realm left v w = .ok (f, w')) :
    ReadFilter realm v w f w' ∧ f.Within left := by
  induction left generalizing v w f w' with
  | zero =>
      unfold copyFilter at is
      cases v with
      | string s =>
          obtain ⟨rfl, rfl⟩ := pure_eq_ok.mp is
          exact ⟨.text, .text⟩
      | object o =>
          obtain ⟨array, w₁, -, is⟩ := bind_eq_ok.mp is
          exact absurd is nofun
      | _ => exact absurd is nofun
  | succ left ih =>
      unfold copyFilter at is
      cases v with
      | string s =>
          obtain ⟨rfl, rfl⟩ := pure_eq_ok.mp is
          exact ⟨.text, .text⟩
      | object o =>
          obtain ⟨array, w₁, isArray, is⟩ := bind_eq_ok.mp is
          cases array with
          | false => exact absurd is nofun
          | true =>
              obtain ⟨shadowed, w₂, hasOwn, is⟩ := bind_eq_ok.mp is
              cases shadowed with
              | true => exact absurd is nofun
              | false =>
                  obtain ⟨n, w₃, length, is⟩ := bind_eq_ok.mp is
                  obtain ⟨fs, w₄, entries, is⟩ := bind_eq_ok.mp is
                  obtain ⟨rfl, rfl⟩ := pure_eq_ok.mp is
                  obtain ⟨reads, within⟩ := copyEntries_reads ih entries
                  exact ⟨.list (read_eq_ok.mp isArray) (read_eq_ok.mp hasOwn)
                    (read_eq_ok.mp length) reads, .list within⟩
      | _ => exact absurd is nofun

/-- A check that a run passed. -/
theorem refuseIf_eq_ok {c : Prop} [Decidable c] {e : Failure Thrown} {w w' : World} {u : Unit} :
    (refuseIf c e : Reading World Thrown Unit) w = .ok (u, w') ↔ ¬ c ∧ w = w' := by
  unfold refuseIf
  split
  next is => exact iff_of_false nofun fun h => h.1 is
  next other =>
    rw [pure_eq_ok]
    exact ⟨fun h => ⟨other, h.2⟩, fun h => ⟨rfl, h.2⟩⟩

theorem copyRule_reads {v : Value Obj} {w w' : World} {rule : Rule}
    (is : copyRule realm v w = .ok (rule, w')) (filled : rule.isEmpty = false) :
    ReadRule realm v w rule w' ∧ ∀ f, rule = .filter f → f.Within 2 := by
  unfold copyRule at is
  cases v with
  | null =>
      obtain ⟨rfl, rfl⟩ := pure_eq_ok.mp is
      exact ⟨.null, nofun⟩
  | object o =>
      obtain ⟨_, w₀, passed, is⟩ := bind_eq_ok.mp is
      obtain ⟨-, rfl⟩ := refuseIf_eq_ok.mp passed
      obtain ⟨array, w₁, isArray, is⟩ := bind_eq_ok.mp is
      obtain ⟨_, v₁, passed, is⟩ := bind_eq_ok.mp is
      obtain ⟨notArray, rfl⟩ := refuseIf_eq_ok.mp passed
      obtain ⟨proto, w₂, prototype, is⟩ := bind_eq_ok.mp is
      obtain ⟨_, v₂, passed, is⟩ := bind_eq_ok.mp is
      obtain ⟨plain, rfl⟩ := refuseIf_eq_ok.mp passed
      obtain ⟨own, w₃, descriptors, is⟩ := bind_eq_ok.mp is
      obtain ⟨_, v₃, passed, is⟩ := bind_eq_ok.mp is
      obtain ⟨-, rfl⟩ := refuseIf_eq_ok.mp passed
      obtain ⟨_, v₄, passed, is⟩ := bind_eq_ok.mp is
      obtain ⟨only, rfl⟩ := refuseIf_eq_ok.mp passed
      have keys : ∀ property ∈ own, property.1 = filterKey := by
        simpa only [ne_eq, not_exists, not_and, not_not] using only
      cases held : descriptorOf own filterKey with
      | none =>
          rw [held] at is
          obtain ⟨rfl, rfl⟩ := pure_eq_ok.mp is
          exact absurd filled nofun
      | some descriptor =>
          rw [held] at is
          -- a value left out makes a rule that is empty; a getter or a hidden value is refused
          cases descriptor with
          | accessor => exact absurd is nofun
          | data value enumerable =>
              have own' : ∃ f w₄, enumerable = true ∧ copyFilter realm 2 value w₃ = .ok (f, w₄) ∧
                  (pure (.filter f) : Reading World Thrown Rule) w₄ = .ok (rule, w') := by
                cases enumerable with
                | false => exact absurd is nofun
                | true =>
                    cases value with
                    | undefined | null =>
                        obtain ⟨rfl, rfl⟩ := pure_eq_ok.mp is
                        exact absurd filled nofun
                    | _ =>
                        obtain ⟨f, w₄, copied, is⟩ := bind_eq_ok.mp is
                        exact ⟨f, w₄, rfl, copied, is⟩
              obtain ⟨f, w₄, rfl, copied, is⟩ := own'
              obtain ⟨rfl, rfl⟩ := pure_eq_ok.mp is
              obtain ⟨reads, within⟩ := copyFilter_reads copied
              refine ⟨.filter ?_ (read_eq_ok.mp prototype) plain (read_eq_ok.mp descriptors) keys
                held reads, ?_⟩
              · rw [Bool.not_eq_true] at notArray
                exact notArray ▸ read_eq_ok.mp isArray
              · rintro g same
                cases same
                exact within
  | _ => exact absurd is nofun

theorem copyRuleOf_reads {call : Message} {own : List (Key × Descriptor Obj)} {uid : Utf16}
    {w w' : World} {rule : Rule} (is : copyRuleOf realm call own uid w = .ok (rule, w'))
    (filled : rule.isEmpty = false) :
    ∃ v, descriptorOf own (.string uid) = some (.data v true) ∧ ReadRule realm v w rule w' ∧
      ∀ f, rule = .filter f → f.Within 2 := by
  unfold copyRuleOf at is
  dsimp only at is
  split at is
  · exact absurd is nofun
  next other =>
    cases held : descriptorOf own (.string uid) with
    | none =>
        rw [held] at is
        exact absurd is nofun
    | some descriptor =>
        rw [held] at is
        cases descriptor with
        | accessor => exact absurd is nofun
        | data v enumerable =>
            cases enumerable with
            | false => exact absurd is nofun
            | true => exact ⟨v, rfl, copyRule_reads is filled⟩

theorem copyEach_reads {call : Message} {own : List (Key × Descriptor Obj)} {uids : List Utf16}
    {w w' : World} {rules : List (Utf16 × Rule)}
    (is : copyEach realm call own uids w = .ok (rules, w'))
    (filled : ∀ rule ∈ rules, rule.2.isEmpty = false) :
    rules.map Prod.fst = uids ∧ ReadRules realm own w rules w' ∧
      ∀ uid f, (uid, .filter f) ∈ rules → f.Within 2 := by
  induction uids generalizing w rules with
  | nil =>
      obtain ⟨rfl, rfl⟩ := pure_eq_ok.mp is
      exact ⟨rfl, .done, fun uid f mem => absurd mem List.not_mem_nil⟩
  | cons uid uids ih =>
      unfold copyEach at is
      obtain ⟨rule, w₁, first, is⟩ := bind_eq_ok.mp is
      obtain ⟨rest, w₂, others, is⟩ := bind_eq_ok.mp is
      obtain ⟨rfl, rfl⟩ := pure_eq_ok.mp is
      obtain ⟨own, filledRest⟩ := List.forall_mem_cons.mp filled
      obtain ⟨v, held, reads, within⟩ := copyRuleOf_reads first own
      obtain ⟨keys, readsRest, withinRest⟩ := ih others filledRest
      refine ⟨congrArg (uid :: ·) keys, .next held reads readsRest, fun uid' f mem => ?_⟩
      rcases List.mem_cons.mp mem with same | mem
      · exact within f (Prod.mk.inj same).2.symm
      · exact withinRest uid' f mem

theorem copyRules_reads {given : Value Obj} {uids : List Utf16} {call : Message} {w w' : World}
    {rules : List (Utf16 × Rule)} (is : copyRules realm given uids call w = .ok (rules, w')) :
    rules.map Prod.fst = uids ∧ (∀ rule ∈ rules, rule.2.isEmpty = false) ∧
      (∀ uid f, (uid, .filter f) ∈ rules → f.Within 2) ∧
      ∃ proto own w₁ w₂, prototypeOf realm given w = .ok (proto, w₁) ∧ proto ≠ .other ∧
        descriptorsOf realm given w₁ = .ok (own, w₂) ∧ ReadRules realm own w₂ rules w' := by
  unfold copyRules at is
  obtain ⟨proto, w₁, prototype, is⟩ := bind_eq_ok.mp is
  obtain ⟨_, v₁, passed, is⟩ := bind_eq_ok.mp is
  obtain ⟨plain, rfl⟩ := refuseIf_eq_ok.mp passed
  obtain ⟨own, w₂, descriptors, is⟩ := bind_eq_ok.mp is
  obtain ⟨_, v₂, passed, is⟩ := bind_eq_ok.mp is
  obtain ⟨-, rfl⟩ := refuseIf_eq_ok.mp passed
  obtain ⟨_, v₃, passed, is⟩ := bind_eq_ok.mp is
  obtain ⟨-, rfl⟩ := refuseIf_eq_ok.mp passed
  obtain ⟨signed, w₃, copied, is⟩ := bind_eq_ok.mp is
  obtain ⟨_, v₄, passed, is⟩ := bind_eq_ok.mp is
  obtain ⟨noneEmpty, rfl⟩ := refuseIf_eq_ok.mp passed
  obtain ⟨rfl, rfl⟩ := pure_eq_ok.mp is
  have filled : ∀ rule ∈ signed, rule.2.isEmpty = false := by
    intro rule mem
    rw [not_not, List.map_eq_nil_iff, List.filter_eq_nil_iff] at noneEmpty
    exact Bool.eq_false_iff.mpr (noneEmpty rule mem)
  obtain ⟨keys, reads, within⟩ := copyEach_reads copied filled
  exact ⟨keys, filled, within, proto, own, w₁, w₂, prototype, plain, descriptors, reads⟩

/-! The uids. -/

theorem mem_distinct {uids : List Utf16} {s : Utf16} : s ∈ distinct uids ↔ s ∈ uids := by
  simp [distinct]

theorem distinct_nodup (uids : List Utf16) : (distinct uids).Nodup :=
  List.nodup_reverse.mpr (List.nodup_dedup _)

theorem uidOf_eq_some {v : Value Obj} {s : Utf16} :
    uidOf v = some s ↔ v = .string s ∧ isIndexUid s = true := by
  unfold uidOf
  cases v with
  | string t =>
      dsimp only
      split
      next valid =>
        rw [Option.some_inj]
        constructor
        · rintro rfl
          exact ⟨rfl, valid⟩
        · rintro ⟨same, -⟩
          cases same
          rfl
      next other =>
        refine iff_of_false nofun ?_
        rintro ⟨same, valid⟩
        cases same
        exact other valid
  | _ => exact iff_of_false nofun fun h => absurd h.1 nofun

theorem mem_uids {values : List (Value Obj)} {uids : List Utf16}
    (is : values.mapM uidOf = some uids) {s : Utf16} :
    s ∈ uids ↔ .string s ∈ values := by
  induction values generalizing uids with
  | nil =>
      cases is
      exact iff_of_false List.not_mem_nil List.not_mem_nil
  | cons v values ih =>
      rw [List.mapM_cons] at is
      obtain ⟨t, first, is⟩ := Option.bind_eq_some_iff.mp is
      obtain ⟨rest, others, is⟩ := Option.bind_eq_some_iff.mp is
      cases is
      obtain ⟨rfl, -⟩ := uidOf_eq_some.mp first
      rw [List.mem_cons, List.mem_cons, ih others]
      refine or_congr_left ⟨fun same => congrArg _ same, fun same => ?_⟩
      cases same
      rfl

theorem plain_of_mem {values : List (Value Obj)} {uids : List Utf16}
    (is : values.mapM uidOf = some uids) {s : Utf16} (mem : s ∈ uids) : isIndexUid s = true := by
  induction values generalizing uids with
  | nil =>
      cases is
      exact absurd mem List.not_mem_nil
  | cons v values ih =>
      rw [List.mapM_cons] at is
      obtain ⟨t, first, is⟩ := Option.bind_eq_some_iff.mp is
      obtain ⟨rest, others, is⟩ := Option.bind_eq_some_iff.mp is
      cases is
      rcases List.mem_cons.mp mem with rfl | mem
      · exact (uidOf_eq_some.mp first).2
      · exact ih others mem

/-! The time. -/

/-- The time that is given, in milliseconds. -/
def timeGiven (realm : Realm Obj World Thrown) (w : World) : Value Obj → Option Int
  | .number n => n.integer.map fun seconds => 1000 * seconds
  | .object o => (realm.timeOf o w).join
  | _ => none

/-- A `Date` past the clock, whose whole second is not. -/
def SameSecond (realm : Realm Obj World Thrown) (expiresAt : Value Obj) (now : Int) (w : World) :
    Prop :=
  ∃ o time, expiresAt = .object o ∧ realm.timeOf o w = some (some time) ∧ now < time ∧
    1000 * (time / 1000) ≤ now

theorem secondsOf_spec {expiresAt : Value Obj} {now seconds : Int} {w : World}
    (is : secondsOf realm expiresAt now w = .ok seconds) :
    seconds ≤ maxSeconds ∧ (∃ time, timeGiven realm w expiresAt = some time ∧
      1000 * seconds ≤ time) ∧ (now < 1000 * seconds ↔ ¬ SameSecond realm expiresAt now w) := by
  unfold secondsOf at is
  cases expiresAt with
  | number n =>
      dsimp only at is
      split at is
      next x =>
        cases whole : (Num.finite x).integer with
        | none =>
            rw [whole] at is
            exact absurd is nofun
        | some k =>
            rw [whole] at is
            dsimp only at is
            split at is
            · exact absurd is nofun
            split at is
            · exact absurd is nofun
            cases is
            refine ⟨by omega, ⟨1000 * seconds, ?_, le_rfl⟩, iff_of_true (by omega) ?_⟩
            · exact congrArg (Option.map _) whole
            · rintro ⟨o, time, same, -⟩
              cases same
      · exact absurd is nofun
  | object o =>
      dsimp only at is
      cases slot : realm.timeOf o w with
      | none =>
          rw [slot] at is
          exact absurd is nofun
      | some value =>
          rw [slot] at is
          cases value with
          | none => exact absurd is nofun
          | some time =>
              dsimp only at is
              split at is
              · exact absurd is nofun
              next notPast =>
                split at is
                · exact absurd is nofun
                cases is
                refine ⟨by omega, ⟨time, congrArg Option.join slot, by omega⟩, ?_⟩
                constructor
                · rintro later ⟨p, t, same, slot', -, le⟩
                  cases same
                  rw [slot] at slot'
                  cases slot'
                  omega
                · intro other
                  by_contra early
                  exact other ⟨o, time, rfl, slot, by omega, by omega⟩
  | _ => exact absurd is nofun

/-! The token. -/

/-- What a signed token may be. -/
structure Closed (realm : Realm Obj World Thrown) (indexUids : List (Value Obj))
    (searchRules expiresAt : Value Obj) (now : Int) (w : World) (signed : Signed) (w' : World) :
    Prop where
  distinct : (signed.rules.map Prod.fst).Nodup
  own : ∀ s, s ∈ signed.rules.map Prod.fst ↔ .string s ∈ indexUids
  plain : ∀ s ∈ signed.rules.map Prod.fst, isIndexUid s = true
  held : ∃ proto own w₁ w₂, prototypeOf realm searchRules w = .ok (proto, w₁) ∧ proto ≠ .other ∧
    descriptorsOf realm searchRules w₁ = .ok (own, w₂) ∧
    ReadRules realm own w₂ signed.rules w' ∧
    ∀ uid, (uid, .null) ∈ signed.rules → descriptorOf own (.string uid) = some (.data .null true)
  filters : ∀ uid f, (uid, .filter f) ∈ signed.rules → f.Within 2 ∧ f.Filters
  notBare : ∀ uid, (uid, .bare) ∉ signed.rules
  bound : signed.exp ≤ maxSeconds
  notAfter : ∃ time, timeGiven realm w expiresAt = some time ∧ 1000 * signed.exp ≤ time
  later : now < 1000 * signed.exp

theorem ReadRules.null {own : List (Key × Descriptor Obj)} {w w' : World}
    {rules : List (Utf16 × Rule)} (reads : ReadRules realm own w rules w') {uid : Utf16}
    (mem : (uid, .null) ∈ rules) : descriptorOf own (.string uid) = some (.data .null true) := by
  induction reads with
  | done => exact absurd mem List.not_mem_nil
  | next held first _ ih =>
      rcases List.mem_cons.mp mem with same | mem
      · cases same
        cases first
        exact held
      · exact ih mem

/-- What `tenantToken` signs fails closed, unless its time is a `Date` within the running second:
that one is signed as a time that has passed. -/
theorem tenantToken_closed {indexUids : List (Value Obj)} {searchRules expiresAt : Value Obj}
    {now : Int} {w w' : World} {signed : Signed}
    (signs : tenantToken realm indexUids searchRules expiresAt now w = .ok (signed, w')) :
    Closed realm indexUids searchRules expiresAt now w signed w' ↔
      ¬ SameSecond realm expiresAt now w := by
  unfold tenantToken at signs
  cases uids : indexUids.mapM uidOf with
  | none =>
    rw [uids] at signs
    exact absurd signs nofun
  | some all =>
    rw [uids] at signs
    obtain ⟨seconds, w₁, expiry, signs⟩ := bind_eq_ok.mp signs
    obtain ⟨rules, w₂, copied, signs⟩ := bind_eq_ok.mp signs
    obtain ⟨rfl, rfl⟩ := pure_eq_ok.mp signs
    unfold expirySeconds at expiry
    split at expiry
    next read =>
      cases expiry
      obtain ⟨bound, notAfter, later⟩ := secondsOf_spec read
      refine ⟨fun closed => later.mp closed.later, fun other => ?_⟩
      obtain ⟨keys, filled, within, proto, own, v₁, v₂, prototype, plain, descriptors, reads⟩ :=
        copyRules_reads copied
      exact {
        distinct := keys ▸ distinct_nodup all
        own := fun s => keys ▸ mem_distinct.trans (mem_uids uids)
        plain := fun s mem => plain_of_mem uids (mem_distinct.mp (keys ▸ mem))
        held := ⟨proto, own, v₁, v₂, prototype, plain, descriptors, reads, fun _ => reads.null⟩
        filters := fun uid f mem => ⟨within uid f mem, (within uid f mem).filters (filled _ mem)⟩
        notBare := fun uid mem => absurd (filled _ mem) nofun
        bound, notAfter
        later := later.mpr other }
    · exact absurd expiry nofun

/-- The objects `0`, of the rules, `1`, of the rule of `movies`, and `2`, a `Date`. -/
def moviesRealm : Realm Nat Unit Empty where
  callable := fun _ => false
  isArray := fun _ => pure false
  getPrototypeOf := fun _ => pure .plain
  getOwnPropertyDescriptors := fun
    | 0 => pure [(.string (Utf16.ofText "movies"), .data (.object 1) true)]
    | 1 => pure [(filterKey, .data (.string (Utf16.ofText "genre = 1")) true)]
    | _ => pure []
  hasOwn := fun _ _ => pure false
  length := fun _ => pure 0
  get := fun _ _ => pure .undefined
  timeOf := fun o _ => if o = 2 then some (some 1700000000900) else none

/-- The token of `movies` until a time. -/
def moviesToken (exp : Int) : Signed :=
  ⟨[(Utf16.ofText "movies", .filter (.text (Utf16.ofText "genre = 1")))], exp⟩

theorem tenantToken_closed_movies : Closed moviesRealm [.string (Utf16.ofText "movies")] (.object 0)
    (.number (.ofNat 1700003600)) 1700000000500 () (moviesToken 1700003600) () := by
  refine (tenantToken_closed rfl).mpr ?_
  rintro ⟨o, time, same, -⟩
  cases same

/-- A `Date` 400 ms ahead is signed as a time half a second ago. -/
theorem sameSecond_signed : tenantToken moviesRealm [.string (Utf16.ofText "movies")] (.object 0)
      (.object 2) 1700000000500 () = .ok (moviesToken 1700000000, ()) ∧
    ¬ Closed moviesRealm [.string (Utf16.ofText "movies")] (.object 0) (.object 2)
      1700000000500 () (moviesToken 1700000000) () := by
  refine ⟨rfl, fun closed => ?_⟩
  have later := closed.later
  exact absurd later (by decide)

end NxgtData.Token
