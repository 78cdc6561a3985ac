import NxgtData.Backup.Periods

/-!
Which rules keep a backup: the newest few, the newest of each of the last periods, those within
an age, those held and those newer than now. Listed newest first, the backups of one period come
together, so comparing with the period before is enough to count each once.
-/
namespace NxgtData.Retention
open Schedule

/-- A backup, as the rules see it. -/
structure Candidate where
  id : String
  createdAt : Int
  storedSize : Nat
  parent : Option String
  held : Bool
  standIn : Bool

structure KeepPolicy where
  last : Option Nat
  hourly : Option Nat
  daily : Option Nat
  weekly : Option Nat
  monthly : Option Nat
  yearly : Option Nat
  within : Option Nat
  maxTotalSize : Option Nat

def KeepPolicy.count (policy : KeepPolicy) : Rule → Nat
  | .hourly => policy.hourly.getD 0
  | .daily => policy.daily.getD 0
  | .weekly => policy.weekly.getD 0
  | .monthly => policy.monthly.getD 0
  | .yearly => policy.yearly.getD 0

def Rule.name : Rule → String
  | .hourly => "hourly"
  | .daily => "daily"
  | .weekly => "weekly"
  | .monthly => "monthly"
  | .yearly => "yearly"

/-- The candidates that take a place, in the order of `newest`. -/
def pastOf (newest : List Candidate) (now : Int) : List Candidate :=
  newest.filter fun c => !c.standIn && c.createdAt ≤ now

/-- The loop over `past` of a calendar rule: what it counts, with the period. -/
def counted (rule : Rule) : Nat → Option String → List Candidate → List (Candidate × String)
  | _, _, [] => []
  | 0, _, _ :: _ => []
  | left + 1, previous, c :: past =>
      let period := periodOf rule c.createdAt
      if some period = previous then counted rule (left + 1) previous past
      else (c, period) :: counted rule left (some period) past

/-- The calls of `add` for `last`, and for the newest under `maxTotalSize` alone. -/
def byLast (policy : KeepPolicy) (past : List Candidate) : List (String × String) :=
  let count := policy.last.getD 0
  let last := (past.take count).mapIdx fun i c => (c.id, s!"last {i + 1} of {count}")
  let floor :=
    if policy.maxTotalSize.isSome ∧ policy.last.isNone then
      (past.take 1).map fun c => (c.id, "the newest, under maxTotalSize")
    else []
  last ++ floor

def byCalendar (policy : KeepPolicy) (past : List Candidate) : List (String × String) :=
  calendar.flatMap fun rule =>
    (counted rule (policy.count rule) none past).map fun found =>
      (found.1.id, s!"{rule.name} {found.2}")

def byAge (policy : KeepPolicy) (now : Int) (c : Candidate) : List (String × String) :=
  let age := now - c.createdAt
  (if policy.within.any (fun within => 0 ≤ age ∧ age ≤ within) then [(c.id, "within")] else []) ++
    (if age < 0 then [(c.id, "newer than now")] else []) ++
    (if c.held then [(c.id, "held")] else [])

/-- `byRules`: the reasons of each id, in the order in which they are added. -/
def byRules (newest : List Candidate) (policy : KeepPolicy) (now : Int) :
    List (String × List String) :=
  let past := pastOf newest now
  let added := byLast policy past ++ byCalendar policy past ++ newest.flatMap (byAge policy now)
  newest.map fun c => (c.id, (added.filter fun add => add.1 = c.id).map Prod.snd)

/-- As `plan` sorts them. -/
def NewestFirst (newest : List Candidate) : Prop :=
  newest.Pairwise fun a b => b.createdAt ≤ a.createdAt

theorem NewestFirst.past {newest : List Candidate} (h : NewestFirst newest) (now : Int) :
    NewestFirst (pastOf newest now) :=
  h.sublist (List.filter_sublist)

/-- What comes between two instants of a period is of it. -/
theorem periodOf_between (rule : Rule) {a b c : Int} (ha : rule.Reads a) (hb : rule.Reads b)
    (hc : rule.Reads c) (le : b ≤ a) (le' : c ≤ b) (same : periodOf rule a = periodOf rule c) :
    periodOf rule b = periodOf rule a := by
  have numbers := (periodOf_iff rule ha hc).mp same
  have low := rule.number_mono le
  have high := rule.number_mono le'
  rw [periodOf_iff rule hb ha]
  omega

/-- After a period the loop counts earlier ones only, each before the next. -/
theorem counted_descends (rule : Rule) {past : List Candidate} (sorted : NewestFirst past)
    (years : ∀ c ∈ past, rule.Reads c.createdAt) (left : Nat) {t : Int} (year : rule.Reads t)
    (before : ∀ c ∈ past, c.createdAt ≤ t) :
    (counted rule left (some (periodOf rule t)) past).Pairwise
        (fun a b => rule.number b.1.createdAt < rule.number a.1.createdAt) ∧
      ∀ found ∈ counted rule left (some (periodOf rule t)) past, rule.Reads found.1.createdAt ∧
        found.2 = periodOf rule found.1.createdAt ∧
          rule.number found.1.createdAt < rule.number t := by
  induction past generalizing left t with
  | nil =>
      rw [counted]
      exact ⟨List.Pairwise.nil, fun found mem => absurd mem List.not_mem_nil⟩
  | cons c past ih =>
      cases left with
      | zero =>
          rw [counted]
          exact ⟨List.Pairwise.nil, fun found mem => absurd mem List.not_mem_nil⟩
      | succ left =>
          obtain ⟨older, rest⟩ := List.pairwise_cons.mp sorted
          have own := years c List.mem_cons_self
          have later := before c List.mem_cons_self
          have years' := fun d mem => years d (List.mem_cons_of_mem c mem)
          rw [counted]
          split
          next =>
            exact ih rest years' (left + 1) year fun d mem => before d (List.mem_cons_of_mem c mem)
          next other =>
            obtain ⟨descends, found⟩ := ih rest years' left own older
            have lower : rule.number c.createdAt < rule.number t := by
              have le := rule.number_mono later
              have ne := mt (periodOf_iff rule own year).mpr fun same => other (congrArg some same)
              omega
            refine ⟨List.pairwise_cons.mpr ⟨fun d mem => (found d mem).2.2, descends⟩, ?_⟩
            intro d mem
            rcases List.mem_cons.mp mem with first | later
            · rw [first]
              exact ⟨own, rfl, lower⟩
            · obtain ⟨year', text, less⟩ := found d later
              exact ⟨year', text, less.trans lower⟩

/-- No period is counted twice. -/
theorem counted_nodup (rule : Rule) {past : List Candidate} (sorted : NewestFirst past)
    (years : ∀ c ∈ past, rule.Reads c.createdAt) (left : Nat) :
    ((counted rule left none past).map Prod.snd).Nodup := by
  cases past with
  | nil =>
      rw [counted]
      exact List.nodup_nil
  | cons c past =>
      cases left with
      | zero =>
          rw [counted]
          exact List.nodup_nil
      | succ left =>
          obtain ⟨older, rest⟩ := List.pairwise_cons.mp sorted
          have own := years c List.mem_cons_self
          obtain ⟨descends, found⟩ := counted_descends rule rest
            (fun d mem => years d (List.mem_cons_of_mem c mem)) left own older
          rw [counted, if_neg (by simp), List.map_cons, List.nodup_cons]
          constructor
          · intro mem
            obtain ⟨d, counts, same⟩ := List.mem_map.mp mem
            obtain ⟨year, text, less⟩ := found d counts
            rw [text, periodOf_iff rule year own] at same
            omega
          · rw [List.Nodup, List.pairwise_map]
            refine descends.imp_of_mem fun {a b} ha hb less same => ?_
            obtain ⟨year, text, -⟩ := found a ha
            obtain ⟨year', text', -⟩ := found b hb
            rw [text, text', periodOf_iff rule year year'] at same
            omega

/-- In years of four digits the weekly text is that of the week, by its number in ISO 8601, and
two instants share it exactly when they share the week; and of instants listed newest first, those
of one period come together, so that no calendar rule counts a period twice. -/
theorem periods_calendar :
    (∀ t t', FourDigit t → FourDigit t' → (periodOf .weekly t = periodOf .weekly t' ↔
      mondayOf (t / dayMs) = mondayOf (t' / dayMs))) ∧
    (∀ t, FourDigit t → ∃ y w : Nat, 1000 ≤ y ∧ y ≤ 9999 ∧ IsoWeek (t / dayMs) y w ∧
      periodOf .weekly t = s!"{y}-W{pad w}") ∧
    ∀ (rule : Rule) (past : List Candidate), NewestFirst past →
      (∀ c ∈ past, FourDigit c.createdAt) →
      (∀ a b c, [a, b, c].Sublist past →
        periodOf rule a.createdAt = periodOf rule c.createdAt →
          periodOf rule b.createdAt = periodOf rule a.createdAt) ∧
      ∀ left, ((counted rule left none past).map Prod.snd).Nodup := by
  refine ⟨fun t t' h h' => weekly_iff h.weekly h'.weekly, fun t h => ?_,
    fun rule past sorted fourDigit => ?_⟩
  · obtain ⟨w, week, text⟩ := isoWeek_iso h.weekly
    obtain ⟨low, high⟩ := h.weekYear
    obtain ⟨y, is⟩ := Int.eq_ofNat_of_zero_le (show 0 ≤ weekYear t by omega)
    rw [is] at week text
    exact ⟨y, w, by omega, by omega, week, text⟩
  have years (c : Candidate) (mem : c ∈ past) := (fourDigit c mem).reads rule
  constructor
  · intro a b c part same
    have order := sorted.sublist part
    simp only [List.pairwise_cons, List.mem_cons, List.not_mem_nil, or_false] at order
    have year {d : Candidate} (mem : d ∈ [a, b, c]) := years d (part.subset mem)
    exact periodOf_between rule (year (by simp)) (year (by simp)) (year (by simp))
      (order.1 b (.inl rfl)) (order.2.1 c rfl) same
  · exact counted_nodup rule sorted years

end NxgtData.Retention
