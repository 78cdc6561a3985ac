import NxgtData.Lib.FixedWidth
import NxgtData.Lib.IsoDate

/-!
A backup's id: its start to the millisecond, then eight random hex digits. Ids sort as their
times do, and an id says its time.
-/
namespace NxgtData.Backup
open CodeUnits Decimal FixedWidth IsoDate

/-- When a run started, and the four random bytes of its id. -/
structure Moment where
  time : Int
  random : Fin (256 ^ 4)

def newBackupId (at_ : Moment) : String :=
  String.ofList ((toISOString at_.time).toList.filter fun c => c ∉ ['-', ':', '.']) ++ "-" ++
    String.ofList (fixed 16 8 at_.random)

def isHexDigit (c : Char) : Bool := c.isDigit || 'a' ≤ c && c ≤ 'f'

/-- `/^\d{8}T\d{9}Z-[0-9a-f]{8}$/` -/
def isBackupId (id : String) : Bool :=
  let cs := id.toList
  cs.length = 28 && (cs.take 8).all Char.isDigit && cs[8]? = some 'T' &&
    ((cs.drop 9).take 9).all Char.isDigit && cs[18]? = some 'Z' && cs[19]? = some '-' &&
    (cs.drop 20).all isHexDigit

/-- What an id says, read by its places. -/
def partsOfId (id : String) : Parts :=
  let number (i n : Nat) := Nat.ofDigitChars 10 ((id.toList.drop i).take n) 0
  ⟨number 0 4, number 4 2, number 6 2, number 9 2, number 11 2, number 13 2, number 15 3⟩

/-- The time in an id; none where there is no such date. A day that the month does not have is
none, or one of the next month where `Date` rolls over. -/
def timeOfId (rolls : Bool) (id : String) : Option Int :=
  let parts := partsOfId id
  if parts.Valid (if rolls then 31 else parts.days) then some parts.time else none

/-- How many texts of an id's length come before it. -/
def rank (id : String) : Nat := number 0x10000 0 (codeUnits id)

/-- A time that `Date` writes with a year of four digits. -/
structure Stamped (t : Int) : Prop where
  low : -last ≤ t
  high : t ≤ last
  since : 0 ≤ (partsOf t).year
  until_ : (partsOf t).year ≤ 9999

/-- What an id begins with. -/
def stamp (p : Parts) : List Char :=
  fixed 10 4 p.year.toNat ++ (fixed 10 2 p.month ++ (fixed 10 2 p.day ++ ('T' ::
    (fixed 10 2 p.hour ++ (fixed 10 2 p.minute ++ (fixed 10 2 p.second ++
      (fixed 10 3 p.milli ++ ['Z'])))))))

theorem filter_fixed (width n : Nat) :
    (fixed 10 width n).filter (fun c => decide (c ∉ ['-', ':', '.'])) = fixed 10 width n := by
  refine List.filter_eq_self.mpr fun c mem => ?_
  have digit := isDigit_fixed mem
  refine decide_eq_true fun mark => ?_
  simp only [List.mem_cons, List.not_mem_nil, or_false] at mark
  rcases mark with rfl | rfl | rfl <;> cases digit

theorem toList_newBackupId {at_ : Moment} (h : Stamped at_.time) :
    (newBackupId at_).toList = stamp (partsOf at_.time) ++ '-' :: fixed 16 8 at_.random := by
  have year : yearText (partsOf at_.time).year = padStart 4 (partsOf at_.time).year.toNat :=
    if_pos ⟨h.since, h.until_⟩
  unfold newBackupId toISOString Parts.text stamp
  rw [year]
  have dash : "-".toList.filter (fun c => decide (c ∉ ['-', ':', '.'])) = [] := by decide
  have colon : ":".toList.filter (fun c => decide (c ∉ ['-', ':', '.'])) = [] := by decide
  have point : ".".toList.filter (fun c => decide (c ∉ ['-', ':', '.'])) = [] := by decide
  have time : "T".toList.filter (fun c => decide (c ∉ ['-', ':', '.'])) = ['T'] := by decide
  have zone : "Z".toList.filter (fun c => decide (c ∉ ['-', ':', '.'])) = ['Z'] := by decide
  have hyphen : "-".toList = ['-'] := by decide
  simp only [String.toList_append, String.toList_ofList, toList_padStart, List.filter_append,
    filter_fixed, List.append_assoc, dash, colon, point, time, zone, List.nil_append,
    List.cons_append]
  rw [hyphen, List.cons_append, List.nil_append]

theorem Stamped.year {t : Int} (h : Stamped t) : (partsOf t).year.toNat < 10 ^ 4 := by
  have until_ := h.until_
  omega

/-- Where the parts of an id are. -/
structure Laid (cs : List Char) (p : Parts) (hex : List Char) : Prop where
  length : cs.length = 28
  dated : cs.take 8 =
    fixed 10 4 p.year.toNat ++ (fixed 10 2 p.month ++ fixed 10 2 p.day)
  timed : (cs.drop 9).take 9 = fixed 10 2 p.hour ++ (fixed 10 2 p.minute ++
    (fixed 10 2 p.second ++ fixed 10 3 p.milli))
  year : (cs.drop 0).take 4 = fixed 10 4 p.year.toNat
  month : (cs.drop 4).take 2 = fixed 10 2 p.month
  day : (cs.drop 6).take 2 = fixed 10 2 p.day
  mark : cs[8]? = some 'T'
  hour : (cs.drop 9).take 2 = fixed 10 2 p.hour
  minute : (cs.drop 11).take 2 = fixed 10 2 p.minute
  second : (cs.drop 13).take 2 = fixed 10 2 p.second
  milli : (cs.drop 15).take 3 = fixed 10 3 p.milli
  zone : cs[18]? = some 'Z'
  dash : cs[19]? = some '-'
  hex : cs.drop 20 = hex

theorem laid_stamp {p : Parts} (four : p.year.toNat < 10 ^ 4) (h : p.Fits) {hex : List Char}
    (eight : hex.length = 8) :
    Laid (stamp p ++ '-' :: hex) p hex := by
  have ten : 1 < 10 := by decide
  have year := length_fixed ten (by decide) four
  have month := length_fixed ten (by decide) h.month
  have day := length_fixed ten (by decide) h.day
  have hour := length_fixed ten (by decide) h.hour
  have minute := length_fixed ten (by decide) h.minute
  have second := length_fixed ten (by decide) h.second
  have milli := length_fixed ten (by decide) h.milli
  have at0 : (stamp p ++ '-' :: hex).drop 0 = fixed 10 4 p.year.toNat ++ (fixed 10 2 p.month ++
      (fixed 10 2 p.day ++ (['T'] ++ (fixed 10 2 p.hour ++ (fixed 10 2 p.minute ++
        (fixed 10 2 p.second ++ (fixed 10 3 p.milli ++ (['Z'] ++ (['-'] ++ hex))))))))) := by
    simp [stamp]
  have at4 := drop_part at0 year 4 rfl
  have at6 := drop_part at4 month 6 rfl
  have at8 := drop_part at6 day 8 rfl
  have at9 := drop_part at8 rfl 9 rfl
  have at11 := drop_part at9 hour 11 rfl
  have at13 := drop_part at11 minute 13 rfl
  have at15 := drop_part at13 second 15 rfl
  have at18 := drop_part at15 milli 18 rfl
  have at19 := drop_part at18 rfl 19 rfl
  have dated : (stamp p ++ '-' :: hex).drop 0 = (fixed 10 4 p.year.toNat ++
      (fixed 10 2 p.month ++ fixed 10 2 p.day)) ++ (stamp p ++ '-' :: hex).drop 8 := by
    rw [at8, at0]
    simp only [List.append_assoc]
  have timed : (stamp p ++ '-' :: hex).drop 9 = (fixed 10 2 p.hour ++ (fixed 10 2 p.minute ++
      (fixed 10 2 p.second ++ fixed 10 3 p.milli))) ++ (stamp p ++ '-' :: hex).drop 18 := by
    rw [at18, at9]
    simp only [List.append_assoc]
  refine ⟨?_, take_part dated (by simp [year, month, day]),
    take_part timed (by simp [hour, minute, second, milli]), take_part at0 year,
    take_part at4 month, take_part at6 day, getElem_part at8, take_part at9 hour,
    take_part at11 minute, take_part at13 second, take_part at15 milli, getElem_part at18,
    getElem_part at19, drop_part at19 rfl 20 rfl⟩
  simp [stamp, year, month, day, hour, minute, second, milli, eight]

theorem laid_newBackupId {at_ : Moment} (h : Stamped at_.time) :
    Laid (newBackupId at_).toList (partsOf at_.time) (fixed 16 8 at_.random) := by
  rw [toList_newBackupId h]
  exact laid_stamp h.year (partsOf_fits _) (length_fixed (by decide) (by decide) at_.random.isLt)

theorem partsOfId_newBackupId {at_ : Moment} (h : Stamped at_.time) :
    partsOfId (newBackupId at_) = partsOf at_.time := by
  have laid := laid_newBackupId h
  have year : ((partsOf at_.time).year.toNat : Int) = (partsOf at_.time).year :=
    Int.toNat_of_nonneg h.since
  unfold partsOfId
  dsimp only
  rw [laid.year, laid.month, laid.day, laid.hour, laid.minute, laid.second, laid.milli]
  simp only [ofDigitChars_fixed]
  rw [year]

/-- An id says its time. -/
theorem timeOfId_newBackupId (rolls : Bool) {at_ : Moment} (h : Stamped at_.time) :
    timeOfId rolls (newBackupId at_) = some at_.time := by
  have long : (partsOf at_.time).days ≤ if rolls then 31 else (partsOf at_.time).days := by
    split
    · exact (days_partsOf at_.time).2
    · exact le_refl _
  unfold timeOfId
  rw [partsOfId_newBackupId h]
  dsimp only
  rw [if_pos (partsOf_valid h.low h.high long), time_partsOf]

theorem isHexDigit_digitChar {n : Nat} (small : n < 16) : isHexDigit (Nat.digitChar n) := by
  have all : ∀ n < 16, isHexDigit (Nat.digitChar n) := by decide
  exact all n small

theorem isHexDigit_fixed {width n : Nat} (lt : n < 16 ^ (width + 1)) :
    ∀ c ∈ fixed 16 (width + 1) n, isHexDigit c := by
  induction width generalizing n with
  | zero =>
      intro c mem
      rw [fixed_one (by simpa using lt)] at mem
      rw [List.mem_singleton.mp mem]
      exact isHexDigit_digitChar (by simpa using lt)
  | succ width ih =>
      intro c mem
      rw [fixed_succ n (by decide) (Nat.succ_pos _)] at mem
      rcases List.mem_append.mp mem with front | last
      · exact ih (Nat.div_lt_of_lt_mul (by rwa [Nat.pow_succ'] at lt)) c front
      · rw [List.mem_singleton.mp last]
        exact isHexDigit_digitChar (Nat.mod_lt _ (by decide))

theorem isBackupId_newBackupId {at_ : Moment} (h : Stamped at_.time) :
    isBackupId (newBackupId at_) := by
  have laid := laid_newBackupId h
  have digits : ∀ {width n}, (fixed 10 width n).all Char.isDigit := by
    intro width n
    exact List.all_eq_true.mpr fun c mem => isDigit_fixed mem
  have hex : (fixed 16 8 at_.random.val).all isHexDigit :=
    List.all_eq_true.mpr (isHexDigit_fixed at_.random.isLt)
  unfold isBackupId
  dsimp only
  rw [laid.length, laid.mark, laid.zone, laid.dash, laid.hex, laid.dated, laid.timed, hex]
  simp [digits]

theorem isDigit_small {c : Char} (digit : c.isDigit) : c.toNat < 0x10000 := by
  have bounds : 48 ≤ c.toNat ∧ c.toNat ≤ 57 := by
    simpa [Char.isDigit, UInt32.le_iff_toNat_le] using digit
  omega

theorem isHexDigit_small {c : Char} (hex : isHexDigit c) : c.toNat < 0x10000 := by
  rcases Bool.or_eq_true_iff.mp hex with digit | letter
  · exact isDigit_small digit
  · have most : c ≤ 'f' := of_decide_eq_true (Bool.and_eq_true_iff.mp letter).2
    have bound : c.toNat ≤ 102 := most
    omega

theorem mem_part {cs : List Char} {c : Char} {i n k : Nat} (low : n ≤ i) (high : i < n + k)
    (here : cs[i]? = some c) : c ∈ (cs.drop n).take k := by
  have there : ((cs.drop n).take k)[i - n]? = some c := by
    rw [List.getElem?_take, if_pos (by omega), List.getElem?_drop, Nat.add_sub_cancel' low, here]
  exact List.mem_of_getElem? there

/-- What an id is made of. -/
theorem mem_id {id : String} (h : isBackupId id) :
    ∀ c ∈ id.toList, isHexDigit c ∨ c ∈ ['T', 'Z', '-'] := by
  intro c mem
  unfold isBackupId at h
  simp only [Bool.and_eq_true, decide_eq_true_eq, List.all_eq_true] at h
  obtain ⟨⟨⟨⟨⟨⟨length, date⟩, mark⟩, time⟩, zone⟩, dash⟩, hex⟩ := h
  obtain ⟨i, lt, rfl⟩ := List.mem_iff_getElem.mp mem
  have here : id.toList[i]? = some id.toList[i] := List.getElem?_eq_getElem lt
  generalize id.toList[i] = c at here
  have is_mark {m : Char} (j : Nat) (is : i = j) (at_ : id.toList[j]? = some m) : c = m := by
    rw [is, at_] at here
    exact (Option.some.inj here).symm
  have digit {c : Char} (is : c.isDigit = true) : isHexDigit c := Bool.or_eq_true_iff.mpr (.inl is)
  rcases Nat.lt_or_ge i 8 with first | ge
  · exact .inl (digit (date c (mem_part (n := 0) (Nat.zero_le _) (by omega) here)))
  rcases Nat.lt_or_ge i 9 with eighth | ge
  · rw [is_mark 8 (by omega) mark]
    decide
  rcases Nat.lt_or_ge i 18 with middle | ge
  · exact .inl (digit (time c (mem_part ge (by omega) here)))
  rcases Nat.lt_or_ge i 19 with next | ge
  · rw [is_mark 18 (by omega) zone]
    decide
  rcases Nat.lt_or_ge i 20 with next | ge
  · rw [is_mark 19 (by omega) dash]
    decide
  · have tail := mem_part (k := 8) ge (by omega) here
    exact .inl (hex c (List.mem_of_mem_take tail))

theorem small_id {id : String} (h : isBackupId id) : ∀ c ∈ id.toList, c.toNat < 0x10000 := by
  intro c mem
  rcases mem_id h c mem with hex | mark
  · exact isHexDigit_small hex
  · simp only [List.mem_cons, List.not_mem_nil, or_false] at mark
    rcases mark with rfl | rfl | rfl <;> decide

/-- The units of an id are its characters. -/
theorem codeUnits_id {id : String} (h : isBackupId id) :
    codeUnits id = id.toList.map Char.toNat := codeUnits_plane (small_id h)

theorem before_stamp {p q : Parts} (h : p.Before q) (four : q.year.toNat < 10 ^ 4) (fits : q.Fits)
    (since : 0 ≤ p.year)
    (a b : List Char) : FixedWidth.Before (stamp p ++ a) (stamp q ++ b) := by
  unfold stamp
  simp only [List.append_assoc, List.cons_append]
  have ten : 1 < 10 := by decide
  have few : 10 ≤ 16 := by decide
  rcases h with less | ⟨same, h⟩
  · exact fixed_before_append ten few (by decide) (by omega) four _ _
  rw [same]
  refine Before.after ?_ _
  rcases h with less | ⟨same, h⟩
  · exact fixed_before_append ten few (by decide) less fits.month _ _
  rw [same]
  refine Before.after ?_ _
  rcases h with less | ⟨same, h⟩
  · exact fixed_before_append ten few (by decide) less fits.day _ _
  rw [same]
  refine Before.after (Before.after (b := _ ++ _) ?_ ['T']) _
  rcases h with less | ⟨same, h⟩
  · exact fixed_before_append ten few (by decide) less fits.hour _ _
  rw [same]
  refine Before.after ?_ _
  rcases h with less | ⟨same, h⟩
  · exact fixed_before_append ten few (by decide) less fits.minute _ _
  rw [same]
  refine Before.after ?_ _
  rcases h with less | ⟨same, less⟩
  · exact fixed_before_append ten few (by decide) less fits.second _ _
  rw [same]
  exact Before.after (fixed_before_append ten few (by decide) less fits.milli _ _) _

theorem newBackupId_before {at_ at' : Moment} (h : Stamped at_.time) (h' : Stamped at'.time)
    (lt : at_.time < at'.time ∨ at_.time = at'.time ∧ at_.random.val < at'.random.val) :
    Before (newBackupId at_).toList (newBackupId at').toList := by
  rw [toList_newBackupId h, toList_newBackupId h']
  rcases lt with less | ⟨same, less⟩
  · exact before_stamp (partsOf_before less) h'.year (partsOf_fits _) h.since _ _
  · rw [same]
    refine Before.after (Before.after ?_ ['-']) _
    exact fixed_before (by decide) (by decide) (by decide) less at'.random.isLt

/-- Ids sort as their times do, and of one time by the random digits. -/
theorem newBackupId_atMost {at_ at' : Moment} (h : Stamped at_.time) (h' : Stamped at'.time) :
    AtMost (newBackupId at_) (newBackupId at') ↔
      at_.time < at'.time ∨ at_.time = at'.time ∧ at_.random.val ≤ at'.random.val := by
  unfold AtMost
  rw [codeUnits_id (isBackupId_newBackupId h), codeUnits_id (isBackupId_newBackupId h')]
  constructor
  · intro le
    by_contra not
    refine absurd (newBackupId_before h' h ?_) (not_lt.mpr le)
    rcases lt_trichotomy at_.time at'.time with less | same | more
    · exact absurd (.inl less) not
    · exact .inr ⟨same.symm, not_le.mp fun le => not (.inr ⟨same, le⟩)⟩
    · exact .inl more
  · rintro (less | ⟨same, le⟩)
    · exact (newBackupId_before h h' (.inl less)).le
    · rcases le.lt_or_eq with less | equal
      · exact (newBackupId_before h h' (.inr ⟨same, less⟩)).le
      · have moment : at_ = at' := by
          cases at_
          cases at'
          cases same
          cases Fin.ext equal
          rfl
        rw [moment]

/-- An older id has the lesser rank. -/
theorem rank_lt {id id' : String} (h : isBackupId id) (h' : isBackupId id') (less : Less id id') :
    rank id < rank id' := by
  have long {id : String} (h : isBackupId id) : (codeUnits id).length = 28 := by
    rw [codeUnits_id h, List.length_map]
    unfold isBackupId at h
    simp only [Bool.and_eq_true, decide_eq_true_eq] at h
    exact h.1.1.1.1.1.1
  refine number_lt ((long h).trans (long h').symm) ?_ less 0
  rw [codeUnits_id h]
  intro x mem
  obtain ⟨c, there, rfl⟩ := List.mem_map.mp mem
  exact small_id h c there

/-- An id is of the form, says its time, and sorts by it, and of one time by its random digits. -/
theorem newBackupId_exact {at_ at' : Moment} (h : Stamped at_.time) (h' : Stamped at'.time) :
    isBackupId (newBackupId at_) ∧
    (∀ rolls, timeOfId rolls (newBackupId at_) = some at_.time) ∧
    (AtMost (newBackupId at_) (newBackupId at') ↔
      at_.time < at'.time ∨ at_.time = at'.time ∧ at_.random ≤ at'.random) ∧
    (newBackupId at_ = newBackupId at' ↔ at_ = at') := by
  refine ⟨isBackupId_newBackupId h, fun rolls => timeOfId_newBackupId rolls h,
    newBackupId_atMost h h', ?_⟩
  refine ⟨fun same => ?_, fun same => same ▸ rfl⟩
  have atMost : AtMost (newBackupId at_) (newBackupId at') := by
    rw [same]
    exact le_refl (codeUnits _)
  have atLeast : AtMost (newBackupId at') (newBackupId at_) := by
    rw [same]
    exact le_refl (codeUnits _)
  have le := (newBackupId_atMost h h').mp atMost
  have ge := (newBackupId_atMost h' h).mp atLeast
  obtain ⟨time, random⟩ := at_
  obtain ⟨time', random'⟩ := at'
  dsimp only at le ge
  obtain rfl : time = time' := by omega
  obtain rfl : random = random' := Fin.ext (by omega)
  rfl

theorem newBackupId_exact_turn :
    let at_ : Moment := ⟨-1, 4294967295⟩
    let at' : Moment := ⟨0, 0⟩
    isBackupId (newBackupId at_) ∧ (∀ rolls, timeOfId rolls (newBackupId at_) = some (-1)) ∧
    (AtMost (newBackupId at_) (newBackupId at') ↔
      (-1 : Int) < 0 ∨ (-1 : Int) = 0 ∧ at_.random ≤ at'.random) ∧
    (newBackupId at_ = newBackupId at' ↔ at_ = at') :=
  newBackupId_exact ⟨by decide, by decide, by decide, by decide⟩
    ⟨by decide, by decide, by decide, by decide⟩

end NxgtData.Backup
