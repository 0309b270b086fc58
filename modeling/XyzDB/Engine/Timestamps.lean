import XyzDB.Engine.Keyspaces

/-!
# The order of timestamp literals

`parse_timestamp_micros` counts every month as thirty days and reads no seconds that have anything
behind them. Two moments are in the order of the calendar (`micros_lt`) unless they stand on one day
of this count, which a 31st and the first of the next month do, and the time of day that is read
does not tell them apart (`micros_collide`).
-/

namespace XyzDB.Engine

open Talk List

/-- A moment of the calendar. -/
structure Moment where
  year : ℕ
  month : ℕ
  day : ℕ
  hour : ℕ
  minute : ℕ
  second : ℕ
  valid : year ≤ 9999 ∧ 1 ≤ month ∧ month ≤ 12 ∧ 1 ≤ day ∧ day ≤ 31 ∧ hour ≤ 23 ∧ minute ≤ 59 ∧
    second ≤ 59

/-- Earlier moments have smaller lists. -/
def Moment.fields (a : Moment) : List ℕ := [a.year, a.month, a.day, a.hour, a.minute, a.second]

/-- Decimal digits of the number. -/
def Numeral (s : Text) (n : ℕ) : Prop := Digits s ∧ digitsValue s = n

instance (s : Text) (n : ℕ) : Decidable (Numeral s n) :=
  inferInstanceAs (Decidable ((s ≠ [] ∧ ∀ c ∈ s, Nom.isAsciiDigit c = true) ∧ digitsValue s = n))

/-- What may stand behind the seconds: a fraction, a `Z`. -/
inductive Tail : Text → Prop
  | nothing : Tail []
  | zone : Tail ['Z']
  | fraction {f : Text} (hf : Digits f) : Tail ('.' :: f)
  | both {f : Text} (hf : Digits f) : Tail ('.' :: (f ++ ['Z']))

/-- `YYYY-MM-DD`, for midnight, and `YYYY-MM-DDTHH:MM:SS` with the text behind the seconds. -/
inductive Moment.Written (a : Moment) : Text → Text → Prop
  | date {y m d : Text} (hy : Numeral y a.year) (hm : Numeral m a.month) (hd : Numeral d a.day)
      (hmidnight : a.hour = 0 ∧ a.minute = 0 ∧ a.second = 0) :
      Written a (y ++ '-' :: (m ++ '-' :: d)) []
  | time {y m d h i s e : Text} (hy : Numeral y a.year) (hm : Numeral m a.month)
      (hd : Numeral d a.day) (hh : Numeral h a.hour) (hi : Numeral i a.minute)
      (hs : Numeral s a.second) (he : Tail e) :
      Written a (y ++ '-' :: (m ++ '-' :: (d ++ 'T' :: (h ++ ':' :: (i ++ ':' :: (s ++ e)))))) e

/-- The time of day that is read, in seconds: those with a text behind them are not. -/
def Moment.clock (a : Moment) (e : Text) : ℕ :=
  a.hour * 3600 + a.minute * 60 + if e = [] then a.second else 0

/-- The same day of the calendar. -/
def Moment.SameDay (a b : Moment) : Prop := a.year = b.year ∧ a.month = b.month ∧ a.day = b.day

/-- A 31st and the first of the month after it. -/
def Moment.MonthEnd (a b : Moment) : Prop :=
  a.year = b.year ∧ b.month = a.month + 1 ∧ a.day = 31 ∧ b.day = 1

/-- The characters that `parse_timestamp_micros` splits at. -/
def isSeparator (c : Char) : Bool := c = '-' || c = 'T' || c = ':'

lemma not_separator_of_digits {p : Text} (hp : Digits p) : ∀ c ∈ p, isSeparator c = false := by
  intro c hc
  have hdigit := hp.2 c hc
  rw [Bool.eq_false_iff]
  simp only [isSeparator, ne_eq, Bool.or_eq_true, decide_eq_true_eq]
  rintro ((rfl | rfl) | rfl) <;> cases hdigit

lemma Tail.not_separator {e : Text} (he : Tail e) : ∀ c ∈ e, isSeparator c = false := by
  cases he with
  | nothing => exact forall_mem_nil _
  | zone => decide
  | fraction hf => exact forall_mem_cons.mpr ⟨rfl, not_separator_of_digits hf⟩
  | both hf =>
    exact forall_mem_cons.mpr ⟨rfl, forall_mem_append.mpr ⟨not_separator_of_digits hf, by decide⟩⟩

lemma splitTimestamp_append {p t q : Text} {qs : List Text}
    (hp : ∀ c ∈ p, isSeparator c = false) (ht : splitTimestamp t = q :: qs) :
    splitTimestamp (p ++ t) = (p ++ q) :: qs := by
  induction p with
  | nil => exact ht
  | cons c p ih =>
    obtain ⟨hc, hp⟩ := forall_mem_cons.mp hp
    rw [isSeparator] at hc
    rw [cons_append, splitTimestamp, if_neg (Bool.eq_false_iff.mp hc), ih hp]
    rfl

lemma splitTimestamp_sep {p : Text} (hp : Digits p) {c : Char} (t : Text)
    (hc : isSeparator c = true) :
    splitTimestamp (p ++ c :: t) = p :: splitTimestamp t := by
  have hcut : splitTimestamp (c :: t) = [] :: splitTimestamp t := by
    rw [isSeparator] at hc
    rw [splitTimestamp, if_pos hc]
  rw [splitTimestamp_append (not_separator_of_digits hp) hcut, append_nil]

/-- The last part is everything behind the last separator. -/
lemma splitTimestamp_last {p : Text} (hp : ∀ c ∈ p, isSeparator c = false) :
    splitTimestamp p = [p] := by
  simpa using splitTimestamp_append (t := []) hp rfl

lemma Numeral.parseSigned {s : Text} {n : ℕ} (h : Numeral s n) (hn : n ≤ 9999) :
    parseSigned s = some (n : ℤ) := by
  obtain ⟨hs, rfl⟩ := h
  exact (parseSigned_append (.inl rfl) hs).trans
    (parseI64_append (.inl rfl) hs rfl (by omega) (by omega))

/-- What stands behind the seconds is no part of a number. -/
lemma Tail.exists_not_digit {e : Text} (he : Tail e) (hne : e ≠ []) :
    ∃ c ∈ e, Nom.isAsciiDigit c = false := by
  cases he with
  | nothing => exact absurd rfl hne
  | zone => exact ⟨'Z', mem_cons_self, rfl⟩
  | fraction hf => exact ⟨'.', mem_cons_self, rfl⟩
  | both hf => exact ⟨'.', mem_cons_self, rfl⟩

/-- Seconds with a text behind them do not parse, and count as none. -/
lemma parseSigned_tail {s e : Text} {n : ℕ} (hs : Numeral s n) (hn : n ≤ 9999) (he : Tail e) :
    (parseSigned (s ++ e)).getD 0 = (if e = [] then n else 0 : ℕ) := by
  by_cases hne : e = []
  · rw [hne, append_nil, hs.parseSigned hn, if_pos rfl]
    rfl
  · obtain ⟨c, hc, hdigit⟩ := he.exists_not_digit hne
    obtain ⟨d, s, rfl⟩ := exists_cons_of_ne_nil hs.1.1
    have hd := hs.1.2 d mem_cons_self
    have hminus : d ≠ '-' := by rintro rfl; cases hd
    have hplus : d ≠ '+' := by rintro rfl; cases hd
    have hall : (d :: (s ++ e)).all Nom.isAsciiDigit = false :=
      all_eq_false.mpr ⟨c, mem_cons_of_mem _ (mem_append_right _ hc), by simp [hdigit]⟩
    rw [if_neg hne, cons_append, parseSigned]
    simp only [head?_cons, Option.some.injEq, hminus, hplus, decide_false, Bool.or_false,
      Bool.false_eq_true, if_false, hall, Bool.not_false, Bool.or_true, if_true]
    rfl

/-- The day of a moment, in months of thirty days. -/
def Moment.approximateDay (a : Moment) : ℤ :=
  ((a.year : ℤ) - 1970) * 365 + ((a.year : ℤ) - 1969).tdiv 4 + (a.month - 1) * 30 + a.day

/-- The number of a moment. -/
lemma Moment.Written.micros {a : Moment} {s e : Text} (h : a.Written s e) :
    parseTimestampMicros s = (a.approximateDay * 86400 + a.clock e) * 1000000 := by
  have hv := a.valid
  cases h with
  | date hy hm hd hmidnight =>
    rw [parseTimestampMicros, splitTimestamp_sep hy.1 _ rfl, splitTimestamp_sep hm.1 _ rfl,
      splitTimestamp_last (not_separator_of_digits hd.1)]
    simp [hy.parseSigned hv.1, hm.parseSigned (by omega), hd.parseSigned (by omega), hmidnight,
      Moment.approximateDay, Moment.clock]
  | time hy hm hd hh hi hs he =>
    rw [parseTimestampMicros, splitTimestamp_sep hy.1 _ rfl, splitTimestamp_sep hm.1 _ rfl,
      splitTimestamp_sep hd.1 _ rfl, splitTimestamp_sep hh.1 _ rfl, splitTimestamp_sep hi.1 _ rfl,
      splitTimestamp_last (forall_mem_append.mpr ⟨not_separator_of_digits hs.1, he.not_separator⟩)]
    simp [hy.parseSigned hv.1, hm.parseSigned (by omega), hd.parseSigned (by omega),
      hh.parseSigned (by omega), hi.parseSigned (by omega),
      parseSigned_tail hs (by omega) he, Moment.approximateDay, Moment.clock, add_assoc]

/-- The days are counted in their order, except that a 31st is the first of the next month. -/
lemma Moment.approximateDay_lt_or_eq {a b : Moment} (hlt : a.fields < b.fields) :
    a.SameDay b ∨ a.MonthEnd b ∨ a.approximateDay < b.approximateDay := by
  have ha := a.valid
  have hb := b.valid
  simp only [Moment.fields, cons_lt_cons_iff, List.not_lt_nil, and_false, or_false] at hlt
  simp only [Moment.SameDay, Moment.MonthEnd, Moment.approximateDay]
  have hyear : a.year ≤ b.year := by omega
  have hleap : ((a.year : ℤ) - 1969).tdiv 4 ≤ ((b.year : ℤ) - 1969).tdiv 4 :=
    Int.tdiv_le_tdiv (by decide) (by omega)
  rcases hyear.lt_or_eq with hy | hy
  · omega
  · rw [hy] at hlt ⊢
    omega

lemma Moment.approximateDay_eq {a b : Moment} (h : a.SameDay b ∨ a.MonthEnd b) :
    a.approximateDay = b.approximateDay := by
  rcases h with ⟨hy, hm, hd⟩ | ⟨hy, hm, hda, hdb⟩
  · simp only [Moment.approximateDay, hy, hm, hd]
  · simp only [Moment.approximateDay, hy, hm, hda, hdb]
    omega

/-- **Timestamps are in the order of the calendar**, exactly unless two moments of one day, or of a
31st and the first of the month after it, are not told apart by the time of day that is read. -/
theorem micros_lt {a b : Moment} {s t e f : Text} (hs : a.Written s e) (ht : b.Written t f)
    (hlt : a.fields < b.fields) :
    parseTimestampMicros s < parseTimestampMicros t ↔
      (a.SameDay b ∨ a.MonthEnd b → a.clock e < b.clock f) := by
  rw [hs.micros, ht.micros]
  constructor
  · intro h hday
    rw [Moment.approximateDay_eq hday] at h
    omega
  · intro h
    have hclock : a.clock e < 86400 := by
      have ha := a.valid
      rw [Moment.clock]
      split <;> omega
    rcases Moment.approximateDay_lt_or_eq hlt with hday | hday | hday
    · have hclock := h (.inl hday)
      rw [Moment.approximateDay_eq (.inl hday)]
      omega
    · have hclock := h (.inr hday)
      rw [Moment.approximateDay_eq (.inr hday)]
      omega
    · omega

/-- From the last of January to the first of February, with the later time of day. -/
theorem micros_lt_january :
    parseTimestampMicros "2026-01-31T10:00:59.5Z".toList <
      parseTimestampMicros "2026-02-01T10:00:01".toList := by
  have hs : Moment.Written ⟨2026, 1, 31, 10, 0, 59, by decide⟩ "2026-01-31T10:00:59.5Z".toList
      ".5Z".toList :=
    .time (y := "2026".toList) (m := "01".toList) (d := "31".toList) (h := "10".toList)
      (i := "00".toList) (s := "59".toList) (by decide) (by decide) (by decide) (by decide)
      (by decide) (by decide) (.both (f := "5".toList) (by simp [Digits, Nom.isAsciiDigit]))
  have ht : Moment.Written ⟨2026, 2, 1, 10, 0, 1, by decide⟩ "2026-02-01T10:00:01".toList [] :=
    .time (y := "2026".toList) (m := "02".toList) (d := "01".toList) (h := "10".toList)
      (i := "00".toList) (s := "01".toList) (e := []) (by decide) (by decide) (by decide)
      (by decide) (by decide) (by decide) .nothing
  exact (micros_lt hs ht (by decide)).mpr fun _ => by decide

/-- The last of January and the first of February are one day, and a zone behind the seconds makes
them zero. -/
theorem micros_collide :
    parseTimestampMicros "2026-01-31".toList = parseTimestampMicros "2026-02-01".toList ∧
      parseTimestampMicros "2026-01-01T00:00:05Z".toList =
        parseTimestampMicros "2026-01-01T00:00:06Z".toList := by
  decide +kernel

end XyzDB.Engine
