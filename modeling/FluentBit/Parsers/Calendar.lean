import FluentBit.Parsers.TzoneOffset
import Mathlib.Algebra.BigOperators.Group.List.Basic
import Mathlib.Tactic.IntervalCases
import Mathlib.Tactic.Ring

/-! Dates of the calendar in the texts that `flb_strptime` parses. -/

set_option autoImplicit false

namespace FluentBit.Strptime

open List Nat Option Ascii

def leap (year : Nat) : Bool := year % 400 == 0 || year % 4 == 0 && year % 100 != 0

def monthDays (year : Nat) : List Nat := [31, if leap year then 29 else 28, 31, 30, 31, 30, 31, 31, 30, 31, 30, 31]

def daysBefore : Nat → Nat
  | 0 => 0
  | year + 1 => daysBefore year + (monthDays year).sum

structure Civil where
  year : Nat
  mon : Nat
  mday : Nat
  hour : Nat
  min : Nat
  sec : Nat
  ahead : Int
  year_le : year ≤ 9999
  mon_lt : mon < (monthDays year).length
  mday_pos : 0 < mday
  mday_le : mday ≤ (monthDays year)[mon]
  hour_le : hour ≤ 23
  min_le : min ≤ 59
  sec_le : sec ≤ 60
  ahead_lt : ahead.natAbs < 6000

namespace Civil

def yday (civil : Civil) : Nat := ((monthDays civil.year).take civil.mon).sum + (civil.mday - 1)

def wday (civil : Civil) : Nat := (6 + daysBefore civil.year + civil.yday) % 7

def tm (civil : Civil) (gmtoff : Int) : Tm where
  sec := civil.sec
  min := civil.min
  hour := civil.hour
  mday := civil.mday
  mon := civil.mon
  year := civil.year - 1900
  wday := civil.wday
  yday := civil.yday
  gmtoff := gmtoff

end Civil

def padded : Nat → Nat → Bytes
  | 0, _ => []
  | width + 1, number => padded width (number / 10) ++ [UInt8.ofNat (0x30 + number % 10)]

def Civil.conversion (civil : Civil) (width : Nat) (c : UInt8) : Bytes :=
  if c = letter 'Y' then padded width civil.year
  else if c = letter 'm' then padded 2 (civil.mon + 1)
  else if c = letter 'b' then ofString (months.getD civil.mon ("", "")).2
  else if c = letter 'd' then padded 2 civil.mday
  else if c = letter 'j' then padded 3 (civil.yday + 1)
  else if c = letter 'H' then padded 2 civil.hour
  else if c = letter 'M' then padded 2 civil.min
  else if c = letter 'S' then padded 2 civil.sec
  else if c = letter 'z' then
    letter (if civil.ahead < 0 then '-' else '+') ::
      (padded 2 (civil.ahead.natAbs / 60) ++ padded 2 (civil.ahead.natAbs % 60))
  else []

def Civil.text (civil : Civil) (width : Nat) : Bytes → Bytes
  | [] => []
  | [c] => [c]
  | b :: c :: fmt =>
    if b = letter '%' then civil.conversion width c ++ civil.text width fmt else b :: civil.text width (c :: fmt)

def Ends (rest : Bytes) : Prop := rest.head?.any isDigit = false

theorem digitByte (n : Nat) : isDigit (UInt8.ofNat (0x30 + n % 10)) = true ∧ digit (UInt8.ofNat (0x30 + n % 10)) = n % 10 := by
  have table : ∀ d < 10, isDigit (UInt8.ofNat (0x30 + d)) = true ∧ digit (UInt8.ofNat (0x30 + d)) = d := by decide
  exact table (n % 10) (mod_lt n (by decide))

theorem padded_cons (width n : Nat) : ∃ c more, padded (width + 1) n = c :: more ∧ isDigit c = true := by
  induction width generalizing n with
  | zero => exact ⟨_, _, rfl, (digitByte n).1⟩
  | succ width ih =>
    obtain ⟨c, more, parts, isDigit⟩ := ih (n / 10)
    rw [padded, parts]
    exact ⟨c, _, rfl, isDigit⟩

variable {llim ulim width n : Nat} {rest : Bytes}
variable {result rulim : Nat}

theorem convLoop_padded (fits : n < 10 ^ width) (high : result * 10 ^ width + n ≤ ulim)
    (room : 10 ^ width ≤ rulim * 10) : convLoop ulim result rulim (padded width n ++ rest) =
      convLoop ulim (result * 10 ^ width + n) (rulim / 10 ^ width) rest := by
  induction width generalizing n rest with
  | zero =>
    rw [pow_zero, lt_one_iff] at fits
    rw [fits, pow_zero, Nat.mul_one, Nat.div_one]
    rfl
  | succ width ih =>
    rw [pow_succ] at fits high room ⊢
    have split := div_add_mod n 10
    have scaled : result * (10 ^ width * 10) = result * 10 ^ width * 10 := by rw [Nat.mul_assoc]
    have enough : rulim / 10 ^ width ≠ 0 := Nat.div_ne_zero_iff.mpr ⟨by positivity, by omega⟩
    rw [padded, append_assoc, ih (by omega) (by omega) (by omega), singleton_append, convLoop,
      if_pos ⟨by omega, enough, (digitByte n).1⟩, (digitByte n).2, Nat.div_div_eq_div_mul]
    congr 1
    omega

theorem convLoop_ends (ends : Ends rest) : convLoop ulim result rulim rest = (result, rest) := by
  cases rest with
  | nil => rfl
  | cons c rest =>
    rw [convLoop, if_neg]
    intro more
    exact absurd (more.2.2.symm.trans ends) (by decide)

theorem convNum_padded (fits : n < 10 ^ (width + 1)) (low : llim ≤ n) (high : n ≤ ulim) (room : 10 ^ width ≤ ulim)
    (ends : Ends rest) : convNum llim ulim (padded (width + 1) n ++ rest) = some (n, rest) := by
  have loop : convLoop ulim 0 ulim (padded (width + 1) n ++ rest) = (n, rest) := by
    rw [convLoop_padded fits (by omega) (by rw [pow_succ]; omega), zero_mul, Nat.zero_add, convLoop_ends ends]
  obtain ⟨c, more, parts, isDigit⟩ := padded_cons width n
  have positive : ulim ≠ 0 := by
    have power : 0 < 10 ^ width := by positivity
    omega
  rw [parts, cons_append, convLoop, if_pos ⟨by omega, positive, isDigit⟩, zero_mul, Nat.zero_add] at loop
  rw [parts, cons_append, convNum, if_pos isDigit, loop]
  exact if_neg (by omega)

section

variable {nested : Bytes → Step} {others : UInt8 → Step} {fmt : Bytes} {s : Scan} (civil : Civil)
variable {c : UInt8}

theorem formatLoop_convert {bp : Bytes} (nonempty : bp ≠ []) : formatLoop nested others (letter '%' :: c :: fmt) s bp =
      (convert nested others c s bp).bind fun (s, bp) => formatLoop nested others fmt s bp := by
  have blank : isSpace (letter '%') = false := by decide
  simp [formatLoop, blank, nonempty]

theorem formatLoop_literal (blank : isSpace c = false) (percent : c ≠ letter '%') :
    formatLoop nested others (c :: fmt) s (c :: rest) = formatLoop nested others fmt s rest := by
  rw [formatLoop.eq_def]
  simp [literal, blank, percent]

theorem formatLoop_blank (solid : rest.dropWhile isSpace = rest) :
    formatLoop nested others (space :: fmt) s (space :: rest) = formatLoop nested others fmt s rest := by
  have blank : isSpace space = true := by decide
  rw [formatLoop.eq_def]
  simp [blank, solid]

theorem formatLoop_number (w : Nat) {f : Scan → Int → Scan}
    (conversion : convert nested others c = number llim ulim f) (fits : n < 10 ^ (w + 1)) (low : llim ≤ n)
    (high : n ≤ ulim) (room : 10 ^ w ≤ ulim) (ends : Ends rest) :
    formatLoop nested others (letter '%' :: c :: fmt) s (padded (w + 1) n ++ rest) =
      formatLoop nested others fmt (f s n) rest := by
  have nonempty : padded (w + 1) n ++ rest ≠ [] := by simp [padded]
  rw [formatLoop_convert nonempty, conversion, number, convNum_padded fits low high room ends]
  rfl

theorem monthDays_le {year days : Nat} (month : days ∈ monthDays year) : days ≤ 31 := by
  revert days
  unfold monthDays
  split <;> decide

theorem yday_lt : civil.yday < 366 := by
  have parts := sum_take_add_sum_drop (monthDays civil.year) civil.mon
  rw [drop_eq_getElem_cons civil.mon_lt, sum_cons] at parts
  have total : (monthDays civil.year).sum ≤ 366 := by
    unfold monthDays
    split <;> decide
  have := civil.mday_le
  have := civil.mday_pos
  unfold Civil.yday
  omega

/-! What the scan is once a field was read -/

def setYear (s : Scan) (i : Int) : Scan :=
  { s with relyear := -1, tm := { s.tm with year := i - 1900 }, fields := { s.fields with year := true } }

def setMon (s : Scan) (i : Int) : Scan := { s with tm := { s.tm with mon := i }, fields := { s.fields with mon := true } }

def setMday (s : Scan) (i : Int) : Scan := { s with tm := { s.tm with mday := i }, fields := { s.fields with mday := true } }

def setYday (s : Scan) (i : Int) : Scan := { s with tm := { s.tm with yday := i }, fields := { s.fields with yday := true } }

def setTime (s : Scan) : Scan := { s with tm := { s.tm with hour := civil.hour, min := civil.min, sec := civil.sec } }

theorem year_read (fits : civil.year < 10 ^ (width + 1)) (narrow : width ≤ 3) (ends : Ends rest) :
    formatLoop nested others (letter '%' :: letter 'Y' :: fmt) s (padded (width + 1) civil.year ++ rest) =
      formatLoop nested others fmt (setYear s civil.year) rest := by
  have power : 10 ^ width ≤ 10 ^ 3 := Nat.pow_le_pow_right (by decide) narrow
  exact formatLoop_number (f := setYear) width rfl fits (Nat.zero_le _) civil.year_le (power.trans (by decide)) ends

theorem mday_read (ends : Ends rest) :
    formatLoop nested others (letter '%' :: letter 'd' :: fmt) s (padded 2 civil.mday ++ rest) =
      formatLoop nested others fmt (setMday s civil.mday) rest := by
  have bound := civil.mday_le.trans (monthDays_le (getElem_mem civil.mon_lt))
  exact formatLoop_number (f := setMday) 1 rfl (by omega) civil.mday_pos bound (by decide) ends

theorem time_read (width : Nat) (ends : Ends rest) :
    formatLoop nested others (ofString "%H:%M:%S" ++ fmt) s (civil.text width (ofString "%H:%M:%S") ++ rest) =
      formatLoop nested others fmt (setTime civil s) rest := by
  have format : ofString "%H:%M:%S" ++ fmt = letter '%' :: letter 'H' :: colon ::
      letter '%' :: letter 'M' :: colon :: letter '%' :: letter 'S' :: fmt := rfl
  have text : civil.text width (ofString "%H:%M:%S") ++ rest = padded 2 civil.hour ++ (colon ::
      (padded 2 civil.min ++ (colon :: (padded 2 civil.sec ++ rest)))) := rfl
  have hour := civil.hour_le
  have min := civil.min_le
  have sec := civil.sec_le
  rw [format, text]
  refine Eq.trans (formatLoop_number (f := fun s i => { s with tm := { s.tm with hour := i } }) 1 rfl (by omega)
    (Nat.zero_le _) hour (by decide) rfl) ?_
  refine Eq.trans (formatLoop_literal (by decide) (by decide)) ?_
  refine Eq.trans (formatLoop_number (f := fun s i => { s with tm := { s.tm with min := i } }) 1 rfl (by omega)
    (Nat.zero_le _) min (by decide) rfl) ?_
  refine Eq.trans (formatLoop_literal (by decide) (by decide)) ?_
  exact formatLoop_number (f := fun s i => { s with tm := { s.tm with sec := i } }) 1 rfl (by omega) (Nat.zero_le _) sec
    (by decide) ends

theorem findName_month {mon : Nat} (bound : mon < 12) :
    findName months (ofString (months.getD mon ("", "")).2 ++ letter '/' :: rest) = some (mon, 3) := by
  interval_cases mon <;> rfl

theorem month_read : formatLoop nested others (letter '%' :: letter 'b' :: fmt) s
        (ofString (months.getD civil.mon ("", "")).2 ++ letter '/' :: rest) =
      formatLoop nested others fmt (setMon s civil.mon) (letter '/' :: rest) := by
  have bound : civil.mon < 12 := civil.mon_lt
  have nonempty : ofString (months.getD civil.mon ("", "")).2 ++ letter '/' :: rest ≠ [] := by simp
  have conversion (bp : Bytes) : convert nested others (letter 'b') s bp = (findName months bp).map fun found =>
      (setMon s found.1, bp.drop found.2) := rfl
  have length : (ofString (months.getD civil.mon ("", "")).2).length = 3 := by
    generalize civil.mon = mon at bound
    interval_cases mon <;> rfl
  rw [formatLoop_convert nonempty, conversion, findName_month bound, map_some, bind_some]
  exact congrArg (formatLoop nested others fmt _) (drop_left' length)

theorem zone_read (width : Nat) :
    formatLoop nested others [letter '%', letter 'z'] s (civil.text width [letter '%', letter 'z']) =
      some ({ s with tm := { s.tm with gmtoff := civil.ahead * 60 } }, []) := by
  have hours : civil.ahead.natAbs / 60 < 100 := by
    have := civil.ahead_lt
    omega
  have mins : civil.ahead.natAbs % 60 < 100 := by omega
  have pair {n : Nat} (bound : n < 100) : ∃ a b, padded 2 n = [a, b] ∧ Digits a b ∧ twoChars a b = n := by
    have ten := digitByte (n / 10)
    have one := digitByte n
    refine ⟨_, _, rfl, ⟨ten.1, one.1⟩, ?_⟩
    rw [twoChars, charDigit_digit ten.1, charDigit_digit one.1, ten.2, one.2]
    omega
  obtain ⟨a, b, hourText, hour, hourValue⟩ := pair hours
  obtain ⟨c, d, minText, min, minValue⟩ := pair mins
  have text : civil.text width [letter '%', letter 'z'] = letter (if civil.ahead < 0 then '-' else '+') ::
      (padded 2 (civil.ahead.natAbs / 60) ++ padded 2 (civil.ahead.natAbs % 60)) := rfl
  have found : zone (civil.text width [letter '%', letter 'z']) = some (civil.ahead * 60, []) := by
    have digits := zoneDigits_plain hour min
    rw [hourValue, minValue] at digits
    rw [text, hourText, minText]
    split
    next behind =>
      have minus (text : Bytes) :
          zone (letter '-' :: text) = (zoneDigits text).map fun found => (-found.1, found.2) := rfl
      rw [minus, cons_append, cons_append, nil_append, digits]
      simp only [map_some, Option.some.injEq, Prod.mk.injEq, and_true]
      omega
    · have plus (text : Bytes) : zone (letter '+' :: text) = zoneDigits text := rfl
      rw [plus, cons_append, cons_append, nil_append, digits]
      simp only [Option.some.injEq, Prod.mk.injEq, and_true]
      omega
  have nonempty : civil.text width [letter '%', letter 'z'] ≠ [] := by
    rw [text]
    exact cons_ne_nil _ _
  have conversion (bp : Bytes) : convert nested others (letter 'z') s bp =
      (zone bp).map fun found => ({ s with tm := { s.tm with gmtoff := found.1 } }, found.2) := rfl
  refine Eq.trans (formatLoop_convert nonempty) ?_
  rw [conversion, found]
  rfl

end

theorem isleap_eq (year : Nat) : isleap year = leap year := by
  rw [isleap, leap, Bool.eq_iff_iff]
  simp only [Bool.and_eq_true, Bool.or_eq_true, beq_iff_eq, bne_iff_ne]
  omega

theorem monLengths_eq (year : Nat) : monLengths (isleap year) = (monthDays year).map Nat.cast := by
  rw [isleap_eq, monLengths, monthDays]
  cases leap year with
  | false => rfl
  | true => rfl

theorem daysBefore_eq (year : Nat) : (daysBefore year : Int) = 365 * year + leapsThruEndOf (year - 1) + 1 := by
  induction year with
  | zero => rfl
  | succ year ih =>
    have grows : leapsThruEndOf year = leapsThruEndOf (year - 1) + if leap year then 1 else 0 := by
      simp only [leapsThruEndOf, leap, Bool.and_eq_true, Bool.or_eq_true, beq_iff_eq, bne_iff_ne]
      split <;> split <;> split <;> omega
    have total : ((monthDays year).sum : Int) = 365 + if leap year then 1 else 0 := by
      rw [monthDays]
      cases leap year with
      | false => rfl
      | true => rfl
    rw [daysBefore, cast_add, ih, total, cast_succ, Int.add_sub_cancel, grows]
    ring

theorem wday_eq (civil : Civil) :
    (4 + ((civil.year : Int) - 1970) % 7 * (365 % 7) + leapsThruEndOf (civil.year - 1) - leapsThruEndOf 1969 + civil.yday) % 7 =
      civil.wday := by
  have days := daysBefore_eq civil.year
  have epoch : leapsThruEndOf 1969 = 477 := by decide
  unfold Civil.wday
  omega

theorem monthOf_sum {lens : List Nat} {mon days : Nat} (inside : mon < lens.length) (fits : days < lens[mon]) (first : Int) :
    monthOf (lens.map Nat.cast) first ((lens.take mon).sum + days : Nat) = (first + mon, (days : Int)) := by
  induction lens generalizing mon first with
  | nil => cases inside
  | cons len lens ih =>
    cases mon with
    | zero =>
      have short : ¬ (len : Int) ≤ ((0 + days : Nat) : Int) := by
        rw [getElem_cons_zero] at fits
        omega
      rw [take_zero, sum_nil, map_cons, monthOf, if_neg short]
      simp
    | succ mon =>
      rw [getElem_cons_succ] at fits
      have long : (len : Int) ≤ ((len + (lens.take mon).sum + days : Nat) : Int) := by omega
      have rest : ((len + (lens.take mon).sum + days : Nat) : Int) - len = ((lens.take mon).sum + days : Nat) := by omega
      rw [take_succ_cons, sum_cons, map_cons, monthOf, if_pos long, rest, ih (lt_of_succ_lt_succ inside) fits]
      simp only [cast_succ, Prod.mk.injEq, and_true]
      ring

theorem complete_date (civil : Civil) (tm : Tm) (gmtoff : Int) :
    (complete { tm := { civil.tm gmtoff with wday := tm.wday, yday := tm.yday },
                fields := { mon := true, mday := true, year := true } }).tm = civil.tm gmtoff := by
  have wday := wday_eq civil
  have yday : (civil.mday : Int) - 1 + (((monthDays civil.year).map Nat.cast).take civil.mon).sum = civil.yday := by
    have positive := civil.mday_pos
    have cast (lens : List Nat) : (lens.map (Nat.cast : Nat → Int)).sum = lens.sum := by
      induction lens with
      | nil => rfl
      | cons len lens ih => rw [map_cons, sum_cons, sum_cons, ih, cast_add]
    rw [← map_take, cast, Civil.yday]
    omega
  simpa [complete, Civil.tm, monLengths_eq, yday] using wday

theorem complete_dayOfYear (civil : Civil) (tm : Tm) (gmtoff : Int) :
    (complete { tm := { civil.tm gmtoff with wday := tm.wday, mon := tm.mon, mday := tm.mday },
                fields := { yday := true, year := true } }).tm = civil.tm gmtoff := by
  have wday := wday_eq civil
  have positive := civil.mday_pos
  have month_lt := civil.mon_lt
  have inside : civil.mday - 1 < (monthDays civil.year)[civil.mon] := by
    have := civil.mday_le
    omega
  have month := monthOf_sum month_lt inside 0
  rw [← Civil.yday] at month
  have mday : ((civil.mday - 1 : Nat) : Int) + 1 = civil.mday := by omega
  simpa [complete, Civil.tm, monLengths_eq, month, mday] using wday

/-! ### The formats -/

theorem solid_padded (width n : Nat) (rest : Bytes) :
    (padded (width + 1) n ++ rest).dropWhile isSpace = padded (width + 1) n ++ rest := by
  have table : ∀ c : UInt8, isDigit c = true → isSpace c = false := by
    apply forall_byte
    decide +kernel
  obtain ⟨c, more, parts, isDigit⟩ := padded_cons width n
  rw [parts, cons_append, dropWhile_cons_of_neg (by simp [table c isDigit])]

section

variable {others : UInt8 → Step} {civil : Civil} {tm : Tm}

theorem strptime_of {fmt : Bytes} {s : Scan} {gmtoff : Int}
    (loop : formatLoop (strptimeFrom others 1) others fmt { tm } (civil.text width fmt) = some (s, []))
    (completed : (complete s).tm = civil.tm gmtoff) :
    flbStrptime others (civil.text width fmt) fmt tm = some (civil.tm gmtoff, []) := by
  have outer (fmt : Bytes) (s : Scan) (bp : Bytes) : strptimeFrom others 2 fmt s bp =
      (formatLoop (strptimeFrom others 1) others fmt s bp).map fun (s, bp) => (complete s, bp) := rfl
  rw [flbStrptime, outer, loop, ← completed]
  rfl

theorem sign_ends : Ends (civil.text width [letter '%', letter 'z']) := by
  have text : (civil.text width [letter '%', letter 'z']).head? = some (letter (if civil.ahead < 0 then '-' else '+')) := rfl
  rw [Ends, text]
  split <;> decide

section

variable (narrow : width ≤ 3) (fits : civil.year < 10 ^ (width + 1))
include narrow fits

theorem strptime_iso :
    flbStrptime others (civil.text (width + 1) (ofString "%Y-%m-%dT%H:%M:%S%z")) (ofString "%Y-%m-%dT%H:%M:%S%z") tm =
      some (civil.tm (civil.ahead * 60), []) := by
  refine strptime_of ?_ (complete_date civil tm _)
  have format : ofString "%Y-%m-%dT%H:%M:%S%z" = letter '%' :: letter 'Y' :: letter '-' :: letter '%' :: letter 'm' ::
      letter '-' :: letter '%' :: letter 'd' :: letter 'T' :: (ofString "%H:%M:%S" ++ [letter '%', letter 'z']) := rfl
  have text : civil.text (width + 1) (ofString "%Y-%m-%dT%H:%M:%S%z") = padded (width + 1) civil.year ++ letter '-' ::
      (padded 2 (civil.mon + 1) ++ letter '-' :: (padded 2 civil.mday ++ letter 'T' ::
        (civil.text (width + 1) (ofString "%H:%M:%S") ++ civil.text (width + 1) [letter '%', letter 'z']))) := rfl
  have bound : civil.mon < 12 := civil.mon_lt
  rw [text, format]
  refine Eq.trans (year_read civil fits narrow rfl) ?_
  refine Eq.trans (formatLoop_literal (by decide) (by decide)) ?_
  refine Eq.trans (formatLoop_number (f := fun s i => setMon s (i - 1)) 1 rfl (by omega) (Nat.le_add_left _ _) bound
    (by decide) rfl) ?_
  refine Eq.trans (formatLoop_literal (by decide) (by decide)) ?_
  refine Eq.trans (mday_read civil rfl) ?_
  refine Eq.trans (formatLoop_literal (by decide) (by decide)) ?_
  refine Eq.trans (time_read civil (width + 1) sign_ends) ?_
  refine Eq.trans (zone_read civil (width + 1)) ?_
  simp [setTime, setMday, setMon, setYear, Civil.tm]

theorem strptime_log :
    flbStrptime others (civil.text (width + 1) (ofString "%d/%b/%Y:%H:%M:%S %z")) (ofString "%d/%b/%Y:%H:%M:%S %z") tm =
      some (civil.tm (civil.ahead * 60), []) := by
  refine strptime_of ?_ (complete_date civil tm _)
  have format : ofString "%d/%b/%Y:%H:%M:%S %z" = letter '%' :: letter 'd' :: letter '/' :: letter '%' :: letter 'b' ::
      letter '/' :: letter '%' :: letter 'Y' :: letter ':' :: (ofString "%H:%M:%S" ++ space ::
        [letter '%', letter 'z']) := rfl
  have text : civil.text (width + 1) (ofString "%d/%b/%Y:%H:%M:%S %z") = padded 2 civil.mday ++ letter '/' ::
      (ofString (months.getD civil.mon ("", "")).2 ++ letter '/' :: (padded (width + 1) civil.year ++ letter ':' ::
        (civil.text (width + 1) (ofString "%H:%M:%S") ++ space ::
          civil.text (width + 1) [letter '%', letter 'z']))) := rfl
  have solid : (civil.text (width + 1) [letter '%', letter 'z']).dropWhile isSpace =
      civil.text (width + 1) [letter '%', letter 'z'] := by
    have parts : civil.text (width + 1) [letter '%', letter 'z'] = letter (if civil.ahead < 0 then '-' else '+') ::
      (padded 2 (civil.ahead.natAbs / 60) ++ padded 2 (civil.ahead.natAbs % 60)) := rfl
    rw [parts]
    split <;> rfl
  rw [text, format]
  refine Eq.trans (mday_read civil rfl) ?_
  refine Eq.trans (formatLoop_literal (by decide) (by decide)) ?_
  refine Eq.trans (month_read civil) ?_
  refine Eq.trans (formatLoop_literal (by decide) (by decide)) ?_
  refine Eq.trans (year_read civil fits narrow rfl) ?_
  refine Eq.trans (formatLoop_literal (by decide) (by decide)) ?_
  refine Eq.trans (time_read civil (width + 1) rfl) ?_
  refine Eq.trans (formatLoop_blank solid) ?_
  exact zone_read civil (width + 1)

theorem strptime_ordinal :
    flbStrptime others (civil.text (width + 1) (ofString "%Y %j %H:%M:%S")) (ofString "%Y %j %H:%M:%S") tm =
      some (civil.tm tm.gmtoff, []) := by
  refine strptime_of ?_ (complete_dayOfYear civil tm _)
  have format : ofString "%Y %j %H:%M:%S" = letter '%' :: letter 'Y' :: space :: letter '%' :: letter 'j' ::
      space :: (ofString "%H:%M:%S" ++ []) := rfl
  have text : civil.text (width + 1) (ofString "%Y %j %H:%M:%S") = padded (width + 1) civil.year ++ space ::
      (padded 3 (civil.yday + 1) ++ space :: (civil.text (width + 1) (ofString "%H:%M:%S") ++ [])) := rfl
  have bound := yday_lt civil
  rw [text, format]
  refine Eq.trans (year_read civil fits narrow rfl) ?_
  refine Eq.trans (formatLoop_blank (solid_padded 2 _ _)) ?_
  refine Eq.trans (formatLoop_number (f := fun s i => setYday s (i - 1)) 2 rfl (by omega) (Nat.le_add_left _ _) bound
    (by decide) rfl) ?_
  refine Eq.trans (formatLoop_blank (solid_padded 1 civil.hour _)) ?_
  refine Eq.trans (time_read civil (width + 1) rfl) ?_
  simp [formatLoop, setTime, setYday, setYear, Civil.tm]

end

/-- A date in one of the formats comes out as it was, also with its day of the week and of the year; the
third format has no offset, and the one that was there is left. -/
theorem strptime_text (others : UInt8 → Step) (civil : Civil) (tm : Tm) {width : Nat} (positive : 0 < width)
    (narrow : width ≤ 4) (fits : civil.year < 10 ^ width) :
    flbStrptime others (civil.text width (ofString "%Y-%m-%dT%H:%M:%S%z")) (ofString "%Y-%m-%dT%H:%M:%S%z") tm =
        some (civil.tm (civil.ahead * 60), []) ∧
      flbStrptime others (civil.text width (ofString "%d/%b/%Y:%H:%M:%S %z")) (ofString "%d/%b/%Y:%H:%M:%S %z") tm =
        some (civil.tm (civil.ahead * 60), []) ∧
      flbStrptime others (civil.text width (ofString "%Y %j %H:%M:%S")) (ofString "%Y %j %H:%M:%S") tm =
        some (civil.tm tm.gmtoff, []) := by
  obtain ⟨width, rfl⟩ := exists_eq_succ_of_ne_zero (Nat.pos_iff_ne_zero.mp positive)
  have narrow : width ≤ 3 := le_of_succ_le_succ narrow
  exact ⟨strptime_iso narrow fits, strptime_log narrow fits, strptime_ordinal narrow fits⟩

def leapDay : Civil where
  year := 2024
  mon := 1
  mday := 29
  hour := 23
  min := 59
  sec := 60
  ahead := -210
  year_le := by decide
  mon_lt := by decide
  mday_pos := by decide
  mday_le := by decide
  hour_le := by decide
  min_le := by decide
  sec_le := by decide
  ahead_lt := by decide

theorem strptime_text_leapDay :
    flbStrptime (fun _ _ _ => none) (leapDay.text 4 (ofString "%d/%b/%Y:%H:%M:%S %z")) (ofString "%d/%b/%Y:%H:%M:%S %z")
      (leapDay.tm 0) = some (leapDay.tm (-12600), []) :=
  (strptime_text (fun _ _ _ => none) leapDay (leapDay.tm 0) (by decide) (by decide) (by decide)).2.1

end

end FluentBit.Strptime
