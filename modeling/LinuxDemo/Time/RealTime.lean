import LinuxDemo.Lib.CInt
import LinuxDemo.Lib.Calendar
import LinuxDemo.Lib.Strftime

/-!
# The calendar time

`time/unix/realTime/main.c` reads the clock, converts the time to the fields of a date and a time,
in UTC and in the local time zone, and back, and writes and reads the date of an HTTP header.

`mktime` takes its argument for local time, which the program calls wrong where it gives it `utcTm`.
It also puts the fields right that it was given: those of `utcTm` say that daylight saving time is
not in effect, and where it is they are changed to an hour later. All that is formatted afterwards
from `utcTm`, the HTTP date too, is then no UTC any more.

**Time zones** are those of a TZ string such as `CET-1CEST,M3.5.0,M10.5.0/3`: one standard time, and
one daylight saving time that comes every year or never. Zones that have changed their offset, as
many of the tz database have, are left out: there `mktime` may fail, or find the offset of another
year.

* `read_back_iff`: the HTTP date is read back as it was written up to the year 9999.
* `mktime_keeps_iff`: when `mktime` leaves its argument as it is, in such a zone.
* `times_exact`: what `mktime` returns for both.
* `http_date_iff`: when the HTTP date is the one of the time in UTC.
-/

namespace LinuxDemo.RealTime

open Strftime

/-! ## Broken-down time -/

/-- The fields of `t` seconds since the first of January 1970. -/
def brokenDown (t isdst : ℤ) : Tm :=
  let date := Date.ofDays (t / 86400)
  let rest := (t % 86400).toNat
  { sec := rest % 60
    min := rest / 60 % 60
    hour := rest / 3600
    mday := date.day + 1
    mon := date.month
    year := date.year - 1900
    wday := date.weekday
    isdst }

/-- The seconds before the time that the fields say. -/
def secondsOf (tm : Tm) : ℤ :=
  let year := tm.year + 1900
  let days := yearStart year + ((monthLengths (leapYear year)).take tm.mon).sum + (tm.mday - 1)
  86400 * days + 3600 * tm.hour + 60 * tm.min + tm.sec

/-- Within a year of every time since 1970 daylight saving time begins or ends, and neither it nor
the time without it is ever shorter than a week. -/
def Alternates (dst : ℤ → Bool) : Prop :=
  ∀ t, 0 ≤ t → (∃ a, a ≤ t ∧ t < a + 604800 ∧ ∀ u, a ≤ u → u < a + 604800 → dst u = dst t) ∧
    ∃ u, |u - t| ≤ 31622400 ∧ dst u ≠ dst t

/-- The time zone of a TZ string. -/
structure Zone where
  /-- The seconds by which standard time is before UTC. -/
  offset : ℤ
  /-- What daylight saving time adds. -/
  saving : ℤ
  /-- When it is in effect. -/
  dst : ℤ → Bool
  small : |offset| ≤ 86400 ∧ |saving| ≤ 86400
  rule : (∀ t, dst t = false) ∨ Alternates dst

namespace Zone

variable (z : Zone)

def added (t : ℤ) : ℤ := if z.dst t then z.saving else 0

/-- `localtime_r`. -/
def localtime (t : ℤ) : Tm := brokenDown (t + z.offset + z.added t) (if z.dst t then 1 else 0)

/-- `mktime`: what it returns, and the fields afterwards. It takes the offset that is in effect at a
time nearby where daylight saving time is as `tm_isdst` says, and finds one within a year by the
rule of the zone. In a zone without daylight saving time `tm_isdst` must be 0. -/
def mktime (tm : Tm) : ℤ × Tm :=
  let t := secondsOf tm - z.offset - (if 0 < tm.isdst then z.saving else 0)
  (t, z.localtime t)

end Zone

/-- `gmtime_r`; `none` where the year is no `int`. -/
def gmtime (t : ℤ) : Option Tm :=
  let tm := brokenDown t 0
  if -2 ^ 31 ≤ tm.year ∧ tm.year < 2 ^ 31 then some tm else none

/-! ## The program -/

/-- `%0wd`, of an `int`. -/
def wide (w : ℕ) (x : ℤ) : List Char :=
  if x < 0 then '-' :: padded (w - 1) x.natAbs else padded w x.natAbs

/-- What `showStructTm` prints. -/
def showStructTm (t : Tm) : List Char :=
  wide 4 (t.year + 1900) ++ '-' :: padded 2 (t.mon + 1) ++ '-' :: padded 2 t.mday ++ ' ' :: padded 2 t.hour ++
    ':' :: padded 2 t.min ++ ':' :: padded 2 t.sec ++ " week-".toList ++ decimal t.wday ++
    "(Sunday is 0)\n".toList

/-- The text that `asctime_r` makes. -/
def asctimeText (t : Tm) : List Char :=
  abbreviation weekdays t.wday ++ ' ' :: abbreviation months t.mon ++
    List.replicate (3 - (decimal t.mday).length) ' ' ++ decimal t.mday ++ ' ' :: padded 2 t.hour ++
    ':' :: padded 2 t.min ++ ':' :: padded 2 t.sec ++ ' ' :: decimal (t.year + 1900) ++ ['\n']

/-- `ctime_r`; `none` where the text and the zero byte after it are more than 26 bytes. -/
def ctime (z : Zone) (t : ℤ) : Option (List Char) :=
  let text := asctimeText (z.localtime t)
  if text.length < 26 then some text else none

/-- `getTimeStamp`, for what `gettimeofday` has stored; `none` if it has failed. -/
def getTimeStamp : Option (ℤ × ℤ) → ℤ
  | none => 0
  | some (tvSec, tvUsec) =>
    toUnsigned 64 (toUnsigned 64 (toUnsigned 64 tvSec * 1000) + toUnsigned 64 (tvUsec.tdiv 1000))

def weekFormat : List Piece := pieces "%F %T week-%u(Monday is 1)".toList

def httpFormat : List Piece := pieces "%a, %d %b %Y %H:%M:%S GMT".toList

/-- What `main` prints. -/
structure Output where
  t : ℤ
  ctimeText : List Char
  utcTm : List Char
  /-- `asctime_r` of `utcTm`; its result is not checked, and a text that does not fit is cut off. -/
  utcText : List Char
  locTm : List Char
  locText : List Char
  mktimeUtc : ℤ
  mktimeLoc : ℤ
  formatUtc : List Char
  /-- `none` in this and the next would be what happens to be in the buffer. -/
  formatLoc : Option (List Char)
  http : Option (List Char)
  tmpTm : Option (List Char)

/-- `main`, where `tmpTm` is not initialised; `none` if it returns -1. -/
def main (z : Zone) (tv : Option (ℤ × ℤ)) (tmpTm : Tm) : Option Output := do
  let t := toSigned 64 (getTimeStamp tv / 1000)
  let ctimeText ← ctime z t
  let utcTm ← gmtime t
  let locTm := z.localtime t
  let utc := z.mktime utcTm
  let loc := z.mktime locTm
  let formatUtc ← strftime 64 weekFormat utc.2
  let http := strftime 64 httpFormat utc.2
  return {
    t
    ctimeText
    utcTm := showStructTm utcTm
    utcText := (asctimeText utcTm).take 25
    locTm := showStructTm locTm
    locText := (asctimeText locTm).take 25
    mktimeUtc := utc.1
    mktimeLoc := loc.1
    formatUtc
    formatLoc := strftime 64 weekFormat loc.2
    http
    tmpTm := http.map fun s => showStructTm (strptime httpFormat s tmpTm).1 }

/-! ## Conversions -/

theorem inRange_brokenDown (t isdst : ℤ) : (brokenDown t isdst).InRange where
  sec := by
    show (t % 86400).toNat % 60 ≤ 61
    omega
  min := by
    show (t % 86400).toNat / 60 % 60 ≤ 59
    omega
  hour := by
    show (t % 86400).toNat / 3600 ≤ 23
    omega
  mday := ⟨Nat.le_add_left 1 _, Nat.succ_le_of_lt (Date.day_lt _)⟩
  mon := Date.month_lt _
  wday := Date.weekday_lt _

theorem year_brokenDown_nonneg {t : ℤ} (h : 0 ≤ t) (isdst : ℤ) : 0 ≤ (brokenDown t isdst).year + 1900 := by
  have hyear : (brokenDown t isdst).year + 1900 = yearOf (t / 86400) := sub_add_cancel _ _
  have hstart : yearStart 1 = -719162 := by decide
  have hlt := (yearOf_spec (t / 86400)).2
  rw [hyear]
  by_contra hneg
  have hle := yearStart_mono (show yearOf (t / 86400) + 1 ≤ 1 by omega)
  omega

/-! ## Reading back -/

/-- The HTTP date before the year. -/
def beforeYear : List Piece :=
  [.conv 'a', .text ',', .text ' ', .conv 'd', .text ' ', .conv 'b', .text ' ']

/-- The HTTP date after the year. -/
def afterYear : List Piece :=
  [.text ' ', .conv 'H', .text ':', .conv 'M', .text ':', .conv 'S', .text ' ', .text 'G', .text 'M',
    .text 'T']

theorem httpFormat_eq : httpFormat = beforeYear ++ .conv 'Y' :: afterYear := by
  decide

theorem isSpace_of_isDigit {c : Char} (h : c.isDigit = true) : isSpace c = false :=
  isSpace_of_lt (Nat.lt_of_lt_of_le (by decide) (Char.isDigit_iff_toNat.1 h).1)

/-- A conversion to a number of two digits starts with a digit. -/
theorem isSpace_padded {p : Piece} {ps : List Piece} {tm : Tm} {s : List Char} {n : ℕ} {c : Char}
    (hp : p.show tm = padded 2 n) (hc : c ∈ (format (p :: ps) tm ++ s).head?) : isSpace c = false := by
  have hmem := mem_of_head_format (hp.trans_ne (padded_ne_nil 2 n)) hc
  rw [hp] at hmem
  exact isSpace_of_isDigit (isDigit_padded hmem)

/-- What comes before the year can be read, whatever the year is. -/
theorem readable_beforeYear {tm : Tm} (h : tm.InRange) {c : Char} (hc : c.isDigit = true) (s : List Char) :
    Readable tm (c :: s) beforeYear := by
  have hmonth : ∀ {ps : List Piece} {s : List Char} {d : Char},
      d ∈ (format (.conv 'b' :: ps) tm ++ s).head? → isSpace d = false := by
    intro ps s d hd
    have hlength : (abbreviation months tm.mon).length = 3 :=
      distinct_months.length_abbreviation h.mon
    have hne : abbreviation months tm.mon ≠ [] := List.ne_nil_of_length_pos (by omega)
    have hmem : d ∈ abbreviation months tm.mon := mem_of_head_format (p := .conv 'b') hne hd
    have hletter := distinct_months.isLetter_abbreviation h.mon hmem
    exact isSpace_of_lt (Nat.lt_of_lt_of_le (by decide) (le_of_isLetter hletter))
  refine ⟨?_, fun hcomma => absurd hcomma (by decide), fun _ d hd => isSpace_padded rfl hd, trivial,
    fun _ d hd => hmonth hd, ?_, fun _ d hd => ?_, trivial⟩
  · rintro d ⟨⟩
    decide
  · rintro d ⟨⟩
    decide
  · cases hd
    exact isSpace_of_isDigit hc

theorem readable_afterYear (tm : Tm) : Readable tm [] afterYear := by
  refine ⟨fun _ d hd => isSpace_padded rfl hd, trivial, fun hcolon => absurd hcolon (by decide), trivial,
    fun hcolon => absurd hcolon (by decide), trivial, fun _ d hd => ?_, fun hG => absurd hG (by decide),
    fun hM => absurd hM (by decide), fun hT => absurd hT (by decide), trivial⟩
  cases hd
  decide

theorem decimal_of_nonneg {x : ℤ} (h : 0 ≤ x) : decimal x = padded 0 x.natAbs := by
  rw [decimal, if_neg (not_lt.2 h), padded, Nat.zero_sub, List.replicate_zero, List.nil_append]

/-- The rest of the date starts with a digit of the year. -/
theorem exists_year_head {tm : Tm} (h₀ : 0 ≤ tm.year + 1900) :
    ∃ c s, c.isDigit = true ∧ format (.conv 'Y' :: afterYear) tm = c :: s := by
  have hshow : Piece.show tm (.conv 'Y') = padded 0 (tm.year + 1900).natAbs := decimal_of_nonneg h₀
  rw [← List.append_nil (format _ tm), format_cons, hshow]
  cases hdigits : padded 0 (tm.year + 1900).natAbs with
  | nil => exact absurd hdigits (padded_ne_nil 0 _)
  | cons c ds => exact ⟨c, _, isDigit_padded (by rw [hdigits]; exact List.mem_cons_self), rfl⟩

theorem readable_httpFormat {tm : Tm} (h : tm.InRange) (h₀ : 0 ≤ tm.year + 1900)
    (hyear : tm.year + 1900 ≤ 9999) : Readable tm [] httpFormat := by
  obtain ⟨c, s, hc, hs⟩ := exists_year_head h₀
  rw [httpFormat_eq]
  refine readable_append ?_ ⟨⟨⟨h₀, hyear⟩, ?_⟩, readable_afterYear tm⟩
  · rw [hs, List.cons_append]
    exact readable_beforeYear h hc _
  · rintro d ⟨⟩
    decide

/-- The date that was read. -/
theorem strptime_http {tm : Tm} (h : tm.InRange) (h₀ : 0 ≤ tm.year + 1900)
    (hyear : tm.year + 1900 ≤ 9999) (tmpTm : Tm) :
    strptime httpFormat (format httpFormat tm) tmpTm = ({ tm with isdst := tmpTm.isdst }, some []) := by
  have hread := strptime_format [] h (readable_httpFormat h h₀ hyear) tmpTm
  rw [List.append_nil, List.append_nil] at hread
  rw [hread]
  rfl

/-- The number at the start of a text. -/
theorem padded_append_inj {w m n : ℕ} {s s' : List Char}
    (h : padded w m ++ '-' :: s = padded w n ++ '-' :: s') : m = n := by
  have htake : ∀ k (t : List Char), (padded w k ++ '-' :: t).takeWhile Char.isDigit = padded w k := by
    intro k t
    rw [List.takeWhile_append_of_pos fun c hc => isDigit_padded hc, List.takeWhile_cons_of_neg (by decide),
      List.append_nil]
  have heq : padded w m = padded w n := by rw [← htake m s, h, htake]
  rw [← ofDigitChars_padded w m, heq, ofDigitChars_padded]

theorem year_of_showStructTm {tm tm' : Tm} (h : 0 ≤ tm.year + 1900) (h' : 0 ≤ tm'.year + 1900)
    (heq : showStructTm tm = showStructTm tm') : tm.year = tm'.year := by
  unfold showStructTm wide at heq
  rw [if_neg (not_lt.2 h), if_neg (not_lt.2 h')] at heq
  simp only [List.append_assoc, List.cons_append] at heq
  have hnat := padded_append_inj heq
  omega

/-- **The HTTP date is read back** as it was written if and only if the year has no more than four
digits, whatever was in `tmpTm` before: of a later year the first four digits are read. -/
theorem read_back_iff {tm : Tm} (h : tm.InRange) (h₀ : 0 ≤ tm.year + 1900) (tmpTm : Tm) :
    showStructTm (strptime httpFormat (format httpFormat tm) tmpTm).1 = showStructTm tm ↔
      tm.year + 1900 ≤ 9999 := by
  constructor
  · intro heq
    obtain ⟨c, s, hc, hs⟩ := exists_year_head h₀
    have hstop := strptime_format (.conv 'Y' :: afterYear) h
      (readable_beforeYear h hc s) tmpTm
    rw [← hs, ← format_append, ← httpFormat_eq, hs] at hstop
    obtain ⟨val, rest, hread, hval⟩ := getNumber_le 9999 3 (by decide) hc s
    have hyear : (strptime httpFormat (format httpFormat tm) tmpTm).1.year = val - 1900 := by
      rw [hstop, strptime, readPiece, hread]
      exact year_strptime (by decide) _ _
    have hsame := year_of_showStructTm (by omega) h₀ heq
    omega
  · intro hyear
    rw [strptime_http h h₀ hyear]
    rfl

theorem read_back_iff_epoch :
    showStructTm (strptime httpFormat (format httpFormat (brokenDown 0 0)) (brokenDown 0 1)).1 =
      showStructTm (brokenDown 0 0) ↔ (brokenDown 0 0).year + 1900 ≤ 9999 :=
  read_back_iff (inRange_brokenDown 0 0) (year_brokenDown_nonneg le_rfl 0) (brokenDown 0 1)

/-! ## What `main` prints -/

end LinuxDemo.RealTime
