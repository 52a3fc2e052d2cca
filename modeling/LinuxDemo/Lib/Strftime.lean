import Mathlib.Algebra.Order.Ring.Int
import Mathlib.Data.List.GetD

/-!
# Formatted times

`strftime` writes the fields of a `struct tm` as a format says, and `strptime` reads them back. The
conversions are those for the names of days and months, for the numbers of a date and a time, and the
abbreviations `%F` and `%T` for writing.

* `getNumber_append`: a number is read back from its digits, with or without zeros in front.
* `getNumber_le`: reading at most so many digits gives a number that has no more.
* `readPiece_show`: a piece of a format reads what it has written.
* `strptime_format`: so does a format whose pieces can be told apart.
-/

namespace LinuxDemo.Strftime

/-- The fields of a `struct tm`, without the day of the year. -/
@[ext]
structure Tm where
  sec : ℕ
  min : ℕ
  hour : ℕ
  mday : ℕ
  mon : ℕ
  /-- Counted from 1900. -/
  year : ℤ
  wday : ℕ
  isdst : ℤ
  deriving DecidableEq

/-- Every field but the year is in its range. -/
structure Tm.InRange (tm : Tm) : Prop where
  sec : tm.sec ≤ 61
  min : tm.min ≤ 59
  hour : tm.hour ≤ 23
  mday : 1 ≤ tm.mday ∧ tm.mday ≤ 31
  mon : tm.mon < 12
  wday : tm.wday < 7

def weekdays : List (List Char) :=
  ["Sunday".toList, "Monday".toList, "Tuesday".toList, "Wednesday".toList, "Thursday".toList,
    "Friday".toList, "Saturday".toList]

def months : List (List Char) :=
  ["January".toList, "February".toList, "March".toList, "April".toList, "May".toList, "June".toList,
    "July".toList, "August".toList, "September".toList, "October".toList, "November".toList,
    "December".toList]

def abbreviation (names : List (List Char)) (i : ℕ) : List Char := (names.getD i []).take 3

/-! ## Writing -/

/-- `%0wd`. -/
def padded (w n : ℕ) : List Char :=
  List.replicate (w - (Nat.toDigits 10 n).length) '0' ++ Nat.toDigits 10 n

/-- `%d`. -/
def decimal (x : ℤ) : List Char :=
  if x < 0 then '-' :: Nat.toDigits 10 x.natAbs else Nat.toDigits 10 x.natAbs

/-- A format is read as characters and conversions. -/
inductive Piece where
  | text (c : Char)
  | conv (k : Char)
  deriving DecidableEq

def pieces : List Char → List Piece
  | '%' :: k :: format => .conv k :: pieces format
  | c :: format => .text c :: pieces format
  | [] => []

/-- What `strftime` writes for a conversion. -/
def conversion (tm : Tm) : Char → List Char
  | 'a' => abbreviation weekdays tm.wday
  | 'b' => abbreviation months tm.mon
  | 'd' => padded 2 tm.mday
  | 'm' => padded 2 (tm.mon + 1)
  | 'Y' => decimal (tm.year + 1900)
  | 'H' => padded 2 tm.hour
  | 'M' => padded 2 tm.min
  | 'S' => padded 2 tm.sec
  | 'u' => padded 1 ((tm.wday + 6) % 7 + 1)
  | 'F' => decimal (tm.year + 1900) ++ '-' :: padded 2 (tm.mon + 1) ++ '-' :: padded 2 tm.mday
  | 'T' => padded 2 tm.hour ++ ':' :: padded 2 tm.min ++ ':' :: padded 2 tm.sec
  | _ => []

def Piece.show (tm : Tm) : Piece → List Char
  | text c => [c]
  | conv k => conversion tm k

/-- What `strftime` writes. -/
def format (ps : List Piece) (tm : Tm) : List Char := ps.flatMap (Piece.show tm)

/-- `strftime(buffer, max, format, tm)`; `none` is the result 0, when the text and the zero byte after
it do not fit. -/
def strftime (max : ℕ) (ps : List Piece) (tm : Tm) : Option (List Char) :=
  if (format ps tm).length < max then some (format ps tm) else none

/-! ## Reading -/

/-- The text after a name, in letters of either case. -/
def dropName : List Char → List Char → Option (List Char)
  | [], s => some s
  | _ :: _, [] => none
  | n :: name, c :: s => if n.toLower = c.toLower then dropName name s else none

/-- The name, or else its abbreviation. -/
def dropEither (name s : List Char) : Option (List Char) :=
  (dropName name s).or (dropName (name.take 3) s)

/-- The first of the names that the text starts with, and the rest. No two names start with the same
three letters, so there is no longer one. -/
def findName : List (List Char) → List Char → Option (ℕ × List Char)
  | [], _ => none
  | name :: names, s =>
    match dropEither name s with
    | some s => some (0, s)
    | none => (findName names s).map fun p => (p.1 + 1, p.2)

/-- Read at most so many more digits, as long as the number can stay within `upTo`. -/
def readDigits (upTo : ℕ) : ℕ → ℕ → List Char → ℕ × List Char
  | n + 1, val, c :: s =>
    if val * 10 ≤ upTo ∧ c.isDigit then readDigits upTo n (10 * val + (c.toNat - '0'.toNat)) s
    else (val, c :: s)
  | _, val, s => (val, s)

/-- A number in a range, of at most so many digits, after blanks. -/
def getNumber (least upTo digits : ℕ) (s : List Char) : Option (ℕ × List Char) :=
  match s.dropWhile (· = ' ') with
  | c :: s =>
    if c.isDigit then
      let (val, s) := readDigits upTo (digits - 1) (c.toNat - '0'.toNat) s
      if least ≤ val ∧ val ≤ upTo then some (val, s) else none
    else none
  | [] => none

/-- `isspace`. -/
def isSpace (c : Char) : Bool := c = ' ' ∨ 9 ≤ c.toNat ∧ c.toNat ≤ 13

/-- What `strptime` does for one piece: the fields it has set, and the rest of the text. -/
def readPiece (tm : Tm) (s : List Char) : Piece → Option (Tm × List Char)
  | .text c =>
    if isSpace c then some (tm, s.dropWhile isSpace)
    else match s with
      | d :: s => if d = c then some (tm, s) else none
      | [] => none
  | .conv 'a' => (findName weekdays s).map fun p => ({ tm with wday := p.1 }, p.2)
  | .conv 'b' => (findName months s).map fun p => ({ tm with mon := p.1 }, p.2)
  | .conv 'd' => (getNumber 1 31 2 s).map fun p => ({ tm with mday := p.1 }, p.2)
  | .conv 'Y' => (getNumber 0 9999 4 s).map fun p => ({ tm with year := p.1 - 1900 }, p.2)
  | .conv 'H' => (getNumber 0 23 2 s).map fun p => ({ tm with hour := p.1 }, p.2)
  | .conv 'M' => (getNumber 0 59 2 s).map fun p => ({ tm with min := p.1 }, p.2)
  | .conv 'S' => (getNumber 0 61 2 s).map fun p => ({ tm with sec := p.1 }, p.2)
  | .conv _ => none

/-- `strptime(s, format, &tm)`: the fields afterwards, and the rest of the text; `none` is `NULL`, where
the fields before the piece that did not match have been set. -/
def strptime : List Piece → List Char → Tm → Tm × Option (List Char)
  | [], s, tm => (tm, some s)
  | p :: ps, s, tm =>
    match readPiece tm s p with
    | none => (tm, none)
    | some (tm, s) => strptime ps s tm

/-! ## Numbers -/

theorem isDigit_padded {w n : ℕ} {c : Char} (h : c ∈ padded w n) : c.isDigit = true := by
  rcases List.mem_append.1 h with h | h
  · rw [List.eq_of_mem_replicate h]
    rfl
  · exact Nat.isDigit_of_mem_toDigits (by decide) (by decide) h

theorem padded_ne_nil (w n : ℕ) : padded w n ≠ [] :=
  List.append_ne_nil_of_right_ne_nil _ Nat.toDigits_ne_nil

theorem ofDigitChars_padded (w n : ℕ) : Nat.ofDigitChars 10 (padded w n) 0 = n := by
  rw [padded, Nat.ofDigitChars_append, Nat.ofDigitChars_replicate_zero, Nat.mul_zero,
    Nat.ofDigitChars_toDigits (by decide) (by decide)]

theorem length_padded {w n : ℕ} (hw : 0 < w) (h : n < 10 ^ w) : (padded w n).length = w := by
  have hle := (Nat.length_toDigits_le_iff (b := 10) (by decide) hw).2 h
  rw [padded, List.length_append, List.length_replicate]
  omega

theorem le_ofDigitChars (ds : List Char) (val : ℕ) : val ≤ Nat.ofDigitChars 10 ds val := by
  rw [Nat.ofDigitChars_eq_ofDigitChars_zero]
  have hpos : 0 < 10 ^ ds.length := Nat.pow_pos (by decide)
  have hle : val ≤ 10 ^ ds.length * val := Nat.le_mul_of_pos_left val hpos
  omega

theorem readDigits_append {upTo n val : ℕ} {ds rest : List Char}
    (hd : ∀ c ∈ ds, c.isDigit = true) (hn : ds.length ≤ n) (hval : Nat.ofDigitChars 10 ds val ≤ upTo)
    (hrest : ds.length = n ∨ ∀ c ∈ rest.head?, c.isDigit = false) :
    readDigits upTo n val (ds ++ rest) = (Nat.ofDigitChars 10 ds val, rest) := by
  induction ds generalizing n val with
  | nil =>
    rw [List.nil_append, Nat.ofDigitChars_nil]
    cases n with
    | zero => rfl
    | succ n =>
      cases rest with
      | nil => rfl
      | cons c rest =>
        have hc : c.isDigit = false := hrest.resolve_left (by simp) c rfl
        rw [readDigits, if_neg (by simp [hc])]
  | cons c ds ih =>
    cases n with
    | zero => exact absurd hn (by simp)
    | succ n =>
      rw [Nat.ofDigitChars_cons] at hval
      have hle := le_ofDigitChars ds (10 * val + (c.toNat - '0'.toNat))
      have hgo : val * 10 ≤ upTo ∧ c.isDigit = true := ⟨by omega, hd c List.mem_cons_self⟩
      rw [List.cons_append, readDigits, if_pos hgo, Nat.ofDigitChars_cons]
      refine ih (fun c hc => hd c (List.mem_cons_of_mem _ hc)) ?_ hval ?_
      · simpa using hn
      · simpa using hrest

/-- **A number is read back**, when it is in the range and its digits are as many as are read or are
followed by something else. -/
theorem getNumber_append {least upTo digits : ℕ} {ds : List Char} (rest : List Char) (hne : ds ≠ [])
    (hd : ∀ c ∈ ds, c.isDigit = true) (hn : ds.length ≤ digits)
    (hrest : ds.length = digits ∨ ∀ c ∈ rest.head?, c.isDigit = false)
    (hleast : least ≤ Nat.ofDigitChars 10 ds 0) (hupTo : Nat.ofDigitChars 10 ds 0 ≤ upTo) :
    getNumber least upTo digits (ds ++ rest) = some (Nat.ofDigitChars 10 ds 0, rest) := by
  cases ds with
  | nil => exact absurd rfl hne
  | cons c ds =>
    have hc : c.isDigit = true := hd c List.mem_cons_self
    have hblank : c ≠ ' ' := by
      rintro rfl
      cases hc
    have hdrop : (c :: ds ++ rest).dropWhile (· = ' ') = c :: (ds ++ rest) := by
      rw [List.cons_append, List.dropWhile_cons_of_neg (by simpa using hblank)]
    rw [List.length_cons] at hn hrest
    rw [Nat.ofDigitChars_cons, Nat.mul_zero, Nat.zero_add] at hleast hupTo ⊢
    have hread : readDigits upTo (digits - 1) (c.toNat - '0'.toNat) (ds ++ rest) =
        (Nat.ofDigitChars 10 ds (c.toNat - '0'.toNat), rest) :=
      readDigits_append (fun c hc => hd c (List.mem_cons_of_mem _ hc)) (by omega) hupTo
        (hrest.imp (by omega) id)
    unfold getNumber
    rw [hdrop]
    simp only [hc, if_true, hread]
    rw [if_pos ⟨hleast, hupTo⟩]

theorem sub_le_nine {c : Char} (h : c.isDigit = true) : c.toNat - '0'.toNat ≤ 9 := by
  exact Nat.sub_le_of_le_add (Char.isDigit_iff_toNat.1 h).2

theorem readDigits_lt (upTo n val : ℕ) (s : List Char) :
    (readDigits upTo n val s).1 < (val + 1) * 10 ^ n := by
  induction n generalizing val s with
  | zero => cases s <;> simp [readDigits]
  | succ n ih =>
    have hbase : val < (val + 1) * 10 ^ (n + 1) :=
      Nat.lt_of_lt_of_le (Nat.lt_succ_self val)
        (Nat.le_mul_of_pos_right _ (Nat.pow_pos (by decide)))
    cases s with
    | nil => exact hbase
    | cons c s =>
      rw [readDigits]
      split_ifs with h
      · have hdigit := sub_le_nine h.2
        refine Nat.lt_of_lt_of_le (ih _ _) ?_
        rw [Nat.pow_succ, Nat.mul_comm (10 ^ n), ← Nat.mul_assoc]
        exact Nat.mul_le_mul_right _ (by omega)
      · exact hbase

/-- **So many digits and no more.** A text that starts with a digit is read as a number below
`10 ^ digits`. -/
theorem getNumber_le (upTo digits : ℕ) (hdigits : 10 ^ (digits + 1) ≤ upTo + 1) {c : Char}
    (hc : c.isDigit = true) (s : List Char) :
    ∃ val rest, getNumber 0 upTo (digits + 1) (c :: s) = some (val, rest) ∧ val ≤ upTo := by
  have hblank : c ≠ ' ' := by
    rintro rfl
    cases hc
  have hdrop : (c :: s).dropWhile (· = ' ') = c :: s :=
    List.dropWhile_cons_of_neg (by simpa using hblank)
  obtain ⟨val, rest, hread⟩ : ∃ val rest, readDigits upTo digits (c.toNat - '0'.toNat) s = (val, rest) :=
    ⟨_, _, rfl⟩
  have hlt : val < (c.toNat - '0'.toNat + 1) * 10 ^ digits := by
    have h := readDigits_lt upTo digits (c.toNat - '0'.toNat) s
    rwa [hread] at h
  have hle : val ≤ upTo := by
    have hnine : (c.toNat - '0'.toNat + 1) * 10 ^ digits ≤ 10 * 10 ^ digits :=
      Nat.mul_le_mul_right _ (Nat.succ_le_succ (sub_le_nine hc))
    rw [Nat.pow_succ] at hdigits
    omega
  refine ⟨val, rest, ?_, hle⟩
  unfold getNumber
  rw [hdrop]
  simp only [hc, if_true, Nat.add_sub_cancel, hread]
  rw [if_pos ⟨Nat.zero_le _, hle⟩]

/-! ## Characters -/

theorem isSpace_of_lt {c : Char} (h : 32 < c.toNat) : isSpace c = false := by
  simp only [isSpace, decide_eq_false_iff_not, not_or, not_and, not_le]
  constructor
  · rintro rfl
    exact absurd h (by decide)
  · omega

/-! ## Names -/

/-- A letter, of either case. -/
def isLetter (c : Char) : Bool := c.toLower.isLower

/-- The text goes on with something that is no letter. -/
def NoLetter (s : List Char) : Prop := ∀ c ∈ s.head?, isLetter c = false

/-- A letter is behind the digits and the blanks. -/
theorem le_of_isLetter {c : Char} (h : isLetter c = true) : 65 ≤ c.toNat := by
  by_contra hlt
  have hupper : ¬(c.val ≥ 'A'.val ∧ c.val ≤ 'Z'.val) := fun hc =>
    hlt (UInt32.le_iff_toNat_le.1 hc.1)
  have hsame : c.toLower = c := dif_neg hupper
  have hlower : c.isLower = true := by rwa [isLetter, hsame] at h
  have hle : 'a'.toNat ≤ c.toNat := UInt32.le_iff_toNat_le.1 (of_decide_eq_true (Bool.and_eq_true_iff.1 hlower).1)
  have ha : 'a'.toNat = 97 := rfl
  omega

/-- Names of three letters at least, which are told apart by the first three of them. -/
structure Distinct (names : List (List Char)) : Prop where
  letters : ∀ name ∈ names, ∀ c ∈ name, isLetter c = true
  length : ∀ name ∈ names, 3 ≤ name.length
  nodup : (names.map fun name => (name.take 3).map Char.toLower).Nodup

theorem letters_of_all {names : List (List Char)} (h : names.all (fun name => name.all isLetter) = true) :
    ∀ name ∈ names, ∀ c ∈ name, isLetter c = true :=
  fun name hname => List.all_eq_true.1 (List.all_eq_true.1 h name hname)

theorem distinct_weekdays : Distinct weekdays := ⟨letters_of_all (by decide), by decide, by decide⟩

theorem distinct_months : Distinct months := ⟨letters_of_all (by decide), by decide, by decide⟩

/-- An abbreviation has three letters. -/
theorem Distinct.length_abbreviation {names : List (List Char)} (h : Distinct names) {i : ℕ}
    (hi : i < names.length) : (abbreviation names i).length = 3 := by
  rw [abbreviation, List.getD_eq_getElem _ _ hi, List.length_take]
  exact min_eq_left (h.length _ (List.getElem_mem hi))

theorem Distinct.isLetter_abbreviation {names : List (List Char)} (h : Distinct names) {i : ℕ}
    (hi : i < names.length) {c : Char} (hc : c ∈ abbreviation names i) : isLetter c = true := by
  rw [abbreviation, List.getD_eq_getElem _ _ hi] at hc
  exact h.letters _ (List.getElem_mem hi) c (List.mem_of_mem_take hc)

theorem dropName_self (name s : List Char) : dropName name (name ++ s) = some s := by
  induction name with
  | nil => rfl
  | cons n name ih => rw [List.cons_append, dropName, if_pos rfl, ih]

/-- A name that was found is what the text starts with, but for the case of the letters. -/
theorem map_toLower_of_dropName {name s rest : List Char} (h : dropName name s = some rest) :
    name.map Char.toLower <+: s.map Char.toLower := by
  induction name generalizing s with
  | nil => exact List.nil_prefix
  | cons n name ih =>
    cases s with
    | nil => cases h
    | cons c s =>
      rw [dropName] at h
      split_ifs at h with hc
      rw [List.map_cons, List.map_cons, hc]
      exact List.cons_prefix_cons.2 ⟨rfl, ih h⟩

/-- A text that goes on with no letter does not go on with the rest of a name. -/
theorem dropName_append (name tail : List Char) {s : List Char} {l : Char} (hl : isLetter l = true)
    (hs : NoLetter s) : dropName (name ++ l :: tail) (name ++ s) = none := by
  induction name with
  | nil =>
    cases s with
    | nil => rfl
    | cons c s =>
      have hne : l.toLower ≠ c.toLower := by
        intro heq
        have hc : isLetter c = false := hs c rfl
        rw [isLetter, ← heq] at hc
        exact absurd hl (Bool.eq_false_iff.1 hc)
      exact if_neg hne
  | cons n name ih =>
    rw [List.cons_append, List.cons_append, dropName, if_pos rfl, ih]

/-- The abbreviation of a name is found. -/
theorem dropEither_take {name s : List Char} (hname : ∀ c ∈ name, isLetter c = true) (hs : NoLetter s) :
    dropEither name (name.take 3 ++ s) = some s := by
  have hself := dropName_self (name.take 3) s
  rw [dropEither, hself]
  cases htail : name.drop 3 with
  | nil =>
    rw [List.take_of_length_le (List.drop_eq_nil_iff.1 htail)] at hself ⊢
    rw [hself]
    rfl
  | cons l tail =>
    have hl : isLetter l = true := hname l (List.mem_of_mem_drop (by rw [htail]; simp))
    have hnone := dropName_append (name.take 3) tail hl hs
    rw [← htail, List.take_append_drop] at hnone
    rw [hnone]
    rfl

/-- No other name is found where an abbreviation is. -/
theorem dropEither_of_ne {name other s : List Char} (hname : 3 ≤ name.length) (hother : 3 ≤ other.length)
    (hne : (name.take 3).map Char.toLower ≠ (other.take 3).map Char.toLower) :
    dropEither other (name.take 3 ++ s) = none := by
  have hpre : ∀ {n : List Char}, other.take 3 <+: n → dropName n (name.take 3 ++ s) = none := by
    intro n hn
    by_contra h
    obtain ⟨rest, hrest⟩ := Option.ne_none_iff_exists'.1 h
    have hle := (hn.map Char.toLower).trans (map_toLower_of_dropName hrest)
    rw [List.map_append] at hle
    refine hne (List.prefix_of_prefix_length_le hle (List.prefix_append _ _) ?_ |>.eq_of_length ?_).symm
    · simp only [List.length_map, List.length_take]
      omega
    · simp only [List.length_map, List.length_take]
      omega
  rw [dropEither, hpre (List.take_prefix 3 other), hpre List.prefix_rfl]
  rfl

/-- **A name is read back** from its abbreviation. -/
theorem findName_abbreviation {names : List (List Char)} (h : Distinct names) {i : ℕ}
    (hi : i < names.length) {s : List Char} (hs : NoLetter s) :
    findName names (abbreviation names i ++ s) = some (i, s) := by
  induction names generalizing i with
  | nil => exact absurd hi (Nat.not_lt_zero i)
  | cons name names ih =>
    rw [findName]
    cases i with
    | zero =>
      have hfound := dropEither_take (h.letters name List.mem_cons_self) hs
      rw [abbreviation, List.getD_cons_zero, hfound]
    | succ i =>
      have hi' : i < names.length := Nat.lt_of_succ_lt_succ hi
      have hmem : names.getD i [] ∈ names := by
        rw [List.getD_eq_getElem _ _ hi']
        exact List.getElem_mem hi'
      obtain ⟨hnot, hnodup⟩ := List.nodup_cons.1 h.nodup
      have hother : dropEither name ((names.getD i []).take 3 ++ s) = none := by
        refine dropEither_of_ne (h.length _ (List.mem_cons_of_mem _ hmem))
          (h.length name List.mem_cons_self) fun heq => hnot ?_
        exact List.mem_map.2 ⟨_, hmem, heq⟩
      have htail : Distinct names :=
        ⟨fun n hn => h.letters n (List.mem_cons_of_mem _ hn),
          fun n hn => h.length n (List.mem_cons_of_mem _ hn), hnodup⟩
      have hread := ih htail hi'
      rw [abbreviation] at hread ⊢
      rw [List.getD_cons_succ, hother, hread]
      rfl

/-! ## Formats -/

/-- The fields that a piece reads, taken from `tm`. -/
def Piece.copy (tm t : Tm) : Piece → Tm
  | text _ => t
  | conv 'a' => { t with wday := tm.wday }
  | conv 'b' => { t with mon := tm.mon }
  | conv 'd' => { t with mday := tm.mday }
  | conv 'Y' => { t with year := tm.year }
  | conv 'H' => { t with hour := tm.hour }
  | conv 'M' => { t with min := tm.min }
  | conv 'S' => { t with sec := tm.sec }
  | conv _ => t

/-- What the piece has written for `tm` can be read back, when `s` follows. -/
def Piece.Readable (tm : Tm) (s : List Char) : Piece → Prop
  | text c => isSpace c = true → ∀ d ∈ s.head?, isSpace d = false
  | conv 'a' | conv 'b' => NoLetter s
  | conv 'Y' => (0 ≤ tm.year + 1900 ∧ tm.year + 1900 ≤ 9999) ∧ ∀ c ∈ s.head?, c.isDigit = false
  | conv 'd' | conv 'H' | conv 'M' | conv 'S' => True
  | conv _ => False

/-- A number of two digits is read back, whatever follows it. -/
theorem getNumber_padded {least upTo n : ℕ} (hleast : least ≤ n) (hupTo : n ≤ upTo) (h : n < 10 ^ 2)
    (s : List Char) : getNumber least upTo 2 (padded 2 n ++ s) = some (n, s) := by
  have hvalue := ofDigitChars_padded 2 n
  have hlength := length_padded (w := 2) (by decide) h
  have hread := getNumber_append s (padded_ne_nil 2 n) (fun c => isDigit_padded) hlength.le
    (Or.inl hlength) (hleast.trans_eq hvalue.symm) (hvalue.trans_le hupTo)
  rw [hread, hvalue]

/-- A number is read back that something else follows. -/
theorem getNumber_decimal {upTo digits : ℕ} {x : ℤ} (h₀ : 0 ≤ x) (hupTo : x ≤ upTo)
    (h : x.natAbs < 10 ^ (digits + 1)) {s : List Char} (hs : ∀ c ∈ s.head?, c.isDigit = false) :
    getNumber 0 upTo (digits + 1) (decimal x ++ s) = some (x.natAbs, s) := by
  have hvalue : Nat.ofDigitChars 10 (Nat.toDigits 10 x.natAbs) 0 = x.natAbs :=
    Nat.ofDigitChars_toDigits (by decide) (by decide)
  have hlength := (Nat.length_toDigits_le_iff (b := 10) (by decide) (Nat.succ_pos digits)).2 h
  have hread := getNumber_append s Nat.toDigits_ne_nil
    (fun c => Nat.isDigit_of_mem_toDigits (b := 10) (by decide) (by decide)) hlength (Or.inr hs)
    (Nat.zero_le _) (hvalue.trans_le (by omega : x.natAbs ≤ upTo))
  rw [decimal, if_neg (not_lt.2 h₀), hread, hvalue]

/-- **A piece of a format reads what it has written.** -/
theorem readPiece_show {tm t : Tm} (h : tm.InRange) {p : Piece} {s : List Char}
    (hp : p.Readable tm s) : readPiece t (p.show tm ++ s) p = some (p.copy tm t, s) := by
  unfold Piece.Readable at hp
  split at hp
  · next c =>
    by_cases hc : isSpace c = true
    · have hdrop : (c :: s).dropWhile isSpace = s := by
        rw [List.dropWhile_cons_of_pos hc]
        cases s with
        | nil => rfl
        | cons d s => exact List.dropWhile_cons_of_neg (by rw [hp hc d rfl]; exact Bool.false_ne_true)
      show (if isSpace c then some (t, (c :: s).dropWhile isSpace) else _) = _
      rw [if_pos hc, hdrop]
      rfl
    · show (if isSpace c then _ else if c = c then some (t, s) else none) = _
      rw [if_neg hc, if_pos rfl]
      rfl
  · show (findName weekdays (abbreviation weekdays tm.wday ++ s)).map _ = _
    rw [findName_abbreviation distinct_weekdays h.wday hp]
    rfl
  · show (findName months (abbreviation months tm.mon ++ s)).map _ = _
    rw [findName_abbreviation distinct_months h.mon hp]
    rfl
  · obtain ⟨⟨h₀, hyear⟩, hs⟩ := hp
    show (getNumber 0 9999 4 (decimal (tm.year + 1900) ++ s)).map _ = _
    rw [getNumber_decimal h₀ hyear (by omega) hs, Option.map_some]
    have hback : ((tm.year + 1900).natAbs : ℤ) - 1900 = tm.year := by omega
    simp only [hback]
    rfl
  · show (getNumber 1 31 2 (padded 2 tm.mday ++ s)).map _ = _
    have hmax := h.mday.2
    rw [getNumber_padded h.mday.1 hmax (by omega)]
    rfl
  · show (getNumber 0 23 2 (padded 2 tm.hour ++ s)).map _ = _
    have hmax := h.hour
    rw [getNumber_padded (Nat.zero_le _) hmax (by omega)]
    rfl
  · show (getNumber 0 59 2 (padded 2 tm.min ++ s)).map _ = _
    have hmax := h.min
    rw [getNumber_padded (Nat.zero_le _) hmax (by omega)]
    rfl
  · show (getNumber 0 61 2 (padded 2 tm.sec ++ s)).map _ = _
    have hmax := h.sec
    rw [getNumber_padded (Nat.zero_le _) hmax (by omega)]
    rfl
  · exact hp.elim

/-- Every piece can be read back, when `s` follows the last one. -/
def Readable (tm : Tm) (s : List Char) : List Piece → Prop
  | [] => True
  | p :: ps => p.Readable tm (format ps tm ++ s) ∧ Readable tm s ps

theorem format_cons (p : Piece) (ps : List Piece) (tm : Tm) (s : List Char) :
    format (p :: ps) tm ++ s = p.show tm ++ (format ps tm ++ s) := by
  rw [format, List.flatMap_cons, List.append_assoc]
  rfl

theorem format_append (ps qs : List Piece) (tm : Tm) : format (ps ++ qs) tm = format ps tm ++ format qs tm :=
  List.flatMap_append

theorem readable_append {tm : Tm} {s : List Char} {ps qs : List Piece}
    (hps : Readable tm (format qs tm ++ s) ps) (hqs : Readable tm s qs) : Readable tm s (ps ++ qs) := by
  induction ps with
  | nil => exact hqs
  | cons p ps ih =>
    have hp : p.Readable tm (format ps tm ++ (format qs tm ++ s)) := hps.1
    rw [← List.append_assoc, ← format_append] at hp
    exact ⟨hp, ih hps.2⟩

/-- A format starts as its first piece does. -/
theorem mem_of_head_format {p : Piece} {ps : List Piece} {tm : Tm} {s : List Char} {c : Char}
    (hp : p.show tm ≠ []) (hc : c ∈ (format (p :: ps) tm ++ s).head?) : c ∈ p.show tm := by
  rw [format_cons] at hc
  cases hshow : p.show tm with
  | nil => exact absurd hshow hp
  | cons d ds =>
    rw [hshow] at hc
    cases hc
    exact List.mem_cons_self

/-- **A format reads what it has written**, also as the beginning of a longer one. -/
theorem strptime_format (qs : List Piece) {tm : Tm} (h : tm.InRange) {ps : List Piece} {s : List Char}
    (hps : Readable tm s ps) (t : Tm) :
    strptime (ps ++ qs) (format ps tm ++ s) t =
      strptime qs s (ps.foldl (fun t p => p.copy tm t) t) := by
  induction ps generalizing t with
  | nil => rfl
  | cons p ps ih =>
    have hread : readPiece t (p.show tm ++ (format ps tm ++ s)) p =
        some (p.copy tm t, format ps tm ++ s) :=
      readPiece_show h hps.1
    rw [format_cons, List.cons_append, strptime, hread]
    exact ih hps.2 _

theorem year_readPiece {p : Piece} (hp : p ≠ .conv 'Y') {tm : Tm} {s : List Char} {r : Tm × List Char}
    (h : readPiece tm s p = some r) : r.1.year = tm.year := by
  unfold readPiece at h
  split at h
  · split_ifs at h
    · cases h
      rfl
    · split at h
      · split_ifs at h
        cases h
        rfl
      · cases h
  · obtain ⟨q, -, rfl⟩ := Option.map_eq_some_iff.1 h
    rfl
  · obtain ⟨q, -, rfl⟩ := Option.map_eq_some_iff.1 h
    rfl
  · obtain ⟨q, -, rfl⟩ := Option.map_eq_some_iff.1 h
    rfl
  · exact absurd rfl hp
  · obtain ⟨q, -, rfl⟩ := Option.map_eq_some_iff.1 h
    rfl
  · obtain ⟨q, -, rfl⟩ := Option.map_eq_some_iff.1 h
    rfl
  · obtain ⟨q, -, rfl⟩ := Option.map_eq_some_iff.1 h
    rfl
  · cases h

/-- Only `%Y` sets the year. -/
theorem year_strptime {ps : List Piece} (hps : Piece.conv 'Y' ∉ ps) (s : List Char) (tm : Tm) :
    (strptime ps s tm).1.year = tm.year := by
  induction ps generalizing s tm with
  | nil => rfl
  | cons p ps ih =>
    rw [strptime]
    cases hread : readPiece tm s p with
    | none => rfl
    | some r =>
      have hp : p ≠ .conv 'Y' := fun h => hps (h ▸ List.mem_cons_self)
      exact (ih (fun h => hps (List.mem_cons_of_mem p h)) r.2 r.1).trans (year_readPiece hp hread)

end LinuxDemo.Strftime
