import Revoq.PageNames

/-! # Parsing numbers

`StringUtils::parseInt` and the scan of `StringUtils::fast_parse_double`.  Neither bounds
the number of digits it accepts.

Signed arithmetic that overflows is undefined, so a call that overflows has no result
here; `mantissa` is unsigned and wraps.
-/
namespace Revoq
namespace StringUtils

/-! ## parseInt -/

/-- A value of signed 64-bit arithmetic; there is none if the arithmetic overflows. -/
def int64 (n : Int) : Option Int := if -2 ^ 63 ≤ n ∧ n < 2 ^ 63 then some n else none

/-- The digit loop of `parseInt`; it has the inner `none` where the loop returns `false`. -/
def parseDigits : List Char → Int → Option (Option Int)
  | [], result => some (some result)
  | c :: cs, result =>
      if c < '0' ∨ '9' < c then some none
      else do
        -- the product and the sum can overflow each on its own
        let scaled ← int64 (result * 10)
        let next ← int64 (scaled + (c.toNat - '0'.toNat : Nat))
        parseDigits cs next

/-- `StringUtils::parseInt`: the value of `out` if it returns `true`. -/
def parseInt (s : List Char) : Option (Option Int) :=
  match s with
  | [] => some none
  | first :: rest =>
      let negative := decide (first = '-')
      let digits := if first = '-' then rest else if first = '+' then rest else s
      if digits = [] then some none
      -- the magnitude is computed first, so that of the least `int64_t` overflows
      else do
        match ← parseDigits digits 0 with
        | none => some none
        | some result => if negative then (int64 (-result)).map some else some (some result)

/-- The string is an optional sign before one or more decimal digits, with value `n`. -/
def IsInteger (s : List Char) (n : Int) : Prop :=
  ∃ sign digits, s = sign ++ digits ∧ (sign = [] ∨ sign = ['+'] ∨ sign = ['-']) ∧
    digits ≠ [] ∧ (∀ c ∈ digits, c.isDigit) ∧
    n = (if sign = ['-'] then -1 else 1) * (Nat.ofDigitChars 10 digits 0 : Int)

/-- What `parseInt` is for: nothing overflows, and it accepts exactly the integers that
fit `int64_t`, with their value. -/
def ParsesExactly (s : List Char) : Prop :=
  (∃ r, parseInt s = some r) ∧
    ∀ n, parseInt s = some (some n) ↔ IsInteger s n ∧ -2 ^ 63 ≤ n ∧ n < 2 ^ 63

/-- The digits behind the sign, up to the first character that is none. -/
def digitRun (s : List Char) : List Char := (takeSign s).2.takeWhile Char.isDigit

theorem isDigit_iff {c : Char} : c.isDigit = true ↔ ¬(c < '0' ∨ '9' < c) := by
  simp [Char.isDigit, Char.lt_def, UInt32.not_lt]

theorem le_ofDigitChars (cs : List Char) (init : Nat) : init ≤ Nat.ofDigitChars 10 cs init := by
  induction cs generalizing init with
  | nil => rw [Nat.ofDigitChars_nil]
  | cons c cs ih =>
    rw [Nat.ofDigitChars_cons]
    exact le_trans (by omega) (ih _)

theorem int64_of_lt {n : Nat} (h : n < 2 ^ 63) : int64 n = some (n : Int) := by
  unfold int64
  rw [if_pos (by omega)]

theorem int64_of_ge {n : Nat} (h : 2 ^ 63 ≤ n) : int64 n = none := by
  unfold int64
  rw [if_neg (by omega)]

/-- One more digit; the arithmetic overflows at the product or at the sum. -/
theorem int64_push (result digit : Nat) :
    ((int64 ((result : Int) * 10)).bind fun scaled => int64 (scaled + digit)) =
      if 10 * result + digit < 2 ^ 63 then some ((10 * result + digit : Nat) : Int) else none := by
  have hproduct : (result : Int) * 10 = (10 * result : Nat) := by
    push_cast
    ring
  rw [hproduct]
  by_cases hsum : 10 * result + digit < 2 ^ 63
  · rw [int64_of_lt (by omega), if_pos hsum, Option.bind_some, ← Nat.cast_add, int64_of_lt hsum]
  · rw [if_neg hsum]
    by_cases htimes : 10 * result < 2 ^ 63
    · rw [int64_of_lt htimes, Option.bind_some, ← Nat.cast_add, int64_of_ge (by omega)]
    · rw [int64_of_ge (by omega), Option.bind_none]

/-- One turn of the digit loop. -/
theorem parseDigits_cons {c : Char} (hc : c.isDigit) (cs : List Char) (result : Nat) :
    parseDigits (c :: cs) result =
      if 10 * result + (c.toNat - '0'.toNat) < 2 ^ 63 then
        parseDigits cs (10 * result + (c.toNat - '0'.toNat) : Nat)
      else none := by
  rw [parseDigits, if_neg (isDigit_iff.mp hc)]
  simp only [Option.bind_eq_bind]
  rw [← Option.bind_assoc, int64_push]
  split
  · rw [Option.bind_some]
  · rw [Option.bind_none]

/-- **The digit loop**: it overflows if the digits it reads have a value from `2 ^ 63` on;
otherwise it ends with the value, or at a character that is no digit. -/
theorem parseDigits_eq (cs : List Char) {result : Nat} (h : result < 2 ^ 63) :
    parseDigits cs result =
      if Nat.ofDigitChars 10 (cs.takeWhile Char.isDigit) result < 2 ^ 63 then
        some (if cs.all Char.isDigit then some (Nat.ofDigitChars 10 cs result : Int) else none)
      else none := by
  induction cs generalizing result with
  | nil =>
    rw [List.takeWhile_nil, Nat.ofDigitChars_nil, if_pos h, List.all_nil, if_pos rfl]
    rfl
  | cons c cs ih =>
    by_cases hc : c.isDigit
    · have hall : (c :: cs).all Char.isDigit = cs.all Char.isDigit := by
        rw [List.all_cons, hc, Bool.true_and]
      rw [parseDigits_cons hc, List.takeWhile_cons_of_pos hc, Nat.ofDigitChars_cons,
        Nat.ofDigitChars_cons]
      have hmono := le_ofDigitChars (cs.takeWhile Char.isDigit)
        (10 * result + (c.toNat - '0'.toNat))
      by_cases hnext : 10 * result + (c.toNat - '0'.toNat) < 2 ^ 63
      · rw [if_pos hnext, ih hnext, hall]
      · rw [if_neg hnext, if_neg (by omega)]
    · have hnot : ¬(c :: cs).all Char.isDigit = true := fun hall =>
        hc (List.all_eq_true.mp hall c List.mem_cons_self)
      rw [parseDigits, if_pos (not_not.mp (mt isDigit_iff.mpr hc)), List.takeWhile_cons_of_neg hc,
        Nat.ofDigitChars_nil, if_pos h, if_neg hnot]

theorem takeSign_cases (s : List Char) :
    ∃ sign, s = sign ++ (takeSign s).2 ∧ (sign = [] ∨ sign = ['+'] ∨ sign = ['-']) ∧
      (takeSign s).1 = if sign = ['-'] then -1 else 1 := by
  unfold takeSign
  split
  · exact ⟨['-'], rfl, .inr (.inr rfl), rfl⟩
  · exact ⟨['+'], rfl, .inr (.inl rfl), rfl⟩
  · exact ⟨[], rfl, .inl rfl, rfl⟩

theorem isInteger_iff {s : List Char} {n : Int} :
    IsInteger s n ↔ (takeSign s).2 ≠ [] ∧ (∀ c ∈ (takeSign s).2, c.isDigit) ∧
      n = (takeSign s).1 * (Nat.ofDigitChars 10 (takeSign s).2 0 : Int) := by
  constructor
  · rintro ⟨sign, digits, rfl, hsign, hne, hall, rfl⟩
    have htake : takeSign (sign ++ digits) = (if sign = ['-'] then -1 else 1, digits) := by
      rcases hsign with rfl | rfl | rfl
      · obtain ⟨c, cs, rfl⟩ := List.exists_cons_of_ne_nil hne
        exact takeSign_of_digit (hall c List.mem_cons_self)
      · rfl
      · rfl
    rw [htake]
    exact ⟨hne, hall, rfl⟩
  · rintro ⟨hne, hall, rfl⟩
    obtain ⟨sign, hs, hsign, hone⟩ := takeSign_cases s
    exact ⟨sign, _, hs, hsign, hne, hall, by rw [hone]⟩

/-- The sign is handled as in `std::stoi`. -/
theorem parseInt_takeSign (s : List Char) :
    parseInt s = if (takeSign s).2 = [] then some none else
      (parseDigits (takeSign s).2 0).bind fun
        | none => some none
        | some result => if (takeSign s).1 = -1 then (int64 (-result)).map some
            else some (some result) := by
  unfold takeSign
  split
  · rfl
  · rfl
  · rename_i hminus hplus
    cases s with
    | nil => rfl
    | cons first rest =>
      have hm : first ≠ '-' := fun h => hminus rest (by rw [h])
      have hp : first ≠ '+' := fun h => hplus rest (by rw [h])
      simp only [parseInt, hm, hp, if_false, decide_false]
      rfl

theorem parseInt_eq (s : List Char) :
    parseInt s = if Nat.ofDigitChars 10 (digitRun s) 0 < 2 ^ 63 then
        some (if (takeSign s).2 ≠ [] ∧ (takeSign s).2.all Char.isDigit then
          some ((takeSign s).1 * (Nat.ofDigitChars 10 (takeSign s).2 0 : Int)) else none)
      else none := by
  obtain ⟨sign, -, -, hone⟩ := takeSign_cases s
  rw [parseInt_takeSign, digitRun]
  generalize (takeSign s).1 = one at hone
  generalize (takeSign s).2 = digits
  by_cases hne : digits = []
  · subst hne
    rfl
  · rw [if_neg hne, ← Nat.cast_zero, parseDigits_eq digits (by decide)]
    by_cases hlt : Nat.ofDigitChars 10 (digits.takeWhile Char.isDigit) 0 < 2 ^ 63
    · rw [if_pos hlt, if_pos hlt, Option.bind_some]
      by_cases hall : digits.all Char.isDigit
      · rw [List.takeWhile_eq_self_iff.mpr (List.all_eq_true.mp hall)] at hlt
        rw [if_pos hall, if_pos ⟨hne, hall⟩]
        by_cases hsign : sign = ['-']
        · rw [if_pos hsign] at hone
          have hneg : int64 (-(Nat.ofDigitChars 10 digits 0 : Int)) =
              some (-(Nat.ofDigitChars 10 digits 0 : Int)) := by
            unfold int64
            rw [if_pos (by omega)]
          simp only [hone, if_true, hneg, Option.map_some, neg_one_mul]
        · rw [if_neg hsign] at hone
          have hpos : ¬(1 : Int) = -1 := by decide
          simp only [hone, hpos, if_false, one_mul]
      · rw [if_neg hall, if_neg fun h => hall h.2]
    · rw [if_neg hlt, if_neg hlt, Option.bind_none]

/-- **`parseInt` is exact below `2 ^ 63`.**  It overflows as soon as the digits behind the
sign have a larger value, and on every other string it accepts exactly the integers that
fit `int64_t`. -/
theorem parseInt_exact_iff (s : List Char) :
    ParsesExactly s ↔ Nat.ofDigitChars 10 (digitRun s) 0 < 2 ^ 63 := by
  constructor
  · rintro ⟨⟨r, hr⟩, -⟩
    by_contra hge
    rw [parseInt_eq, if_neg hge] at hr
    cases hr
  · intro hlt
    have hparse := parseInt_eq s
    rw [if_pos hlt] at hparse
    refine ⟨⟨_, hparse⟩, fun n => ?_⟩
    rw [hparse, Option.some.injEq, isInteger_iff]
    by_cases hdigits : (takeSign s).2 ≠ [] ∧ (takeSign s).2.all Char.isDigit
    · have hall := List.all_eq_true.mp hdigits.2
      rw [if_pos hdigits, Option.some.injEq]
      rw [digitRun, List.takeWhile_eq_self_iff.mpr hall] at hlt
      obtain ⟨sign, -, -, hone⟩ := takeSign_cases s
      have hrange : -2 ^ 63 ≤ (takeSign s).1 * (Nat.ofDigitChars 10 (takeSign s).2 0 : Int) ∧
          (takeSign s).1 * (Nat.ofDigitChars 10 (takeSign s).2 0 : Int) < 2 ^ 63 := by
        rw [hone]
        split <;> omega
      constructor
      · rintro rfl
        exact ⟨⟨hdigits.1, hall, rfl⟩, hrange⟩
      · exact fun h => h.1.2.2.symm
    · rw [if_neg hdigits]
      constructor
      · intro h
        cases h
      · exact fun h => absurd ⟨h.1.1, List.all_eq_true.mpr h.1.2.1⟩ hdigits

/-- The least `int64_t` is an integer that fits, and `parseInt` overflows on it. -/
theorem least_int64_overflows :
    IsInteger "-9223372036854775808".toList (-2 ^ 63) ∧
      parseInt "-9223372036854775808".toList = none ∧
      ¬ParsesExactly "-9223372036854775808".toList := by
  have hover : parseInt "-9223372036854775808".toList = none := by decide
  have hdigits : "9223372036854775808".toList.all Char.isDigit = true := by decide
  refine ⟨isInteger_iff.mpr ⟨by decide, List.all_eq_true.mp hdigits, by decide⟩, hover, ?_⟩
  rintro ⟨⟨r, hr⟩, -⟩
  rw [hover] at hr
  cases hr

/-! ## fast_parse_double

The scan, up to the conversion of the mantissa: the product with the entry of
`pow10_negative` is floating point and is left out. -/

/-- The variables of the scan. -/
structure PriceScan where
  /-- `sign`. -/
  sign : Int := 1
  /-- `mantissa`. -/
  mantissa : UInt64 := 0
  /-- `decimals`, which is `-1` before the point. -/
  decimals : Int := -1
  /-- The digits read so far. -/
  digits : List Char := []
  /-- The offsets that have been read. -/
  reads : List Nat := []
deriving DecidableEq, Repr

/-- A read at offset `p`. -/
def PriceScan.read (st : PriceScan) (p : Nat) : PriceScan := { st with reads := st.reads ++ [p] }

/-- `mantissa = mantissa * 10 + (c - '0')`. -/
def PriceScan.push (st : PriceScan) (c : Char) : PriceScan :=
  { st with
    mantissa := st.mantissa * 10 + UInt64.ofNat (c.toNat - '0'.toNat)
    digits := st.digits ++ [c] }

/-- The hot loop at offset `p`, with the rest of the range in front of it.  Counting the
decimals overflows an `int` in the end. -/
def scanPrice : List Char → Nat → PriceScan → Option PriceScan
  | [], _, st => some st
  | c :: cs, p, st =>
      if '0' ≤ c ∧ c ≤ '9' then
        if 0 ≤ st.decimals then
          if st.decimals < (intMax : Int) then
            scanPrice cs (p + 1) { (st.read p).push c with decimals := st.decimals + 1 }
          else none
        else scanPrice cs (p + 1) ((st.read p).push c)
      else if c = '.' ∧ st.decimals < 0 then scanPrice cs (p + 1) { st.read p with decimals := 0 }
      else some (st.read p)

/-- `StringUtils::fast_parse_double` on the range that holds `s`, where `next` is the byte
behind it: the first byte is read before the length is looked at. -/
def fastParseDouble (next : Char) (s : List Char) : Option PriceScan :=
  let st := { reads := [0] }
  if s.headD next = '-' then scanPrice (s.drop 1) 1 { st with sign := -1 } else scanPrice s 0 st

/-- The index into `pow10_negative`, if the mantissa is scaled. -/
def PriceScan.index (st : PriceScan) : Option Int :=
  if st.decimals ≤ 0 then none else some st.decimals

/-- What the scan is safe for: it reads inside the range, indexes inside the table of 16
entries, and the mantissa is the value of the digits. -/
def ScansSafely (next : Char) (s : List Char) : Prop :=
  ∃ r, fastParseDouble next s = some r ∧ (∀ i ∈ r.reads, i < s.length) ∧
    (∀ i, r.index = some i → i < 16) ∧ r.mantissa.toNat = Nat.ofDigitChars 10 r.digits 0

/-- The range behind its sign. -/
def unsignedPart : List Char → List Char
  | '-' :: cs => cs
  | cs => cs

/-- The digits before the point. -/
def wholeDigits (cs : List Char) : List Char := cs.takeWhile Char.isDigit

/-- The digits behind the point. -/
def fractionDigits (cs : List Char) : List Char :=
  match cs.dropWhile Char.isDigit with
  | '.' :: rest => rest.takeWhile Char.isDigit
  | _ => []

theorem isDigit_iff_between {c : Char} : c.isDigit = true ↔ '0' ≤ c ∧ c ≤ '9' := by
  rw [isDigit_iff, not_or, Char.not_lt, Char.not_lt]

/-- The mantissa is the value of the digits modulo `2 ^ 64`. -/
def PriceScan.Wraps (st : PriceScan) : Prop :=
  st.mantissa.toNat = Nat.ofDigitChars 10 st.digits 0 % 2 ^ 64

theorem PriceScan.Wraps.push {st : PriceScan} (h : st.Wraps) (c : Char) : (st.push c).Wraps := by
  have hvalue : Nat.ofDigitChars 10 (st.digits ++ [c]) 0 =
      10 * Nat.ofDigitChars 10 st.digits 0 + (c.toNat - '0'.toNat) := by
    rw [Nat.ofDigitChars_append, Nat.ofDigitChars_cons, Nat.ofDigitChars_nil]
  have hmantissa : st.mantissa.toNat = Nat.ofDigitChars 10 st.digits 0 % 2 ^ 64 := h
  simp only [PriceScan.Wraps, PriceScan.push, hvalue, UInt64.toNat_add, UInt64.toNat_mul,
    UInt64.toNat_ofNat', hmantissa]
  generalize Nat.ofDigitChars 10 st.digits 0 = value
  generalize c.toNat - '0'.toNat = digit
  have hten : (10 : UInt64).toNat = 10 := rfl
  rw [hten]
  omega

/-- The reads of a loop that is at offset `p` with `n` bytes in front of it: all of them are
kept, and new ones are inside the range. -/
def ReadsInside (reads : List Nat) (p n : Nat) (reads' : List Nat) : Prop :=
  (∀ i ∈ reads, i ∈ reads') ∧ ∀ i ∈ reads', i ∈ reads ∨ i < p + n

theorem ReadsInside.step {reads reads' : List Nat} {p n : Nat}
    (h : ReadsInside (reads ++ [p]) (p + 1) n reads') : ReadsInside reads p (n + 1) reads' := by
  obtain ⟨hkept, hnew⟩ := h
  refine ⟨fun i hi => hkept i (List.mem_append_left _ hi), fun i hi => ?_⟩
  rcases hnew i hi with hold | hlt
  · rcases List.mem_append.mp hold with hold | hp
    · exact .inl hold
    · rw [List.mem_singleton] at hp
      exact .inr (by omega)
  · exact .inr (by omega)

/-- **What the loop keeps**: the mantissa is the value of the digits modulo `2 ^ 64`, and
the reads are inside the range. -/
theorem scanPrice_keeps {cs : List Char} {p : Nat} {st r : PriceScan}
    (h : scanPrice cs p st = some r) (hwraps : st.Wraps) :
    r.Wraps ∧ ReadsInside st.reads p cs.length r.reads := by
  fun_induction scanPrice cs p st with
  | case1 p st =>
    cases h
    exact ⟨hwraps, fun i hi => hi, fun i hi => .inl hi⟩
  | case2 c cs p st hc hdec hlt ih =>
    obtain ⟨hr, hreads⟩ := ih h (hwraps.push c)
    exact ⟨hr, hreads.step⟩
  | case3 => cases h
  | case4 c cs p st hc hdec ih =>
    obtain ⟨hr, hreads⟩ := ih h (hwraps.push c)
    exact ⟨hr, hreads.step⟩
  | case5 c cs p st hc hdot ih =>
    obtain ⟨hr, hreads⟩ := ih h hwraps
    exact ⟨hr, hreads.step⟩
  | case6 c cs p st hc hdot =>
    cases h
    refine ⟨hwraps, ReadsInside.step ⟨fun i hi => hi, fun i hi => .inl hi⟩⟩

/-- The loop behind the point. -/
theorem scanPrice_fraction (cs : List Char) (p : Nat) {st : PriceScan} {k : Nat}
    (hk : st.decimals = k) (hmax : k ≤ intMax) :
    (k + (cs.takeWhile Char.isDigit).length ≤ intMax ∧ ∃ r, scanPrice cs p st = some r ∧
        r.decimals = (k + (cs.takeWhile Char.isDigit).length : Nat) ∧
        r.digits = st.digits ++ cs.takeWhile Char.isDigit) ∨
      intMax < k + (cs.takeWhile Char.isDigit).length ∧ scanPrice cs p st = none := by
  induction cs generalizing p st k with
  | nil => exact .inl ⟨hmax, st, rfl, hk, by simp⟩
  | cons c cs ih =>
    rw [scanPrice]
    by_cases hc : c.isDigit
    · rw [if_pos (isDigit_iff_between.mp hc), if_pos (by omega), List.takeWhile_cons_of_pos hc,
        List.length_cons]
      by_cases hlt : k < intMax
      · rw [if_pos (by omega)]
        have hnext :
            ({ (st.read p).push c with decimals := st.decimals + 1 } : PriceScan).decimals =
            (k + 1 : Nat) := by
          push_cast
          omega
        rcases ih (p + 1) hnext hlt with ⟨hle, r, hr, hdec, hdigits⟩ | ⟨hgt, hr⟩
        · refine .inl ⟨by omega, r, hr, by rw [hdec]; omega, ?_⟩
          rw [hdigits]
          simp [PriceScan.push, PriceScan.read]
        · exact .inr ⟨by omega, hr⟩
      · rw [if_neg (by omega)]
        exact .inr ⟨by omega, rfl⟩
    · rw [if_neg (mt isDigit_iff_between.mpr hc), if_neg (by omega), List.takeWhile_cons_of_neg hc]
      exact .inl ⟨hmax, _, rfl, hk, by simp [PriceScan.read]⟩

/-- The loop from the sign on: it ends behind the digits, unless there are more decimals
than an `int` counts. -/
theorem scanPrice_whole (cs : List Char) (p : Nat) {st : PriceScan} (hst : st.decimals < 0) :
    ((fractionDigits cs).length ≤ intMax ∧ ∃ r, scanPrice cs p st = some r ∧
        r.index = (if fractionDigits cs = [] then none
          else some ((fractionDigits cs).length : Int)) ∧
        r.digits = st.digits ++ (wholeDigits cs ++ fractionDigits cs)) ∨
      intMax < (fractionDigits cs).length ∧ scanPrice cs p st = none := by
  induction cs generalizing p st with
  | nil =>
    refine .inl ⟨Nat.zero_le _, st, rfl, if_pos (by omega), ?_⟩
    simp [wholeDigits, fractionDigits]
  | cons c cs ih =>
    rw [scanPrice]
    by_cases hc : c.isDigit
    · have hwhole : wholeDigits (c :: cs) = c :: wholeDigits cs := List.takeWhile_cons_of_pos hc
      have hfraction : fractionDigits (c :: cs) = fractionDigits cs := by
        rw [fractionDigits, List.dropWhile_cons_of_pos hc]
        rfl
      rw [if_pos (isDigit_iff_between.mp hc), if_neg (by omega), hwhole, hfraction]
      rcases ih (p + 1) (show ((st.read p).push c).decimals < 0 from hst)
        with ⟨hle, r, hr, hindex, hdigits⟩ | hover
      · refine .inl ⟨hle, r, hr, hindex, ?_⟩
        rw [hdigits]
        simp [PriceScan.push, PriceScan.read]
      · exact .inr hover
    · have hwhole : wholeDigits (c :: cs) = [] := List.takeWhile_cons_of_neg hc
      rw [if_neg (mt isDigit_iff_between.mpr hc), hwhole, List.nil_append]
      by_cases hdot : c = '.'
      · have hfraction : fractionDigits (c :: cs) = cs.takeWhile Char.isDigit := by
          rw [fractionDigits, List.dropWhile_cons_of_neg hc, hdot]
          rfl
        rw [if_pos ⟨hdot, hst⟩, hfraction]
        have hzero : ({ st.read p with decimals := 0 } : PriceScan).decimals = (0 : Nat) := rfl
        rcases scanPrice_fraction cs (p + 1) hzero (Nat.zero_le _)
          with ⟨hle, r, hr, hdec, hdigits⟩ | ⟨hgt, hr⟩
        · refine .inl ⟨by omega, r, hr, ?_, hdigits⟩
          rw [Nat.zero_add] at hdec
          rw [PriceScan.index, hdec]
          simp only [← List.length_eq_zero_iff]
          split <;> split <;> first | rfl | omega
        · exact .inr ⟨by omega, hr⟩
      · have hfraction : fractionDigits (c :: cs) = [] := by
          rw [fractionDigits, List.dropWhile_cons_of_neg hc]
          split
          · rename_i heq
            exact absurd (List.cons.inj heq).1 hdot
          · rfl
        rw [if_neg fun h => hdot h.1, hfraction]
        exact .inl ⟨Nat.zero_le _, _, rfl,
          if_pos (show st.decimals ≤ 0 by omega), by simp [PriceScan.read]⟩

/-- The call is the loop behind the sign, after a read of offset 0. -/
theorem fastParseDouble_scan (next : Char) (s : List Char) :
    ∃ p st, fastParseDouble next s = scanPrice (unsignedPart s) p st ∧
      st.Wraps ∧ st.decimals < 0 ∧ st.digits = [] ∧ st.reads = [0] ∧
      (s ≠ [] → p + (unsignedPart s).length = s.length) := by
  cases s with
  | nil =>
    by_cases hnext : next = '-'
    · exact ⟨1, { sign := -1, reads := [0] }, if_pos hnext, rfl, by decide, rfl, rfl,
        fun h => absurd rfl h⟩
    · exact ⟨0, { reads := [0] }, if_neg hnext, rfl, by decide, rfl, rfl, fun h => absurd rfl h⟩
  | cons c cs =>
    by_cases hc : c = '-'
    · subst hc
      exact ⟨1, { sign := -1, reads := [0] }, rfl, rfl, by decide, rfl, rfl,
        fun _ => Nat.add_comm ..⟩
    · have hpart : unsignedPart (c :: cs) = c :: cs := by
        unfold unsignedPart
        split
        · rename_i heq
          exact absurd (List.cons.inj heq).1 hc
        · rfl
      rw [hpart]
      exact ⟨0, { reads := [0] }, if_neg hc, rfl, by decide, rfl, rfl, fun _ => Nat.zero_add _⟩

/-- **`fast_parse_double` is safe on ranges that are not empty, with at most 15 decimals
and digits whose value fits 64 bits**, and on no others. -/
theorem fast_parse_double_safe_iff (next : Char) (s : List Char) :
    ScansSafely next s ↔ s ≠ [] ∧ (fractionDigits (unsignedPart s)).length ≤ 15 ∧
      Nat.ofDigitChars 10 (wholeDigits (unsignedPart s) ++ fractionDigits (unsignedPart s))
        0 < 2 ^ 64 := by
  obtain ⟨p, st, hcall, hwraps, hdec, hdigits, hreads, hlength⟩ := fastParseDouble_scan next s
  rw [ScansSafely, hcall]
  rcases scanPrice_whole (unsignedPart s) p hdec with ⟨hle, r, hr, hindex, hrdigits⟩ | ⟨hgt, hnone⟩
  · rw [hdigits, List.nil_append] at hrdigits
    obtain ⟨hrwraps, hkept, hinside⟩ := scanPrice_keeps hr hwraps
    rw [PriceScan.Wraps, hrdigits] at hrwraps
    rw [hreads] at hkept hinside
    constructor
    · rintro ⟨r', hr', hbytes, htable, hvalue⟩
      obtain rfl : r = r' := Option.some.inj (hr.symm.trans hr')
      have hpos : 0 < s.length := hbytes 0 (hkept 0 (List.mem_singleton.mpr rfl))
      refine ⟨List.ne_nil_of_length_pos hpos, ?_, ?_⟩
      · by_cases hfraction : fractionDigits (unsignedPart s) = []
        · simp [hfraction]
        · rw [if_neg hfraction] at hindex
          have := htable _ hindex
          omega
      · rw [hrdigits] at hvalue
        rw [← hvalue]
        exact r.mantissa.toNat_lt
    · rintro ⟨hne, hfraction, hlt⟩
      refine ⟨r, hr, ?_, ?_, ?_⟩
      · intro i hi
        rcases hinside i hi with hi | hi
        · rw [List.mem_singleton.mp hi]
          exact List.length_pos_of_ne_nil hne
        · exact hlength hne ▸ hi
      · intro i hi
        rw [hindex] at hi
        split at hi
        · cases hi
        · cases hi
          omega
      · rw [hrwraps, hrdigits, Nat.mod_eq_of_lt hlt]
  · constructor
    · rintro ⟨r, hr, -⟩
      rw [hnone] at hr
      cases hr
    · rintro ⟨-, hfraction, -⟩
      have : 15 < intMax := by decide
      omega

/-- Sixteen decimals index behind the table, an empty range is read, and a mantissa of
twenty digits wraps. -/
theorem fast_parse_double_unsafe :
    ¬ScansSafely '0' "0.1234567890123456".toList ∧ ¬ScansSafely '0' [] ∧
      ¬ScansSafely '0' "18446744073709551616".toList := by
  refine ⟨?_, ?_, ?_⟩
  · rintro ⟨r, hr, -, htable, -⟩
    have hindex : (fastParseDouble '0' "0.1234567890123456".toList).bind PriceScan.index =
        some 16 := by decide
    rw [hr] at hindex
    exact absurd (htable 16 hindex) (by decide)
  · rintro ⟨r, hr, hreads, -⟩
    cases hr
    exact absurd (hreads 0 (by decide)) (by decide)
  · rintro ⟨r, hr, -, -, hvalue⟩
    have hdigits : (fastParseDouble '0' "18446744073709551616".toList).map PriceScan.digits =
        some "18446744073709551616".toList := by decide
    have hmantissa :
        (fastParseDouble '0' "18446744073709551616".toList).map PriceScan.mantissa = some 0 := by
      decide
    rw [hr] at hdigits hmantissa
    rw [Option.some.inj hdigits, Option.some.inj hmantissa] at hvalue
    exact absurd hvalue (by decide)

end StringUtils
end Revoq
