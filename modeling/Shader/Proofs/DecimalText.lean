import Mathlib.Algebra.Order.Field.Rat
import Mathlib.Algebra.Order.Ring.Cast
import Mathlib.Data.List.TakeWhile
import Mathlib.Tactic.FieldSimp
import Mathlib.Tactic.Linarith
import Mathlib.Tactic.Positivity
import Mathlib.Tactic.Ring
import Shader.Binary32.Decimal

/-!
Reading numbers back from their text. Main statement: a text written for a number that is no NaN
belongs to that number alone.

The text of a decimal has the value of the decimal, which lies in the rounding interval of the
number that it was chosen for; and the rounding intervals of different numbers do not meet.
-/

namespace Shader

namespace Chars
variable {mark : Char} {cs rest : List Char}

def before (mark : Char) (cs : List Char) : List Char := cs.takeWhile (· ≠ mark)

def after (mark : Char) (cs : List Char) : List Char := (cs.dropWhile (· ≠ mark)).tail

theorem ne_of_absent (absent : mark ∉ cs) : ∀ c ∈ cs, decide (c ≠ mark) = true := by
  intro c member
  simpa using ne_of_mem_of_not_mem member absent

theorem before_append (absent : mark ∉ cs) : before mark (cs ++ mark :: rest) = cs := by
  rw [before, List.takeWhile_append_of_pos (ne_of_absent absent)]
  simp

theorem after_append (absent : mark ∉ cs) : after mark (cs ++ mark :: rest) = rest := by
  rw [after, List.dropWhile_append_of_pos (ne_of_absent absent)]
  simp

theorem before_of_absent (absent : mark ∉ cs) : before mark cs = cs :=
  List.takeWhile_eq_self_iff.2 (ne_of_absent absent)

theorem after_of_absent (absent : mark ∉ cs) : after mark cs = [] := by
  rw [after, List.dropWhile_eq_nil_iff.2 (ne_of_absent absent), List.tail_nil]

end Chars

namespace Decimal
open Chars (before after before_append after_append before_of_absent after_of_absent)

def value (d : Decimal) : ℚ := d.digits * 10 ^ d.exponent

def readInt (cs : List Char) : Int :=
  if cs.head? = some '-' then -(Nat.ofDigitChars 10 cs.tail 0 : Int) else Nat.ofDigitChars 10 cs 0

/-- The number that a text stands for: digits around a point, and a power of ten behind an `e`. -/
def read (cs : List Char) : ℚ :=
  let fraction := after '.' (before 'e' cs)
  Nat.ofDigitChars 10 (before '.' (before 'e' cs) ++ fraction) 0 *
    10 ^ (readInt (after 'e' cs) - fraction.length)

section Digits
variable {cs : List Char} {n : Nat}

theorem isDigit_of_mem_repr {c : Char} (member : c ∈ n.repr.toList) : c.isDigit = true := by
  rw [Nat.toList_repr] at member
  exact Nat.isDigit_of_mem_toDigits (by decide) (by decide) member

theorem repr_ne_nil (n : Nat) : n.repr.toList ≠ [] := by
  rw [Nat.toList_repr]
  exact Nat.toDigits_ne_nil

theorem ofDigitChars_repr (n : Nat) : Nat.ofDigitChars 10 n.repr.toList 0 = n := by
  rw [Nat.toList_repr, Nat.ofDigitChars_ten_toDigits]

theorem not_mem_of_digits {mark : Char} (digits : ∀ c ∈ cs, c.isDigit = true)
    (other : mark.isDigit = false) : mark ∉ cs := by
  intro member
  rw [digits mark member] at other
  cases other

theorem readInt_repr (k : Int) : readInt k.repr.toList = k := by
  cases k with
  | ofNat n =>
    change readInt n.repr.toList = n
    have unsigned : n.repr.toList.head? ≠ some '-' := by
      intro sign
      have digit := isDigit_of_mem_repr (List.mem_of_head? sign)
      cases digit
    rw [readInt, if_neg unsigned, ofDigitChars_repr]
  | negSucc n =>
    have text : (Int.negSucc n).repr.toList = '-' :: n.succ.repr.toList := by
      change ("-" ++ n.succ.repr).toList = _
      simp
    rw [readInt, text]
    simp only [List.head?_cons, if_true, List.tail_cons, ofDigitChars_repr]
    rfl

end Digits

/-- The two layouts of a decimal. The digits on both sides of the point are those of a number, and
the point and the power of ten put them in place. -/
inductive Written (d : Decimal) : List Char → Prop
  | positional {whole fraction : List Char} (start : whole ≠ [])
      (digits : ∀ c ∈ whole ++ fraction, c.isDigit = true)
      (value : (Nat.ofDigitChars 10 (whole ++ fraction) 0 : ℚ) * 10 ^ (-(fraction.length : Int)) =
        d.value) :
      Written d (whole ++ '.' :: fraction)
  | scientific {whole fraction : List Char} {place : Int} (start : whole ≠ [])
      (digits : ∀ c ∈ whole ++ fraction, c.isDigit = true)
      (value : (Nat.ofDigitChars 10 (whole ++ fraction) 0 : ℚ) * 10 ^ (place - fraction.length) =
        d.value) :
      Written d (whole ++ (if fraction = [] then [] else '.' :: fraction) ++
        'e' :: place.repr.toList)

section Written
variable {d : Decimal} {cs : List Char}

theorem Written.read_eq (written : d.Written cs) : read cs = d.value := by
  cases written with
  | @positional whole fraction start digits value =>
    have point : '.' ∉ whole ++ fraction := not_mem_of_digits digits rfl
    have exponent : 'e' ∉ whole ++ fraction := not_mem_of_digits digits rfl
    rw [List.mem_append, not_or] at point exponent
    have noExponent : 'e' ∉ whole ++ '.' :: fraction := by
      simpa using exponent
    simp only [read, before_of_absent noExponent, after_of_absent noExponent,
      before_append point.1, after_append point.1]
    rw [← value]
    simp [readInt, Nat.ofDigitChars]
  | @scientific whole fraction place start digits value =>
    have point : '.' ∉ whole ++ fraction := not_mem_of_digits digits rfl
    have exponent : 'e' ∉ whole ++ fraction := not_mem_of_digits digits rfl
    rw [List.mem_append, not_or] at point exponent
    have noExponent : 'e' ∉ whole ++ (if fraction = [] then [] else '.' :: fraction) := by
      split
      · simpa using exponent.1
      · simpa using exponent
    simp only [read, before_append noExponent, after_append noExponent, readInt_repr]
    rw [← value]
    split
    · rename_i none
      simp [none, before_of_absent point.1, after_of_absent point.1]
    · simp [before_append point.1, after_append point.1]

theorem mem_intRepr {k : Int} {c : Char} (member : c ∈ k.repr.toList) :
    c.isDigit = true ∨ c = '-' := by
  rw [Int.repr_eq_if] at member
  split at member
  · exact .inl (isDigit_of_mem_repr member)
  · simp only [String.toList_append, List.mem_append] at member
    rcases member with sign | digit
    · exact .inr (List.mem_singleton.1 sign)
    · exact .inl (isDigit_of_mem_repr digit)

theorem Written.chars (written : d.Written cs) {c : Char} (member : c ∈ cs) :
    c.isDigit = true ∨ c ∈ ['.', 'e', '-'] := by
  cases written with
  | @positional whole fraction start digits =>
    simp only [List.mem_append, List.mem_cons] at member digits
    rcases member with inWhole | rfl | inFraction
    · exact .inl (digits c (.inl inWhole))
    · simp
    · exact .inl (digits c (.inr inFraction))
  | @scientific whole fraction place start digits =>
    simp only [List.mem_append, List.mem_cons] at member digits
    rcases member with (inWhole | inFraction) | rfl | inPlace
    · exact .inl (digits c (.inl inWhole))
    · split at inFraction
      · cases inFraction
      · rcases List.mem_cons.1 inFraction with rfl | inFraction
        · simp
        · exact .inl (digits c (.inr inFraction))
    · simp
    · exact (mem_intRepr inPlace).imp_right (by rintro rfl; simp)

theorem Written.head (written : d.Written cs) : ∃ c rest, cs = c :: rest ∧ c.isDigit = true := by
  cases written with
  | @positional whole fraction start digits =>
    obtain ⟨c, rest, rfl⟩ := List.exists_cons_of_ne_nil start
    exact ⟨c, _, rfl, digits c (by simp)⟩
  | @scientific whole fraction place start digits =>
    obtain ⟨c, rest, rfl⟩ := List.exists_cons_of_ne_nil start
    exact ⟨c, _, rfl, digits c (by simp)⟩

theorem Written.mark (written : d.Written cs) : ∃ c ∈ cs, c.isDigit = false := by
  cases written with
  | positional => exact ⟨'.', by simp, rfl⟩
  | scientific => exact ⟨'e', by simp, rfl⟩

end Written

section Layout
variable (d : Decimal)

theorem written_whole (whole : 0 ≤ d.exponent) :
    d.Written (d.digits.repr.toList ++ List.replicate d.exponent.toNat '0' ++ '.' :: ['0']) := by
  refine .positional (by simp) ?_ ?_
  · intro c member
    simp only [List.mem_append, List.mem_replicate, List.mem_singleton] at member
    rcases member with (digit | ⟨-, rfl⟩) | rfl
    · exact isDigit_of_mem_repr digit
    · rfl
    · rfl
  · obtain ⟨n, k⟩ := d
    obtain ⟨k, rfl⟩ := Int.eq_ofNat_of_zero_le whole
    simp only [Nat.ofDigitChars_append, ofDigitChars_repr, Nat.ofDigitChars_replicate_zero,
      Int.toNat_natCast, value]
    simp [Nat.ofDigitChars]
    ring

theorem written_split (count : Nat) (present : 0 < count)
    (length : (d.digits.repr.toList.length : Int) = count - d.exponent) (inside : d.exponent ≤ 0) :
    d.Written (d.digits.repr.toList.take count ++ '.' :: d.digits.repr.toList.drop count) := by
  refine .positional ?_ ?_ ?_
  · simp
    omega
  · rw [List.take_append_drop]
    exact fun c member => isDigit_of_mem_repr member
  · rw [List.take_append_drop, ofDigitChars_repr, List.length_drop, value]
    congr 2
    omega

theorem written_small (count : Nat)
    (length : (d.digits.repr.toList.length : Int) + count = -d.exponent) :
    d.Written (['0'] ++ '.' :: (List.replicate count '0' ++ d.digits.repr.toList)) := by
  refine .positional (by simp) ?_ ?_
  · intro c member
    simp only [List.mem_append, List.mem_replicate, List.mem_singleton] at member
    rcases member with rfl | ⟨-, rfl⟩ | digit
    · rfl
    · rfl
    · exact isDigit_of_mem_repr digit
  · have zeros : Nat.ofDigitChars 10 ['0'] 0 = 0 := rfl
    rw [Nat.ofDigitChars_append, zeros, Nat.ofDigitChars_append, Nat.ofDigitChars_replicate_zero,
      Nat.mul_zero, ofDigitChars_repr, value]
    congr 2
    simp only [List.length_append, List.length_replicate]
    omega

theorem written_positional : d.Written d.positional.toList := by
  have present : 0 < d.digits.repr.toList.length := List.length_pos_of_ne_nil (repr_ne_nil _)
  have length : d.digits.repr.length = d.digits.repr.toList.length := String.length_toList.symm
  unfold positional
  simp only
  split
  · rename_i whole
    simpa using written_whole d whole
  · split
    · rename_i fractional leading
      unfold leadingPlace at leading
      have written := written_split d (d.leadingPlace.toNat + 1) (by omega)
        (by unfold leadingPlace; omega) (by omega)
      simpa using written
    · rename_i fractional leading
      unfold leadingPlace at leading
      have written := written_small d (-d.leadingPlace - 1).toNat (by unfold leadingPlace; omega)
      simpa using written

theorem written_scientific : d.Written d.scientific.toList := by
  have length : d.digits.repr.length = d.digits.repr.toList.length := String.length_toList.symm
  have text : d.scientific.toList = d.digits.repr.toList.take 1 ++
      (if d.digits.repr.toList.drop 1 = [] then [] else '.' :: d.digits.repr.toList.drop 1) ++
      'e' :: d.leadingPlace.repr.toList := by
    unfold scientific
    simp only [List.isEmpty_iff]
    split <;> simp
  rw [text]
  refine .scientific (by simp) ?_ ?_
  · rw [List.take_append_drop]
    exact fun c member => isDigit_of_mem_repr member
  · rw [List.take_append_drop, ofDigitChars_repr, List.length_drop, value, leadingPlace, length,
      add_sub_cancel_right]

theorem written_text : d.Written d.text.toList := by
  unfold text
  split
  · exact written_positional d
  · exact written_scientific d

end Layout
end Decimal

namespace RoundingInterval
variable {i : RoundingInterval} {g : Grid} {k : Nat}

def Contains (i : RoundingInterval) (v : ℚ) : Prop :=
  i.lower ≤ v ∧ v ≤ i.upper ∧ (i.closed = false → i.lower < v ∧ v < i.upper)

theorem contains_of_holds (positive : 0 < g.den) (holds : i.holds g k = true) :
    i.Contains (k * g.num / g.den) := by
  have den : (0 : ℚ) < g.den := by exact_mod_cast positive
  unfold RoundingInterval.holds at holds
  split at holds
  · rename_i closed
    simp only [decide_eq_true_eq] at holds
    refine ⟨(le_div_iff₀ den).2 ?_, (div_le_iff₀ den).2 ?_, fun isOpen => ?_⟩
    · exact_mod_cast holds.1
    · exact_mod_cast holds.2
    · rw [closed] at isOpen
      cases isOpen
  · simp only [decide_eq_true_eq] at holds
    have above : (i.lower : ℚ) < k * g.num / g.den :=
      (lt_div_iff₀ den).2 (by exact_mod_cast holds.1)
    have below : (k * g.num / g.den : ℚ) < i.upper :=
      (div_lt_iff₀ den).2 (by exact_mod_cast holds.2)
    exact ⟨above.le, below.le, fun _ => ⟨above, below⟩⟩

theorem holds_of_nearest? (found : i.nearest? g = some k) : i.holds g k = true := by
  unfold nearest? at found
  extract_lets scaled low nearer farther at found
  by_cases here : i.holds g nearer = true
  · rw [if_pos here] at found
    exact Option.some.inj found ▸ here
  · rw [if_neg here] at found
    by_cases there : i.holds g farther = true
    · rw [if_pos there] at found
      exact Option.some.inj found ▸ there
    · rw [if_neg there] at found
      cases found

end RoundingInterval

namespace Binary32

/-- The numbers of one sign in order of magnitude. -/
def ordinal (x : Binary32) : Nat := x.bits.toNat % 2147483648

theorem exponentField_eq (x : Binary32) : x.exponentField = x.ordinal / 8388608 := by
  have low : x.exponentField = x.bits.toNat / 8388608 % 256 := by
    simp [exponentField, Nat.shiftRight_eq_div_pow, Nat.and_two_pow_sub_one_eq_mod _ 8]
  rw [low, ordinal]
  omega

theorem fractionField_eq (x : Binary32) : x.fractionField = x.ordinal % 8388608 := by
  have low : x.fractionField = x.bits.toNat % 8388608 := by
    simp [fractionField, Nat.and_two_pow_sub_one_eq_mod _ 23]
  rw [low, ordinal]
  omega

theorem isNegative_eq (x : Binary32) : x.isNegative = decide (2147483648 ≤ x.bits.toNat) := by
  have small := x.bits.toNat_lt
  have top : x.bits >>> 31 = 1 ↔ x.bits.toNat / 2147483648 = 1 := by
    rw [← UInt32.toNat_inj]
    simp [Nat.shiftRight_eq_div_pow]
  simp only [isNegative, top, decide_eq_decide]
  omega

theorem eq_of_ordinal {x y : Binary32} (sign : x.isNegative = y.isNegative)
    (same : x.ordinal = y.ordinal) : x = y := by
  obtain ⟨x⟩ := x
  obtain ⟨y⟩ := y
  rw [isNegative_eq, isNegative_eq, decide_eq_decide] at sign
  unfold ordinal at same
  have := x.toNat_lt
  have := y.toNat_lt
  congr 1
  refine UInt32.toNat_inj.1 ?_
  simp only at sign same
  omega

/-! Rounding intervals by the place of a number among those of its sign. -/

section Intervals

def spacingAt (n : Nat) : Nat := 2 ^ (n / 8388608 - 1)

def magnitudeAt (n : Nat) : Nat :=
  (if n / 8388608 = 0 then n % 8388608 else 8388608 + n % 8388608) * spacingAt n

def lowerAt (n : Nat) : Nat :=
  4 * magnitudeAt n -
    (if n % 8388608 = 0 ∧ 1 < n / 8388608 then spacingAt n else 2 * spacingAt n)

def upperAt (n : Nat) : Nat := 4 * magnitudeAt n + 2 * spacingAt n

theorem spacingAt_pos (n : Nat) : 0 < spacingAt n := Nat.two_pow_pos _

theorem spacing_eq (x : Binary32) : x.spacing = spacingAt x.ordinal := by
  rw [spacing, spacingAt, exponentField_eq]
  rfl

theorem magnitude_eq (x : Binary32) : x.magnitude = magnitudeAt x.ordinal := by
  rw [magnitude, magnitudeAt, significand, exponentField_eq, fractionField_eq, spacing_eq]

theorem roundingInterval_eq (x : Binary32) : x.roundingInterval =
    ⟨lowerAt x.ordinal, 4 * magnitudeAt x.ordinal, upperAt x.ordinal, x.ordinal % 2 = 0⟩ := by
  have parity : x.significand % 2 = 0 ↔ x.ordinal % 2 = 0 := by
    rw [significand, exponentField_eq, fractionField_eq]
    split <;> omega
  simp only [roundingInterval, lowerAt, upperAt, magnitude_eq, spacing_eq, exponentField_eq,
    fractionField_eq, parity]

theorem lowerAt_lt_upperAt (n : Nat) : lowerAt n < upperAt n := by
  have := spacingAt_pos n
  unfold lowerAt upperAt
  omega

/-- Where the interval of a number ends, that of the next one starts. -/
theorem lowerAt_succ (n : Nat) : lowerAt (n + 1) = upperAt n := by
  by_cases last : n % 8388608 = 8388607
  · have exponent : (n + 1) / 8388608 = n / 8388608 + 1 := by omega
    have fraction : (n + 1) % 8388608 = 0 := by omega
    unfold lowerAt upperAt magnitudeAt spacingAt
    rw [exponent, fraction, last]
    cases n / 8388608 with
    | zero => rfl
    | succ e =>
      -- The spacing doubles, and the significand starts again at its least value.
      have double : 2 ^ (e + 1) = 2 * 2 ^ e := Nat.pow_succ'
      simp only [Nat.add_sub_cancel, Nat.add_eq_zero_iff, one_ne_zero, and_false, if_false,
        true_and, Nat.add_zero, double]
      rw [if_pos (by omega)]
      omega
  · have exponent : (n + 1) / 8388608 = n / 8388608 := by omega
    have fraction : (n + 1) % 8388608 = n % 8388608 + 1 := by omega
    have spacing : spacingAt (n + 1) = spacingAt n := by rw [spacingAt, exponent, spacingAt]
    have magnitude : magnitudeAt (n + 1) = magnitudeAt n + spacingAt n := by
      rw [magnitudeAt, magnitudeAt, spacing, exponent, fraction, ← Nat.succ_mul]
      split <;> rfl
    rw [lowerAt, upperAt, if_neg (by omega), magnitude, spacing]
    omega

theorem lowerAt_strictMono : StrictMono lowerAt :=
  strictMono_nat_of_lt_succ fun n => lowerAt_succ n ▸ lowerAt_lt_upperAt n

/-- Rounding intervals meet at most at their ends, and then one of the two is open. -/
theorem not_contains_of_lt {x y : Binary32} {v : ℚ} (less : x.ordinal < y.ordinal)
    (first : x.roundingInterval.Contains v) : ¬y.roundingInterval.Contains v := by
  intro second
  rw [roundingInterval_eq] at first second
  obtain ⟨-, below, inside⟩ := first
  obtain ⟨above, -, inside'⟩ := second
  simp only at below above inside inside'
  rw [← lowerAt_succ] at below
  by_cases adjacent : x.ordinal + 1 = y.ordinal
  · rw [adjacent] at below
    by_cases even : x.ordinal % 2 = 0
    · have odd : y.ordinal % 2 ≠ 0 := by omega
      exact absurd (inside' (decide_eq_false odd)).1 (not_lt.2 below)
    · have strict := (inside (decide_eq_false even)).2
      rw [← lowerAt_succ, adjacent] at strict
      exact absurd strict (not_lt.2 above)
  · have apart : lowerAt (x.ordinal + 1) < lowerAt y.ordinal := lowerAt_strictMono (by omega)
    have apart' : (lowerAt (x.ordinal + 1) : ℚ) < lowerAt y.ordinal := by exact_mod_cast apart
    exact absurd (above.trans below) (not_le.2 apart')

theorem ordinal_eq_of_contains {x y : Binary32} {v : ℚ} (first : x.roundingInterval.Contains v)
    (second : y.roundingInterval.Contains v) : x.ordinal = y.ordinal := by
  rcases Nat.lt_trichotomy x.ordinal y.ordinal with less | same | less
  · exact absurd second (not_contains_of_lt less first)
  · exact same
  · exact absurd first (not_contains_of_lt less second)

end Intervals

def decimal (x : Binary32) : Decimal := if x.magnitude = 0 then ⟨0, 0⟩ else x.shortestDecimal

theorem decimalGrid_point (k : Nat) (e : Int) :
    (k * (decimalGrid e).num / (decimalGrid e).den : ℚ) = (Decimal.mk k e).value * 2 ^ 151 := by
  unfold decimalGrid Decimal.value
  split
  · rename_i positive
    obtain ⟨e, rfl⟩ := Int.eq_ofNat_of_zero_le positive
    have num : ((Nat.pow 10 (e : Int).toNat * Nat.pow 2 151 : Nat) : ℚ) = 10 ^ e * 2 ^ 151 := by
      simp only [Int.toNat_natCast, Nat.pow_eq]
      push_cast
      rfl
    rw [num, zpow_natCast, Nat.cast_one, div_one, mul_assoc]
  · rename_i negative
    have den : ((Nat.pow 10 (-e).toNat : Nat) : ℚ) = 10 ^ (-e) := by
      rw [Nat.pow_eq, Nat.cast_pow, ← zpow_natCast, Int.toNat_of_nonneg (by omega)]
      rfl
    have num : ((Nat.pow 2 151 : Nat) : ℚ) = 2 ^ 151 := by
      rw [Nat.pow_eq, Nat.cast_pow]
      rfl
    rw [den, num, zpow_neg, div_inv_eq_mul]
    ring

theorem decimalGrid_den_pos (e : Int) : 0 < (decimalGrid e).den := by
  unfold decimalGrid
  split
  · exact Nat.one_pos
  · exact Nat.pow_pos (by decide)

theorem contains_value (x : Binary32) :
    x.roundingInterval.Contains (4 * (x.magnitude : ℚ)) := by
  have positive := spacingAt_pos x.ordinal
  have below : lowerAt x.ordinal ≤ 4 * magnitudeAt x.ordinal := Nat.sub_le _ _
  have above : 4 * magnitudeAt x.ordinal < upperAt x.ordinal := by
    unfold upperAt
    omega
  rw [roundingInterval_eq, magnitude_eq]
  refine ⟨by exact_mod_cast below, by exact_mod_cast above.le, ?_⟩
  intro isOpen
  have odd : x.ordinal % 2 ≠ 0 := of_decide_eq_false isOpen
  have nonzero : 0 < magnitudeAt x.ordinal := Nat.mul_pos (by split <;> omega) positive
  have strict : lowerAt x.ordinal < 4 * magnitudeAt x.ordinal := by
    unfold lowerAt
    split <;> omega
  exact ⟨by exact_mod_cast strict, by exact_mod_cast above⟩

theorem contains_exactDecimal (x : Binary32) :
    x.roundingInterval.Contains (x.exactDecimal.value * 2 ^ 151) := by
  have exact : x.exactDecimal.value * 2 ^ 151 = 4 * (x.magnitude : ℚ) := by
    have digits : ((x.magnitude * Nat.pow 5 149 : Nat) : ℚ) = x.magnitude * 5 ^ 149 := by
      rw [Nat.pow_eq, Nat.cast_mul, Nat.cast_pow]
      rfl
    have scale : (5 : ℚ) ^ 149 * 10 ^ (-149 : Int) * 2 ^ 151 = 4 := by norm_num
    rw [exactDecimal, Decimal.value, digits, mul_assoc, mul_assoc, ← mul_assoc (5 ^ 149), scale,
      mul_comm]
  exact exact ▸ contains_value x

theorem contains_decimal (x : Binary32) :
    x.roundingInterval.Contains (x.decimal.value * 2 ^ 151) := by
  unfold decimal
  split
  · rename_i zero
    have value := contains_value x
    simpa [zero, Decimal.value] using value
  · unfold shortestDecimal
    cases search : decimalExponents.findSome? x.decimalAt? with
    | none => exact contains_exactDecimal x
    | some d =>
      obtain ⟨e, -, found⟩ := List.exists_of_findSome?_eq_some search
      obtain ⟨k, near, rfl⟩ := Option.map_eq_some_iff.1 found
      have holds := RoundingInterval.holds_of_nearest? near
      have contains := RoundingInterval.contains_of_holds (decimalGrid_den_pos e) holds
      rw [decimalGrid_point] at contains
      exact contains

def unsigned (x : Binary32) : List Char :=
  if x.isInfinite then ['i', 'n', 'f'] else x.decimal.text.toList

theorem toList_text {x : Binary32} (number : x.isNaN = false) :
    x.text.toList = (if x.isNegative then ['-'] else []) ++ x.unsigned := by
  have zero : (Decimal.mk 0 0).text = "0.0" := by decide
  unfold text unsigned decimal
  rw [if_neg (by simp [number])]
  by_cases infinite : x.isInfinite = true <;> by_cases negative : x.isNegative = true <;>
    by_cases nothing : x.magnitude = 0 <;> simp [infinite, negative, nothing, zero]

theorem unsigned_head (x : Binary32) :
    ∃ c rest, x.unsigned = c :: rest ∧ c ≠ '-' ∧ (c = 'i' ↔ x.isInfinite = true) := by
  unfold unsigned
  split
  · rename_i infinite
    exact ⟨'i', _, rfl, by decide, by simp [infinite]⟩
  · rename_i finite
    obtain ⟨c, rest, same, digit⟩ := (Decimal.written_text x.decimal).head
    refine ⟨c, rest, same, ?_, ?_⟩
    · rintro rfl
      cases digit
    · refine iff_of_false ?_ finite
      rintro rfl
      cases digit

theorem ordinal_of_infinite {x : Binary32} (infinite : x.isInfinite = true) :
    x.ordinal = 2139095040 := by
  simp only [isInfinite, exponentField_eq, fractionField_eq, decide_eq_true_eq] at infinite
  omega

theorem ordinal_eq_of_unsigned {x y : Binary32} (same : x.unsigned = y.unsigned) :
    x.ordinal = y.ordinal := by
  obtain ⟨c, rest, first, -, kind⟩ := unsigned_head x
  obtain ⟨c', rest', second, -, kind'⟩ := unsigned_head y
  rw [first, second] at same
  obtain ⟨rfl, -⟩ := List.cons.inj same
  by_cases infinite : c = 'i'
  · rw [ordinal_of_infinite (kind.1 infinite), ordinal_of_infinite (kind'.1 infinite)]
  · have texts : x.decimal.text.toList = y.decimal.text.toList := by
      rw [← first, ← second] at same
      simpa [unsigned, mt kind.2 infinite, mt kind'.2 infinite] using same
    have values : x.decimal.value = y.decimal.value := by
      rw [← (Decimal.written_text x.decimal).read_eq, texts,
        (Decimal.written_text y.decimal).read_eq]
    exact ordinal_eq_of_contains (contains_decimal x) (values ▸ contains_decimal y)

/-- A text belongs to one number at most, NaNs aside. -/
theorem text_injective {x y : Binary32} (number : x.isNaN = false) (number' : y.isNaN = false)
    (same : x.text.toList = y.text.toList) : x = y := by
  rw [toList_text number, toList_text number'] at same
  obtain ⟨c, rest, first, plain, -⟩ := unsigned_head x
  obtain ⟨c', rest', second, plain', -⟩ := unsigned_head y
  -- Only a negative number starts with a sign.
  have signs : x.isNegative = y.isNegative := by
    cases negative : x.isNegative <;> cases negative' : y.isNegative
    · rfl
    · rw [negative, negative', first] at same
      exact absurd (List.cons.inj same).1 plain
    · rw [negative, negative', second] at same
      exact absurd (List.cons.inj same).1.symm plain'
    · rfl
  rw [signs] at same
  exact eq_of_ordinal signs (ordinal_eq_of_unsigned (List.append_cancel_left same))

theorem mem_text {x : Binary32} (number : x.isNaN = false) {c : Char}
    (member : c ∈ x.text.toList) : c.isDigit = true ∨ c ∈ ['.', 'e', '-', 'i', 'n', 'f'] := by
  rw [toList_text number, List.mem_append] at member
  rcases member with sign | member
  · split at sign
    · simp [List.mem_singleton.1 sign]
    · cases sign
  · unfold unsigned at member
    split at member
    · right
      simp only [List.mem_cons, List.not_mem_nil, or_false] at member ⊢
      tauto
    · refine ((Decimal.written_text x.decimal).chars member).imp_right fun mark => ?_
      simp only [List.mem_cons, List.not_mem_nil, or_false] at mark ⊢
      tauto

theorem exists_mark_text {x : Binary32} (number : x.isNaN = false) :
    ∃ c ∈ x.text.toList, c.isDigit = false := by
  have marked : ∃ c ∈ x.unsigned, c.isDigit = false := by
    unfold unsigned
    split
    · exact ⟨'i', by simp, rfl⟩
    · exact (Decimal.written_text x.decimal).mark
  obtain ⟨c, member, mark⟩ := marked
  exact ⟨c, by simp [toList_text number, member], mark⟩

end Binary32
end Shader
