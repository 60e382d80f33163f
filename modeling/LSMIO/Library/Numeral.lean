import LSMIO.Library.Decimal
import Mathlib.Data.Int.Log
import Mathlib.Data.List.DropRight
import Mathlib.Data.Rat.Floor
import Mathlib.Tactic.Linarith
import Mathlib.Tactic.Positivity
import Mathlib.Tactic.Ring
import Mathlib.Tactic.FieldSimp

namespace Numeral

/-- A natural number nearest to `q`, the even one of two. -/
def roundEven (q : ℚ) : Nat :=
  let n := ⌊q⌋₊
  if q - n < 1 / 2 then n else if 1 / 2 < q - n then n + 1 else if n % 2 = 0 then n else n + 1

/-- The six leading digits of a number, rounded, and the exponent of the first. -/
def significant (q : ℚ) : Nat × Int :=
  let x := Int.log 10 q
  let m := roundEven (q * 10 ^ (5 - x))
  if m = 10 ^ 6 then (10 ^ 5, x + 1) else (m, x)

/-- The number rounded to six significant digits. -/
def rounded (q : ℚ) : ℚ := (significant q).1 * 10 ^ ((significant q).2 - 5)

/-- The digits behind the point, without the zeros at their end, and the point if any are left. -/
def fractionText (digits : Bytes) : Bytes :=
  let kept := digits.rdropWhile (· = 48)
  if kept = [] then [] else 46 :: kept

/-- An exponent with its sign and at least two digits. -/
def exponentText (x : Int) : Bytes :=
  let digits := Decimal.digits x.natAbs
  101 :: (if x < 0 then 45 else 43) :: if digits.length < 2 then 48 :: digits else digits

/-- The text of `%g` for a number that is not negative. -/
def general (q : ℚ) : Bytes :=
  if q = 0 then [48]
  else
    let (m, x) := significant q
    let digits := Decimal.digits m
    if x < -4 ∨ 6 ≤ x then digits.take 1 ++ fractionText (digits.drop 1) ++ exponentText x
    else if 0 ≤ x then digits.take (x.toNat + 1) ++ fractionText (digits.drop (x.toNat + 1))
    else 48 :: fractionText (List.replicate (-x - 1).toNat 48 ++ digits)

/-- A nonempty string of digits. -/
def natural (text : Bytes) : Option Nat :=
  if text ≠ [] ∧ text.all Decimal.isDigit then some (Decimal.value text) else none

def exponent : Bytes → Option Int
  | [] => some 0
  | _ :: text => match text with
    | 45 :: digits => (natural digits).map fun n : Nat => -(n : Int)
    | 43 :: digits => (natural digits).map fun n : Nat => (n : Int)
    | digits => (natural digits).map fun n : Nat => (n : Int)

/-- The number that a decimal text denotes: digits, maybe with a point in them, and maybe an exponent. -/
def value (text : Bytes) : Option ℚ := do
  let mantissa := text.takeWhile (· ≠ 101)
  let whole := mantissa.takeWhile (· ≠ 46)
  let fraction := (mantissa.drop whole.length).tail
  let n ← natural (whole ++ fraction)
  let x ← exponent (text.drop mantissa.length)
  return n * 10 ^ (x - fraction.length)

section Rounding

theorem roundEven_natCast (n : Nat) : roundEven n = n := by
  simp [roundEven]

theorem roundEven_le {q : ℚ} {bound : Nat} (below : q ≤ bound) : roundEven q ≤ bound := by
  have floor : ⌊q⌋₊ ≤ bound := by
    rw [← Nat.floor_natCast (R := ℚ) bound]
    exact Nat.floor_mono below
  have next : ∀ {half : ℚ}, 0 < half → half ≤ q - ⌊q⌋₊ → ⌊q⌋₊ + 1 ≤ bound := by
    intro half positive past
    have strict : ((⌊q⌋₊ : Nat) : ℚ) < bound := by linarith
    exact_mod_cast strict
  unfold roundEven
  simp only
  split_ifs with under past even
  · exact floor
  · exact next (by norm_num) past.le
  · exact floor
  · exact next (by norm_num) (not_lt.mp under)

theorem le_roundEven {q : ℚ} {bound : Nat} (above : bound ≤ q) : bound ≤ roundEven q := by
  have floor : bound ≤ ⌊q⌋₊ := Nat.le_floor above
  unfold roundEven
  simp only
  split_ifs <;> omega

variable {q : ℚ}

theorem scaled_bounds (positive : 0 < q) :
    ((10 ^ 5 : Nat) : ℚ) ≤ q * 10 ^ (5 - Int.log 10 q) ∧ q * 10 ^ (5 - Int.log 10 q) < ((10 ^ 6 : Nat) : ℚ) := by
  have low := Int.zpow_log_le_self (R := ℚ) (b := 10) (by decide) positive
  have high := Int.lt_zpow_succ_log_self (R := ℚ) (b := 10) (by decide) q
  have scale : (0 : ℚ) < 10 ^ (5 - Int.log 10 q) := by positivity
  push_cast at low high
  constructor
  · calc ((10 ^ 5 : Nat) : ℚ) = 10 ^ Int.log 10 q * 10 ^ (5 - Int.log 10 q) := by
          rw [← zpow_add₀ (by norm_num)]
          norm_num
      _ ≤ _ := mul_le_mul_of_nonneg_right low scale.le
  · calc q * 10 ^ (5 - Int.log 10 q) < 10 ^ (Int.log 10 q + 1) * 10 ^ (5 - Int.log 10 q) :=
          mul_lt_mul_of_pos_right high scale
      _ = ((10 ^ 6 : Nat) : ℚ) := by
          rw [← zpow_add₀ (by norm_num), show Int.log 10 q + 1 + (5 - Int.log 10 q) = 6 by ring]
          norm_num

/-- There are six digits, the first of them not zero. -/
theorem significant_bounds (positive : 0 < q) : 10 ^ 5 ≤ (significant q).1 ∧ (significant q).1 < 10 ^ 6 := by
  obtain ⟨low, high⟩ := scaled_bounds positive
  have least := le_roundEven low
  have most := roundEven_le high.le
  unfold significant
  simp only
  split
  · exact ⟨le_rfl, by norm_num⟩
  · exact ⟨least, by omega⟩

theorem rounded_eq (q : ℚ) : rounded q = roundEven (q * 10 ^ (5 - Int.log 10 q)) * 10 ^ (Int.log 10 q - 5) := by
  unfold rounded significant
  simp only
  split
  next carry =>
    have shift : Int.log 10 q + 1 - 5 = Int.log 10 q - 5 + 1 := by ring
    rw [carry, shift, zpow_add_one₀ (by norm_num)]
    push_cast
    ring
  next => rfl

theorem rounded_zero : rounded 0 = 0 := by
  have none : roundEven 0 = 0 := by simpa using roundEven_natCast 0
  simp [rounded, significant, none]

/-- Rounding changes exactly the numbers that need more than six digits. -/
theorem rounded_eq_self_iff (positive : 0 < q) :
    rounded q = q ↔ ∃ (m : Nat) (k : Int), m < 10 ^ 6 ∧ q = m * 10 ^ k := by
  constructor
  · intro same
    exact ⟨(significant q).1, (significant q).2 - 5, (significant_bounds positive).2, same.symm⟩
  · rintro ⟨m, k, small, same⟩
    have logarithm : Int.log 10 q ≤ k + 5 := by
      have bound : q < 10 ^ (k + 6) := by
        rw [same, zpow_add₀ (by norm_num), mul_comm]
        have fits : (m : ℚ) < 10 ^ (6 : Int) := by exact_mod_cast small
        exact mul_lt_mul_of_pos_left fits (by positivity)
      have exponent := (Int.lt_zpow_iff_log_lt (R := ℚ) (b := 10) (by decide) positive).mp (by exact_mod_cast bound)
      omega
    obtain ⟨j, power⟩ := Int.eq_ofNat_of_zero_le (show 0 ≤ k + 5 - Int.log 10 q by omega)
    have whole : q * 10 ^ (5 - Int.log 10 q) = ((m * 10 ^ j : Nat) : ℚ) := by
      have exponents : k + (5 - Int.log 10 q) = j := by omega
      nth_rewrite 1 [same]
      rw [mul_assoc, ← zpow_add₀ (by norm_num), exponents]
      push_cast
      rw [zpow_natCast]
    rw [rounded_eq, whole, roundEven_natCast, ← whole, mul_assoc, ← zpow_add₀ (by norm_num)]
    simp

end Rounding

section Texts

theorem natural_eq {text : Bytes} (written : text ≠ []) (digital : ∀ b ∈ text, Decimal.isDigit b) :
    natural text = some (Decimal.value text) := by
  rw [natural, if_pos ⟨written, List.all_eq_true.mpr digital⟩]

theorem exponent_exponentText (x : Int) : exponent (exponentText x) = some x := by
  have digital := Decimal.digits_isDigit x.natAbs
  have padded : natural (if (Decimal.digits x.natAbs).length < 2 then 48 :: Decimal.digits x.natAbs
      else Decimal.digits x.natAbs) = some x.natAbs := by
    split
    · rw [natural_eq (by simp) (List.forall_mem_cons.mpr ⟨rfl, digital⟩)]
      have zero := Decimal.value_zeros_append 1 (Decimal.digits x.natAbs)
      rw [Decimal.value_digits] at zero
      exact congrArg some zero
    · rw [natural_eq (Decimal.digits_ne_nil _) digital, Decimal.value_digits]
  have minus : ∀ digits, exponent (101 :: 45 :: digits) = (natural digits).map fun n : Nat => -(n : Int) := fun _ => rfl
  have plus : ∀ digits, exponent (101 :: 43 :: digits) = (natural digits).map fun n : Nat => (n : Int) := fun _ => rfl
  unfold exponentText
  by_cases negative : x < 0
  · simp only [if_pos negative, minus, padded, Option.map_some, Option.some.injEq]
    omega
  · simp only [if_neg negative, plus, padded, Option.map_some, Option.some.injEq]
    omega

theorem ne_of_digital {text : Bytes} (digital : ∀ b ∈ text, Decimal.isDigit b) {other : UInt8}
    (noDigit : Decimal.isDigit other = false) : ∀ b ∈ text, decide (b ≠ other) = true := by
  intro b member
  rw [decide_eq_true_eq]
  rintro rfl
  rw [digital b member] at noDigit
  cases noDigit

variable {whole fraction exponentPart : Bytes}

/-- What a text denotes whose fraction is written without the zeros at its end. -/
theorem value_fractionText (written : whole ≠ []) (digital : ∀ b ∈ whole, Decimal.isDigit b)
    (digital' : ∀ b ∈ fraction, Decimal.isDigit b) {x : Int} (read : exponent exponentPart = some x)
    (marked : exponentPart = [] ∨ ∃ rest, exponentPart = 101 :: rest) :
    value (whole ++ fractionText fraction ++ exponentPart) =
      some ((Decimal.value (whole ++ fraction) : ℚ) * 10 ^ (x - fraction.length)) := by
  obtain ⟨kept, k, same, text, digitalKept⟩ : ∃ kept k, fraction = kept ++ List.replicate k 48 ∧
      fractionText fraction = (if kept = [] then [] else 46 :: kept) ∧ ∀ b ∈ kept, Decimal.isDigit b := by
    refine ⟨fraction.rdropWhile (· = 48), (fraction.rtakeWhile (· = 48)).length, ?_, rfl, fun b member =>
      digital' b ((List.rdropWhile_prefix _ _).subset member)⟩
    have zeros : fraction.rtakeWhile (· = 48) = List.replicate (fraction.rtakeWhile (· = 48)).length 48 :=
      List.eq_replicate_of_mem fun b member => by simpa using List.mem_rtakeWhile_imp member
    rw [← zeros, List.rdropWhile_append_rtakeWhile]
  have point : (if kept = [] then [] else 46 :: kept).takeWhile (· ≠ 46) = [] ∧
      ((if kept = [] then [] else 46 :: kept) : Bytes).tail = kept := by
    split
    next none => simp [none]
    next => simp
  have mantissa : (whole ++ (if kept = [] then [] else 46 :: kept) ++ exponentPart).takeWhile (· ≠ 101) =
      whole ++ (if kept = [] then [] else 46 :: kept) := by
    have noMark : ∀ b ∈ whole ++ (if kept = [] then [] else 46 :: kept), decide (b ≠ 101) = true := by
      intro b member
      rcases List.mem_append.mp member with inWhole | behind
      · exact ne_of_digital digital (by decide) b inWhole
      · split at behind
        · cases behind
        · rcases List.mem_cons.mp behind with rfl | inKept
          · decide
          · exact ne_of_digital digitalKept (by decide) b inKept
    rw [List.takeWhile_append_of_pos noMark]
    rcases marked with rfl | ⟨rest, rfl⟩ <;> simp
  have front : (whole ++ (if kept = [] then [] else 46 :: kept)).takeWhile (· ≠ 46) = whole := by
    rw [List.takeWhile_append_of_pos (ne_of_digital digital (by decide)), point.1, List.append_nil]
  have number : natural (whole ++ kept) = some (Decimal.value (whole ++ kept)) :=
    natural_eq (by simp [written]) fun b member => (List.mem_append.mp member).elim (digital b) (digitalKept b)
  have size : fraction.length = kept.length + k := by simp [same]
  rw [text, value]
  simp only [mantissa, front, List.drop_left, point.2, number, read, Option.bind_eq_bind, Option.bind_some,
    Option.pure_def, Option.some.injEq]
  rw [same, ← List.append_assoc, Decimal.value_append_zeros, ← same, size]
  push_cast
  rw [mul_assoc, ← zpow_natCast, ← zpow_add₀ (by norm_num)]
  congr 2
  ring

/-- The text of `%g` denotes the number rounded to six significant digits. -/
theorem value_general {q : ℚ} (nonneg : 0 ≤ q) : value (general q) = some (rounded q) := by
  rcases nonneg.eq_or_lt with rfl | positive
  · have zero := @value_fractionText [48] [] [] (by simp) (by simp [Decimal.isDigit]) (by simp) 0 rfl (.inl rfl)
    rw [rounded_zero, general, if_pos rfl]
    simpa [fractionText, Decimal.value] using zero
  obtain ⟨low, high⟩ := significant_bounds positive
  have digital := Decimal.digits_isDigit (significant q).1
  have size : (Decimal.digits (significant q).1).length = 6 := by
    have most := (Nat.length_toDigits_le_iff (b := 10) (k := 6) (by decide) (by decide)).mpr high
    have least := mt (Nat.length_toDigits_le_iff (b := 10) (k := 5) (by decide) (by decide)).mp (not_lt.mpr low)
    rw [Decimal.digits, List.length_map]
    omega
  have digitalTake : ∀ k, ∀ b ∈ (Decimal.digits (significant q).1).take k, Decimal.isDigit b := fun k b member =>
    digital b (List.mem_of_mem_take member)
  have digitalDrop : ∀ k, ∀ b ∈ (Decimal.digits (significant q).1).drop k, Decimal.isDigit b := fun k b member =>
    digital b (List.mem_of_mem_drop member)
  have written : ∀ k, (Decimal.digits (significant q).1).take (k + 1) ≠ [] := fun k => by
    simp [List.take_eq_nil_iff, Decimal.digits_ne_nil]
  rw [general, if_neg positive.ne']
  simp only
  split_ifs with scientific units
  · rw [value_fractionText (written 0) (digitalTake 1) (digitalDrop 1) (exponent_exponentText _) (.inr ⟨_, rfl⟩),
      List.take_append_drop, Decimal.value_digits, List.length_drop, size]
    rfl
  · have plain := value_fractionText (written (significant q).2.toNat) (digitalTake _)
      (digitalDrop ((significant q).2.toNat + 1)) (x := 0) rfl (.inl rfl)
    have point : (0 : Int) - ((6 - ((significant q).2.toNat + 1) : Nat) : Int) = (significant q).2 - 5 := by omega
    rw [List.append_nil, List.take_append_drop, Decimal.value_digits, List.length_drop, size, point] at plain
    exact plain
  · have plain := @value_fractionText [48]
      (List.replicate (-(significant q).2 - 1).toNat 48 ++ Decimal.digits (significant q).1) []
      (by simp) (by simp [Decimal.isDigit]) (fun b member => (List.mem_append.mp member).elim
        (fun zero => by simp [List.eq_of_mem_replicate zero, Decimal.isDigit]) (digital b)) 0 rfl (.inl rfl)
    have point : (0 : Int) - (((-(significant q).2 - 1).toNat + 6 : Nat) : Int) = (significant q).2 - 5 := by omega
    have zeros := Decimal.value_zeros_append ((-(significant q).2 - 1).toNat + 1) (Decimal.digits (significant q).1)
    rw [List.replicate_succ, List.cons_append, Decimal.value_digits] at zeros
    rw [List.append_nil, List.singleton_append, List.singleton_append, zeros, List.length_append,
      List.length_replicate, size, point] at plain
    exact plain

/-- A text of `%g` has digits in it, a point, the mark of an exponent and its sign, and is not empty. -/
theorem mem_general {q : ℚ} {b : UInt8} (member : b ∈ general q) : Decimal.isDigit b ∨ b ∈ [43, 45, 46, 101] := by
  have digital := Decimal.digits_isDigit (significant q).1
  have inFraction : ∀ {digits : Bytes}, (∀ b ∈ digits, Decimal.isDigit b) → b ∈ fractionText digits →
      Decimal.isDigit b ∨ b ∈ [43, 45, 46, 101] := by
    intro digits all inside
    unfold fractionText at inside
    simp only at inside
    split at inside
    · cases inside
    · rcases List.mem_cons.mp inside with rfl | kept
      · exact .inr (by decide)
      · exact .inl (all b ((List.rdropWhile_prefix _ _).subset kept))
  have inExponent : b ∈ exponentText (significant q).2 → Decimal.isDigit b ∨ b ∈ [43, 45, 46, 101] := by
    intro inside
    unfold exponentText at inside
    simp only [List.mem_cons] at inside
    rcases inside with rfl | sign | digit
    · exact .inr (by decide)
    · refine .inr ?_
      split at sign <;> simp [sign]
    · refine .inl ?_
      split at digit
      · rcases List.mem_cons.mp digit with rfl | inDigits
        · rfl
        · exact Decimal.digits_isDigit _ b inDigits
      · exact Decimal.digits_isDigit _ b digit
  unfold general at member
  simp only at member
  split_ifs at member with zero scientific units
  · exact .inl (by simp [List.mem_singleton.mp member, Decimal.isDigit])
  · rcases List.mem_append.mp member with front | exponentPart
    · rcases List.mem_append.mp front with first | fraction
      · exact .inl (digital b (List.mem_of_mem_take first))
      · exact inFraction (fun c inside => digital c (List.mem_of_mem_drop inside)) fraction
    · exact inExponent exponentPart
  · rcases List.mem_append.mp member with whole | fraction
    · exact .inl (digital b (List.mem_of_mem_take whole))
    · exact inFraction (fun c inside => digital c (List.mem_of_mem_drop inside)) fraction
  · rcases List.mem_cons.mp member with rfl | fraction
    · exact .inl rfl
    · refine inFraction (fun c inside => ?_) fraction
      rcases List.mem_append.mp inside with zeros | inDigits
      · rw [List.eq_of_mem_replicate zeros]
        rfl
      · exact digital c inDigits

/-- No text that starts with a minus sign denotes a number. -/
theorem value_minus (text : Bytes) : value (45 :: text) = none := by
  have none : ∀ rest : Bytes, natural (45 :: rest) = none := fun rest => by simp [natural, Decimal.isDigit]
  simp [value, none]

theorem general_ne_nil {q : ℚ} (nonneg : 0 ≤ q) : general q ≠ [] := by
  intro empty
  have denoted := value_general nonneg
  rw [empty] at denoted
  cases denoted

end Texts

end Numeral
