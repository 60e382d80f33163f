import LSMIO.Library.Binary64
import LSMIO.Library.Numeral
import LSMIO.PluginArrays

namespace LSMIO.LsmioPlugin

open Binary64 (Representable Nearest)
open Reading (Restores)

def signed (negative : Bool) (text : Bytes) : Bytes := if negative then 45 :: text else text

/-- What `operator<<` prints on a stream in its default state. -/
def printDouble (d : Double) : Bytes := signed d.negative (Numeral.general d.magnitude)

/-- What is relied on of `helper::StringTo<double>`: the double nearest to what
the text denotes, as long as that is in range, with its sign. -/
def ParsesNearest (stringTo : Bytes → Option Double) : Prop :=
  ∀ (negative : Bool) (text : Bytes) (q : ℚ), Numeral.value text = some q → q ≤ Binary64.largest →
    ∃ d, stringTo (signed negative text) = some d ∧ d.negative = negative ∧ Nearest d.magnitude q

/-- A double that holds an integer of magnitude below `2 ^ 53`. -/
def Integral (d : Double) : Prop := ∃ n : Nat, n < 2 ^ 53 ∧ d.magnitude = n

theorem rounded_small {n : Nat} (small : n < 10 ^ 6) : Numeral.rounded n = n := by
  rcases Nat.eq_zero_or_pos n with rfl | positive
  · exact_mod_cast Numeral.rounded_zero
  · exact (Numeral.rounded_eq_self_iff (by exact_mod_cast positive)).mpr ⟨n, 0, small, by simp⟩

/-- An integer rounded to six digits is a double again. -/
theorem representable_rounded {n : Nat} (small : n < 2 ^ 53) : Representable (Numeral.rounded n) := by
  by_cases few : n < 10 ^ 6
  · rw [rounded_small few]
    exact Binary64.representable_natCast small
  · have low : 6 ≤ Nat.log 10 n := (Nat.le_log_iff_pow_le (by decide) (by omega)).mpr (by omega)
    have high : Nat.log 10 n < 16 := Nat.log_lt_of_lt_pow (by omega) (by omega)
    have positive : (0 : ℚ) < n := by exact_mod_cast (show 0 < n by omega)
    have zeros : (Nat.log 10 n : Int) - 5 = ((Nat.log 10 n - 5 : Nat) : Int) := by omega
    have digits := Numeral.roundEven_le (Numeral.scaled_bounds positive).2.le
    rw [Numeral.rounded_eq, Int.log_natCast, zeros, zpow_natCast]
    rw [Int.log_natCast] at digits
    exact Binary64.representable_decimal digits (by omega)

variable {stringTo : Bytes → Option Double}

/-- What is read back of an integer is the integer rounded to six digits. -/
theorem stringTo_printDouble (parses : ParsesNearest stringTo) {d : Double} (integral : Integral d) :
    ∃ d', stringTo (printDouble d) = some d' ∧ d'.negative = d.negative ∧
      d'.magnitude = Numeral.rounded d.magnitude := by
  obtain ⟨n, small, whole⟩ := integral
  have held : Representable (Numeral.rounded d.magnitude) := by
    rw [whole]
    exact representable_rounded small
  have nonneg : 0 ≤ d.magnitude := by
    rw [whole]
    positivity
  obtain ⟨d', read, sign, near⟩ := parses d.negative _ _ (Numeral.value_general nonneg) held.le_largest
  exact ⟨d', read, sign, near.eq_of_representable held⟩

theorem stringTo_printDouble_iff (parses : ParsesNearest stringTo) {d : Double} (integral : Integral d) :
    stringTo (printDouble d) = some d ↔ Numeral.rounded d.magnitude = d.magnitude := by
  obtain ⟨d', read, sign, magnitude⟩ := stringTo_printDouble parses integral
  rw [read, Option.some.injEq, ← magnitude]
  constructor
  · rintro rfl
    rfl
  · intro same
    cases d
    cases d'
    cases sign
    cases same
    rfl

theorem rounded_natCast_iff (n : Nat) :
    Numeral.rounded n = n ↔ ∃ m k : Nat, m < 10 ^ 6 ∧ (n : ℚ) = m * 10 ^ k := by
  by_cases few : n < 10 ^ 6
  · exact iff_of_true (rounded_small few) ⟨n, 0, few, by simp⟩
  · have positive : (0 : ℚ) < n := by exact_mod_cast (show 0 < n by omega)
    rw [Numeral.rounded_eq_self_iff positive]
    constructor
    · rintro ⟨m, k, digits, same⟩
      obtain ⟨j, rfl⟩ : ∃ j : Nat, k = j := by
        refine Int.eq_ofNat_of_zero_le ?_
        by_contra negative
        have shrinks : (10 : ℚ) ^ k ≤ 1 := zpow_le_one_of_nonpos₀ (by norm_num) (by omega)
        have fits : (n : ℚ) ≤ m := by
          rw [same]
          exact mul_le_of_le_one_right (by positivity) shrinks
        have below : n ≤ m := by exact_mod_cast fits
        omega
      exact ⟨m, j, digits, by rw [same, zpow_natCast]⟩
    · rintro ⟨m, k, digits, same⟩
      exact ⟨m, k, digits, by rw [same, zpow_natCast]⟩

theorem plain_printDouble {d : Double} (integral : Integral d) : 44 ∉ printDouble d ∧ printDouble d ≠ [] := by
  have nonneg : 0 ≤ d.magnitude := by
    obtain ⟨n, -, whole⟩ := integral
    rw [whole]
    positivity
  have noComma : 44 ∉ Numeral.general d.magnitude := by
    intro member
    have kind := Numeral.mem_general member
    revert kind
    decide
  have written := Numeral.general_ne_nil nonneg
  unfold printDouble signed
  split
  · exact ⟨by simpa using noComma, by simp⟩
  · exact ⟨noComma, written⟩

/-- Integers come back from their text exactly when each of them has at most
six digits in front of its zeros, and an `int` can count them. -/
theorem doubles_restored_iff (stringTo : Bytes → Option Double) (parses : ParsesNearest stringTo) (values : List Double)
    (nonempty : values ≠ []) (integral : ∀ d ∈ values, Integral d) :
    Restores values (readVariable stringTo (some (writeVariable printDouble values))) ↔
      values.length ≤ 2 ^ 31 ∧ ∀ d ∈ values, ∃ m k : Nat, m < 10 ^ 6 ∧ d.magnitude = m * 10 ^ k := by
  rw [restores_readVariable_iff nonempty fun d member => plain_printDouble (integral d member)]
  refine and_congr_right fun _ => forall₂_congr fun d member => ?_
  obtain ⟨n, -, whole⟩ := integral d member
  rw [stringTo_printDouble_iff parses (integral d member), whole, rounded_natCast_iff]

/-- A conversion to the nearest double. -/
noncomputable def parseNearest (text : Bytes) : Option Double :=
  (Numeral.value (if text.head? = some 45 then text.tail else text)).bind fun q =>
    if q ≤ Binary64.largest then
      some ⟨text.head? = some 45, (Binary64.exists_nearest q).choose, (Binary64.exists_nearest q).choose_spec.1⟩
    else none

theorem parsesNearest_parseNearest : ParsesNearest parseNearest := by
  intro negative text q denoted inRange
  cases negative with
  | true =>
    refine ⟨⟨true, (Binary64.exists_nearest q).choose, (Binary64.exists_nearest q).choose_spec.1⟩, ?_, rfl,
      (Binary64.exists_nearest q).choose_spec⟩
    simp [parseNearest, signed, denoted, inRange]
  | false =>
    have unsigned : text.head? ≠ some 45 := by
      intro minus
      obtain ⟨rest, rfl⟩ := List.head?_eq_some_iff.mp minus
      rw [Numeral.value_minus] at denoted
      cases denoted
    refine ⟨⟨false, (Binary64.exists_nearest q).choose, (Binary64.exists_nearest q).choose_spec.1⟩, ?_, rfl,
      (Binary64.exists_nearest q).choose_spec⟩
    simp [parseNearest, signed, denoted, inRange, unsigned]

/-- The double of a small integer. -/
def ofInteger (negative : Bool) (n : Nat) (small : n < 2 ^ 53) : Double :=
  ⟨negative, n, Binary64.representable_natCast small⟩

theorem doubles_restored_round :
    Restores [ofInteger true 0 (by decide), ofInteger false 1200000 (by decide)] (readVariable parseNearest
      (some (writeVariable printDouble [ofInteger true 0 (by decide), ofInteger false 1200000 (by decide)]))) :=
  (doubles_restored_iff parseNearest parsesNearest_parseNearest _ (by simp) (by
    simp only [List.mem_cons, List.not_mem_nil, or_false, forall_eq_or_imp, forall_eq]
    exact ⟨⟨0, by decide, rfl⟩, ⟨1200000, by decide, rfl⟩⟩)).mpr ⟨by decide, by
    simp only [List.mem_cons, List.not_mem_nil, or_false, forall_eq_or_imp, forall_eq]
    exact ⟨⟨0, 0, by decide, by simp [ofInteger]⟩, ⟨12, 5, by decide, by norm_num [ofInteger]⟩⟩⟩

/-- The seventh digit of 1234567 is lost. -/
theorem not_doubles_restored : ¬ ∀ stringTo : Bytes → Option Double, ParsesNearest stringTo → ∀ values : List Double,
    values ≠ [] → (∀ d ∈ values, Integral d) →
      Restores values (readVariable stringTo (some (writeVariable printDouble values))) := by
  intro always
  have integral : Integral (ofInteger false 1234567 (by decide)) := ⟨1234567, by decide, rfl⟩
  have restored := always parseNearest parsesNearest_parseNearest [ofInteger false 1234567 (by decide)] (by simp)
    (by simpa using integral)
  rw [restores_readVariable_iff (by simp) (by simpa using plain_printDouble integral)] at restored
  have same := (stringTo_printDouble_iff parsesNearest_parseNearest integral).mp
    (restored.2 _ (List.mem_singleton_self _))
  obtain ⟨m, k, digits, whole⟩ := (rounded_natCast_iff 1234567).mp same
  have number : 1234567 = m * 10 ^ k := by exact_mod_cast whole
  cases k with
  | zero => omega
  | succ k =>
    rw [pow_succ, ← mul_assoc] at number
    omega

end LSMIO.LsmioPlugin
