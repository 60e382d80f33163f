import LSMIO.Library.Codec

/-- The bytes of an ASCII text. -/
def ascii (text : String) : Bytes := text.toList.map fun c => UInt8.ofNat c.toNat

namespace Decimal

/-- The decimal digits of a number, without leading zeros. -/
def digits (n : Nat) : Bytes := (Nat.toDigits 10 n).map fun c => UInt8.ofNat c.toNat

def isDigit (b : UInt8) : Bool := 48 ≤ b.toNat && b.toNat ≤ 57

/-- The number a string of decimal digits denotes. -/
def value (text : Bytes) : Nat := text.foldl (fun sofar b => 10 * sofar + (b.toNat - 48)) 0

theorem digitByte {c : Char} (digit : c.isDigit) :
    (UInt8.ofNat c.toNat).toNat = c.toNat ∧ 48 ≤ c.toNat ∧ c.toNat ≤ 57 := by
  simp only [Char.isDigit, ge_iff_le, Bool.and_eq_true, decide_eq_true_eq] at digit
  obtain ⟨low, high⟩ := digit
  have low' : 48 ≤ c.toNat := low
  have high' : c.toNat ≤ 57 := high
  exact ⟨by rw [UInt8.toNat_ofNat']; omega, low', high'⟩

theorem digits_isDigit (n : Nat) : ∀ b ∈ digits n, isDigit b := by
  intro b member
  obtain ⟨c, atChar, rfl⟩ := List.mem_map.mp member
  obtain ⟨same, low, high⟩ := digitByte (Nat.isDigit_of_mem_toDigits (by decide) (by decide) atChar)
  simp [isDigit, same, low, high]

theorem digits_ne_nil (n : Nat) : digits n ≠ [] := by simp [digits]

/-- A number other than zero starts with a digit other than zero. -/
theorem digits_starts (n : Nat) (nonzero : n ≠ 0) : ∃ b rest, digits n = b :: rest ∧ 48 < b.toNat := by
  induction n using Nat.strong_induction_on with
  | _ n ih =>
    by_cases small : n < 10
    · refine ⟨_, [], by rw [digits, Nat.toDigits_of_lt_base small]; rfl, ?_⟩
      interval_cases n <;> first | exact absurd rfl nonzero | decide
    · obtain ⟨b, rest, front, above⟩ := ih (n / 10) (by omega) (by omega)
      refine ⟨b, rest ++ [UInt8.ofNat (n % 10).digitChar.toNat], ?_, above⟩
      rw [digits, Nat.toDigits_of_base_le (by decide) (by omega), List.map_append, ← List.cons_append, ← front]
      rfl

theorem foldl_map_digits {text : List Char} (digital : ∀ c ∈ text, c.isDigit) (init : Nat) :
    (text.map fun c => UInt8.ofNat c.toNat).foldl (fun sofar b => 10 * sofar + (b.toNat - 48)) init =
      Nat.ofDigitChars 10 text init := by
  induction text generalizing init with
  | nil => rfl
  | cons c text ih =>
    obtain ⟨same, _⟩ := digitByte (digital c (List.mem_cons_self ..))
    rw [List.map_cons, List.foldl_cons, same, ih fun d member => digital d (List.mem_cons_of_mem _ member)]
    rfl

@[simp] theorem value_digits (n : Nat) : value (digits n) = n := by
  have digital : ∀ c ∈ Nat.toDigits 10 n, c.isDigit :=
    fun c member => Nat.isDigit_of_mem_toDigits (by decide) (by decide) member
  rw [value, digits, foldl_map_digits digital, Nat.ofDigitChars_ten_toDigits]

theorem digits_injective : Function.Injective digits := fun m n same => by
  rw [← value_digits m, same, value_digits]

/-- Leading zeros do not change the number. -/
theorem value_zeros_append (k : Nat) (text : Bytes) : value (List.replicate k 48 ++ text) = value text := by
  induction k with
  | zero => rfl
  | succ k ih =>
    rw [List.replicate_succ, List.cons_append]
    exact ih

/-- Zeros at the end multiply the number. -/
theorem value_append_zeros (text : Bytes) (k : Nat) : value (text ++ List.replicate k 48) = value text * 10 ^ k := by
  induction k with
  | zero => simp
  | succ k ih =>
    rw [value] at ih
    rw [List.replicate_succ', ← List.append_assoc, value, List.foldl_append, ih]
    simp only [List.foldl_cons, List.foldl_nil]
    rw [pow_succ]
    have zero : (48 : UInt8).toNat - 48 = 0 := rfl
    rw [zero, Nat.add_zero, Nat.mul_comm, Nat.mul_assoc]

/-- The leading digits of a text end at the first byte that is no digit. -/
theorem takeWhile_digits {text rest : Bytes} (digital : ∀ b ∈ text, isDigit b)
    (ended : rest = [] ∨ ∃ b tail, rest = b :: tail ∧ isDigit b = false) :
    (text ++ rest).takeWhile isDigit = text := by
  rw [List.takeWhile_append_of_pos digital]
  rcases ended with rfl | ⟨b, tail, rfl, other⟩
  · simp
  · simp [other]

/-- Numbers written before a byte that is no digit are told apart, whatever follows. -/
theorem digits_append_inj {m n : Nat} {b : UInt8} (other : isDigit b = false) {rest rest' : Bytes}
    (same : digits m ++ b :: rest = digits n ++ b :: rest') : m = n ∧ rest = rest' := by
  have leading := congrArg (List.takeWhile isDigit) same
  rw [takeWhile_digits (digits_isDigit m) (.inr ⟨b, rest, rfl, other⟩),
    takeWhile_digits (digits_isDigit n) (.inr ⟨b, rest', rfl, other⟩)] at leading
  cases digits_injective leading
  simpa using same

/-- Texts behind their last separator are told apart, whatever is in front. -/
theorem append_separator_inj {b : UInt8} {front front' text text' : Bytes} (none : b ∉ text) (none' : b ∉ text')
    (same : front ++ b :: text = front' ++ b :: text') : front = front' ∧ text = text' := by
  have behind : ∀ {front text : Bytes}, b ∉ text → (front ++ b :: text).reverse.takeWhile (· ≠ b) = text.reverse := by
    intro front text none
    have other : ∀ c ∈ text.reverse, decide (c ≠ b) = true := by
      rintro c member
      simp only [decide_eq_true_eq]
      rintro rfl
      exact none (List.mem_reverse.mp member)
    rw [List.reverse_append, List.reverse_cons, List.append_assoc, List.takeWhile_append_of_pos other]
    simp
  have last : text = text' := List.reverse_injective (by rw [← behind none, same, behind none'])
  subst last
  exact ⟨List.append_cancel_right same, rfl⟩

end Decimal
