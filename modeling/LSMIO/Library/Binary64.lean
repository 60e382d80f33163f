import Mathlib.Algebra.Order.Field.Power
import Mathlib.Data.Rat.Floor
import Mathlib.Data.Int.Interval
import Mathlib.Data.Set.Finite.Lattice
import Mathlib.Data.Set.Finite.Lemmas
import Mathlib.Data.Finite.Prod
import Mathlib.Order.Interval.Finset.Nat
import Mathlib.Tactic.Positivity
import Mathlib.Tactic.Linarith
import Mathlib.Tactic.Ring

namespace Binary64

/-- The magnitudes of finite doubles. -/
def Representable (q : ℚ) : Prop := ∃ (m : Nat) (e : Int), m < 2 ^ 53 ∧ -1074 ≤ e ∧ e ≤ 971 ∧ q = m * 2 ^ e

/-- A magnitude that no other is closer to the number than. -/
def Nearest (x q : ℚ) : Prop := Representable x ∧ ∀ y, Representable y → |x - q| ≤ |y - q|

/-- The magnitude past which numbers are out of range. -/
def largest : ℚ := (2 ^ 53 - 1) * 2 ^ 971

theorem representable_zero : Representable 0 := ⟨0, 0, by norm_num, by norm_num, by norm_num, by simp⟩

theorem finite_representable : {q | Representable q}.Finite := by
  have pairs := Set.Finite.image2 (fun (m : Nat) (e : Int) => (m : ℚ) * 2 ^ e)
    (Set.finite_lt_nat (2 ^ 53)) (Set.finite_Icc (-1074) 971)
  refine pairs.subset fun q member => ?_
  obtain ⟨m, e, small, low, high, rfl⟩ := member
  exact ⟨m, small, e, ⟨low, high⟩, rfl⟩

theorem exists_nearest (q : ℚ) : ∃ x, Nearest x q := by
  obtain ⟨x, member, least⟩ := Set.exists_min_image _ (fun x => |x - q|) finite_representable ⟨0, representable_zero⟩
  exact ⟨x, member, least⟩

theorem Nearest.eq_of_representable {x q : ℚ} (near : Nearest x q) (held : Representable q) : x = q := by
  have distance := near.2 q held
  rw [sub_self, abs_zero] at distance
  exact sub_eq_zero.mp (abs_nonpos_iff.mp distance)

/-- Six digits and up to eleven zeros fit into a significand of 53 bits. -/
theorem representable_decimal {m k : Nat} (digits : m ≤ 10 ^ 6) (zeros : k ≤ 11) : Representable (m * 10 ^ k) := by
  refine ⟨m * 5 ^ k, k, ?_, by omega, by omega, ?_⟩
  · have power : 5 ^ k ≤ 5 ^ 11 := Nat.pow_le_pow_right (by decide) zeros
    calc m * 5 ^ k ≤ 10 ^ 6 * 5 ^ 11 := Nat.mul_le_mul digits power
      _ < 2 ^ 53 := by norm_num
  · push_cast
    rw [zpow_natCast, mul_assoc, ← mul_pow]
    norm_num

theorem representable_natCast {n : Nat} (small : n < 2 ^ 53) : Representable n :=
  ⟨n, 0, small, by norm_num, by norm_num, by simp⟩

theorem Representable.le_largest {q : ℚ} (held : Representable q) : q ≤ largest := by
  obtain ⟨m, e, small, -, high, rfl⟩ := held
  have significand : (m : ℚ) ≤ 2 ^ 53 - 1 := by
    have bound : m + 1 ≤ 2 ^ 53 := small
    have cast : ((m + 1 : Nat) : ℚ) ≤ ((2 ^ 53 : Nat) : ℚ) := by exact_mod_cast bound
    push_cast at cast
    linarith
  have power : (2 : ℚ) ^ e ≤ 2 ^ (971 : Int) := zpow_le_zpow_right₀ (by norm_num) high
  exact mul_le_mul significand power (by positivity) (by norm_num)

end Binary64

/-- A finite double: a sign, which zero has too, and a magnitude. -/
structure Double where
  negative : Bool
  magnitude : ℚ
  representable : Binary64.Representable magnitude
