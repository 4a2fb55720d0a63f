import Mathlib

/-!
# Rounding to a number of significant bits

A number is rounded to the nearest one that has at most `p` significant bits, and to the one whose
last of these bits is zero if there are two.

Results:
1. `roundNat_eq_self_iff`, `roundInt_eq_self_iff`: which numbers are not changed.
-/

namespace Rounding

/-- The place value of the last of the `p` significant bits of `n`. -/
def lastPlace (p n : Nat) : Nat := 2 ^ (n.log2 + 1 - p)

/-- `n` with `p` significant bits, ties to even. -/
def roundNat (p n : Nat) : Nat :=
  let u := lastPlace p n
  if 2 * (n % u) < u ∨ 2 * (n % u) = u ∧ n / u % 2 = 0 then n / u * u else (n / u + 1) * u

def roundInt (p : Nat) (n : Int) : Int := n.sign * roundNat p n.natAbs

theorem roundNat_eq_self_iff (p n : Nat) : roundNat p n = n ↔ lastPlace p n ∣ n := by
  have hpos : 0 < lastPlace p n := Nat.two_pow_pos _
  have hdiv := Nat.div_add_mod' n (lastPlace p n)
  have hmod := Nat.mod_lt n hpos
  rw [Nat.dvd_iff_mod_eq_zero, roundNat]
  split
  next => omega
  next hround =>
    rw [Nat.add_mul, one_mul]
    constructor <;> omega

theorem roundInt_eq_self_iff (p : Nat) (n : Int) :
    roundInt p n = n ↔ lastPlace p n.natAbs ∣ n.natAbs := by
  rw [← roundNat_eq_self_iff, roundInt]
  constructor
  · intro h
    by_cases hn : n = 0
    · subst hn
      rw [roundNat_eq_self_iff]
      exact ⟨0, rfl⟩
    · have habs := congrArg Int.natAbs h
      rwa [Int.natAbs_mul, Int.natAbs_sign_of_ne_zero hn, one_mul, Int.natAbs_natCast] at habs
  · intro h
    rw [h, Int.sign_mul_natAbs]

end Rounding
