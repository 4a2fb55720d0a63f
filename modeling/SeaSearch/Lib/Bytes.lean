import Mathlib

/-!
# Numbers in bytes

Results:
1. `leValue_leBytes`: a number is read back from its bytes, the lowest one first.
2. `splice_append_right`, `splice_append_left`, `splice_front`: to write into a part of some data
   leaves what is before and after it.
-/

namespace Bytes

open List

/-- The `k` lowest bytes of a number, the lowest one first. -/
def leBytes : Nat → Nat → List UInt8
  | 0, _ => []
  | k + 1, n => UInt8.ofNat n :: leBytes k (n / 256)

def leValue : List UInt8 → Nat
  | [] => 0
  | b :: bs => b.toNat + 256 * leValue bs

@[simp] theorem length_leBytes (k n : Nat) : (leBytes k n).length = k := by
  induction k generalizing n with
  | zero => rfl
  | succ k ih => rw [leBytes, length_cons, ih]

theorem leValue_leBytes (k n : Nat) : leValue (leBytes k n) = n % 256 ^ k := by
  induction k generalizing n with
  | zero => rw [leBytes, leValue, pow_zero, Nat.mod_one]
  | succ k ih =>
    have hbyte : (UInt8.ofNat n).toNat = n % 256 := rfl
    rw [leBytes, leValue, ih, hbyte, pow_succ', Nat.mod_mul]

variable {α : Type*} {pre l post v : List α} {i : Nat}

def splice (l : List α) (i : Nat) (v : List α) : List α :=
  l.take i ++ (v ++ l.drop (i + v.length))

theorem splice_append_right : splice (pre ++ l) (pre.length + i) v = pre ++ splice l i v := by
  rw [splice, take_length_add_append, add_assoc, drop_length_add_append, splice, append_assoc]

theorem splice_append_left (h : i + v.length ≤ l.length) :
    splice (l ++ post) i v = splice l i v ++ post := by
  rw [splice, splice, take_append_of_le_length (by omega), drop_append_of_le_length h]
  simp

theorem splice_front (h : pre.length = v.length) : splice (pre ++ l) 0 v = v ++ l := by
  simp [splice, ← h]

end Bytes
