import Mathlib

/-!
# Numbers in digits

A text of digits is read from left to right. Results: 1. `foldlM_toDigits`: the digits of a number
are read back as the number. 2. `isSome_of_foldlM`: only digits are read.
-/

namespace Digits

variable {base : Nat} {value : Char → Option Nat}

def push (base : Nat) (value : Char → Option Nat) (n : Nat) (c : Char) : Option Nat :=
  (value c).map (base * n + ·)

theorem push_digitChar (hvalue : ∀ d < base, value d.digitChar = some d) (n : Nat) {d : Nat}
    (h : d < base) : push base value n d.digitChar = some (base * n + d) := by
  rw [push, hvalue d h, Option.map_some]

theorem foldlM_toDigits (hbase : 1 < base) (hvalue : ∀ d < base, value d.digitChar = some d)
    (n : Nat) : (Nat.toDigits base n).foldlM (push base value) 0 = some n := by
  induction n using Nat.strong_induction_on with
  | _ n ih =>
    by_cases hn : n < base
    · rw [Nat.toDigits_of_lt_base hn, List.foldlM_cons, push_digitChar hvalue 0 hn]
      simp
    · rw [Nat.toDigits_of_base_le hbase (Nat.le_of_not_lt hn), List.foldlM_append,
        ih (n / base) (Nat.div_lt_self (by omega) hbase), Option.bind_eq_bind, Option.bind_some,
        List.foldlM_cons, push_digitChar hvalue _ (Nat.mod_lt n (by omega)), Nat.div_add_mod]
      rfl

theorem isSome_of_foldlM {s : List Char} {n m : Nat}
    (h : s.foldlM (push base value) n = some m) : ∀ c ∈ s, (value c).isSome := by
  induction s generalizing n with
  | nil => exact nofun
  | cons a s ih =>
    rw [List.foldlM_cons, Option.bind_eq_bind, Option.bind_eq_some_iff] at h
    obtain ⟨k, hk, hrest⟩ := h
    obtain ⟨d, hd, -⟩ := Option.map_eq_some_iff.1 hk
    intro c hc
    rcases List.mem_cons.1 hc with rfl | hc
    · rw [hd]
      rfl
    · exact ih hrest c hc

end Digits
