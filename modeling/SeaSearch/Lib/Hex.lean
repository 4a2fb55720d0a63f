import SeaSearch.Lib.Digits

/-!
# Numbers in hexadecimal

Results:
1. `parse_leftpad`: the digits of a number, with zeros before them, are read back as the number.
2. `not_mem_leftpad`: a separator is not among them.
-/

namespace Hex

def digitValue (c : Char) : Option Nat :=
  if '0' ≤ c ∧ c ≤ '9' then some (c.toNat - '0'.toNat)
  else if 'a' ≤ c ∧ c ≤ 'f' then some (c.toNat - 'a'.toNat + 10)
  else if 'A' ≤ c ∧ c ≤ 'F' then some (c.toNat - 'A'.toNat + 10)
  else none

def push (n : Nat) (c : Char) : Option Nat := (digitValue c).map (16 * n + ·)

def parse (s : List Char) : Option Nat := if s = [] then none else s.foldlM push 0

theorem digitValue_digitChar {d : Nat} (h : d < 16) : digitValue d.digitChar = some d := by
  interval_cases d <;> rfl

theorem foldlM_toDigits (n : Nat) : (Nat.toDigits 16 n).foldlM push 0 = some n :=
  Digits.foldlM_toDigits (by decide) (fun _ => digitValue_digitChar) n

theorem foldlM_replicate_zero (k : Nat) : (List.replicate k '0').foldlM push 0 = some 0 := by
  induction k with
  | zero => rfl
  | succ k ih =>
    rw [List.replicate_succ, List.foldlM_cons]
    exact ih

theorem parse_leftpad (width n : Nat) :
    parse ((Nat.toDigits 16 n).leftpad width '0') = some n := by
  have hne : (Nat.toDigits 16 n).leftpad width '0' ≠ [] := by
    rw [List.leftpad]
    exact List.append_ne_nil_of_right_ne_nil _ Nat.toDigits_ne_nil
  rw [parse, if_neg hne, List.leftpad, List.foldlM_append, foldlM_replicate_zero,
    Option.bind_eq_bind, Option.bind_some, foldlM_toDigits]

theorem not_mem_leftpad {c : Char} (hc : digitValue c = none) (width n : Nat) :
    c ∉ (Nat.toDigits 16 n).leftpad width '0' := by
  intro hmem
  have hparse := parse_leftpad width n
  rw [parse, if_neg (List.ne_nil_of_mem hmem)] at hparse
  have hsome := Digits.isSome_of_foldlM hparse c hmem
  rw [hc] at hsome
  cases hsome

end Hex
