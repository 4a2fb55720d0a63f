import Mathlib

/-!
# A flat list of blocks

Blocks of `d` elements are stored one after another in a single list. To write over one
block changes only that one (`block_overwrite_self`, `block_overwrite_ne`).
-/

namespace Blocks

open List

variable {α : Type*} {d i k n : Nat} {l v : List α}

def block (d : Nat) (l : List α) (i : Nat) : List α := (l.drop (i * d)).take d

def overwrite (d : Nat) (l : List α) (i : Nat) (v : List α) : List α :=
  l.take (i * d) ++ (v ++ l.drop ((i + 1) * d))

theorem mul_add_le_mul (h : i < n) : i * d + d ≤ n * d := by
  rw [← Nat.succ_mul]
  exact Nat.mul_le_mul_right d h

theorem length_overwrite (hl : l.length = n * d) (hi : i < n) (hv : v.length = d) :
    (overwrite d l i v).length = n * d := by
  have hle := mul_add_le_mul (d := d) hi
  simp only [overwrite, length_append, length_take, length_drop, Nat.succ_mul]
  omega

theorem block_overwrite_self (hl : l.length = n * d) (hi : i < n) (hv : v.length = d) :
    block d (overwrite d l i v) i = v := by
  have hle := mul_add_le_mul (d := d) hi
  have htake : (l.take (i * d)).length = i * d := length_take_of_le (by omega)
  rw [block, overwrite, drop_left' htake, take_left' hv]

theorem block_overwrite_ne (hl : l.length = n * d) (hi : i < n) (hv : v.length = d) (hk : k ≠ i) :
    block d (overwrite d l i v) k = block d l k := by
  have hle := mul_add_le_mul (d := d) hi
  have htake : (l.take (i * d)).length = i * d := length_take_of_le (by omega)
  rcases Nat.lt_or_gt_of_ne hk with hlt | hgt
  · have hki := mul_add_le_mul (d := d) hlt
    rw [block, overwrite, drop_append_of_le_length (by omega), take_append_of_le_length
      (by rw [length_drop]; omega), drop_take, take_take, block,
      min_eq_left (by omega)]
  · have hik := mul_add_le_mul (d := d) hgt
    rw [block, overwrite, ← append_assoc, drop_append, drop_eq_nil_of_le
      (by rw [length_append]; omega), nil_append, drop_drop, block,
      length_append, htake, hv, Nat.succ_mul]
    congr 2
    omega

theorem overwrite_block (d : Nat) (l : List α) (i : Nat) :
    overwrite d l i (block d l i) = l := by
  rw [overwrite, block, Nat.succ_mul, ← drop_drop, take_append_drop, take_append_drop]

theorem block_flatMap {β : Type*} {f : β → List α} {bs : List β} {b : β}
    (hf : ∀ b ∈ bs, (f b).length = d) (hb : bs[i]? = some b) : block d (bs.flatMap f) i = f b := by
  induction bs generalizing i with
  | nil => cases hb
  | cons b' bs ih =>
    rw [forall_mem_cons] at hf
    cases i with
    | zero =>
      cases hb
      rw [block, zero_mul, drop_zero, flatMap_cons, take_left' hf.1]
    | succ i =>
      rw [List.getElem?_cons_succ] at hb
      have hdrop : (f b' ++ bs.flatMap f).drop ((i + 1) * d) = (bs.flatMap f).drop (i * d) := by
        rw [Nat.succ_mul, add_comm, ← drop_drop, drop_left' hf.1]
      rw [flatMap_cons, block, hdrop]
      exact ih hf.2 hb

theorem length_flatMap {β : Type*} {f : β → List α} {bs : List β}
    (hf : ∀ b ∈ bs, (f b).length = d) : (bs.flatMap f).length = bs.length * d := by
  induction bs with
  | nil => simp
  | cons b bs ih =>
    rw [forall_mem_cons] at hf
    rw [flatMap_cons, length_append, hf.1, ih hf.2, length_cons, Nat.succ_mul, add_comm]

theorem block_append_left (hl : l.length = n * d) (hi : i < n) :
    block d (l ++ v) i = block d l i := by
  have hle := mul_add_le_mul (d := d) hi
  rw [block, drop_append_of_le_length (by omega), take_append_of_le_length
    (by rw [length_drop]; omega), block]

theorem block_append_self (hl : l.length = n * d) (hv : v.length = d) :
    block d (l ++ v) n = v := by
  rw [block, drop_left' hl, take_of_length_le hv.le]

theorem block_take (hi : i < n) : block d (l.take (n * d)) i = block d l i := by
  have hle := mul_add_le_mul (d := d) hi
  rw [block, drop_take, take_take, block, min_eq_left (by omega)]

theorem length_block (hl : l.length = n * d) (hi : i < n) : (block d l i).length = d := by
  have hle := mul_add_le_mul (d := d) hi
  exact length_take_of_le (by rw [length_drop]; omega)

end Blocks
