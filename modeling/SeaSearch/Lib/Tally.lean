import Mathlib

/-!
# Tallies

A tally is a list of cells, each with a key and a weight. A weight is put under a key by changing
the cells of the key, or by a new cell if there is none (`upsert`). Cells that can be joined are put
into a tally one by one (`absorb`).

Results:
1. `keys_upsert`, `nodup_upsert`, `total_upsert`: what `upsert` does to keys and weights.
2. `mem_keys_absorb`, `nodup_absorb`, `total_absorb`: the same for a whole list of cells.
-/

namespace Tally

open List

variable {κ β : Type*} [DecidableEq κ]

structure Cells (κ β : Type*) where
  key : β → κ
  weight : β → Nat

def Cells.map {γ : Type*} (C : Cells κ β) (g : κ → γ) : Cells γ β :=
  ⟨fun b => g (C.key b), C.weight⟩

variable (C : Cells κ β)

def total (bs : List β) (k : κ) : Nat := ((bs.filter fun b => C.key b = k).map C.weight).sum

def upsert (bs : List β) (k : κ) (f : β → β) (b : β) : List β :=
  if k ∈ bs.map C.key then bs.map fun x => if C.key x = k then f x else x else bs ++ [b]

def absorb (join : β → β → β) (bs xs : List β) : List β :=
  xs.foldl (fun bs x => upsert C bs (C.key x) (fun b => join b x) x) bs

variable {C} {bs xs ys : List β} {f : β → β} {b : β} {k : κ} {n : Nat}

@[simp] theorem total_nil (k : κ) : total C [] k = 0 := rfl

theorem total_cons (x : β) (bs : List β) (k : κ) :
    total C (x :: bs) k = (if C.key x = k then C.weight x else 0) + total C bs k := by
  rw [total, filter_cons]
  by_cases h : C.key x = k
  · simp [h, total]
  · simp [h, total]

theorem total_append (bs xs : List β) (k : κ) :
    total C (bs ++ xs) k = total C bs k + total C xs k := by
  rw [total, filter_append, map_append, sum_append]
  rfl

theorem total_perm (h : bs.Perm xs) (k : κ) : total C bs k = total C xs k :=
  ((h.filter _).map _).sum_eq

theorem total_of_not_mem (h : k ∉ bs.map C.key) : total C bs k = 0 := by
  have hnil : bs.filter (fun b => C.key b = k) = [] := by
    rw [filter_eq_nil_iff]
    intro x hx
    simpa using fun heq => h (mem_map.2 ⟨x, hx, heq⟩)
  rw [total, hnil, map_nil, sum_nil]

theorem weight_eq_total (hnodup : (bs.map C.key).Nodup) (hb : b ∈ bs) :
    C.weight b = total C bs (C.key b) := by
  induction bs with
  | nil => cases hb
  | cons x bs ih =>
    rw [map_cons, nodup_cons] at hnodup
    rw [total_cons]
    rcases mem_cons.1 hb with rfl | hb
    · rw [if_pos rfl, total_of_not_mem hnodup.1, add_zero]
    · have hne : C.key x ≠ C.key b := fun heq => hnodup.1 (heq ▸ mem_map_of_mem hb)
      rw [if_neg hne, zero_add]
      exact ih hnodup.2 hb

theorem perm_of_totals (hbs : (bs.map C.key).Nodup) (hxs : (xs.map C.key).Nodup)
    (hkeys : ∀ k, k ∈ bs.map C.key ↔ k ∈ xs.map C.key) (htotal : ∀ k, total C bs k = total C xs k) :
    (bs.map fun b => (C.key b, C.weight b)).Perm (xs.map fun b => (C.key b, C.weight b)) := by
  have hpairs : ∀ {zs : List β}, (zs.map C.key).Nodup → zs.map (fun b => (C.key b, C.weight b)) =
        (zs.map C.key).map fun k => (k, total C zs k) := by
    intro zs hzs
    rw [map_map]
    refine map_congr_left fun b hb => ?_
    rw [weight_eq_total hzs hb]
    rfl
  rw [hpairs hbs, hpairs hxs, funext htotal]
  exact ((perm_ext_iff_of_nodup hbs hxs).2 hkeys).map _

def cut (n w : Nat) : Nat := if n ≤ w then w else 0

theorem cut_le (n w : Nat) : cut n w ≤ w := by
  rw [cut]
  split
  · exact le_refl w
  · exact Nat.zero_le w

theorem cut_sum {ι : Type*} (n : Nat) (f : ι → Nat) (l : List ι) :
    cut n (l.map fun i => cut n (f i)).sum = (l.map fun i => cut n (f i)).sum := by
  have hsum : (l.map fun i => cut n (f i)).sum = 0 ∨ n ≤ (l.map fun i => cut n (f i)).sum := by
    induction l with
    | nil => exact .inl rfl
    | cons i l ih =>
      rw [map_cons, sum_cons]
      by_cases hi : n ≤ f i
      · rw [cut, if_pos hi]
        exact .inr (Nat.le_add_right_of_le hi)
      · rwa [cut, if_neg hi, zero_add]
  rw [cut]
  split
  · rfl
  · next hlt => exact (hsum.resolve_right hlt).symm

theorem sum_cut_le {ι : Type*} (n : Nat) (f : ι → Nat) (l : List ι) :
    (l.map fun i => cut n (f i)).sum ≤ (l.map f).sum := by
  induction l with
  | nil => exact le_refl 0
  | cons i l ih =>
    rw [map_cons, sum_cons, map_cons, sum_cons]
    exact Nat.add_le_add (cut_le n (f i)) ih

theorem sum_cut_eq_iff {ι : Type*} (n : Nat) (f : ι → Nat) (l : List ι) :
    (l.map fun i => cut n (f i)).sum = (l.map f).sum ↔ ∀ i ∈ l, f i = 0 ∨ n ≤ f i := by
  induction l with
  | nil => simp
  | cons i l ih =>
    have hhead : cut n (f i) = f i ↔ f i = 0 ∨ n ≤ f i := by
      rw [cut]
      split
      · next h => simp [h]
      · next h => simp [h, eq_comm]
    have hle := cut_le n (f i)
    have hsum := sum_cut_le n f l
    rw [map_cons, sum_cons, map_cons, sum_cons, forall_mem_cons, ← ih, ← hhead]
    omega

theorem total_filter (hnodup : (bs.map C.key).Nodup) (n : Nat) (k : κ) :
    total C (bs.filter fun b => n ≤ C.weight b) k = cut n (total C bs k) := by
  induction bs with
  | nil => simp [cut]
  | cons x bs ih =>
    rw [map_cons, nodup_cons] at hnodup
    rw [filter_cons, total_cons]
    by_cases hx : C.key x = k
    · have hrest : k ∉ (bs.filter fun b => n ≤ C.weight b).map C.key := by
        intro hmem
        refine hnodup.1 ?_
        rw [hx]
        exact (filter_sublist.map C.key).subset hmem
      have hnone : total C bs k = 0 := total_of_not_mem (hx ▸ hnodup.1)
      rw [if_pos hx, hnone, add_zero, cut]
      split
      · next hn =>
        rw [total_cons, if_pos hx, total_of_not_mem hrest, if_pos (by simpa using hn), add_zero]
      · next hn => rw [total_of_not_mem hrest, if_neg (by simpa using hn)]
    · rw [if_neg hx, zero_add, ← ih hnodup.2]
      split
      · rw [total_cons, if_neg hx, zero_add]
      · rfl

theorem keys_upsert (hf : ∀ x, C.key (f x) = C.key x) (hb : C.key b = k) :
    (upsert C bs k f b).map C.key =
      if k ∈ bs.map C.key then bs.map C.key else bs.map C.key ++ [k] := by
  rw [upsert]
  split
  · rw [map_map]
    refine map_congr_left fun x _ => ?_
    rw [Function.comp_apply]
    split
    · exact hf x
    · rfl
  · rw [map_append, map_singleton, hb]

theorem mem_keys_upsert (hf : ∀ x, C.key (f x) = C.key x) (hb : C.key b = k) {k' : κ} :
    k' ∈ (upsert C bs k f b).map C.key ↔ k' ∈ bs.map C.key ∨ k' = k := by
  rw [keys_upsert hf hb]
  split
  · next hmem =>
    refine ⟨.inl, ?_⟩
    rintro (h | rfl)
    · exact h
    · exact hmem
  · rw [mem_append, mem_singleton]

theorem nodup_upsert (hf : ∀ x, C.key (f x) = C.key x) (hb : C.key b = k)
    (hnodup : (bs.map C.key).Nodup) : ((upsert C bs k f b).map C.key).Nodup := by
  rw [keys_upsert hf hb]
  split
  · exact hnodup
  · next hmem =>
    rw [nodup_append]
    refine ⟨hnodup, nodup_singleton k, fun x hx y hy heq => hmem ?_⟩
    rwa [← mem_singleton.1 hy, ← heq]

section Coarse

variable {γ : Type*} [DecidableEq γ] (g : κ → γ)

theorem total_map_key (hf : ∀ x, C.key (f x) = C.key x)
    (hweight : ∀ x, C.weight (f x) = C.weight x + n) (hnodup : (bs.map C.key).Nodup)
    (hk : k ∈ bs.map C.key) (j : γ) :
    total (C.map g) (bs.map fun x => if C.key x = k then f x else x) j =
      total (C.map g) bs j + if g k = j then n else 0 := by
  induction bs with
  | nil => cases hk
  | cons x bs ih =>
    rw [map_cons, nodup_cons] at hnodup
    rw [map_cons, total_cons, total_cons]
    by_cases hx : C.key x = k
    · have hrest : bs.map (fun x => if C.key x = k then f x else x) = bs := by
        have hsame : ∀ y ∈ bs, (if C.key y = k then f y else y) = id y := by
          intro y hy
          refine if_neg fun heq => hnodup.1 ?_
          rw [hx, ← heq]
          exact mem_map_of_mem hy
        rw [map_congr_left hsame, map_id]
      have hkey : (C.map g).key (f x) = g k := congrArg g ((hf x).trans hx)
      have hkey' : (C.map g).key x = g k := congrArg g hx
      have hw : (C.map g).weight (f x) = (C.map g).weight x + n := hweight x
      rw [hrest, if_pos hx, hkey, hkey', hw]
      split <;> omega
    · have hk' : k ∈ bs.map C.key := by
        rcases mem_cons.1 hk with heq | hk
        · exact absurd heq.symm hx
        · exact hk
      rw [ih hnodup.2 hk', if_neg hx]
      omega

theorem total_upsert_coarse (hf : ∀ x, C.key (f x) = C.key x) (hb : C.key b = k)
    (hweight : ∀ x, C.weight (f x) = C.weight x + n) (hn : C.weight b = n)
    (hnodup : (bs.map C.key).Nodup) (j : γ) :
    total (C.map g) (upsert C bs k f b) j = total (C.map g) bs j + if g k = j then n else 0 := by
  rw [upsert]
  split
  · next hmem => exact total_map_key g hf hweight hnodup hmem j
  · have hkey : (C.map g).key b = g k := congrArg g hb
    have hw : (C.map g).weight b = n := hn
    rw [total_append, total_cons, total_nil, hkey, hw, add_zero]

theorem perm_cons_erase (hnodup : (bs.map C.key).Nodup) (hb : b ∈ bs) :
    bs.Perm (b :: bs.filter fun x => C.key x ≠ C.key b) := by
  induction bs with
  | nil => cases hb
  | cons x bs ih =>
    rw [map_cons, nodup_cons] at hnodup
    rcases mem_cons.1 hb with rfl | hb
    · have hrest : bs.filter (fun x => C.key x ≠ C.key b) = bs := by
        rw [filter_eq_self]
        intro y hy
        have hne : C.key y ≠ C.key b := fun heq => hnodup.1 (heq ▸ mem_map_of_mem hy)
        simpa using hne
      rw [filter_cons_of_neg (by simp), hrest]
    · have hne : C.key x ≠ C.key b := fun heq => hnodup.1 (heq ▸ mem_map_of_mem hb)
      rw [filter_cons_of_pos (by simpa using hne)]
      exact ((ih hnodup.2 hb).cons x).trans (List.Perm.swap b x _)

end Coarse

theorem total_upsert (hf : ∀ x, C.key (f x) = C.key x) (hb : C.key b = k)
    (hweight : ∀ x, C.weight (f x) = C.weight x + n) (hn : C.weight b = n)
    (hnodup : (bs.map C.key).Nodup) (k' : κ) :
    total C (upsert C bs k f b) k' = total C bs k' + if k = k' then n else 0 :=
  total_upsert_coarse id hf hb hweight hn hnodup k'

section Absorb

variable {join : β → β → β} (hkey : ∀ x y, C.key (join x y) = C.key x)

include hkey

theorem mem_keys_absorb {k' : κ} :
    k' ∈ (absorb C join bs xs).map C.key ↔ k' ∈ bs.map C.key ∨ k' ∈ xs.map C.key := by
  induction xs generalizing bs with
  | nil => simp [absorb]
  | cons x xs ih =>
    rw [absorb, foldl_cons, ← absorb, ih, mem_keys_upsert (fun b => hkey b x) rfl,
      map_cons, mem_cons, or_assoc]

theorem nodup_absorb (hnodup : (bs.map C.key).Nodup) :
    ((absorb C join bs xs).map C.key).Nodup := by
  induction xs generalizing bs with
  | nil => exact hnodup
  | cons x xs ih => exact ih (nodup_upsert (fun b => hkey b x) rfl hnodup)

theorem total_absorb (hweight : ∀ x y, C.weight (join x y) = C.weight x + C.weight y)
    (hnodup : (bs.map C.key).Nodup) (k' : κ) :
    total C (absorb C join bs xs) k' = total C bs k' + total C xs k' := by
  induction xs generalizing bs with
  | nil => rfl
  | cons x xs ih =>
    have hstep := total_upsert (fun b => hkey b x) rfl (fun b => hweight b x) rfl hnodup k'
    rw [absorb, foldl_cons, ← absorb,
      ih (nodup_upsert (fun b => hkey b x) rfl hnodup), hstep, total_cons, add_assoc]

end Absorb

theorem length_absorb_le (join : β → β → β) (bs xs : List β) :
    (absorb C join bs xs).length ≤ bs.length + xs.length := by
  induction xs generalizing bs with
  | nil => exact le_rfl
  | cons x xs ih =>
    have hstep : (upsert C bs (C.key x) (fun b => join b x) x).length ≤ bs.length + 1 := by
      rw [upsert]
      split
      · rw [length_map]
        exact Nat.le_succ _
      · exact le_of_eq length_append
    have hrest := ih (upsert C bs (C.key x) (fun b => join b x) x)
    rw [absorb, foldl_cons, ← absorb, length_cons]
    omega

end Tally
