import Mathlib

/-!
# Binary heaps

A heap is an array in which no element has a smaller key than its parent, so that the first one has
the smallest key.

Results:
1. `RisesFrom.exchange`, `SinksFrom.exchange`: what an exchange does to the order.
2. `Ordered.push`, `Ordered.pop`: a heap stays a heap, and `pop` gives an element of the smallest
   key.
-/

namespace Heap

variable {α R : Type*} [LinearOrder R]

def parent (j : Nat) : Nat := (j - 1) / 2

section Operations

variable (key : α → R)

def up (a : Array α) (j : Nat) : Array α :=
  if h : 0 < j ∧ j < a.size then
    have hparent : parent j < a.size := by
      rw [parent]
      omega
    if key a[j] < key a[parent j] then up (a.swap (parent j) j) (parent j) else a
  else a
termination_by j
decreasing_by
  rw [parent]
  omega

/-- The child with the smaller key among the first `n` elements. -/
def child (a : Array α) (i n : Nat) (h : 2 * i + 1 < n ∧ n ≤ a.size) : Nat :=
  if h2 : 2 * i + 2 < n then
    if key a[2 * i + 2] < key a[2 * i + 1] then 2 * i + 2 else 2 * i + 1
  else 2 * i + 1

theorem child_cases (a : Array α) (i n : Nat) (h : 2 * i + 1 < n ∧ n ≤ a.size) :
    child key a i n h < n ∧ (child key a i n h = 2 * i + 1 ∨ child key a i n h = 2 * i + 2) := by
  rw [child]
  split
  · split
    · exact ⟨by assumption, .inr rfl⟩
    · exact ⟨h.1, .inl rfl⟩
  · exact ⟨h.1, .inl rfl⟩

/-- An element sinks among the first `n` elements as long as a child has a smaller key. -/
def down (a : Array α) (i n : Nat) : Array α :=
  if h : 2 * i + 1 < n ∧ n ≤ a.size then
    have hchild := child_cases key a i n h
    have hi : i < a.size := by omega
    have hj : child key a i n h < a.size := by omega
    if key a[child key a i n h] < key a[i] then
      down (a.swap i (child key a i n h)) (child key a i n h) n
    else a
  else a
termination_by n - i

def push (a : Array α) (x : α) : Array α := up key (a.push x) a.size

def pop (a : Array α) : Option (α × Array α) :=
  if h : 0 < a.size then
    have hlast : a.size - 1 < a.size := Nat.sub_one_lt_of_lt h
    let b := down key (a.swap 0 (a.size - 1)) 0 (a.size - 1)
    (b[a.size - 1]?).map fun x => (x, b.pop)
  else none

end Operations

/-- The keys of the first `n` elements. -/
def keys (key : α → R) (a : Array α) (n : Nat) (i : Nat) : Option R :=
  if i < n then (a[i]?).map key else none

def exchange (v : Nat → Option R) (i j : Nat) (k : Nat) : Option R :=
  if k = i then v j else if k = j then v i else v k

/-- No element is smaller than its parent. -/
def InOrder (v : Nat → Option R) : Prop :=
  ∀ j x y, 0 < j → v (parent j) = some x → v j = some y → x ≤ y

/-- Only the key at `j` may be smaller than that of its parent. -/
structure RisesFrom (v : Nat → Option R) (j : Nat) : Prop where
  others : ∀ i x y, 0 < i → i ≠ j → v (parent i) = some x → v i = some y → x ≤ y
  across : ∀ i x y, 0 < j → 0 < i → parent i = j → v (parent j) = some x → v i = some y → x ≤ y

/-- Only the key at `i` may be greater than that of a child. -/
structure SinksFrom (v : Nat → Option R) (i : Nat) : Prop where
  others : ∀ j x y, 0 < j → parent j ≠ i → v (parent j) = some x → v j = some y → x ≤ y
  across : ∀ j x y, 0 < i → 0 < j → parent j = i → v (parent i) = some x → v j = some y → x ≤ y

section Order

variable {v : Nat → Option R} {i j k : Nat} {x y : R}

theorem parent_lt (h : 0 < j) : parent j < j := by
  rw [parent]
  omega

theorem child_eq (hj : 0 < j) (h : parent j = i) : j = 2 * i + 1 ∨ j = 2 * i + 2 := by
  rw [parent] at h
  omega

theorem InOrder.root_le (h : InOrder v) (hdown : ∀ i j, i ≤ j → (v j).isSome → (v i).isSome)
    (h0 : v 0 = some x) (hk : v k = some y) : x ≤ y := by
  -- by induction on the position, through its parent
  induction k using Nat.strongRecOn generalizing y with
  | ind k ih =>
    rcases Nat.eq_zero_or_pos k with rfl | hpos
    · rw [h0] at hk
      exact (Option.some.inj hk).le
    · have hsome : (v (parent k)).isSome :=
        hdown _ k (parent_lt hpos).le (by rw [hk]; rfl)
      obtain ⟨z, hz⟩ := Option.isSome_iff_exists.1 hsome
      exact (ih _ (parent_lt hpos) hz).trans (h k z y hpos hz hk)

theorem RisesFrom.inOrder (h : RisesFrom v j)
    (hj : ∀ x y, 0 < j → v (parent j) = some x → v j = some y → x ≤ y) : InOrder v := by
  intro i x y hi hx hy
  by_cases hij : i = j
  · subst hij
    exact hj x y hi hx hy
  · exact h.others i x y hi hij hx hy

theorem RisesFrom.exchange (h : RisesFrom v j) (hj : 0 < j) (hx : v (parent j) = some x)
    (hy : v j = some y) (hlt : y < x) : RisesFrom (exchange v (parent j) j) (parent j) where
  others i x' y' hi hij hx' hy' := by
    have hne := parent_lt hj
    have hne' := parent_lt hi
    rw [Heap.exchange] at hx' hy'
    rw [if_neg hij] at hy'
    by_cases hi' : i = j
    · subst hi'
      rw [if_pos rfl, hy] at hx'
      rw [if_pos rfl, hx] at hy'
      cases hx'
      cases hy'
      exact hlt.le
    · rw [if_neg hi'] at hy'
      by_cases hp : parent i = parent j
      · -- the other child
        rw [if_pos hp, hy] at hx'
        cases hx'
        exact hlt.le.trans (h.others i x y' hi hi' (hp ▸ hx) hy')
      · rw [if_neg hp] at hx'
        by_cases hp' : parent i = j
        · rw [if_pos hp', hx] at hx'
          cases hx'
          exact h.across i x y' hj hi hp' hx hy'
        · rw [if_neg hp'] at hx'
          exact h.others i x' y' hi hi' hx' hy'
  across i x' y' hpos hi hp hx' hy' := by
    have hne := parent_lt hj
    have hne' := parent_lt hpos
    have hne'' := parent_lt hi
    have hgrand : v (parent (parent j)) = some x' := by
      rw [Heap.exchange, if_neg hne'.ne, if_neg (hne'.trans hne).ne] at hx'
      exact hx'
    have hle : x' ≤ x := h.others (parent j) x' x hpos hne.ne hgrand hx
    rw [Heap.exchange, if_neg (hp ▸ hne''.ne' : i ≠ parent j)] at hy'
    by_cases hi' : i = j
    · rw [if_pos hi', hx] at hy'
      cases hy'
      exact hle
    · rw [if_neg hi'] at hy'
      exact hle.trans (h.others i x y' hi hi' (hp ▸ hx) hy')

theorem SinksFrom.inOrder (h : SinksFrom v i)
    (hi : ∀ j x y, 0 < j → parent j = i → v i = some x → v j = some y → x ≤ y) : InOrder v := by
  intro j x y hj hx hy
  by_cases hp : parent j = i
  · exact hi j x y hj hp (hp ▸ hx) hy
  · exact h.others j x y hj hp hx hy

theorem SinksFrom.exchange (h : SinksFrom v i) (hj : 0 < j) (hp : parent j = i)
    (hx : v i = some x) (hy : v j = some y) (hlt : y < x)
    (hleast : ∀ k z, 0 < k → parent k = i → v k = some z → y ≤ z) :
    SinksFrom (exchange v i j) j where
  others k x' y' hk hpk hx' hy' := by
    have hne : i < j := hp ▸ parent_lt hj
    have hne' := parent_lt hk
    rw [Heap.exchange] at hx' hy'
    rw [if_neg hpk] at hx'
    by_cases hki : k = i
    · -- the key that has risen is not below the key above it
      subst hki
      rw [if_pos rfl, hy] at hy'
      rw [if_neg hne'.ne] at hx'
      cases hy'
      exact h.across j x' y hk hj hp hx' hy
    · rw [if_neg hki] at hy'
      by_cases hpi : parent k = i
      · rw [if_pos hpi, hy] at hx'
        cases hx'
        by_cases hkj : k = j
        · rw [if_pos hkj, hx] at hy'
          cases hy'
          exact hlt.le
        · rw [if_neg hkj] at hy'
          exact hleast k y' hk hpi hy'
      · rw [if_neg hpi] at hx'
        have hkj : k ≠ j := fun hkj => hpi (hkj ▸ hp)
        rw [if_neg hkj] at hy'
        exact h.others k x' y' hk hpi hx' hy'
  across k x' y' _ hk hpk hx' hy' := by
    have hne : i < j := hp ▸ parent_lt hj
    have hne' : j < k := hpk ▸ parent_lt hk
    rw [Heap.exchange, if_pos hp, hy] at hx'
    rw [Heap.exchange, if_neg (hne.trans hne').ne', if_neg hne'.ne'] at hy'
    cases hx'
    exact h.others k y y' hk (hpk ▸ hne.ne') (hpk ▸ hy) hy'

end Order

def Ordered (key : α → R) (a : Array α) : Prop := InOrder (keys key a a.size)

section Arrays

variable {key : α → R} {a : Array α} {i j n : Nat}

omit [LinearOrder R] in
theorem keys_swap (hi : i < a.size) (hj : j < a.size) (hin : i < n) (hjn : j < n) :
    keys key (a.swap i j) n = exchange (keys key a n) i j := by
  funext k
  rw [keys, exchange, keys, keys, keys, Array.getElem?_swap]
  grind

omit [LinearOrder R] in
theorem keys_eq_some {x : R} (h : keys key a n i = some x) :
    ∃ hi : i < a.size, i < n ∧ key a[i] = x := by
  rw [keys] at h
  split at h
  · obtain ⟨y, hy, rfl⟩ := Option.map_eq_some_iff.1 h
    obtain ⟨hi, rfl⟩ := Array.getElem?_eq_some_iff.1 hy
    exact ⟨hi, by assumption, rfl⟩
  · cases h

omit [LinearOrder R] in
theorem keys_of_lt (key : α → R) (hi : i < a.size) (hin : i < n) :
    keys key a n i = some (key a[i]) := by
  rw [keys, if_pos hin, Array.getElem?_eq_getElem hi, Option.map_some]

theorem RisesFrom.up (h : RisesFrom (keys key a a.size) j) :
    (up key a j).Perm a ∧ Ordered key (up key a j) := by
  induction j using Nat.strongRecOn generalizing a with
  | ind j ih =>
    rw [Heap.up]
    split
    · next hj =>
      have hparent : parent j < a.size := (parent_lt hj.1).trans hj.2
      have hx := keys_of_lt key hparent hparent
      have hy := keys_of_lt key hj.2 hj.2
      dsimp only
      split
      · next hlt =>
        have hswap := h.exchange hj.1 hx hy hlt
        rw [← keys_swap hparent hj.2 hparent hj.2] at hswap
        obtain ⟨hperm, hordered⟩ := ih _ (parent_lt hj.1) (by rwa [Array.size_swap])
        exact ⟨hperm.trans (Array.swap_perm hparent hj.2), hordered⟩
      · next hlt =>
        refine ⟨.refl _, h.inOrder fun x y _ hx' hy' => ?_⟩
        rw [hx] at hx'
        rw [hy] at hy'
        cases hx'
        cases hy'
        exact not_lt.1 hlt
    · next hj =>
      refine ⟨.refl _, h.inOrder fun x y hpos _ hy => ?_⟩
      obtain ⟨hlt, -⟩ := keys_eq_some hy
      exact absurd ⟨hpos, hlt⟩ hj

theorem child_le (h : 2 * i + 1 < n ∧ n ≤ a.size) {x y : R}
    (hx : keys key a n (child key a i n h) = some x) (hj : 0 < j) (hp : parent j = i)
    (hy : keys key a n j = some y) : x ≤ y := by
  obtain ⟨_, -, rfl⟩ := keys_eq_some hx
  obtain ⟨_, hjn, rfl⟩ := keys_eq_some hy
  rcases child_eq hj hp with rfl | rfl <;> grind [child]

theorem SinksFrom.down (h : SinksFrom (keys key a n) i) (hn : n ≤ a.size) :
    (down key a i n).Perm a ∧ InOrder (keys key (down key a i n) n) ∧
      ∀ k, n ≤ k → (down key a i n)[k]? = a[k]? := by
  induction hm : n - i using Nat.strongRecOn generalizing a i with
  | ind m ih =>
    rw [Heap.down]
    split
    · next hi =>
      obtain ⟨hcn, hchild⟩ := child_cases key a i n hi
      have hin : i < n := by omega
      have hx := keys_of_lt key (hin.trans_le hn) hin
      have hy := keys_of_lt key (hcn.trans_le hn) hcn
      have hpos : 0 < child key a i n hi := by omega
      have hp : parent (child key a i n hi) = i := by
        rw [parent]
        omega
      dsimp only
      split
      · next hlt =>
        have hswap := h.exchange hpos hp hx hy hlt
          fun k z hk hpk hz => child_le hi hy hk hpk hz
        rw [← keys_swap (hin.trans_le hn) (hcn.trans_le hn) hin hcn] at hswap
        obtain ⟨hperm, hordered, hrest⟩ :=
          ih _ (by omega) hswap (by rwa [Array.size_swap]) rfl
        refine ⟨hperm.trans (Array.swap_perm _ _), hordered, fun k hk => ?_⟩
        rw [hrest k hk, Array.getElem?_swap]
        grind
      · next hlt =>
        refine ⟨.refl _, h.inOrder fun j x y hj hpj hx' hy' => ?_, fun _ _ => rfl⟩
        rw [hx] at hx'
        cases hx'
        exact (not_lt.1 hlt).trans (child_le hi hy hj hpj hy')
    · next hi =>
      refine ⟨.refl _, h.inOrder fun j x y hj hp _ hy => ?_, fun _ _ => rfl⟩
      obtain ⟨-, hjn, -⟩ := keys_eq_some hy
      have := child_eq hj hp
      omega

theorem Ordered.push (h : Ordered key a) (x : α) :
    (push key a x).Perm (a.push x) ∧ Ordered key (push key a x) := by
  refine RisesFrom.up ⟨fun i y z hi hne hy hz => ?_, fun i y z _ hi hp _ hz => ?_⟩
  · obtain ⟨hlt, -, rfl⟩ := keys_eq_some hz
    obtain ⟨hlt', -, rfl⟩ := keys_eq_some hy
    rw [Array.size_push] at hlt
    have hi' : i < a.size := by omega
    have hparent := (parent_lt hi).trans hi'
    rw [Array.getElem_push_lt hi', Array.getElem_push_lt hparent]
    exact h i _ _ hi (keys_of_lt key hparent hparent) (keys_of_lt key hi' hi')
  -- the new element has no child
  · obtain ⟨hlt, -⟩ := keys_eq_some hz
    rw [Array.size_push] at hlt
    have := parent_lt hi
    omega

theorem Ordered.pop (h : Ordered key a) (ha : 0 < a.size) :
    ∃ x b, pop key a = some (x, b) ∧ a.toList.Perm (x :: b.toList) ∧ Ordered key b ∧
      ∀ y ∈ b, key x ≤ key y := by
  have hlast : a.size - 1 < a.size := Nat.sub_one_lt_of_lt ha
  have hkeys : ∀ k, 0 < k → keys key (a.swap 0 (a.size - 1)) (a.size - 1) k =
      keys key a (a.size - 1) k := by
    intro k hk
    rw [keys, keys, Array.getElem?_swap]
    grind
  have hsinks : SinksFrom (keys key (a.swap 0 (a.size - 1)) (a.size - 1)) 0 := by
    refine ⟨fun j x y hj hp hx hy => ?_, fun j x y h0 => absurd h0 (lt_irrefl 0)⟩
    rw [hkeys _ (Nat.pos_of_ne_zero hp)] at hx
    rw [hkeys _ hj] at hy
    obtain ⟨hx', -, rfl⟩ := keys_eq_some hx
    obtain ⟨hy', -, rfl⟩ := keys_eq_some hy
    exact h j _ _ hj (keys_of_lt key hx' hx') (keys_of_lt key hy' hy')
  obtain ⟨hperm, hordered, hrest⟩ := hsinks.down (by rw [Array.size_swap]; exact hlast.le)
  have hperm' := hperm.trans (Array.swap_perm ha hlast)
  have hfirst := hrest (a.size - 1) le_rfl
  generalize hb : down key (a.swap 0 (a.size - 1)) 0 (a.size - 1) = b at hperm' hordered hfirst
  have hsize : b.size = a.size := hperm'.size_eq
  have hfirst' : b[a.size - 1]? = some a[0] := by
    rw [hfirst, Array.getElem?_swap]
    grind
  have hall : a.toList.Perm (a[0] :: b.pop.toList) := by
    have hlist : b.pop.toList ++ [a[0]] = b.toList := by
      rw [Array.toList_pop]
      refine List.dropLast_append_getLast? _ ?_
      rw [Option.mem_def, List.getLast?_eq_getElem?, Array.length_toList, hsize,
        Array.getElem?_toList, hfirst']
    have htoList := hperm'.toList
    rw [← hlist] at htoList
    exact htoList.symm.trans List.perm_append_comm
  refine ⟨a[0], b.pop, ?_, hall, ?_, fun y hy => ?_⟩
  · rw [Heap.pop, dif_pos ha]
    dsimp only
    rw [hb, hfirst', Option.map_some]
  · have hpop : keys key b.pop b.pop.size = keys key b (a.size - 1) := by
      funext k
      rw [keys, keys, Array.size_pop, hsize, Array.getElem?_pop]
      grind
    rw [Ordered, hpop]
    exact hordered
  · have hmem : y ∈ a.toList := hall.mem_iff.2 (List.mem_cons_of_mem _ (Array.mem_toList_iff.2 hy))
    obtain ⟨k, hk, rfl⟩ := Array.mem_iff_getElem.1 (Array.mem_toList_iff.1 hmem)
    refine h.root_le (fun i j hij hj => ?_) (keys_of_lt key ha ha) (keys_of_lt key hk hk)
    obtain ⟨z, hz⟩ := Option.isSome_iff_exists.1 hj
    obtain ⟨hj, -⟩ := keys_eq_some hz
    rw [keys_of_lt key (hij.trans_lt hj) (hij.trans_lt hj)]
    rfl

end Arrays

end Heap
