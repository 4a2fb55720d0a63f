import Mathlib

/-!
# Distribution of hash prefixes over nodes

`distribute` assigns the 256 prefixes of the index hashes to the nodes that are alive. Each node has
a share, which is the same for all up to one.
-/

namespace SeaSearch

open List

variable {ν : Type} [DecidableEq ν]

abbrev Prefix := Fin 256

def allPrefixes : List Prefix := List.finRange 256

abbrev Assign (ν : Type) := Prefix → Option ν

structure Alive (ν : Type) where
  ids : List ν
  nodup : ids.Nodup
  nonempty : ids ≠ []

/-- The orders of a run: of the loops over `curAssignMap`, over `fullAssigns` and over
`NodeAssignResult`, and of the pool after the shuffle. -/
structure Orders (assign : Assign ν) where
  keys : List Prefix
  keys_perm : keys.Perm (allPrefixes.filter fun p => (assign p).isSome)
  full : List Prefix
  full_perm : full.Perm allPrefixes
  shuffle : List Prefix → List Prefix
  shuffle_perm : ∀ l, (shuffle l).Perm l
  results : List (ν × List Prefix) → List (ν × List Prefix)
  results_perm : ∀ l, (results l).Perm l

/-- The share of the node at position `i` of `n`. -/
def share (n i : Nat) : Nat := if i < 256 % n then 256 / n + 1 else 256 / n

/-- The nodes from position `i` on, with their shares. -/
def sharesFrom (n i : Nat) : List ν → List (ν × Nat)
  | [] => []
  | v :: vs => (v, share n i) :: sharesFrom n (i + 1) vs

def shares (ids : List ν) : List (ν × Nat) := sharesFrom ids.length 0 ids

section Loops

variable {assign : Assign ν}

/-- `curNodeAssignMap` before the first loop over the nodes. -/
def nodeList (o : Orders assign) (v : ν) : List Prefix := o.keys.filter fun p => assign p = some v

/-- `curNodeAssignMap` after it. -/
def kept (o : Orders assign) (s : ν × Nat) : List Prefix := (nodeList o s.1).take s.2

/-- The pool after it: the prefixes without a node that is alive, and what is above the
shares. -/
def pool (o : Orders assign) (ids : List ν) : List Prefix :=
  (o.full.filter fun p => ((assign p).all fun v => v ∉ ids)) ++
    (shares ids).flatMap fun s => (nodeList o s.1).drop s.2

end Loops

/-- The second loop over the nodes. A node below its share takes what it lacks from the
pool; `pool[:m]` would be out of range if the node had more than its share, or the pool less
than it lacks. -/
def deal (list : ν × Nat → List Prefix) :
    List (ν × Nat) → List Prefix → Option (List (ν × List Prefix))
  | [], _ => some []
  | s :: rest, pool =>
    if s.2 = (list s).length then deal list rest pool
    else if (list s).length ≤ s.2 ∧ s.2 - (list s).length ≤ pool.length then
      (deal list rest (pool.drop (s.2 - (list s).length))).map
        ((s.1, list s ++ pool.take (s.2 - (list s).length)) :: ·)
    else none

/-- `updatedAssigns`: the prefixes whose node changes. -/
def moves (assign : Assign ν) (results : List (ν × List Prefix)) : List (Prefix × ν) :=
  results.flatMap fun r =>
    r.2.filterMap fun p => if assign p = some r.1 then none else some (p, r.1)

/-- `distribute`. There is no result when a slice is out of range. -/
def distribute (ids : List ν) (assign : Assign ν) (o : Orders assign) :
    Option (List (Prefix × ν)) :=
  if pool o ids = [] then some []
  else (deal (kept o) (shares ids) (o.shuffle (pool o ids))).map fun r =>
    moves assign (o.results r)

def applyMoves (assign : Assign ν) (ms : List (Prefix × ν)) : Assign ν :=
  ms.foldl (fun f m => Function.update f m.1 (some m.2)) assign

def held (assign : Assign ν) (v : ν) : Nat := allPrefixes.countP fun p => assign p = some v

def movedOff (assign assign' : Assign ν) (v : ν) : Nat :=
  allPrefixes.countP fun p => assign p = some v ∧ assign' p ≠ some v

/-- What the new assignment must meet:
* `owner`: every prefix has a node that is alive;
* `even`: the nodes have the same number of prefixes up to one, and `larger`: as many have
  one more as there must be;
* `minimal`: a node does not lose more than it had above its share. -/
structure Balanced (ids : List ν) (assign assign' : Assign ν) : Prop where
  owner : ∀ p, ∃ v ∈ ids, assign' p = some v
  even : ∀ v ∈ ids, held assign' v = 256 / ids.length ∨ held assign' v = 256 / ids.length + 1
  larger : ids.countP (fun v => held assign' v = 256 / ids.length + 1) = 256 % ids.length
  minimal : ∀ v ∈ ids, movedOff assign assign' v ≤ held assign v - held assign' v

namespace DistributeLemmas

section Shares

omit [DecidableEq ν]

theorem map_fst_sharesFrom (n i : Nat) (vs : List ν) : (sharesFrom n i vs).map Prod.fst = vs := by
  induction vs generalizing i with
  | nil => rfl
  | cons v vs ih => rw [sharesFrom, map_cons, ih]

theorem sum_sharesFrom (n i : Nat) (vs : List ν) :
    ((sharesFrom n i vs).map Prod.snd).sum =
      vs.length * (256 / n) + (min (256 % n) (i + vs.length) - min (256 % n) i) := by
  induction vs generalizing i with
  | nil => simp [sharesFrom]
  | cons v vs ih =>
    rw [sharesFrom, map_cons, sum_cons, ih, share, length_cons, Nat.succ_mul]
    split <;> omega

theorem sum_shares (a : Alive ν) : ((shares a.ids).map Prod.snd).sum = 256 := by
  have hpos : 0 < a.ids.length := length_pos_iff.2 a.nonempty
  have hmod := Nat.mod_lt 256 hpos
  have hdiv := Nat.div_add_mod 256 a.ids.length
  rw [shares, sum_sharesFrom]
  omega

theorem countP_sharesFrom (n i : Nat) (vs : List ν) :
    (sharesFrom n i vs).countP (fun s => s.2 = 256 / n + 1) =
      min (256 % n) (i + vs.length) - min (256 % n) i := by
  induction vs generalizing i with
  | nil => simp [sharesFrom]
  | cons v vs ih =>
    rw [sharesFrom, countP_cons, ih, share, length_cons]
    split <;> simp <;> omega

theorem share_of_mem (h : s ∈ sharesFrom n i vs) : s.2 = 256 / n ∨ s.2 = 256 / n + 1 := by
  induction vs generalizing i with
  | nil => cases h
  | cons v vs ih =>
    rcases mem_cons.1 h with rfl | h
    · simp only [share]
      split
      · exact .inr rfl
      · exact .inl rfl
    · exact ih h

theorem mem_ids_of_mem_shares (h : s ∈ shares ids) : s.1 ∈ ids := by
  have hmem := mem_map_of_mem (f := Prod.fst) h
  rwa [shares, map_fst_sharesFrom] at hmem

theorem exists_share (h : v ∈ ids) : ∃ n, (v, n) ∈ shares ids := by
  rw [← map_fst_sharesFrom ids.length 0 ids] at h
  obtain ⟨s, hs, rfl⟩ := mem_map.1 h
  exact ⟨s.2, hs⟩

theorem pairwise_shares (a : Alive ν) : (shares a.ids).Pairwise fun s s' => s.1 ≠ s'.1 := by
  have hnodup := a.nodup
  rw [← map_fst_sharesFrom a.ids.length 0 a.ids] at hnodup
  exact pairwise_map.1 hnodup

theorem share_unique (a : Alive ν) (hs : s ∈ shares a.ids) (hs' : s' ∈ shares a.ids)
    (h : s.1 = s'.1) : s = s' := by
  have hnodup := a.nodup
  rw [← map_fst_sharesFrom a.ids.length 0 a.ids] at hnodup
  exact inj_on_of_nodup_map hnodup hs hs' h

theorem nodup_flatMap {assign : Assign ν} (a : Alive ν) (hf : ∀ s, (f s).Nodup)
    (hassign : ∀ s, ∀ p ∈ f s, assign p = some s.1) : ((shares a.ids).flatMap f).Nodup := by
  rw [List.nodup_flatMap]
  refine ⟨fun s _ => hf s, (pairwise_shares a).imp ?_⟩
  intro s s' hne p hp hp'
  exact hne (Option.some.inj ((hassign s p hp).symm.trans (hassign s' p hp')))

end Shares

abbrev missing (list : ν × Nat → List Prefix) (l : List (ν × Nat)) : Nat :=
  (l.map fun s => s.2 - (list s).length).sum

section Lists

variable {assign : Assign ν} (o : Orders assign) {p : Prefix} {s : ν × Nat} {ids : List ν}

theorem nodup_allPrefixes : allPrefixes.Nodup := nodup_finRange 256

theorem mem_allPrefixes (p : Prefix) : p ∈ allPrefixes := mem_finRange p

theorem mem_nodeList : p ∈ nodeList o v ↔ assign p = some v := by
  rw [nodeList, mem_filter, o.keys_perm.mem_iff]
  constructor
  · rintro ⟨-, h⟩
    exact of_decide_eq_true h
  · intro h
    exact ⟨by simp [mem_allPrefixes, h], decide_eq_true h⟩

theorem nodup_nodeList (v : ν) : (nodeList o v).Nodup := by
  refine List.Nodup.filter _ ?_
  rw [o.keys_perm.nodup_iff]
  exact nodup_allPrefixes.filter _

theorem length_nodeList (v : ν) : (nodeList o v).length = held assign v := by
  have hperm : (nodeList o v).Perm (allPrefixes.filter fun p => assign p = some v) := by
    rw [perm_ext_iff_of_nodup (nodup_nodeList o v) (nodup_allPrefixes.filter _)]
    intro p
    rw [mem_nodeList]
    simp [mem_allPrefixes]
  rw [hperm.length_eq, held, countP_eq_length_filter]

theorem length_kept_le (s : ν × Nat) : (kept o s).length ≤ s.2 := by
  rw [kept, length_take]
  exact Nat.min_le_left _ _

theorem assign_of_mem_kept (h : p ∈ kept o s) : assign p = some s.1 :=
  (mem_nodeList o).1 (mem_of_mem_take h)

theorem assign_of_mem_drop (h : p ∈ (nodeList o s.1).drop s.2) : assign p = some s.1 :=
  (mem_nodeList o).1 (mem_of_mem_drop h)

theorem mem_kept_or_drop (h : assign p = some s.1) :
    p ∈ kept o s ∨ p ∈ (nodeList o s.1).drop s.2 := by
  have hmem := (mem_nodeList o).2 h
  rwa [← take_append_drop s.2 (nodeList o s.1), mem_append] at hmem

theorem not_mem_drop_of_mem_kept (h : p ∈ kept o s) : p ∉ (nodeList o s.1).drop s.2 := by
  have hnodup := nodup_nodeList o s.1
  rw [← take_append_drop s.2 (nodeList o s.1), nodup_append'] at hnodup
  exact fun hdrop => hnodup.2.2 h hdrop

theorem mem_pool :
    p ∈ pool o ids ↔ (∀ v ∈ ids, assign p ≠ some v) ∨
      ∃ s ∈ shares ids, p ∈ (nodeList o s.1).drop s.2 := by
  rw [pool, mem_append, mem_filter, o.full_perm.mem_iff, mem_flatMap]
  refine or_congr ?_ Iff.rfl
  cases assign p with
  | none => simp [mem_allPrefixes]
  | some w =>
    simp only [mem_allPrefixes, Option.all_some, decide_eq_true_eq, true_and,
      ne_eq, Option.some.injEq]
    constructor
    · rintro hw v hv rfl
      exact hw hv
    · exact fun h hw => h w hw rfl

theorem nodup_pool (a : Alive ν) : (pool o a.ids).Nodup := by
  rw [pool, nodup_append']
  refine ⟨?_, ?_, ?_⟩
  · refine List.Nodup.filter _ ?_
    rw [o.full_perm.nodup_iff]
    exact nodup_allPrefixes
  · exact nodup_flatMap a (fun s => (nodup_nodeList o s.1).sublist (drop_sublist _ _))
      fun s p hp => assign_of_mem_drop o hp
  · intro p hfree hmore
    obtain ⟨s, hs, hp⟩ := mem_flatMap.1 hmore
    have hall := of_mem_filter hfree
    rw [assign_of_mem_drop o hp] at hall
    simp [mem_ids_of_mem_shares hs] at hall

theorem not_mem_pool_of_mem_kept (a : Alive ν) (hs : s ∈ shares a.ids) (h : p ∈ kept o s) :
    p ∉ pool o a.ids := by
  have hassign := assign_of_mem_kept o h
  rw [mem_pool]
  rintro (hfree | ⟨s', hs', hdrop⟩)
  · exact hfree s.1 (mem_ids_of_mem_shares hs) hassign
  · have hsame : s' = s := share_unique a hs' hs
      (Option.some.inj ((assign_of_mem_drop o hdrop).symm.trans hassign))
    subst hsame
    exact not_mem_drop_of_mem_kept o h hdrop

theorem cover (a : Alive ν) :
    (pool o a.ids ++ (shares a.ids).flatMap (kept o)).Perm allPrefixes := by
  have hkept : ((shares a.ids).flatMap (kept o)).Nodup :=
    nodup_flatMap a (fun s => (nodup_nodeList o s.1).sublist (take_sublist _ _))
      fun s p hp => assign_of_mem_kept o hp
  have hnodup : (pool o a.ids ++ (shares a.ids).flatMap (kept o)).Nodup := by
    rw [nodup_append']
    refine ⟨nodup_pool o a, hkept, ?_⟩
    intro p hpool hp
    obtain ⟨s, hs, hp⟩ := mem_flatMap.1 hp
    exact not_mem_pool_of_mem_kept o a hs hp hpool
  rw [perm_ext_iff_of_nodup hnodup nodup_allPrefixes]
  intro p
  refine ⟨fun _ => mem_allPrefixes p, fun _ => ?_⟩
  rw [mem_append, mem_pool, mem_flatMap]
  by_cases hfree : ∀ v ∈ a.ids, assign p ≠ some v
  · exact .inl (.inl hfree)
  · push Not at hfree
    obtain ⟨v, hv, hassign⟩ := hfree
    obtain ⟨n, hn⟩ := exists_share hv
    rcases mem_kept_or_drop o (s := (v, n)) hassign with hp | hp
    · exact .inr ⟨(v, n), hn, hp⟩
    · exact .inl (.inr ⟨(v, n), hn, hp⟩)

theorem length_pool (a : Alive ν) :
    missing (kept o) (shares a.ids) = (pool o a.ids).length := by
  have hcover := (cover o a).length_eq
  rw [length_append, length_flatMap, allPrefixes, length_finRange] at hcover
  have hsum : ∀ l, missing (kept o) l +
      (l.map fun s => (kept o s).length).sum = (l.map Prod.snd).sum := by
    intro l
    induction l with
    | nil => rfl
    | cons s l ih =>
      have hle := length_kept_le o s
      simp only [missing, map_cons, sum_cons] at ih ⊢
      omega
  have hall := hsum (shares a.ids)
  rw [sum_shares] at hall
  omega

end Lists

def dealt (list : ν × Nat → List Prefix) :
    List (ν × Nat) → List Prefix → List ((ν × Nat) × List Prefix)
  | [], _ => []
  | s :: rest, pool =>
    (s, pool.take (s.2 - (list s).length)) ::
      dealt list rest (pool.drop (s.2 - (list s).length))

def stored (list : ν × Nat → List Prefix) (x : (ν × Nat) × List Prefix) :
    Option (ν × List Prefix) :=
  if x.1.2 = (list x.1).length then none else some (x.1.1, list x.1 ++ x.2)

section Deal

variable {list : ν × Nat → List Prefix} {l : List (ν × Nat)} {pool : List Prefix}

omit [DecidableEq ν]

theorem map_fst_dealt (list : ν × Nat → List Prefix) (l : List (ν × Nat)) (pool : List Prefix) :
    (dealt list l pool).map Prod.fst = l := by
  induction l generalizing pool with
  | nil => rfl
  | cons s rest ih => rw [dealt, map_cons, ih]

theorem sum_rest (hsum : missing list (s :: l) = pool.length) :
    s.2 - (list s).length ≤ pool.length ∧
      missing list l = (pool.drop (s.2 - (list s).length)).length := by
  rw [missing, map_cons, sum_cons] at hsum
  rw [missing, length_drop]
  omega

theorem flatMap_snd_dealt (hsum : missing list l = pool.length) :
    (dealt list l pool).flatMap Prod.snd = pool := by
  induction l generalizing pool with
  | nil => exact (eq_nil_of_length_eq_zero hsum.symm).symm
  | cons s rest ih =>
    rw [dealt, flatMap_cons, ih (sum_rest hsum).2, take_append_drop]

theorem length_of_mem_dealt (hsum : missing list l = pool.length) :
    ∀ x ∈ dealt list l pool, x.2.length = x.1.2 - (list x.1).length := by
  induction l generalizing pool with
  | nil => exact fun x hx => absurd hx not_mem_nil
  | cons s rest ih =>
    rw [dealt, forall_mem_cons]
    exact ⟨length_take_of_le (sum_rest hsum).1, ih (sum_rest hsum).2⟩

theorem deal_spec (hle : ∀ s, (list s).length ≤ s.2) (hsum : missing list l = pool.length) :
    deal list l pool = some ((dealt list l pool).filterMap (stored list)) := by
  induction l generalizing pool with
  | nil => rfl
  | cons s rest ih =>
    obtain ⟨henough, hsum'⟩ := sum_rest hsum
    have hrest := ih hsum'
    rw [deal, dealt, filterMap_cons, stored]
    by_cases hfull : s.2 = (list s).length
    · rw [if_pos hfull, if_pos hfull]
      rwa [hfull, Nat.sub_self, drop_zero] at hrest ⊢
    · rw [if_neg hfull, if_neg hfull, if_pos ⟨hle s, henough⟩, hrest]
      rfl

end Deal

omit [DecidableEq ν] in
theorem applyMoves_eq {assign : Assign ν} (hall : ∀ m ∈ ms, m.1 = p → some m.2 = w)
    (hone : assign p = w ∨ ∃ m ∈ ms, m.1 = p) :
    applyMoves assign ms p = w := by
  induction ms generalizing assign with
  | nil =>
    rcases hone with h | ⟨m, hm, -⟩
    · exact h
    · cases hm
  | cons m ms ih =>
    rw [forall_mem_cons] at hall
    refine ih hall.2 ?_
    by_cases hp : m.1 = p
    · subst hp
      exact .inl ((Function.update_self m.1 (some m.2) assign).trans (hall.1 rfl))
    · refine hone.imp (fun h => (Function.update_of_ne (Ne.symm hp) _ _).trans h) ?_
      rintro ⟨m', hm', hp'⟩
      rcases mem_cons.1 hm' with rfl | hm'
      · exact absurd hp' hp
      · exact ⟨m', hm', hp'⟩

section After

variable {assign : Assign ν} (a : Alive ν) (o : Orders assign) {x y : (ν × Nat) × List Prefix}
  {s : ν × Nat} {p : Prefix}

def dealing : List ((ν × Nat) × List Prefix) :=
  dealt (kept o) (shares a.ids) (o.shuffle (pool o a.ids))

def finalList (x : (ν × Nat) × List Prefix) : List Prefix := kept o x.1 ++ x.2

def finalMoves : List (Prefix × ν) :=
  moves assign (o.results ((dealing a o).filterMap (stored (kept o))))

theorem length_shuffled :
    missing (kept o) (shares a.ids) =
      (o.shuffle (pool o a.ids)).length := by
  rw [length_pool, (o.shuffle_perm _).length_eq]

theorem mem_shares_of_mem_dealing (hx : x ∈ dealing a o) : x.1 ∈ shares a.ids := by
  have hmem := mem_map_of_mem (f := Prod.fst) hx
  rwa [dealing, map_fst_dealt] at hmem

theorem exists_dealing (hs : s ∈ shares a.ids) : ∃ x ∈ dealing a o, x.1 = s := by
  rw [← map_fst_dealt (kept o) (shares a.ids) (o.shuffle (pool o a.ids))] at hs
  exact mem_map.1 hs

theorem dealing_unique (hx : x ∈ dealing a o) (hy : y ∈ dealing a o) (h : x.1.1 = y.1.1) :
    x = y := by
  have hnodup : ((dealing a o).map fun x => x.1.1).Nodup := by
    have hids := map_fst_sharesFrom a.ids.length 0 a.ids
    have hshares := map_fst_dealt (kept o) (shares a.ids) (o.shuffle (pool o a.ids))
    rw [shares] at hshares
    rw [← hshares, map_map] at hids
    exact hids ▸ a.nodup
  exact inj_on_of_nodup_map hnodup hx hy h

theorem length_of_mem_dealing (hx : x ∈ dealing a o) : x.2.length = x.1.2 - (kept o x.1).length :=
  length_of_mem_dealt (length_shuffled a o) x hx

theorem length_finalList (hx : x ∈ dealing a o) : (finalList o x).length = x.1.2 := by
  have hle := length_kept_le o x.1
  rw [finalList, length_append, length_of_mem_dealing a o hx]
  omega

theorem finalList_perm : ((dealing a o).flatMap (finalList o)).Perm allPrefixes := by
  have hkept : (dealing a o).flatMap (fun x => kept o x.1) = (shares a.ids).flatMap (kept o) := by
    rw [← map_fst_dealt (kept o) (shares a.ids) (o.shuffle (pool o a.ids)), flatMap_map]
    rfl
  have hpool : (dealing a o).flatMap Prod.snd = o.shuffle (pool o a.ids) :=
    flatMap_snd_dealt (length_shuffled a o)
  have hsplit := flatMap_append_perm (dealing a o) (fun x => kept o x.1) Prod.snd
  rw [hkept, hpool] at hsplit
  have hshuffle := (o.shuffle_perm (pool o a.ids)).append_left ((shares a.ids).flatMap (kept o))
  exact hsplit.symm.trans (hshuffle.trans (perm_append_comm.trans (cover o a)))

theorem exists_finalList (p : Prefix) : ∃ x ∈ dealing a o, p ∈ finalList o x :=
  mem_flatMap.1 ((finalList_perm a o).mem_iff.2 (mem_allPrefixes p))

theorem finalList_unique (hx : x ∈ dealing a o) (hy : y ∈ dealing a o) (hpx : p ∈ finalList o x)
    (hpy : p ∈ finalList o y) : x = y := by
  have hnodup := (finalList_perm a o).nodup_iff.2 nodup_allPrefixes
  have hpair := (List.nodup_flatMap.1 hnodup).2
  have hsymm : Std.Symm (Function.onFun List.Disjoint (finalList o)) :=
    ⟨fun _ _ h _ hp hp' => h hp' hp⟩
  by_contra hne
  exact hpair.forall hx hy hne hpx hpy

theorem distribute_eq : distribute a.ids assign o = some (finalMoves a o) := by
  rw [distribute, deal_spec (length_kept_le o) (length_shuffled a o)]
  split
  case isFalse => rfl
  case isTrue hempty =>
    -- nobody lacks anything, so that nothing is stored
    have hstored : (dealing a o).filterMap (stored (kept o)) = [] := by
      rw [filterMap_eq_nil_iff]
      intro x hx
      have hsnd : x.2 = [] := by
        have hpool : (dealing a o).flatMap Prod.snd = o.shuffle (pool o a.ids) :=
          flatMap_snd_dealt (length_shuffled a o)
        rw [hempty, (o.shuffle_perm []).eq_nil, flatMap_eq_nil_iff] at hpool
        exact hpool x hx
      have hlen := length_of_mem_dealing a o hx
      have hle := length_kept_le o x.1
      rw [hsnd, length_nil] at hlen
      rw [stored, if_pos (by omega)]
    rw [finalMoves, hstored, (o.results_perm []).eq_nil]
    rfl

theorem mem_finalMoves :
    (p, v) ∈ finalMoves a o ↔
      assign p ≠ some v ∧ ∃ x ∈ dealing a o, x.1.1 = v ∧ p ∈ finalList o x := by
  simp only [finalMoves, moves, mem_flatMap, mem_filterMap, (o.results_perm _).mem_iff, stored]
  constructor
  · rintro ⟨r, ⟨x, hx, hr⟩, q, hq, hmove⟩
    split at hr
    · cases hr
    cases hr
    split at hmove
    · cases hmove
    rename_i hne
    cases hmove
    exact ⟨hne, x, hx, rfl, hq⟩
  · rintro ⟨hne, x, hx, rfl, hp⟩
    have hlack : x.1.2 ≠ (kept o x.1).length := by
      intro hfull
      have hlen := length_of_mem_dealing a o hx
      have hsnd : x.2 = [] := eq_nil_of_length_eq_zero (by omega)
      rw [finalList, hsnd, append_nil] at hp
      exact hne (assign_of_mem_kept o hp)
    refine ⟨(x.1.1, finalList o x), ⟨x, hx, if_neg hlack⟩, p, hp, if_neg hne⟩

theorem applyMoves_finalMoves (hx : x ∈ dealing a o) (hp : p ∈ finalList o x) :
    applyMoves assign (finalMoves a o) p = some x.1.1 := by
  refine applyMoves_eq ?_ ?_
  · rintro ⟨q, w⟩ hm rfl
    obtain ⟨-, y, hy, rfl, hpy⟩ := (mem_finalMoves a o).1 hm
    rw [finalList_unique a o hx hy hp hpy]
  · by_cases hassign : assign p = some x.1.1
    · exact .inl hassign
    · exact .inr ⟨(p, x.1.1), (mem_finalMoves a o).2 ⟨hassign, x, hx, rfl, hp⟩, rfl⟩

theorem mem_finalList_iff (hx : x ∈ dealing a o) :
    p ∈ finalList o x ↔ applyMoves assign (finalMoves a o) p = some x.1.1 := by
  refine ⟨applyMoves_finalMoves a o hx, fun h => ?_⟩
  obtain ⟨y, hy, hpy⟩ := exists_finalList a o p
  have hsame := Option.some.inj ((applyMoves_finalMoves a o hy hpy).symm.trans h)
  rwa [dealing_unique a o hy hx hsame] at hpy

theorem held_finalMoves (hs : s ∈ shares a.ids) :
    held (applyMoves assign (finalMoves a o)) s.1 = s.2 := by
  obtain ⟨x, hx, rfl⟩ := exists_dealing a o hs
  have hall := (finalList_perm a o).nodup_iff.2 nodup_allPrefixes
  have hnodup := (List.nodup_flatMap.1 hall).1 x hx
  rw [← length_finalList a o hx, held, countP_eq_length_filter]
  refine List.Perm.length_eq ?_
  rw [perm_ext_iff_of_nodup (nodup_allPrefixes.filter _) hnodup]
  intro p
  rw [mem_filter, mem_finalList_iff a o hx]
  exact ⟨fun h => of_decide_eq_true h.2, fun h => ⟨mem_allPrefixes p, decide_eq_true h⟩⟩

theorem movedOff_le (hs : s ∈ shares a.ids) :
    movedOff assign (applyMoves assign (finalMoves a o)) s.1 ≤ held assign s.1 - s.2 := by
  rw [← length_nodeList o, ← length_drop, movedOff, countP_eq_length_filter]
  refine (subperm_of_subset (nodup_allPrefixes.filter _) ?_).length_le
  intro p hp
  obtain ⟨hassign, hmoved⟩ := of_decide_eq_true (mem_filter.1 hp).2
  rcases mem_kept_or_drop o hassign with hkept | hdrop
  · obtain ⟨x, hx, rfl⟩ := exists_dealing a o hs
    exact absurd (applyMoves_finalMoves a o hx (mem_append_left _ hkept)) hmoved
  · exact hdrop

theorem balanced_finalMoves : Balanced a.ids assign (applyMoves assign (finalMoves a o)) where
  owner p := by
    obtain ⟨x, hx, hp⟩ := exists_finalList a o p
    exact ⟨x.1.1, mem_ids_of_mem_shares (mem_shares_of_mem_dealing a o hx),
      applyMoves_finalMoves a o hx hp⟩
  even v hv := by
    obtain ⟨n, hs⟩ := exists_share hv
    rw [held_finalMoves a o hs]
    exact share_of_mem hs
  larger := by
    have hcount : a.ids.countP (fun v =>
        held (applyMoves assign (finalMoves a o)) v = 256 / a.ids.length + 1) =
        (shares a.ids).countP (fun s => s.2 = 256 / a.ids.length + 1) := by
      conv_lhs => arg 2; rw [← map_fst_sharesFrom a.ids.length 0 a.ids]
      rw [countP_map]
      refine countP_congr fun s hs => ?_
      rw [Function.comp_apply, held_finalMoves a o hs]
    have hmod := Nat.mod_lt 256 (length_pos_iff.2 a.nonempty)
    rw [hcount, shares, countP_sharesFrom]
    omega
  minimal v hv := by
    obtain ⟨n, hs⟩ := exists_share hv
    rw [held_finalMoves a o hs]
    exact movedOff_le a o hs

theorem distribute_of_shares (howner : ∀ p, ∃ v ∈ a.ids, assign p = some v)
    (hheld : ∀ s ∈ shares a.ids, held assign s.1 = s.2) :
    distribute a.ids assign o = some [] := by
  refine if_pos (eq_nil_iff_forall_not_mem.2 fun p hp => ?_)
  rcases (mem_pool o).1 hp with hfree | ⟨s, hs, hdrop⟩
  · obtain ⟨v, hv, hassign⟩ := howner p
    exact hfree v hv hassign
  · rw [← hheld s hs, ← length_nodeList o, drop_length] at hdrop
    cases hdrop

end After

end DistributeLemmas

open DistributeLemmas in
/-- For every list of nodes that are alive, every assignment, every order of the maps and
every shuffle: no slice is out of range, the assignment after the moves is balanced, and to
distribute it again with the same nodes moves nothing. -/
theorem distribute_balanced (a : Alive ν) (assign : Assign ν) (o : Orders assign) :
    ∃ ms, distribute a.ids assign o = some ms ∧
      Balanced a.ids assign (applyMoves assign ms) ∧
      ∀ o' : Orders (applyMoves assign ms),
        distribute a.ids (applyMoves assign ms) o' = some [] := by
  have hbalanced := balanced_finalMoves a o
  refine ⟨finalMoves a o, distribute_eq a o, hbalanced, fun o' => ?_⟩
  exact distribute_of_shares a o' hbalanced.owner fun s hs => held_finalMoves a o hs

end SeaSearch
