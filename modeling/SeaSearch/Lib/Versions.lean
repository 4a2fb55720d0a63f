import Mathlib

/-!
# Records with versions

A log of records in the order in which they were written. Every record has a number, larger than
those before it, and a key; the last record of a key is its current version.

Results:
1. `current_append`: the records of a log one after another.
2. `view_foldl`, `view_foldl_keys`, `view_foldl_last`: what a loop does that changes one key at a
   time.
-/

namespace Versions

open List

variable {ρ κ : Type*} [DecidableEq κ]

section Last

variable {key : ρ → κ} {l l' : List ρ} {k : κ}

def last (key : ρ → κ) (l : List ρ) (k : κ) : Option ρ := (l.filter fun r => key r = k).getLast?

theorem last_append : last key (l ++ l') k = (last key l' k).or (last key l k) := by
  rw [last, filter_append, List.getLast?_append]
  rfl

theorem last_concat (r : ρ) :
    last key (l ++ [r]) k = if key r = k then some r else last key l k := by
  rw [last_append]
  by_cases h : key r = k
  · simp [last, h]
  · simp [last, h]

theorem mem_of_last {r : ρ} (h : last key l k = some r) : r ∈ l ∧ key r = k := by
  have hmem := mem_filter.1 (mem_of_getLast? h)
  exact ⟨hmem.1, of_decide_eq_true hmem.2⟩

theorem last_eq_none : last key l k = none ↔ ∀ r ∈ l, key r ≠ k := by
  rw [last, List.getLast?_eq_none_iff, filter_eq_nil_iff]
  simp only [decide_eq_true_eq, ne_eq]

theorem last_self (ks : List κ) : last (fun k => k) ks k = if k ∈ ks then some k else none := by
  split
  case isTrue h =>
    cases hlast : last (fun k => k) ks k with
    | none => exact absurd rfl (last_eq_none.1 hlast k h)
    | some k' => rw [(mem_of_last hlast).2]
  case isFalse h =>
    rw [last_eq_none]
    rintro k' hk' rfl
    exact h hk'

theorem last_map {ρ' : Type*} (key : ρ' → κ) (f : ρ → ρ') (l : List ρ) (k : κ) :
    last key (l.map f) k = (last (fun r => key (f r)) l k).map f := by
  rw [last, last, filter_map, List.getLast?_map]
  rfl

def current {τ : Type*} (key : ρ → κ) (value : ρ → τ) (old : τ) (l : List ρ) (k : κ) : τ :=
  ((last key l k).map value).getD old

variable {τ : Type*} {value : ρ → τ} {old : τ}

theorem current_append :
    current key value old (l ++ l') k = current key value (current key value old l k) l' k := by
  rw [current, last_append]
  cases hlast : last key l' k with
  | none => rw [current, hlast, current, Option.none_or, Option.map_none, Option.getD_none]
  | some r =>
    rw [current, hlast, Option.some_or, Option.map_some, Option.getD_some, Option.getD_some]

theorem current_idem :
    current key value (current key value old l k) l k = current key value old l k := by
  rw [current, current]
  cases last key l k with
  | none | some r => rfl

theorem current_of_last (h : last key l k = none) : current key value old l k = old := by
  rw [current, h]
  rfl

theorem current_of_last_some {r : ρ} (h : last key l k = some r) :
    current key value old l k = value r := by
  rw [current, h]
  rfl

theorem current_map {ρ' : Type*} (f : ρ' → ρ) (l : List ρ') :
    current key value old (l.map f) k =
      current (fun r => key (f r)) (fun r => value (f r)) old l k := by
  rw [current, last_map, Option.map_map]
  rfl

end Last

section Views

variable {σ τ γ : Type*} (get : σ → κ → τ) {op : σ → γ → σ} {key : γ → κ}

theorem view_foldl {value : γ → τ}
    (hop : ∀ s c k, get (op s c) k = if key c = k then value c else get s k) (cs : List γ) (s : σ)
    (k : κ) : get (cs.foldl op s) k = current key value (get s k) cs k := by
  induction cs using List.reverseRecOn with
  | nil => rfl
  | append_singleton cs c ih =>
    rw [foldl_append, foldl_cons, foldl_nil, hop, current, last_concat]
    split
    · rfl
    · exact ih

theorem foldl_update (value : γ → τ) (cs : List γ) (m : κ → τ) (k : κ) :
    cs.foldl (fun m c => Function.update m (key c) (value c)) m k = current key value (m k) cs k :=
  view_foldl (fun m k => m k) (fun m c k => by simp only [Function.update_apply, eq_comm]) cs m k

theorem view_foldl_keys {op : σ → κ → σ} {f : κ → τ → τ} (hf : ∀ k t, f k (f k t) = f k t)
    (hop : ∀ s c k, get (op s c) k = if c = k then f k (get s k) else get s k) {ks : List κ}
    {s : σ} {k : κ} (hskip : k ∉ ks → f k (get s k) = get s k) :
    get (ks.foldl op s) k = f k (get s k) := by
  induction ks generalizing s with
  | nil => exact (hskip not_mem_nil).symm
  | cons c ks ih =>
    rw [foldl_cons]
    by_cases hc : c = k
    · rw [ih fun _ => by rw [hop, if_pos hc, hf], hop, if_pos hc, hf]
    · rw [ih, hop, if_neg hc]
      intro hk
      rw [hop, if_neg hc]
      exact hskip fun hmem => (mem_cons.1 hmem).elim (fun h => hc h.symm) hk

theorem view_foldl_last {keyOf : ρ → κ} {value : ρ → τ} {rowOp : σ → ρ → σ} {op : σ → κ → σ}
    {l : List ρ} (hrow : ∀ s r k, get (rowOp s r) k = if keyOf r = k then value r else get s k)
    (hop : ∀ s c, op s c = (last keyOf l c).elim s (rowOp s)) {ks : List κ} {s : σ} {k : κ}
    (hskip : k ∉ ks → last keyOf l k = none) :
    get (ks.foldl op s) k = current keyOf value (get s k) l k := by
  refine view_foldl_keys get (f := fun k old => current keyOf value old l k)
    (fun _ _ => current_idem) (fun s c k => ?_) fun hk => current_of_last (hskip hk)
  rw [hop]
  cases hlast : last keyOf l c with
  | none =>
    by_cases hc : c = k
    · rw [if_pos hc, current_of_last (hc ▸ hlast), Option.elim_none]
    · rw [if_neg hc, Option.elim_none]
  | some r =>
    rw [Option.elim_some, hrow, (mem_of_last hlast).2]
    by_cases hc : c = k
    · rw [if_pos hc, if_pos hc, current_of_last_some (hc ▸ hlast)]
    · rw [if_neg hc, if_neg hc]

end Views

section Points

variable {num : ρ → Nat} {key : ρ → κ} {l l' : List ρ} {n m : Nat} {k : κ}

def Increasing (num : ρ → Nat) (l : List ρ) : Prop := l.Pairwise fun a b => num a < num b

def upTo (num : ρ → Nat) (n : Nat) (l : List ρ) : List ρ := l.filter fun r => num r ≤ n

def after (num : ρ → Nat) (n : Nat) (l : List ρ) : List ρ := l.filter fun r => n < num r

theorem mem_upTo {r : ρ} : r ∈ upTo num n l ↔ r ∈ l ∧ num r ≤ n := by
  rw [upTo, mem_filter, decide_eq_true_eq]

theorem mem_after {r : ρ} : r ∈ after num n l ↔ r ∈ l ∧ n < num r := by
  rw [after, mem_filter, decide_eq_true_eq]

theorem upTo_append : upTo num n (l ++ l') = upTo num n l ++ upTo num n l' := filter_append ..

theorem after_append : after num n (l ++ l') = after num n l ++ after num n l' :=
  filter_append ..

theorem upTo_eq_nil (h : ∀ r ∈ l, n < num r) : upTo num n l = [] :=
  filter_eq_nil_iff.2 fun r hr => by simpa using h r hr

theorem after_eq_self (h : ∀ r ∈ l, n < num r) : after num n l = l :=
  filter_eq_self.2 fun r hr => decide_eq_true (h r hr)

theorem upTo_upTo (h : n ≤ m) : upTo num n (upTo num m l) = upTo num n l := by
  rw [upTo, upTo, filter_filter]
  refine filter_congr fun r _ => ?_
  rw [← Bool.decide_and]
  exact decide_eq_decide.2 ⟨And.left, fun hr => ⟨hr, hr.trans h⟩⟩

theorem after_after (h : n ≤ m) : after num m (after num n l) = after num m l := by
  rw [after, after, filter_filter]
  refine filter_congr fun r _ => ?_
  rw [← Bool.decide_and]
  exact decide_eq_decide.2 ⟨And.left, fun hr => ⟨hr, lt_of_le_of_lt h hr⟩⟩

theorem after_upTo_comm : after num n (upTo num m l) = upTo num m (after num n l) := by
  rw [after, upTo, filter_filter, upTo, after, filter_filter]
  exact filter_congr fun r _ => Bool.and_comm _ _

variable (h : Increasing num l)

include h

theorem Increasing.upTo : Increasing num (upTo num n l) := h.filter _

theorem Increasing.after : Increasing num (after num n l) := h.filter _

theorem Increasing.upTo_append_after : Versions.upTo num n l ++ Versions.after num n l = l := by
  induction l with
  | nil => rfl
  | cons r l ih =>
    obtain ⟨hr, hl⟩ := pairwise_cons.1 h
    by_cases hle : num r ≤ n
    · rw [Versions.upTo, Versions.after, filter_cons_of_pos (by simpa using hle),
        filter_cons_of_neg (by simpa using hle), cons_append]
      exact congrArg _ (ih hl)
    · have hlt : ∀ r' ∈ r :: l, n < num r' := by
        rw [forall_mem_cons]
        exact ⟨Nat.lt_of_not_le hle, fun r' hr' => (Nat.lt_of_not_le hle).trans (hr r' hr')⟩
      rw [upTo_eq_nil hlt, after_eq_self hlt, nil_append]

variable {τ : Type*} {value : ρ → τ} {old : τ}

theorem Increasing.upTo_append (hle : n ≤ m) :
    Versions.upTo num n l ++ Versions.upTo num m (Versions.after num n l) =
      Versions.upTo num m l := by
  rw [← upTo_upTo hle, ← after_upTo_comm]
  exact h.upTo.upTo_append_after

theorem current_upTo_upTo (hle : n ≤ m) :
    current key value (current key value old (upTo num n l) k) (upTo num m l) k =
      current key value old (upTo num m l) k := by
  rw [← h.upTo_append hle, current_append, current_append, current_idem]

theorem current_upTo_of_after (hle : n ≤ m) (hnone : last key (after num n l) k = none) :
    current key value old (upTo num m l) k = current key value old l k := by
  have hmid : last key (upTo num m (after num n l)) k = none :=
    last_eq_none.2 fun r hr => last_eq_none.1 hnone r (mem_upTo.1 hr).1
  conv_rhs => rw [← h.upTo_append_after (n := n), current_append, current_of_last hnone]
  rw [← h.upTo_append hle, current_append, current_of_last hmid]

end Points

section Newest

variable {num : ρ → Nat} {key : ρ → κ} {l l' : List ρ} {k : κ} {r r' : ρ}

def keepNewer (num : ρ → Nat) (key : ρ → κ) (m : κ → Option ρ) (r : ρ) : κ → Option ρ :=
  match m (key r) with
  | none => Function.update m (key r) (some r)
  | some r' => if num r' < num r then Function.update m (key r) (some r) else m

def newest (num : ρ → Nat) (key : ρ → κ) (l : List ρ) : κ → Option ρ :=
  l.foldl (keepNewer num key) fun _ => none

theorem newest_concat :
    newest num key (l ++ [r]) = keepNewer num key (newest num key l) r := by
  rw [newest, foldl_append]
  rfl

theorem newest_concat_of_ne (h : key r ≠ k) :
    newest num key (l ++ [r]) k = newest num key l k := by
  have hupdate := Function.update_of_ne (Ne.symm h) (some r) (newest num key l)
  rw [newest_concat, keepNewer]
  cases newest num key l (key r) with
  | none => exact hupdate
  | some r' =>
    by_cases hlt : num r' < num r
    · simp only [hlt, if_true, hupdate]
    · simp only [hlt, if_false]

def IsNewest (num : ρ → Nat) (key : ρ → κ) (l : List ρ) (k : κ) : Option ρ → Prop
  | none => ∀ r ∈ l, key r ≠ k
  | some r => r ∈ l ∧ key r = k ∧ ∀ r' ∈ l, key r' = k → num r' ≤ num r

section

omit [DecidableEq κ]

variable {o o' : Option ρ}

theorem IsNewest.concat_of_ne (h : IsNewest num key l k o) (hne : key r ≠ k) :
    IsNewest num key (l ++ [r]) k o := by
  cases o with
  | none => exact forall_mem_append.2 ⟨h, forall_mem_singleton.2 hne⟩
  | some r' =>
    obtain ⟨hmem, hkey, hle⟩ := h
    refine ⟨mem_append_left _ hmem, hkey, forall_mem_append.2 ⟨hle, ?_⟩⟩
    exact forall_mem_singleton.2 fun h => absurd h hne

theorem IsNewest.concat_self (h : ∀ r' ∈ l, key r' = key r → num r' ≤ num r) :
    IsNewest num key (l ++ [r]) (key r) (some r) := by
  refine ⟨mem_append_right _ (mem_singleton.2 rfl), rfl, ?_⟩
  exact forall_mem_append.2 ⟨h, forall_mem_singleton.2 fun _ => le_rfl⟩

theorem IsNewest.perm (h : IsNewest num key l k o) (hperm : l.Perm l') :
    IsNewest num key l' k o := by
  cases o with
  | none => exact fun r hr => h r (hperm.mem_iff.2 hr)
  | some r =>
    obtain ⟨hmem, hkey, hle⟩ := h
    exact ⟨hperm.mem_iff.1 hmem, hkey, fun r' hr' => hle r' (hperm.mem_iff.2 hr')⟩

theorem IsNewest.unique (hinj : ∀ a ∈ l, ∀ b ∈ l, num a = num b → a = b)
    (h : IsNewest num key l k o) (h' : IsNewest num key l k o') : o = o' := by
  cases o with
  | none =>
    cases o' with
    | none => rfl
    | some r' => exact absurd h'.2.1 (h r' h'.1)
  | some r =>
    cases o' with
    | none => exact absurd h.2.1 (h' r h.1)
    | some r' =>
      have hle := h.2.2 r' h'.1 h'.2.1
      have hge := h'.2.2 r h.1 h.2.1
      rw [hinj r h.1 r' h'.1 (le_antisymm hge hle)]

end

theorem isNewest_newest : IsNewest num key l k (newest num key l k) := by
  induction l using List.reverseRecOn generalizing k with
  | nil => exact fun r hr => absurd hr not_mem_nil
  | append_singleton l x ih =>
    by_cases hk : key x = k
    case neg =>
      rw [newest_concat_of_ne hk]
      exact ih.concat_of_ne hk
    case pos =>
      subst hk
      have hprev := ih (k := key x)
      rw [newest_concat, keepNewer]
      cases hnew : newest num key l (key x) with
      | none =>
        rw [hnew] at hprev
        simp only [Function.update_self]
        exact IsNewest.concat_self fun r hr h => absurd h (hprev r hr)
      | some r =>
        rw [hnew] at hprev
        by_cases hlt : num r < num x
        · simp only [hlt, if_true, Function.update_self]
          exact IsNewest.concat_self fun r' hr' h => (hprev.2.2 r' hr' h).trans hlt.le
        · simp only [hlt, if_false, hnew]
          refine ⟨mem_append_left _ hprev.1, hprev.2.1, ?_⟩
          refine forall_mem_append.2 ⟨hprev.2.2, ?_⟩
          exact forall_mem_singleton.2 fun _ => Nat.le_of_not_lt hlt

variable (h : Increasing num l)

include h

theorem isNewest_last : IsNewest num key l k (last key l k) := by
  induction l using List.reverseRecOn with
  | nil => exact fun r hr => absurd hr not_mem_nil
  | append_singleton l x ih =>
    obtain ⟨hl, -, hx⟩ := pairwise_append.1 h
    rw [last_concat]
    split
    case isTrue hk =>
      subst hk
      exact IsNewest.concat_self fun r hr _ => (hx r hr x (mem_singleton.2 rfl)).le
    case isFalse hk => exact (ih hl).concat_of_ne hk

theorem Increasing.inj : ∀ a ∈ l, ∀ b ∈ l, num a = num b → a = b := by
  have hnodup : (l.map num).Nodup := pairwise_map.2 (h.imp ne_of_lt)
  exact fun a ha b hb hab => inj_on_of_nodup_map hnodup ha hb hab

theorem newest_eq_last (hperm : l'.Perm l) : newest num key l' k = last key l k :=
  (isNewest_newest.perm hperm).unique h.inj (isNewest_last h)

end Newest

section Tables

variable {key : ρ → κ} {t : List ρ} {k : κ}

def put (key : ρ → κ) (t : List ρ) (r : ρ) : List ρ := t.filter (fun x => key x ≠ key r) ++ [r]

def drop (key : ρ → κ) (t : List ρ) (k : κ) : List ρ := t.filter fun x => key x ≠ k

def lookup (key : ρ → κ) (t : List ρ) (k : κ) : Option ρ := t.find? fun x => key x = k

theorem lookup_drop (k' : κ) :
    lookup key (drop key t k') k = if k' = k then none else lookup key t k := by
  rw [lookup, drop, List.find?_filter]
  split
  case isTrue h =>
    subst h
    simp
  case isFalse h =>
    congr 1
    funext x
    by_cases hx : key x = k
    · simp [hx, Ne.symm h]
    · simp [hx]

theorem lookup_put (r : ρ) :
    lookup key (put key t r) k = if key r = k then some r else lookup key t k := by
  have hdrop : lookup key (drop key t (key r)) k = if key r = k then none else lookup key t k :=
    lookup_drop (key r)
  rw [lookup, drop] at hdrop
  rw [lookup, put, List.find?_append, hdrop]
  split
  case isTrue h => simp [h]
  case isFalse h => simp [h]

theorem isSome_lookup : (lookup key t k).isSome ↔ k ∈ t.map key := by
  rw [lookup, List.find?_isSome, mem_map]
  simp only [decide_eq_true_eq]

theorem lookup_of_mem (hnodup : (t.map key).Nodup) {r : ρ} (hr : r ∈ t) :
    lookup key t (key r) = some r := by
  cases hfound : lookup key t (key r) with
  | none =>
    have hsome := isSome_lookup.2 (mem_map_of_mem (f := key) hr)
    rw [hfound] at hsome
    cases hsome
  | some x =>
    rw [lookup] at hfound
    have hkey := List.find?_some hfound
    rw [decide_eq_true_eq] at hkey
    rw [inj_on_of_nodup_map hnodup (mem_of_find?_eq_some hfound) hr hkey]

theorem lookup_perm (hnodup : (t.map key).Nodup) (hperm : t'.Perm t) :
    lookup key t' k = lookup key t k := by
  cases hfound : lookup key t k with
  | none =>
    rw [← Option.not_isSome_iff_eq_none, isSome_lookup] at hfound ⊢
    rwa [(hperm.map key).mem_iff]
  | some r =>
    have hkey : key r = k := of_decide_eq_true (List.find?_some (p := fun x => key x = k) hfound)
    have hmem := hperm.mem_iff.2 (mem_of_find?_eq_some hfound)
    rw [← hkey]
    exact lookup_of_mem ((hperm.map key).nodup_iff.2 hnodup) hmem

theorem nodup_drop (h : (t.map key).Nodup) (k : κ) : ((drop key t k).map key).Nodup :=
  h.sublist (filter_sublist.map key)

theorem nodup_put (h : (t.map key).Nodup) (r : ρ) : ((put key t r).map key).Nodup := by
  rw [put, map_append, map_singleton, nodup_append]
  refine ⟨nodup_drop h (key r), nodup_singleton _, ?_⟩
  intro k hk k' hk'
  obtain ⟨x, hx, rfl⟩ := mem_map.1 hk
  rw [mem_singleton.1 hk']
  exact of_decide_eq_true (mem_filter.1 hx).2

theorem put_of_fresh {r : ρ} (h : ∀ x ∈ t, key x ≠ key r) : put key t r = t ++ [r] := by
  rw [put, filter_eq_self.2 fun x hx => decide_eq_true (h x hx)]

theorem foldl_put {rs : List ρ} (hnodup : (rs.map key).Nodup)
    (hfresh : ∀ r ∈ rs, ∀ x ∈ t, key x ≠ key r) : rs.foldl (put key) t = t ++ rs := by
  induction rs generalizing t with
  | nil => rw [foldl_nil, append_nil]
  | cons r rs ih =>
    rw [map_cons, nodup_cons] at hnodup
    rw [forall_mem_cons] at hfresh
    rw [foldl_cons, put_of_fresh hfresh.1, ih hnodup.2, append_assoc, singleton_append]
    intro r' hr'
    refine forall_mem_append.2 ⟨hfresh.2 r' hr', forall_mem_singleton.2 fun h => ?_⟩
    exact hnodup.1 (h ▸ mem_map_of_mem hr')

theorem foldl_drop (rs : List ρ) :
    rs.foldl (fun t r => drop key t (key r)) t = t.filter fun x => key x ∉ rs.map key := by
  induction rs generalizing t with
  | nil => simp
  | cons r rs ih =>
    rw [foldl_cons, ih, drop, filter_filter]
    refine filter_congr fun x _ => ?_
    by_cases hx : key x = key r
    · simp [hx]
    · simp [hx]

end Tables

structure Shuffle (α : Type*) where
  order : List α → List α
  perm : ∀ l, (order l).Perm l

def Shuffle.keys (o : Shuffle κ) (ks : List κ) : List κ := o.order ks.dedup

theorem Shuffle.exists_first {α : Type*} (p : α → Prop) :
    ∃ o : Shuffle α, ∀ l, (∃ x ∈ l, p x) → ∃ x rest, o.order l = x :: rest ∧ p x := by
  classical
  have hlist : ∀ l : List α, ∃ l', l'.Perm l ∧
      ((∃ x ∈ l, p x) → ∃ x rest, l' = x :: rest ∧ p x) := by
    intro l
    by_cases h : ∃ x ∈ l, p x
    · obtain ⟨x, hx, hp⟩ := h
      exact ⟨x :: l.erase x, (perm_cons_erase hx).symm, fun _ => ⟨x, _, rfl, hp⟩⟩
    · exact ⟨l, .refl _, fun h' => absurd h' h⟩
  choose order hperm hfirst using hlist
  exact ⟨⟨order, hperm⟩, hfirst⟩

theorem Shuffle.mem_keys {o : Shuffle κ} {ks : List κ} {k : κ} : k ∈ o.keys ks ↔ k ∈ ks := by
  rw [keys, (o.perm _).mem_iff, mem_dedup]

end Versions
