import Mathlib

/-!
# Pages of ranked lists

A search returns a part of its results by their rank. Elements of the same rank may come in any
order, so a page is a relation between the elements and what is returned, not a function.

Results:
1. `IsPage.exists_page`, `IsPage.length_eq`: there is a page, and how long it is.
2. `IsPage.merge`: a page of several lists is found among the first elements of each.
-/

namespace Pages

open List

variable {α : Type}

structure Ranking (α : Type) where
  before : α → α → Prop
  total : ∀ a b, before a b ∨ before b a
  trans : ∀ {a b c}, before a b → before b c → before a c

namespace Ranking

theorem refl (R : Ranking α) (a : α) : R.before a a := (R.total a a).elim id id

def descending {β : Type} [LinearOrder β] (f : α → β) : Ranking α where
  before a b := f b ≤ f a
  total a b := le_total (f b) (f a)
  trans hab hbc := le_trans hbc hab

def ascending {β : Type} [LinearOrder β] (f : α → β) : Ranking α where
  before a b := f a ≤ f b
  total a b := le_total (f a) (f b)
  trans hab hbc := le_trans hab hbc

theorem exists_sorted (R : Ranking α) (l : List α) :
    ∃ sorted : List α, sorted.Perm l ∧ sorted.Pairwise R.before := by
  classical
  have : Std.Total R.before := ⟨R.total⟩
  have : IsTrans α R.before := ⟨fun _ _ _ => R.trans⟩
  exact ⟨l.insertionSort R.before, l.perm_insertionSort R.before, l.pairwise_insertionSort R.before⟩

theorem pairwise_merge (R : Ranking α) {first : α → α → Bool}
    (hfirst : ∀ a b, first a b = true → R.before a b)
    (hnot : ∀ a b, first a b = false → R.before b a) {as bs : List α} (has : as.Pairwise R.before)
    (hbs : bs.Pairwise R.before) :
    (as.merge bs first).Pairwise R.before := by
  induction as generalizing bs with
  | nil => rwa [nil_merge]
  | cons a as iha =>
    induction bs with
    | nil => rwa [merge_right]
    | cons b bs ihb =>
      have ha := (pairwise_cons.1 has).1
      have hb := (pairwise_cons.1 hbs).1
      rw [cons_merge_cons]
      split
      case isTrue hab =>
        refine pairwise_cons.2 ⟨fun x hx => ?_, iha has.of_cons hbs⟩
        rcases mem_merge.1 hx with hx | hx
        · exact ha x hx
        · rcases mem_cons.1 hx with rfl | hx
          · exact hfirst a x hab
          · exact R.trans (hfirst a b hab) (hb x hx)
      case isFalse hab =>
        have hba := hnot a b (Bool.eq_false_iff.2 hab)
        refine pairwise_cons.2 ⟨fun x hx => ?_, ihb hbs.of_cons⟩
        rcases mem_merge.1 hx with hx | hx
        · rcases mem_cons.1 hx with rfl | hx
          · exact hba
          · exact R.trans hba (ha x hx)
        · exact hb x hx

end Ranking

theorem exists_forall₂ {γ δ : Type} {P : γ → δ → Prop} (h : ∀ a, ∃ b, P a b) (l : List γ) :
    ∃ l', List.Forall₂ P l l' := by
  choose f hf using h
  exact ⟨l.map f, forall₂_map_right_iff.2 (forall₂_same.2 fun a _ => hf a)⟩

/-- The elements of `page` are those at the positions `start` to `start + size` of `l`, in
some order of `l` by rank. -/
def IsPage (R : Ranking α) (start size : Nat) (l page : List α) : Prop :=
  ∃ sorted : List α, sorted.Perm l ∧ sorted.Pairwise R.before ∧
    page = (sorted.drop start).take size

namespace IsPage

variable {R Q : Ranking α} {start size k : Nat} {l l' page page' : List α}

theorem exists_page (R : Ranking α) (start size : Nat) (l : List α) :
    ∃ page, IsPage R start size l page := by
  obtain ⟨sorted, hperm, hsorted⟩ := R.exists_sorted l
  exact ⟨_, sorted, hperm, hsorted, rfl⟩

theorem length_eq (h : IsPage R start size l page) : page.length = min size (l.length - start) := by
  obtain ⟨sorted, hperm, -, rfl⟩ := h
  rw [length_take, length_drop, hperm.length_eq]

theorem eq_nil (h : IsPage R start size l page) (hl : l.length ≤ start) : page = [] := by
  rw [← length_eq_zero_iff, h.length_eq, Nat.sub_eq_zero_of_le hl, Nat.min_zero]

theorem zero (R : Ranking α) (start : Nat) (l : List α) : IsPage R start 0 l [] := by
  obtain ⟨page, hpage⟩ := exists_page R start 0 l
  obtain rfl : page = [] := by
    rw [← length_eq_zero_iff, hpage.length_eq, Nat.zero_min]
  exact hpage

theorem sorted (h : IsPage R start size l page) : page.Pairwise R.before := by
  obtain ⟨sorted, -, hsorted, rfl⟩ := h
  exact (hsorted.drop).take

theorem perm_of_le (h : IsPage R 0 size l page) (hl : l.length ≤ size) : page.Perm l := by
  obtain ⟨sorted, hperm, -, rfl⟩ := h
  rw [drop_zero, take_of_length_le (hperm.length_eq ▸ hl)]
  exact hperm

theorem of_min (h : IsPage R 0 (min k l.length) l page) : IsPage R 0 k l page := by
  obtain ⟨sorted, hperm, hsorted, rfl⟩ := h
  refine ⟨sorted, hperm, hsorted, ?_⟩
  rw [drop_zero, ← hperm.length_eq, ← take_eq_take_min]

theorem mono (h : IsPage R start size l page) (hle : ∀ {a b}, R.before a b → Q.before a b) :
    IsPage Q start size l page := by
  obtain ⟨sorted, hperm, hsorted, rfl⟩ := h
  exact ⟨sorted, hperm, hsorted.imp hle, rfl⟩

theorem of_split {pre post : List α} (hperm : (pre ++ (page ++ post)).Perm l)
    (hsorted : (pre ++ (page ++ post)).Pairwise R.before)
    (hpre : pre.length = start ∨ pre.length ≤ start ∧ page ++ post = [])
    (hpage : page.length = size ∨ page.length ≤ size ∧ post = []) :
    IsPage R start size l page := by
  refine ⟨_, hperm, hsorted, ?_⟩
  have hdrop : (pre ++ (page ++ post)).drop start = page ++ post := by
    rcases hpre with rfl | ⟨hle, hnil⟩
    · exact drop_left
    · rw [hnil, append_nil, drop_eq_nil_of_le hle]
  rw [hdrop]
  rcases hpage with rfl | ⟨hle, rfl⟩
  · exact take_left.symm
  · rw [append_nil, take_of_length_le hle]

theorem split (h : IsPage R start size l page) :
    ∃ pre post : List α, (pre ++ (page ++ post)).Perm l ∧
      (pre ++ (page ++ post)).Pairwise R.before ∧
      (pre.length = start ∨ pre.length ≤ start ∧ page ++ post = []) ∧
      (page.length = size ∨ page.length ≤ size ∧ post = []) := by
  obtain ⟨sorted, hperm, hsorted, rfl⟩ := h
  have hsplit : sorted.take start ++ ((sorted.drop start).take size ++
      (sorted.drop start).drop size) = sorted := by
    rw [take_append_drop, take_append_drop]
  refine ⟨sorted.take start, (sorted.drop start).drop size, ?_, ?_, ?_, ?_⟩
  · rw [hsplit]
    exact hperm
  · rw [hsplit]
    exact hsorted
  · rw [take_append_drop, length_take]
    rcases le_total start sorted.length with hle | hle
    · exact .inl (min_eq_left hle)
    · exact .inr ⟨min_le_left _ _, drop_eq_nil_of_le hle⟩
  · rw [length_take]
    rcases le_total size (sorted.drop start).length with hle | hle
    · exact .inl (min_eq_left hle)
    · exact .inr ⟨min_le_left _ _, drop_eq_nil_of_le hle⟩

section Merge

variable {kept rest : List α}

open Classical in
theorem exists_rest {ls pages : List (List α)} (h : List.Forall₂ (IsPage R 0 k) ls pages) :
    ∃ rest : List α, ls.flatten.Perm (pages.flatten ++ rest) ∧
      ∀ x ∈ rest, k ≤ pages.flatten.countP fun z => R.before z x := by
  induction h with
  | nil => exact ⟨[], .refl _, nofun⟩
  | @cons l page ls pages hpage _ ih =>
    obtain ⟨rest, hperm, hrest⟩ := ih
    obtain ⟨pre, post, hall, hsorted, hpre, hlen⟩ := hpage.split
    obtain rfl : pre = [] := by
      rcases hpre with hpre | ⟨hpre, -⟩
      · exact length_eq_zero_iff.1 hpre
      · exact length_eq_zero_iff.1 (Nat.le_zero.1 hpre)
    rw [nil_append] at hall hsorted
    refine ⟨post ++ rest, ?_, ?_⟩
    · rw [flatten_cons, flatten_cons]
      refine (hall.symm.append hperm).trans ?_
      rw [append_assoc, append_assoc]
      exact (perm_append_comm_assoc post pages.flatten rest).append_left page
    · intro x hx
      rw [flatten_cons, countP_append]
      rcases mem_append.1 hx with hx | hx
      · -- all of the page comes before `x`, and it is full since something is left out
        have hbefore : ∀ z ∈ page, R.before z x := fun z hz =>
          (pairwise_append.1 hsorted).2.2 z hz x hx
        have hcount : page.countP (fun z => R.before z x) = page.length := by
          rw [countP_eq_length]
          exact fun z hz => decide_eq_true (hbefore z hz)
        rcases hlen with hfull | ⟨-, rfl⟩
        · omega
        · cases hx
      · exact Nat.le_add_left_of_le (hrest x hx)

open Classical in
theorem before_rest {sorted : List α} (hperm : sorted.Perm kept)
    (hsorted : sorted.Pairwise R.before) (hrest : ∀ x ∈ rest, k ≤ kept.countP fun z => R.before z x)
    {x y : α} (hy : y ∈ sorted.take k)
    (hx : x ∈ rest) : R.before y x := by
  obtain ⟨pre, post, hsplit⟩ := append_of_mem hy
  have hlt : pre.length < k := by
    have hlen := congrArg List.length hsplit
    simp only [length_take, length_append, length_cons] at hlen
    omega
  by_contra hnot
  -- everything before `x` is then strictly before `y`, so it is in `pre`
  have hstrict : ∀ z, R.before z x → ¬ R.before y z := fun z hz hyz => hnot (R.trans hyz hz)
  have hall : sorted = pre ++ y :: (post ++ sorted.drop k) := by
    conv_lhs => rw [← take_append_drop k sorted, hsplit]
    simp
  have hafter : ∀ z ∈ y :: (post ++ sorted.drop k), R.before y z := by
    rw [hall, pairwise_append, pairwise_cons] at hsorted
    intro z hz
    rcases mem_cons.1 hz with rfl | hz
    · exact R.refl z
    · exact hsorted.2.1.1 z hz
  have hcount : sorted.countP (fun z => R.before z x) ≤ pre.length := by
    rw [hall, countP_append]
    have hzero : (y :: (post ++ sorted.drop k)).countP (fun z => R.before z x) = 0 := by
      rw [countP_eq_zero]
      exact fun z hz hzx => hstrict z (of_decide_eq_true hzx) (hafter z hz)
    rw [hzero]
    exact countP_le_length
  have hk := hrest x hx
  rw [← hperm.countP_eq] at hk
  omega

open Classical in
theorem of_kept (hperm : l.Perm (kept ++ rest))
    (hrest : ∀ x ∈ rest, k ≤ kept.countP fun z => R.before z x)
    (hpage : IsPage R start size kept page) (hk : start + size ≤ k) :
    IsPage R start size l page := by
  obtain ⟨sorted, hkept, hsorted, rfl⟩ := hpage
  obtain ⟨last, hlast, hranked⟩ := R.exists_sorted (sorted.drop k ++ rest)
  refine ⟨sorted.take k ++ last, ?_, ?_, ?_⟩
  · refine (hlast.append_left (sorted.take k)).trans ?_
    rw [← append_assoc, take_append_drop]
    exact (hkept.append_right rest).trans hperm.symm
  · rw [pairwise_append]
    refine ⟨hsorted.take, hranked, ?_⟩
    intro a ha b hb
    rcases mem_append.1 (hlast.mem_iff.1 hb) with hb | hb
    · rw [← take_append_drop k sorted, pairwise_append] at hsorted
      exact hsorted.2.2 a ha b hb
    · exact before_rest hkept hsorted hrest ha hb
  · rcases lt_or_ge sorted.length k with hlt | hge
    · -- fewer than `k` are kept, so nothing is left out
      have hnil : rest = [] := by
        rw [eq_nil_iff_forall_not_mem]
        intro x hx
        have hcount := hrest x hx
        rw [← hkept.countP_eq] at hcount
        exact absurd (le_trans hcount countP_le_length) (Nat.not_le_of_lt hlt)
      rw [hnil, append_nil, drop_eq_nil_of_le (le_of_lt hlt)] at hlast
      rw [hlast.eq_nil, append_nil, take_of_length_le (le_of_lt hlt)]
    · have hfirst : (sorted.take k ++ last).take (start + size) = sorted.take (start + size) := by
        rw [take_append_of_le_length, take_take, min_eq_left hk]
        rw [length_take, min_eq_left hge]
        exact hk
      have hpos : ∀ m : List α, (m.drop start).take size = (m.take (start + size)).drop start := by
        intro m
        rw [drop_take, Nat.add_sub_cancel_left]
      rw [hpos, hpos, hfirst]

theorem merge {ls pages : List (List α)} (h : List.Forall₂ (IsPage R 0 k) ls pages)
    (hpage : IsPage R start size pages.flatten page) (hk : start + size ≤ k) :
    IsPage R start size ls.flatten page := by
  obtain ⟨rest, hperm, hrest⟩ := exists_rest h
  exact of_kept hperm hrest hpage hk

theorem merge_two {l₁ l₂ page₁ page₂ : List α} {first : α → α → Bool}
    (hfirst : ∀ a b, first a b = true → R.before a b)
    (hnot : ∀ a b, first a b = false → R.before b a) (h₁ : IsPage R 0 k l₁ page₁)
    (h₂ : IsPage R 0 k l₂ page₂) :
    IsPage R 0 k (l₁ ++ l₂) ((page₁.merge page₂ first).take k) := by
  have hperm : (page₁.merge page₂ first).Perm [page₁, page₂].flatten := by
    rw [flatten_cons, flatten_singleton]
    exact merge_perm_append first
  have hpage : IsPage R 0 k [page₁, page₂].flatten ((page₁.merge page₂ first).take k) :=
    ⟨_, hperm, R.pairwise_merge hfirst hnot h₁.sorted h₂.sorted, rfl⟩
  have hboth := merge (.cons h₁ (.cons h₂ .nil)) hpage (zero_add k).le
  rwa [flatten_cons, flatten_singleton] at hboth

theorem filtered {t : Nat} {first : List α} (p : α → Bool) (hfirst : IsPage R 0 (k + t) l first)
    (ht : l.countP (fun a => !p a) ≤ t) (hpage : IsPage R 0 k (first.filter p) page) :
    IsPage R 0 k (l.filter p) page := by
  classical
  obtain ⟨sorted, hperm, hsorted, rfl⟩ := hfirst
  rw [drop_zero] at hpage
  have hall : (l.filter p).Perm
      ((sorted.take (k + t)).filter p ++ (sorted.drop (k + t)).filter p) := by
    rw [← filter_append, take_append_drop]
    exact (hperm.filter p).symm
  refine of_kept hall (fun x hx => ?_) hpage (zero_add k).le
  have hx := (mem_filter.1 hx).1
  rw [← take_append_drop (k + t) sorted, pairwise_append] at hsorted
  have hcount : ((sorted.take (k + t)).filter p).countP (fun z => R.before z x) =
      ((sorted.take (k + t)).filter p).length := by
    rw [countP_eq_length]
    exact fun z hz => decide_eq_true (hsorted.2.2 z (mem_filter.1 hz).1 x hx)
  have hfull : (sorted.take (k + t)).length = k + t := by
    have := length_pos_of_mem hx
    rw [length_drop] at this
    rw [length_take]
    omega
  have hout : (sorted.take (k + t)).countP (fun a => !p a) ≤ t :=
    ((take_sublist _ _).countP_le).trans (hperm.countP_eq _ ▸ ht)
  have hsplit := length_eq_countP_add_countP p (l := sorted.take (k + t))
  rw [hcount, ← countP_eq_length_filter]
  simp only [Bool.not_eq_true, Bool.decide_eq_false] at hsplit
  omega

end Merge

theorem map {β : Type} {Q : Ranking β} (h : IsPage R start size l page) (f : α → β)
    (hf : ∀ {a b}, R.before a b → Q.before (f a) (f b)) :
    IsPage Q start size (l.map f) (page.map f) := by
  obtain ⟨sorted, hperm, hsorted, rfl⟩ := h
  refine ⟨sorted.map f, hperm.map f, pairwise_map.2 (hsorted.imp hf), ?_⟩
  rw [map_take, map_drop]

theorem exists_map {β : Type} {Q : Ranking β} {f : α → β} {images : List β}
    (h : IsPage Q start size (l.map f) images) (hf : ∀ {a b}, Q.before (f a) (f b) → R.before a b) :
    ∃ page, IsPage R start size l page ∧ page.map f = images := by
  obtain ⟨sorted, hperm, hsorted, rfl⟩ := h
  have hmap : List.Forall₂ (fun b a => b = f a) (l.map f) l :=
    forall₂_map_left_iff.2 (forall₂_same.2 fun _ _ => rfl)
  obtain ⟨sorted', himages, hperm'⟩ := perm_comp_forall₂ hperm hmap
  obtain rfl : sorted = sorted'.map f := by
    rw [← forall₂_eq_eq_eq]
    exact forall₂_map_right_iff.2 himages
  refine ⟨_, ⟨sorted', hperm', (pairwise_map.1 hsorted).imp hf, rfl⟩, ?_⟩
  rw [map_take, map_drop]

theorem perm (h : IsPage R start size l page) (hperm : l.Perm l') :
    IsPage R start size l' page := by
  obtain ⟨sorted, hsorted, hranked, heq⟩ := h
  exact ⟨sorted, hsorted.trans hperm, hranked, heq⟩

end IsPage

/-- The elements of `found` are the first `k` of `l`, in any order. -/
def IsFirst (R : Ranking α) (k : Nat) (l found : List α) : Prop :=
  ∃ page, IsPage R 0 k l page ∧ found.Perm page

namespace IsFirst

variable {R : Ranking α} {k : Nat} {l l' found found' : List α}

theorem of_page (h : IsPage R 0 k l found) : IsFirst R k l found := ⟨found, h, .refl _⟩

theorem length_eq (h : IsFirst R k l found) : found.length = min k l.length := by
  obtain ⟨page, hpage, hperm⟩ := h
  rw [hperm.length_eq, hpage.length_eq, Nat.sub_zero]

theorem exists_rest (h : IsFirst R k l found) :
    ∃ rest, (found ++ rest).Perm l ∧ ∀ a ∈ found, ∀ b ∈ rest, R.before a b := by
  obtain ⟨page, hpage, hperm⟩ := h
  obtain ⟨sorted, hall, hsorted, rfl⟩ := hpage
  rw [drop_zero] at hperm
  refine ⟨sorted.drop k, ?_, fun a ha b hb => ?_⟩
  · refine (hperm.append_right _).trans ?_
    rw [take_append_drop]
    exact hall
  · rw [← take_append_drop k sorted, pairwise_append] at hsorted
    exact hsorted.2.2 a (hperm.mem_iff.1 ha) b hb

theorem of_rest {rest : List α} (hall : (found ++ rest).Perm l)
    (hbefore : ∀ a ∈ found, ∀ b ∈ rest, R.before a b) (hlen : found.length = min k l.length) :
    IsFirst R k l found := by
  obtain ⟨first, hfirst, hsorted⟩ := R.exists_sorted found
  obtain ⟨last, hlast, hranked⟩ := R.exists_sorted rest
  have hperm : (first ++ last).Perm l := (hfirst.append hlast).trans hall
  have hlength : found.length + rest.length = l.length := by
    rw [← hall.length_eq, length_append]
  refine ⟨first, .of_split (hperm : ([] ++ (first ++ last)).Perm l) ?_ (.inl rfl) ?_, hfirst.symm⟩
  · rw [nil_append, pairwise_append]
    exact ⟨hsorted, hranked, fun a ha b hb =>
      hbefore a (hfirst.mem_iff.1 ha) b (hlast.mem_iff.1 hb)⟩
  · rw [hfirst.length_eq, hlen]
    rcases le_total k l.length with hk | hk
    · exact .inl (min_eq_left hk)
    · refine .inr ⟨min_le_left _ _, ?_⟩
      rw [← length_eq_zero_iff, hlast.length_eq]
      omega

theorem mem (h : IsFirst R k l found) {a : α} (ha : a ∈ found) : a ∈ l := by
  obtain ⟨rest, hall, -⟩ := h.exists_rest
  exact hall.mem_iff.1 (mem_append_left _ ha)

theorem before_of_notMem (h : IsFirst R k l found) {a b : α} (ha : a ∈ found) (hb : b ∈ l)
    (hnot : b ∉ found) : R.before a b := by
  obtain ⟨rest, hall, hbefore⟩ := h.exists_rest
  exact hbefore a ha b ((mem_append.1 (hall.mem_iff.2 hb)).resolve_left hnot)

theorem perm (h : IsFirst R k l found) (hl : l.Perm l') (hfound : found.Perm found') :
    IsFirst R k l' found' := by
  obtain ⟨page, ⟨sorted, hall, hsorted, heq⟩, hperm⟩ := h
  exact ⟨page, ⟨sorted, hall.trans hl, hsorted, heq⟩, hfound.symm.trans hperm⟩

theorem map {β : Type} {Q : Ranking β} (h : IsFirst R k l found) (f : α → β)
    (hf : ∀ {a b}, R.before a b → Q.before (f a) (f b)) :
    IsFirst Q k (l.map f) (found.map f) := by
  obtain ⟨page, hpage, hperm⟩ := h
  exact ⟨page.map f, hpage.map f hf, hperm.map f⟩

theorem merge {ls founds : List (List α)} (h : List.Forall₂ (IsFirst R k) ls founds)
    (hfound : IsFirst R k founds.flatten found) : IsFirst R k ls.flatten found := by
  obtain ⟨pages, hpages, hperm⟩ : ∃ pages, List.Forall₂ (IsPage R 0 k) ls pages ∧
      founds.flatten.Perm pages.flatten := by
    clear hfound
    induction h with
    | nil => exact ⟨[], .nil, .refl _⟩
    | cons hfirst _ ih =>
      obtain ⟨page, hpage, hperm⟩ := hfirst
      obtain ⟨pages, hpages, hrest⟩ := ih
      exact ⟨page :: pages, .cons hpage hpages, hperm.append hrest⟩
  obtain ⟨page, hpage, hfound⟩ := hfound.perm hperm (.refl _)
  exact ⟨page, IsPage.merge hpages hpage (zero_add k).le, hfound⟩

theorem values {β : Type} [LinearOrder β] {f : α → β} (h : IsFirst (.ascending f) k l found)
    (h' : IsFirst (.ascending f) k l found') : (found.map f).Perm (found'.map f) := by
  obtain ⟨page, ⟨sorted, hall, hsorted, rfl⟩, hperm⟩ := h
  obtain ⟨page', ⟨sorted', hall', hsorted', rfl⟩, hperm'⟩ := h'
  have hvalues : (sorted.map f).Pairwise (· ≤ ·) := pairwise_map.2 hsorted
  have hvalues' : (sorted'.map f).Pairwise (· ≤ ·) := pairwise_map.2 hsorted'
  have heq : sorted.map f = sorted'.map f :=
    ((hall.trans hall'.symm).map f).eq_of_pairwise (fun a b _ _ => le_antisymm) hvalues hvalues'
  have htake : ((sorted.drop 0).take k).map f = ((sorted'.drop 0).take k).map f := by
    rw [map_take, map_drop, heq, ← map_drop, ← map_take]
  exact (hperm.map f).trans (htake ▸ (hperm'.map f).symm)

end IsFirst

end Pages
