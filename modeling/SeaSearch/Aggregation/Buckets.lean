import SeaSearch.Lib.Tally

/-!
# Buckets

The calculators of an aggregation put documents into buckets by name.
-/

namespace SeaSearch

open List

structure SubAggs (D A : Type) where
  new : A
  consume : A → D → A
  merge : A → A → A

/-- `search.Bucket` with its count. -/
structure Bucket (A : Type) where
  name : String
  count : Nat
  aggregations : A

variable {D A : Type}

namespace Bucket

/-- `search.NewBucket`. -/
def new (subs : SubAggs D A) (name : String) : Bucket A := ⟨name, 0, subs.new⟩

def consume (subs : SubAggs D A) (d : D) (b : Bucket A) : Bucket A :=
  { b with count := b.count + 1, aggregations := subs.consume b.aggregations d }

def merge (subs : SubAggs D A) (b other : Bucket A) : Bucket A :=
  { b with
    count := b.count + other.count
    aggregations := subs.merge b.aggregations other.aggregations }

def cells (A : Type) : Tally.Cells String (Bucket A) := ⟨name, count⟩

variable (subs : SubAggs D A) (d : D)

theorem key_consume (b : Bucket A) : (cells A).key (b.consume subs d) = (cells A).key b := rfl

theorem weight_consume (b : Bucket A) :
    (cells A).weight (b.consume subs d) = (cells A).weight b + 1 := rfl

theorem key_fresh (name : String) : (cells A).key ((new subs name).consume subs d) = name := rfl

theorem key_merge (b other : Bucket A) : (cells A).key (b.merge subs other) = (cells A).key b := rfl

theorem weight_merge (b other : Bucket A) :
    (cells A).weight (b.merge subs other) = (cells A).weight b + (cells A).weight other := rfl

end Bucket

open Bucket (cells consume count key_consume key_fresh key_merge new)

/-- What the calculators have in common. `bucketsMap` has the names of the buckets that it leads
to; those buckets are in `bucketsList` as long as documents are consumed. -/
structure BucketLists (A : Type) where
  bucketsList : List (Bucket A)
  bucketsMap : List String
  total : Nat
  other : Int

/-- `sort.Sort` for a `Less`. -/
structure SortFunc (β : Type) (less : β → β → Prop) where
  order : List β → List β
  perm : ∀ l, (order l).Perm l
  sorted : ∀ l, (order l).Pairwise fun a b => ¬ less b a

def SortFunc.byKey {β γ : Type} [LinearOrder γ] (key : β → γ) :
    SortFunc β fun a b => key a < key b where
  order := List.insertionSort fun a b => key a ≤ key b
  perm := perm_insertionSort _
  sorted l := by
    have : Std.Total fun a b : β => key a ≤ key b := ⟨fun a b => le_total (key a) (key b)⟩
    have : IsTrans β fun a b => key a ≤ key b := ⟨fun _ _ _ => le_trans⟩
    exact (pairwise_insertionSort (fun a b : β => key a ≤ key b) l).imp not_lt_of_ge

/-- The loop of `Merge` over the buckets of the other calculator. -/
def mergeBuckets (subs : SubAggs D A) (bs others : List (Bucket A)) : List (Bucket A) :=
  Tally.absorb (cells A) (Bucket.merge subs) bs others

namespace BucketLists

def empty : BucketLists A := ⟨[], [], 0, 0⟩

def consumeTerm (subs : SubAggs D A) (d : D) (c : BucketLists A) (termStr : String) :
    BucketLists A :=
  if termStr ∈ c.bucketsMap then
    { c with
      bucketsList := c.bucketsList.map fun b =>
        if b.name = termStr then b.consume subs d else b }
  else
    { c with
      bucketsList := c.bucketsList ++ [(new subs termStr).consume subs d]
      bucketsMap := c.bucketsMap ++ [termStr] }

def consumeTerms (subs : SubAggs D A) (c : BucketLists A) (d : D) (terms : List String) :
    BucketLists A :=
  terms.foldl (consumeTerm subs d) { c with total := c.total + 1 }

/-- The end of `Finish`: sort the buckets, keep the first `size`, and count the rest. -/
def trim {less : Bucket A → Bucket A → Prop} (sortFunc : SortFunc (Bucket A) less) (size : Nat)
    (c : BucketLists A) : BucketLists A :=
  let bucketsList := (sortFunc.order c.bucketsList).take size
  { c with
    bucketsList := bucketsList
    other := c.total - (bucketsList.map count).sum }

end BucketLists

open BucketLists (consumeTerm trim)

/-- The values of a loop `for value := v; value < last; value = next(value)`. -/
def loopValues (next : Int → Int) (last : Int) : Nat → Int → Option (List Int)
  | 0, _ => none
  | fuel + 1, v => if v < last then (loopValues next last fuel (next v)).map (v :: ·) else some []

structure Tallies (terms : List String) (bs : List (Bucket A)) : Prop where
  nodup : (bs.map Bucket.name).Nodup
  names : ∀ name, name ∈ bs.map Bucket.name ↔ name ∈ terms
  total : ∀ name, Tally.total (cells A) bs name = terms.count name

namespace Tallies

variable {terms terms' : List String} {bs bs' : List (Bucket A)}

theorem nil : Tallies [] ([] : List (Bucket A)) :=
  ⟨nodup_nil, fun _ => Iff.rfl, fun _ => rfl⟩

variable (h : Tallies terms bs)

include h

theorem perm (hperm : bs'.Perm bs) : Tallies terms bs' where
  nodup := (hperm.map _).nodup_iff.2 h.nodup
  names name := ((hperm.map _).mem_iff).trans (h.names name)
  total name := (Tally.total_perm hperm name).trans (h.total name)

theorem perm_terms (hperm : terms.Perm terms') : Tallies terms' bs where
  nodup := h.nodup
  names name := (h.names name).trans hperm.mem_iff
  total name := (h.total name).trans (hperm.count_eq name)

theorem upsert (subs : SubAggs D A) (d : D) (name : String) :
    Tallies (terms ++ [name]) (Tally.upsert (cells A) bs name (consume subs d)
      ((new subs name).consume subs d)) where
  nodup := Tally.nodup_upsert (key_consume subs d) rfl h.nodup
  names k := by
    rw [mem_append, mem_singleton, ← h.names]
    exact Tally.mem_keys_upsert (key_consume subs d) (key_fresh subs d name)
  total k := by
    rw [Tally.total_upsert (key_consume subs d) (key_fresh subs d name)
      (Bucket.weight_consume subs d) rfl h.nodup, h.total, count_append, count_singleton]
    simp

theorem merge (h' : Tallies terms' bs') (subs : SubAggs D A) :
    Tallies (terms ++ terms') (mergeBuckets subs bs bs') where
  nodup := Tally.nodup_absorb (key_merge subs) h.nodup
  names name := by
    rw [mem_append, ← h.names, ← h'.names]
    exact Tally.mem_keys_absorb (key_merge subs)
  total name := by
    rw [mergeBuckets, Tally.total_absorb (key_merge subs) (Bucket.weight_merge subs) h.nodup,
      h.total, h'.total, count_append]

theorem length_le : bs.length ≤ terms.dedup.length := by
  rw [← length_map (f := Bucket.name)]
  exact (subperm_of_subset h.nodup fun name hname =>
    mem_dedup.2 ((h.names name).1 hname)).length_le

theorem pairs_perm (h' : Tallies terms bs') :
    (bs.map fun b => (b.name, b.count)).Perm (bs'.map fun b => (b.name, b.count)) :=
  Tally.perm_of_totals (C := cells A) h.nodup h'.nodup
    (fun name => (h.names name).trans (h'.names name).symm)
    fun name => (h.total name).trans (h'.total name).symm

end Tallies

namespace BucketLemmas

variable {subs : SubAggs D A} {terms : List String} {c : BucketLists A}

def Mapped (c : BucketLists A) : Prop := c.bucketsMap = c.bucketsList.map Bucket.name

theorem consumeTerm_eq (h : Mapped c) (d : D) (name : String) :
    (c.consumeTerm subs d name).bucketsList =
      Tally.upsert (cells A) c.bucketsList name (consume subs d)
        ((new subs name).consume subs d) := by
  have hmem : name ∈ c.bucketsMap ↔ name ∈ c.bucketsList.map (cells A).key := by
    rw [h]
    rfl
  rw [consumeTerm, Tally.upsert]
  by_cases hname : name ∈ c.bucketsMap
  · rw [if_pos hname, if_pos (hmem.1 hname)]
    rfl
  · rw [if_neg hname, if_neg fun hn => hname (hmem.2 hn)]

theorem mapped_consumeTerm (h : Mapped c) (d : D) (name : String) :
    Mapped (c.consumeTerm subs d name) := by
  rw [Mapped, consumeTerm]
  split
  · rw [map_map, h]
    refine map_congr_left fun b _ => ?_
    rw [Function.comp_apply]
    split
    · rfl
    · rfl
  · rw [map_append, h]
    rfl

theorem tallies_foldl (h : Mapped c) (ht : Tallies terms c.bucketsList) (d : D)
    (names : List String) :
    Mapped (names.foldl (consumeTerm subs d) c) ∧
      Tallies (terms ++ names) (names.foldl (consumeTerm subs d) c).bucketsList := by
  induction names generalizing c terms with
  | nil => simpa using ⟨h, ht⟩
  | cons name names ih =>
    have hstep := ht.upsert subs d name
    rw [← consumeTerm_eq h d name] at hstep
    have hrest := ih (mapped_consumeTerm h d name) hstep
    rwa [append_assoc, singleton_append] at hrest

theorem tallies_consumeTerms (h : Mapped c) (ht : Tallies terms c.bucketsList) (d : D)
    (names : List String) :
    Mapped (c.consumeTerms subs d names) ∧
      Tallies (terms ++ names) (c.consumeTerms subs d names).bucketsList :=
  tallies_foldl (c := { c with total := c.total + 1 }) h ht d names

theorem total_consumeTerms (c : BucketLists A) (d : D) (names : List String) :
    (c.consumeTerms subs d names).total = c.total + 1 := by
  have htotal : ∀ c : BucketLists A, (names.foldl (consumeTerm subs d) c).total = c.total := by
    induction names with
    | nil => exact fun _ => rfl
    | cons name names ih =>
      intro c
      rw [foldl_cons, ih, consumeTerm]
      split
      · rfl
      · rfl
  exact htotal _

theorem trim_perm {sortFunc : SortFunc (Bucket A) less} (h : c.bucketsList.length ≤ size) :
    (c.trim sortFunc size).bucketsList.Perm c.bucketsList := by
  have hperm := sortFunc.perm c.bucketsList
  rw [trim, take_of_length_le (by rwa [hperm.length_eq])]
  exact hperm

end BucketLemmas

end SeaSearch
