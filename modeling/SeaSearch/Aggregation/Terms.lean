import SeaSearch.Aggregation.Buckets

/-!
# The terms aggregation

A calculator counts the terms of the documents it is given. `Finish` sorts its buckets by their
counts and keeps the first `size`, and `Merge` adds the buckets of another calculator and finishes
again.
-/

namespace SeaSearch

open List

variable {D F A : Type}

/-- What is known of `float64`: `strconv.FormatFloat`, and the comparison with 0. -/
structure FloatText (F : Type) where
  formatFloat : F → String
  isZero : F → Bool

/-- `src` with `srcType`: where the values of a document come from. -/
inductive TermsSource (D F : Type)
  | textValue (value : D → String)
  | textValues (values : D → List String)
  | numericValue (number : D → F)
  | numericValues (numbers : D → List F)
  | booleanValue (number : D → F)
  | booleanValues (numbers : D → List F)
  /-- A type that `Consume` does not know. -/
  | unsupported

structure TermsAggregation (D F A : Type) where
  src : TermsSource D F
  size : Nat
  aggregations : SubAggs D A
  float : FloatText F
  /-- The order is descending by the count. -/
  sortFunc : SortFunc (Bucket A) fun a b => b.count < a.count

namespace TermsAggregation

variable (t : TermsAggregation D F A)

def booleanTerm (term : F) : String := if t.float.isZero term then "false" else "true"

def consumeTextValueSource (value : D → String) (a : BucketLists A) (d : D) : BucketLists A :=
  a.consumeTerms t.aggregations d [value d]

def consumeTextValuesSource (values : D → List String) (a : BucketLists A) (d : D) :
    BucketLists A :=
  a.consumeTerms t.aggregations d (values d)

def consumeNumericValueSource (number : D → F) (a : BucketLists A) (d : D) : BucketLists A :=
  a.consumeTerms t.aggregations d [t.float.formatFloat (number d)]

def consumeNumericValuesSource (numbers : D → List F) (a : BucketLists A) (d : D) :
    BucketLists A :=
  a.consumeTerms t.aggregations d ((numbers d).map t.float.formatFloat)

def consumeBooleanValueSource (number : D → F) (a : BucketLists A) (d : D) : BucketLists A :=
  a.consumeTerms t.aggregations d [t.booleanTerm (number d)]

def consumeBooleanValuesSource (numbers : D → List F) (a : BucketLists A) (d : D) :
    BucketLists A :=
  a.consumeTerms t.aggregations d ((numbers d).map t.booleanTerm)

def consume (a : BucketLists A) (d : D) : BucketLists A :=
  match t.src with
  | .textValue value => t.consumeTextValueSource value a d
  | .textValues values => t.consumeTextValuesSource values a d
  | .numericValue number => t.consumeNumericValueSource number a d
  | .numericValues numbers => t.consumeNumericValuesSource numbers a d
  | .booleanValue number => t.consumeBooleanValueSource number a d
  | .booleanValues numbers => t.consumeBooleanValuesSource numbers a d
  | .unsupported => a

def finish (a : BucketLists A) : BucketLists A := a.trim t.sortFunc t.size

def merge (a other : BucketLists A) : BucketLists A :=
  t.finish
    { a with
      total := a.total + other.total
      bucketsList := mergeBuckets t.aggregations a.bucketsList other.bucketsList }

def single (docs : List D) : BucketLists A := t.finish (docs.foldl t.consume .empty)

end TermsAggregation

inductive MergeTree (D : Type)
  | part (docs : List D)
  | merge (a other : MergeTree D)

def MergeTree.docs : MergeTree D → List D
  | part docs => docs
  | merge a other => a.docs ++ other.docs

namespace TermsAggregation

variable (t : TermsAggregation D F A)

def run : MergeTree D → BucketLists A
  | .part docs => t.single docs
  | .merge a other => t.merge (run a) (run other)

def terms (d : D) : List String :=
  match t.src with
  | .textValue value => [value d]
  | .textValues values => values d
  | .numericValue number => [t.float.formatFloat (number d)]
  | .numericValues numbers => (numbers d).map t.float.formatFloat
  | .booleanValue number => [t.booleanTerm (number d)]
  | .booleanValues numbers => (numbers d).map t.booleanTerm
  | .unsupported => []

def counted (docs : List D) : Nat :=
  match t.src with
  | .unsupported => 0
  | _ => docs.length

end TermsAggregation

open TermsAggregation (consume counted)

namespace TermsLemmas

open BucketLemmas

variable {t : TermsAggregation D F A} {a : BucketLists A}

theorem consume_cases (t : TermsAggregation D F A) (a : BucketLists A) (d : D) :
    (t.consume a d = a.consumeTerms t.aggregations d (t.terms d) ∧
      ∀ docs, t.counted docs = docs.length) ∨
    (t.consume a d = a ∧ t.terms d = [] ∧ ∀ docs, t.counted docs = 0) := by
  unfold consume TermsAggregation.terms counted
  cases t.src with
  | unsupported => exact .inr ⟨rfl, rfl, fun _ => rfl⟩
  | _ => exact .inl ⟨rfl, fun _ => rfl⟩

theorem counted_append (t : TermsAggregation D F A) (docs docs' : List D) :
    t.counted (docs ++ docs') = t.counted docs + t.counted docs' := by
  unfold counted
  split
  · rfl
  · exact length_append

theorem counted_perm (h : docs.Perm docs') : t.counted docs = t.counted docs' := by
  unfold counted
  split
  · rfl
  · exact h.length_eq

theorem tallies_consumed (t : TermsAggregation D F A) (docs : List D) :
    Mapped (docs.foldl t.consume .empty) ∧
      Tallies (docs.flatMap t.terms) (docs.foldl t.consume .empty).bucketsList ∧
      (docs.foldl t.consume .empty).total = t.counted docs := by
  induction docs using List.reverseRecOn with
  | nil =>
    refine ⟨rfl, Tallies.nil, ?_⟩
    unfold counted
    split
    · rfl
    · rfl
  | append_singleton docs d ih =>
    obtain ⟨hmapped, htallies, htotal⟩ := ih
    rw [foldl_append, foldl_cons, foldl_nil, flatMap_append, flatMap_singleton, counted_append]
    rcases consume_cases t (docs.foldl t.consume .empty) d with
      ⟨hstep, hcounted⟩ | ⟨hstep, hterms, hcounted⟩
    · rw [hstep]
      obtain ⟨hmapped', htallies'⟩ := tallies_consumeTerms hmapped htallies d (t.terms d)
      refine ⟨hmapped', htallies', ?_⟩
      rw [total_consumeTerms, htotal, hcounted [d]]
      rfl
    · rw [hstep, hterms, append_nil, hcounted [d]]
      exact ⟨hmapped, htallies, htotal⟩

theorem tallies_finish (h : Tallies terms a.bucketsList) (hsize : terms.dedup.length ≤ t.size) :
    Tallies terms (t.finish a).bucketsList :=
  h.perm (trim_perm (le_trans h.length_le hsize))

theorem dedup_length_le {terms terms' : List String} (h : terms ⊆ terms') :
    terms.dedup.length ≤ terms'.dedup.length :=
  (subperm_of_subset terms.nodup_dedup fun _ hx =>
    mem_dedup.2 (h (mem_dedup.1 hx))).length_le

theorem tallies_run (tree : MergeTree D)
    (hsize : (tree.docs.flatMap t.terms).dedup.length ≤ t.size) :
    Tallies (tree.docs.flatMap t.terms) (t.run tree).bucketsList ∧
      (t.run tree).total = t.counted tree.docs := by
  induction tree with
  | part docs =>
    obtain ⟨-, htallies, htotal⟩ := tallies_consumed t docs
    exact ⟨tallies_finish htallies hsize, htotal⟩
  | merge a other iha ihother =>
    rw [MergeTree.docs, flatMap_append] at hsize ⊢
    obtain ⟨htallies, htotal⟩ :=
      iha (le_trans (dedup_length_le (subset_append_left _ _)) hsize)
    obtain ⟨htallies', htotal'⟩ :=
      ihother (le_trans (dedup_length_le (subset_append_right _ _)) hsize)
    refine ⟨tallies_finish (htallies.merge htallies' t.aggregations) hsize, ?_⟩
    rw [counted_append, ← htotal, ← htotal']
    rfl

theorem other_run (tree : MergeTree D) :
    (t.run tree).other =
      (t.run tree).total - (((t.run tree).bucketsList.map Bucket.count).sum : Nat) := by
  cases tree with
  | part docs | merge a other => rfl

end TermsLemmas

open TermsLemmas

/--
The calculators of any documents, each with some of them and finished, and merged in any order,
have one bucket for each term, with the count that a single calculator for all documents has, if
`size` is at least the number of distinct terms. The number of other documents is the same, too.
-/
theorem terms_merge_exact (t : TermsAggregation D F A) (tree : MergeTree D) (docs : List D)
    (hdocs : tree.docs.Perm docs) (hsize : (docs.flatMap t.terms).dedup.length ≤ t.size) :
    ((t.run tree).bucketsList.map Bucket.name).Nodup ∧
      (∀ term, term ∈ (t.run tree).bucketsList.map Bucket.name ↔ term ∈ docs.flatMap t.terms) ∧
      (∀ b ∈ (t.run tree).bucketsList, b.count = (docs.flatMap t.terms).count b.name) ∧
      ((t.run tree).bucketsList.map fun b => (b.name, b.count)).Perm
        ((t.single docs).bucketsList.map fun b => (b.name, b.count)) ∧
      (t.run tree).total = (t.single docs).total ∧
      (t.run tree).other = (t.single docs).other := by
  have hterms : (tree.docs.flatMap t.terms).Perm (docs.flatMap t.terms) :=
    hdocs.flatMap_right t.terms
  obtain ⟨htallies, htotal⟩ := tallies_run (t := t) tree (by rwa [hterms.dedup.length_eq])
  obtain ⟨htallies', htotal'⟩ := tallies_run (t := t) (.part docs) hsize
  have hpairs := (htallies.perm_terms hterms).pairs_perm htallies'
  have hsame : (t.run tree).total = (t.run (.part docs)).total := by
    rw [htotal, htotal', counted_perm hdocs]
    rfl
  refine ⟨htallies.nodup, (htallies.perm_terms hterms).names, fun b hb => ?_, hpairs, hsame, ?_⟩
  · rw [← hterms.count_eq, ← htallies.total]
    exact Tally.weight_eq_total (C := Bucket.cells A) htallies.nodup hb
  · have hsum := (hpairs.map Prod.snd).sum_eq
    rw [map_map, map_map] at hsum
    have hsum' : ((t.run tree).bucketsList.map Bucket.count).sum =
        ((t.run (.part docs)).bucketsList.map Bucket.count).sum := hsum
    have hother := other_run (t := t) tree
    rw [hsame, hsum'] at hother
    rw [hother]
    exact (other_run (t := t) (.part docs)).symm

def wordTerms : TermsAggregation (List String) Nat Unit where
  src := .textValues id
  size := 2
  aggregations := ⟨(), fun _ _ => (), fun _ _ => ()⟩
  float := ⟨toString, (· = 0)⟩
  sortFunc := SortFunc.byKey fun b : Bucket Unit => OrderDual.toDual b.count

theorem terms_merge_words :
    ((wordTerms.run (.merge (.part [["a", "b"]]) (.part [["b"], ["b", "a"]]))).bucketsList.map
      fun b => (b.name, b.count)).Perm
    ((wordTerms.single [["b"], ["a", "b"], ["b", "a"]]).bucketsList.map
      fun b => (b.name, b.count)) :=
  (terms_merge_exact wordTerms (.merge (.part [["a", "b"]]) (.part [["b"], ["b", "a"]]))
    [["b"], ["a", "b"], ["b", "a"]] (by decide) (by decide +kernel)).2.2.2.1

end SeaSearch
