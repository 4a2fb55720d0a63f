import SeaSearch.Aggregation.Buckets
import SeaSearch.Lib.Calendar

/-!
# The auto date histogram aggregation

A calculator has buckets by their start. `Finish` takes a longer interval while there are too many
of them, and puts each bucket into the one of the longer interval.
-/

namespace SeaSearch

open List Tally

variable {D A : Type}

/-! ## The calculator -/

inductive MinimumInterval
  | second
  | minute
  | hour
  | day
  | month
  | year

namespace MinimumInterval

/-- `time.Second`, `time.Minute` and `time.Hour`. -/
def secondNanos : Int := 10 ^ 9
def minuteNanos : Int := 60 * secondNanos
def hourNanos : Int := 60 * minuteNanos

def dayNanos : Int := 24 * hourNanos
def monthNanos : Int := 24 * 30 * hourNanos
def yearNanos : Int := 12 * monthNanos

def yearIntervals : List Int := [1, 5, 10, 20, 50].map (yearNanos * ·)
def monthIntervals : List Int := [1, 3, 6].map (monthNanos * ·) ++ yearIntervals
def dayIntervals : List Int := [1, 7].map (24 * hourNanos * ·) ++ monthIntervals
def hourIntervals : List Int := [1, 3, 12].map (hourNanos * ·) ++ dayIntervals
def minuteIntervals : List Int := [1, 5, 10, 30].map (minuteNanos * ·) ++ hourIntervals

def getIntervals : MinimumInterval → List Int
  | second => [1, 5, 10, 30].map (secondNanos * ·) ++ minuteIntervals
  | minute => minuteIntervals
  | hour => hourIntervals
  | day => dayIntervals
  | month => monthIntervals
  | year => yearIntervals

end MinimumInterval

/-- A bucket of `bucketsMap` with its key. -/
abbrev KeyedBucket (A : Type) := Int × Bucket A

/-- The keys and counts of `bucketsMap`. -/
def AutoCalculator.cells (A : Type) : Cells Int (KeyedBucket A) := ⟨Prod.fst, fun e => e.2.count⟩

open AutoCalculator (cells)

/-- What `AutoDateHistogramCalculator` has of the request. -/
structure AutoDateHistogram (D A : Type) where
  size : Nat
  minimumInterval : MinimumInterval
  /-- `config.Global.AggregationTermsSize`. -/
  termsSize : Int
  /-- `Format` for the format of the request. -/
  format : Int → String
  aggregations : SubAggs D A
  /-- The keys that `range` over a map gives while the loop deletes and adds keys: all keys that are
  in the map at first, and some that have been added. -/
  visits : List Int → List Int
  visits_all : ∀ keys, keys ⊆ visits keys

namespace AutoDateHistogram

variable (h : AutoDateHistogram D A)

def intervals : List Int := h.minimumInterval.getIntervals

/-- `bucketKey` for an interval: the start of the bucket of a time. `time.Date` gives the first day
of the year or of the month in UTC. -/
def bucketStart (interval value : Int) : Int :=
  if interval ≥ MinimumInterval.yearNanos then
    Calendar.yearStart (value / MinimumInterval.dayNanos) * MinimumInterval.dayNanos
  else if interval ≥ MinimumInterval.monthNanos then
    Calendar.monthStart (value / MinimumInterval.dayNanos) * MinimumInterval.dayNanos
  else value.tdiv interval * interval

def interval (index : Nat) : Int := h.intervals.getD index 0

/-- The loop over the map for one key: the bucket is taken out, and put into the bucket of its
start. -/
def rebucketKey (interval : Int) (m : List (KeyedBucket A)) (key : Int) : List (KeyedBucket A) :=
  match m.find? fun e => e.1 = key with
  | none => m
  | some (_, bucket) =>
    let start := bucketStart interval key
    upsert (cells A) (m.filter fun e => e.1 ≠ key) start
      (fun e => (e.1, e.2.merge h.aggregations bucket))
      (start, (Bucket.new h.aggregations (h.format start)).merge h.aggregations bucket)

/-- The loop over the map for another interval: `afterMerge`, and that of `Finish`. -/
def rebucket (interval : Int) (m : List (KeyedBucket A)) : List (KeyedBucket A) :=
  (h.visits (m.map Prod.fst)).foldl (h.rebucketKey interval) m

/-- The first loop of `Finish`: the index of an interval that is long enough. It panics behind the
last interval. -/
def raise (minValue maxValue : Int) : List Int → Nat → Option Nat
  | [], _ => none
  | interval :: intervals, index =>
    if Int.bmod (minValue + Int.bmod (interval * h.termsSize) (2 ^ 64)) (2 ^ 64) < maxValue then
      raise minValue maxValue intervals (index + 1)
    else some index

def addEmpty (interval : Int) (m : List (KeyedBucket A)) (value : Int) : List (KeyedBucket A) :=
  let key := bucketStart interval value
  upsert (cells A) m key id (key, Bucket.new h.aggregations (h.format key))

/-- The empty buckets between the first and the last time. `none` if the loop needs more rounds. -/
def replenish (fuel : Nat) (interval minValue maxValue : Int) (m : List (KeyedBucket A)) :
    Option (List (KeyedBucket A)) :=
  if m.length ≤ h.size then
    (loopValues (fun value => Int.bmod (value + interval) (2 ^ 64)) maxValue fuel minValue).map
      fun values => values.foldl (h.addEmpty interval) m
  else some m

/-- The second loop of `Finish`, for the intervals from an index on. -/
def settle (fuel : Nat) (minValue maxValue : Int) :
    List Int → Nat → List (KeyedBucket A) → Option (Nat × List (KeyedBucket A))
  | [], _, _ => none
  | [interval], index, m =>
    (h.replenish fuel interval minValue maxValue m).map fun m => (index, m)
  | interval :: interval' :: intervals, index, m =>
    (h.replenish fuel interval minValue maxValue m).bind fun m =>
      if m.length ≤ h.size then some (index, m)
      else settle fuel minValue maxValue (interval' :: intervals) (index + 1)
        (h.rebucket interval' m)

end AutoDateHistogram

open AutoDateHistogram (bucketStart rebucketKey)

/-- The sum of the counts of the buckets. -/
def sumCounts (m : List (KeyedBucket A)) : Nat := (m.map fun e => e.2.count).sum

namespace AutoLemmas

variable {h : AutoDateHistogram D A} {m m' : List (KeyedBucket A)}
  {f : KeyedBucket A → KeyedBucket A} {interval key : Int}

theorem intervals_positive (hinterval : interval ∈ h.intervals) : 0 < interval := by
  have hall : ∀ interval ∈ h.intervals, 0 < interval := by
    rw [AutoDateHistogram.intervals]
    cases h.minimumInterval with
    | _ => decide
  exact hall interval hinterval

theorem interval_pos (hi : i < h.intervals.length) : 0 < h.interval i := by
  rw [AutoDateHistogram.interval, getD_eq_getElem _ _ hi]
  exact intervals_positive (getElem_mem hi)

theorem mem_keys_put (hf : ∀ e, (f e).1 = e.1) (k : Int) :
    k ∈ (upsert (cells A) m key f (key, b)).map Prod.fst ↔ k ∈ m.map Prod.fst ∨ k = key :=
  have hkey : (cells A).key (key, b) = key := rfl
  mem_keys_upsert hf hkey

theorem sumCounts_perm (hp : m.Perm m') : sumCounts m = sumCounts m' := (hp.map _).sum_eq

theorem total_const (m : List (KeyedBucket A)) :
    total ((cells A).map fun _ => ()) m () = sumCounts m := by
  induction m with
  | nil => rfl
  | cons e m ih =>
    rw [total_cons, ih, if_pos rfl]
    rfl

theorem sumCounts_rebucketKey (hm : (m.map Prod.fst).Nodup) (interval key : Int) :
    sumCounts (h.rebucketKey interval m key) = sumCounts m := by
  rw [rebucketKey]
  split
  · rfl
  · next k bucket hfind =>
    obtain rfl : k = key := by simpa using List.find?_some hfind
    have herase := perm_cons_erase (C := cells A) hm (mem_of_find?_eq_some hfind)
    have hnodup : ((m.filter fun e => e.1 ≠ k).map Prod.fst).Nodup :=
      hm.sublist (filter_sublist.map _)
    have hcount : (cells A).weight (bucketStart interval k, (Bucket.new h.aggregations
        (h.format (bucketStart interval k))).merge h.aggregations bucket) = bucket.count :=
      zero_add _
    rw [sumCounts_perm herase, ← total_const, ← total_const]
    refine (total_upsert_coarse (f := fun e => (e.1, e.2.merge h.aggregations bucket)) (fun _ => ())
      (fun _ => rfl) rfl (fun _ => rfl) hcount hnodup ()).trans ?_
    rw [total_cons, add_comm]
    rfl

end AutoLemmas

end SeaSearch
